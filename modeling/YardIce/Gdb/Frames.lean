import YardIce.Gdb.Replies

/-!
# Replies are frames

What a reply on the wire should be: `$`, a payload without `$` and `#`, `#` and two
digits, the sum of the payload modulo 256. The functions that build replies agree with
it, but for the registers, whose run length escape has a `$`, and the notification of a
halt, which sends a byte too many.
-/

namespace YardIce.Gdb

/-- A lower case hexadecimal digit. -/
def hexDigit (d : Nat) : Byte := BitVec.ofNat 8 (if d < 10 then 0x30 + d else 0x57 + d)

/-- The sum of the bytes modulo 256. -/
def payloadSum (p : List Byte) : Nat := (p.map BitVec.toNat).sum % 256

/-- The frame of a payload. -/
def frame (p : List Byte) : List Byte :=
  dollar :: (p ++ [hash, hexDigit (payloadSum p / 16), hexDigit (payloadSum p % 16)])

/-- Neither `$` nor `#`. -/
def Clean (p : List Byte) : Prop := dollar ∉ p ∧ hash ∉ p

/-- Exactly one frame, after any acknowledgements. -/
def Framed (bs : List Byte) : Prop :=
  ∃ acks p, bs = List.replicate acks 0x2b ++ frame p ∧ Clean p

theorem framed_frame_iff (p : List Byte) : Framed (frame p) ↔ Clean p := by
  constructor
  · rintro ⟨acks, q, h, hq⟩
    cases acks with
    | zero =>
        rw [List.replicate_zero, List.nil_append, frame, frame, List.cons.injEq] at h
        have hlen := congrArg List.length h.2
        simp only [List.length_append, List.length_cons, List.length_nil] at hlen
        have hpq := List.append_inj_left h.2 (by omega)
        exact hpq ▸ hq
    | succ acks =>
        rw [List.replicate_succ, List.cons_append, frame, List.cons.injEq] at h
        exact absurd h.1 (by decide)
  · intro h
    exact ⟨0, p, rfl, h⟩

theorem Clean.append {p q : List Byte} (hp : Clean p) (hq : Clean q) : Clean (p ++ q) := by
  constructor
  · rw [List.mem_append]
    exact fun h => h.elim hp.1 hq.1
  · rw [List.mem_append]
    exact fun h => h.elim hp.2 hq.2

/-! ## Digits -/

theorem hextab_eq {i : Word} (hi : i.toNat < 16) : hextab i = hexDigit i.toNat := by
  have hall : ∀ k < 16, hextab (BitVec.ofNat 32 k) = hexDigit k := by decide
  have h := hall i.toNat hi
  rwa [BitVec.ofNat_toNat, BitVec.setWidth_eq] at h

theorem toNat_nibble (v : Word) : (v &&& 0xf).toNat = v.toNat % 16 := by
  rw [BitVec.toNat_and]
  exact Nat.and_two_pow_sub_one_eq_mod v.toNat 4

theorem hextab_low (v : Word) : hextab (v &&& 0xf) = hexDigit (v.toNat % 256 % 16) := by
  have h := toNat_nibble v
  rw [hextab_eq (by omega), h]
  congr 1
  omega

theorem hextab_high (v : Word) :
    hextab ((v >>> 4) &&& 0xf) = hexDigit (v.toNat % 256 / 16) := by
  have h := toNat_nibble (v >>> 4)
  have hs : (v >>> 4).toNat = v.toNat / 16 := by
    rw [BitVec.toNat_ushiftRight, Nat.shiftRight_eq_div_pow]
  rw [hextab_eq (by omega), h, hs]
  congr 1
  omega

theorem hexDigit_clean (d : Nat) (hd : d < 16) : Clean [hexDigit d] := by
  have hall : ∀ k < 16, hexDigit k ≠ dollar ∧ hexDigit k ≠ hash := by decide
  obtain ⟨h1, h2⟩ := hall d hd
  simp only [Clean, List.mem_singleton]
  exact ⟨fun h => h1 h.symm, fun h => h2 h.symm⟩

/-- The two digits of the low byte of a number. -/
def hexByte (v : Word) : List Byte :=
  [hexDigit (v.toNat % 256 / 16), hexDigit (v.toNat % 256 % 16)]

theorem hexByte_clean (v : Word) : Clean (hexByte v) :=
  (hexDigit_clean (v.toNat % 256 / 16) (by omega)).append
    (hexDigit_clean (v.toNat % 256 % 16) (by omega))

/-! ## Building a frame -/

theorem tcpSend_update (pkt : Buf) (n : Nat) (c : Byte) :
    tcpSend (Function.update pkt n c) (n + 1) = tcpSend pkt n ++ [c] := by
  rw [tcpSend, List.range_succ, List.map_append, List.map_singleton, Function.update_self,
    tcpSend]
  congr 1
  apply List.map_congr_left
  intro i hi
  exact Function.update_of_ne (Nat.ne_of_lt (List.mem_range.mp hi)) c pkt

theorem payloadSum_append (p : List Byte) (c : Byte) :
    payloadSum (p ++ [c]) = (payloadSum p + c.toNat) % 256 := by
  rw [payloadSum, payloadSum, List.map_append, List.map_singleton, List.sum_append_nat,
    List.sum_singleton]
  omega

/-- The builder holds the `$` and a payload, and its sum. -/
structure Built (b : Builder) (p : List Byte) : Prop where
  sent : tcpSend b.pkt b.n = dollar :: p
  sum : b.sum.toNat % 256 = payloadSum p

namespace Built

variable {b : Builder} {p : List Byte}

theorem start (pkt : Buf) : Built (Builder.start pkt) [] :=
  ⟨tcpSend_update pkt 0 dollar, rfl⟩

theorem n_eq (h : Built b p) : b.n = p.length + 1 := by
  have hlen := congrArg List.length h.sent
  simpa [tcpSend] using hlen

theorem put (h : Built b p) (c : Byte) : Built (b.put c) (p ++ [c]) := by
  constructor
  · change tcpSend (Function.update b.pkt b.n c) (b.n + 1) = _
    rw [tcpSend_update, h.sent, List.cons_append]
  · change (b.sum + c.setWidth 32).toNat % 256 = _
    have hc := c.isLt
    have hs := h.sum
    rw [payloadSum_append, BitVec.toNat_add, BitVec.toNat_setWidth]
    omega

theorem putByte (h : Built b p) (v : Word) : Built (b.putByte v) (p ++ hexByte v) := by
  have h2 := (h.put (hextab ((v >>> 4) &&& 0xf))).put (hextab (v &&& 0xf))
  rw [List.append_assoc, List.singleton_append, hextab_high, hextab_low] at h2
  rw [Builder.putByte, hextab_high, hextab_low]
  exact h2

theorem putAll (h : Built b p) (bytes : List Byte) : Built (b.putAll bytes) (p ++ bytes) := by
  induction bytes generalizing b p with
  | nil =>
      rw [List.append_nil]
      exact h
  | cons c bytes ih =>
      have hrest := ih (h.put c)
      rw [List.append_assoc, List.singleton_append] at hrest
      exact hrest

/-- The digits of a list of bytes. -/
theorem putBytes (h : Built b p) (bytes : List Byte) :
    Built (b.putBytes bytes) (p ++ bytes.flatMap fun c => hexByte (c.setWidth 32)) := by
  induction bytes generalizing b p with
  | nil =>
      rw [List.flatMap_nil, List.append_nil]
      exact h
  | cons c bytes ih =>
      have hrest := ih (h.putByte (c.setWidth 32))
      rw [List.append_assoc] at hrest
      rw [List.flatMap_cons]
      exact hrest

theorem close (h : Built b p) : tcpSend b.close.pkt b.close.n = frame p := by
  have hsend : tcpSend b.close.pkt b.close.n = tcpSend b.pkt b.n ++
      [hash] ++ [hextab ((b.sum >>> 4) &&& 0xf)] ++ [hextab (b.sum &&& 0xf)] := by
    simp only [Builder.close, Builder.raw, tcpSend_update]
  rw [hsend, h.sent, hextab_high, hextab_low, h.sum]
  simp [frame]

theorem putRegister (h : Built b p) (v : Word) :
    Built (b.putRegister v)
      (p ++ (hexByte v ++ hexByte (v >>> 8) ++ hexByte (v >>> 16) ++ hexByte (v >>> 24))) := by
  have h4 := (((h.putByte v).putByte (v >>> 8)).putByte (v >>> 16)).putByte (v >>> 24)
  simp only [List.append_assoc] at h4 ⊢
  exact h4

/-- A clean payload makes a framed reply. -/
theorem framed (h : Built b p) (hp : Clean p) : Framed (tcpSend b.close.pkt b.close.n) := by
  rw [h.close]
  exact (framed_frame_iff p).mpr hp

end Built

/-! ## Every reply -/

theorem clean_singleton {c : Byte} (h1 : c ≠ dollar) (h2 : c ≠ hash) : Clean [c] := by
  simp only [Clean, List.mem_singleton]
  exact ⟨fun h => h1 h.symm, fun h => h2 h.symm⟩

theorem hexBytes_clean (bytes : List Byte) :
    Clean (bytes.flatMap fun c => hexByte (c.setWidth 32)) := by
  induction bytes with
  | nil => exact ⟨List.not_mem_nil, List.not_mem_nil⟩
  | cons c bytes ih =>
      rw [List.flatMap_cons]
      exact (hexByte_clean _).append ih

theorem hexRegister_clean (v : Word) :
    Clean (hexByte v ++ hexByte (v >>> 8) ++ hexByte (v >>> 16) ++ hexByte (v >>> 24)) :=
  (((hexByte_clean _).append (hexByte_clean _)).append (hexByte_clean _)).append
    (hexByte_clean _)

/-- A letter and a byte: the payload of errors and signals. -/
theorem letterByte_framed (pkt : Buf) {c : Byte} (h1 : c ≠ dollar) (h2 : c ≠ hash) (v : Word) :
    Framed (tcpSend (((Builder.start pkt).put c).putByte v).close.pkt 7) := by
  have hb := ((Built.start pkt).put c).putByte v
  have hn : (((Builder.start pkt).put c).putByte v).close.n = 7 := rfl
  rw [← hn]
  exact hb.framed ((clean_singleton h1 h2).append (hexByte_clean v))

/-- A letter and the digits of some bytes: the payload of console output. -/
theorem letterBytes_framed (pkt : Buf) {c : Byte} (h1 : c ≠ dollar) (h2 : c ≠ hash)
    (bytes : List Byte) :
    let b := (((Builder.start pkt).put c).putBytes bytes).close
    Framed (tcpSend b.pkt b.n) :=
  (((Built.start pkt).put c).putBytes bytes).framed
    ((clean_singleton h1 h2).append (hexBytes_clean bytes))

theorem rspEmpty_framed : Framed rspEmpty :=
  (framed_frame_iff []).mpr ⟨List.not_mem_nil, List.not_mem_nil⟩

theorem rspRegisterGet_framed (reg : Word) (val : Nat → Word) (pkt : Buf) :
    Framed (rspRegisterGet reg val pkt) := by
  unfold rspRegisterGet
  split
  · exact rspEmpty_framed
  · exact ((Built.start pkt).putRegister _).framed (hexRegister_clean _)

theorem rspStep_framed (fails : Bool) (pkt : Buf) : Framed (rspStep fails pkt) := by
  unfold rspStep
  split
  · exact letterByte_framed pkt (by decide) (by decide) 1
  · exact letterByte_framed pkt (by decide) (by decide) 5

theorem rspMemoryRead_framed_iff (size : Word) (mem : Int → Word × Buf) (pkt : Buf) :
    (∃ bs, rspMemoryRead size mem pkt = some bs ∧ (bs = [] ∨ Framed bs)) ↔
      (mem (memoryReadSize size)).1.toInt ≤ memoryReadMax := by
  unfold rspMemoryRead
  generalize mem (memoryReadSize size) = r
  obtain ⟨ret, buf⟩ := r
  simp only
  split
  · next hneg =>
      have hlt : ret.toInt < 0 := BitVec.toInt_neg_of_msb_true hneg
      constructor
      · intro _
        omega
      · intro _
        exact ⟨_, rfl, Or.inr (letterByte_framed pkt (by decide) (by decide) (-ret))⟩
  · next hpos =>
      have hint : ret.toInt = ret.toNat := BitVec.toInt_eq_toNat_of_msb (Bool.eq_false_iff.mpr hpos)
      rw [hint]
      split
      · next hgt =>
          constructor
          · rintro ⟨bs, hbs, -⟩
            cases hbs
          · intro hle
            omega
      · next hle =>
          constructor
          · intro _
            omega
          · intro _
            exact ⟨_, rfl, Or.inr (((Built.start pkt).putBytes _).framed (hexBytes_clean _))⟩

theorem Built.putRegisters {b : Builder} {p : List Byte} (h : Built b p) (vs : List Word) :
    ∃ q, Built (vs.foldl Builder.putRegister b) q := by
  induction vs generalizing b p with
  | nil => exact ⟨p, h⟩
  | cons v vs ih => exact ih (h.putRegister v)

/-- The payload of the registers has the `$` of the floating point status. -/
theorem rspAllRegistersGet_frame (val : Nat → Word) (pkt : Buf) :
    ∃ p, rspAllRegistersGet val pkt = frame p ∧ dollar ∈ p := by
  obtain ⟨p, hp⟩ := (Built.start pkt).putRegisters ((List.range 16).map val)
  rw [List.foldl_map] at hp
  have hb := ((hp.putAll fpRegisters).putAll fps).putRegister (val 16)
  have hfps : dollar ∈ fps := by decide
  exact ⟨_, hb.close, by simp [hfps]⟩

/-- The notification ends in a byte that was never written. -/
theorem gdbBrkTask_not_framed (pkt : Buf) : ¬ Framed (gdbBrkTask true true pkt) := by
  have hb := ((Built.start pkt).put 0x53).putByte 5
  have hsent : gdbBrkTask true true pkt =
      frame [0x53, 0x30, 0x35] ++ [(((Builder.start pkt).put 0x53).putByte 5).close.pkt 7] := by
    change tcpSend _ (7 + 1) = _
    rw [tcpSend, List.range_succ, List.map_append, List.map_singleton]
    congr 1
    exact hb.close
  rintro ⟨acks, q, h, -⟩
  rw [hsent] at h
  cases acks with
  | zero =>
      rw [List.replicate_zero, List.nil_append] at h
      -- a payload of four bytes would put the `#` where the first digit is
      have hlen := congrArg List.length h
      simp only [frame, List.length_append, List.length_cons, List.length_nil] at hlen
      match q, hlen with
      | [a, b, c, d], _ =>
          have hget := congrArg (fun l => l[5]?) h
          simp only [frame, List.cons_append, List.nil_append, List.getElem?_cons_succ,
            List.getElem?_cons_zero, Option.some.injEq] at hget
          exact absurd hget (by decide)
  | succ acks =>
      rw [List.replicate_succ, List.cons_append, frame, List.cons_append, List.cons.injEq] at h
      exact absurd h.1 (by decide)

/-- A reply with what it is given. -/
inductive Reply
  | error (err : Word)
  | msg (s : List Byte)
  | sendPkt
  | signal (sig : Word)
  | write (buf : List Byte)
  | allRegistersGet (val : Nat → Word)
  | registerGet (reg : Word) (val : Nat → Word)
  | memoryRead (size : Word) (mem : Int → Word × Buf)
  | step (fails : Bool)
  | brkTask (halted connected : Bool)

/-- The bytes sent, with the buffer that the reply is built in. -/
def Reply.sent (pkt : Buf) : Reply → Option (List Byte)
  | .error err => some (rspError err pkt)
  | .msg s => some (rspMsg s pkt)
  | .sendPkt => some (rspSendPkt supported pkt)
  | .signal sig => some (rspSignal sig pkt)
  | .write buf => some (rspWrite buf pkt)
  | .allRegistersGet val => some (rspAllRegistersGet val pkt)
  | .registerGet reg val => some (rspRegisterGet reg val pkt)
  | .memoryRead size mem => rspMemoryRead size mem pkt
  | .step fails => some (rspStep fails pkt)
  | .brkTask halted connected => some (gdbBrkTask halted connected pkt)

/-- The reply sends one frame, or nothing. -/
def Reply.WellFormed (pkt : Buf) (r : Reply) : Prop :=
  ∃ bs, r.sent pkt = some bs ∧ (bs = [] ∨ Framed bs)

/-- The replies that are frames: not the registers, not the notification of a halt, and
no more memory than the buffer holds. -/
def Reply.Sound : Reply → Prop
  | .allRegistersGet _ => False
  | .memoryRead size mem => (mem (memoryReadSize size)).1.toInt ≤ memoryReadMax
  | .brkTask halted connected => ¬ (halted = true ∧ connected = true)
  | _ => True

end YardIce.Gdb
