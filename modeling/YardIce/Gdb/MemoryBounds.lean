import YardIce.Gdb.BinaryWrite
import YardIce.IceDrv.LongReads
import YardIce.Tftp.Scanning

/-!
# Buffers of the memory commands

`rsp_memory_read` with the debugger that it reads through, and `rsp_memory_write_bin`: how much is
asked for, how much of the packet buffer the reply takes, and which bytes are passed on.

## Implementation notes

A packet stands in its buffer with the `#` behind it; what is behind that is arbitrary. The bytes
that an array holds behind its end are given like those inside.
-/

namespace YardIce.Gdb

open IceDrv (MemEntry iceMemRead readVisits RegionFits)
open Tftp (strtoul)

variable {σ : Type}

/-! ## The functions -/

/-- `ERR_STATE`. -/
def errState : Word := -4

/-- What `target_mem_read` works on: whether the state of the debugger is at least
`DBG_ST_CONNECTED`, the value of `ice_mem_lock`, the memory map, and what the accesses act on. -/
structure Target (σ : Type) where
  connected : Bool
  lock : Word
  mem : List (MemEntry σ)
  st : σ

/-- `target_mem_read`: the value returned and what it leaves. -/
def targetMemRead (d : Target σ) (addr len : Word) : Word × σ :=
  if len = 0 then (0, d.st)
  else if d.connected = false then (errState, d.st)
  else if d.lock.msb then (d.lock, d.st)
  else
    let (ret, c) := iceMemRead d.mem addr len d.st
    (ret, c.target)

/-- A run of `rsp_memory_read`: the length asked for, and the reply that was built in `pkt`. -/
structure ReadRun where
  size : Word
  reply : Builder

/-- The length that `rsp_memory_read` asks for. -/
def memoryReadLen (size : Word) : Word :=
  if (memoryReadMax : Int) < size.toInt then BitVec.ofNat 32 memoryReadMax else size

/-- The reply to a read of `ret` bytes. -/
def memoryReadReply (ret : Word) (buf pkt : Buf) : Builder :=
  if ret.msb then (((Builder.start pkt).put 0x45).putByte (-ret)).close
  else ((Builder.start pkt).putBytes ((List.range ret.toNat).map buf)).close

/-- `rsp_memory_read`; `bytes` is what the array `buf` holds behind the read. -/
def rspMemoryReadIn (d : Target σ) (bytes : σ → Buf) (pkt : Buf) : Option ReadRun := do
  let (addr, cp) ← strtoul ((contents pkt).drop 1) 16
  let (size, _) ← strtoul (cp.drop 1) 16
  let size := memoryReadLen size
  let (ret, st) := targetMemRead d addr size
  return ⟨size, memoryReadReply ret (bytes st) pkt⟩

/-- A packet in its buffer. -/
def Holds (pkt : Buf) (text : List Byte) : Prop := text ++ [hash] <+: contents pkt

instance (pkt : Buf) (text : List Byte) : Decidable (Holds pkt text) :=
  inferInstanceAs (Decidable (_ <+: _))

/-- `rsp_memory_read` asks for no more than its array holds, and its reply fits in the packet
buffer. -/
def ReadRespects (d : Target σ) (bytes : σ → Buf) (pkt : Buf) : Prop :=
  ∃ run, rspMemoryReadIn d bytes pkt = some run ∧ run.size.toNat ≤ memoryReadMax ∧
    run.reply.n ≤ rspBufferLen

/-- `rsp_memory_write_bin` passes on bytes of the packet. -/
def WriteRespects (targetMemWrite : MemWrite → Int) (junk pkt : Buf) (len : Nat) : Prop :=
  ∃ call reply, rspMemoryWriteBin targetMemWrite junk pkt = some (call, reply) ∧
    ∀ i < call.len.toNat, rspBufferLen - call.ptr.length + i < len

/-! ## The requests that are respected -/

/-- The numbers of a request, with the bytes behind them. -/
def requestNumbers (pkt : Buf) : Option (Word × Word × List Byte) := do
  let (addr, cp) ← strtoul ((contents pkt).drop 1) 16
  let (size, cp) ← strtoul (cp.drop 1) 16
  return (addr, size, cp)

/-- Most bytes that a reply has room for. -/
def replyMax : Nat := 254

/-- A read asks for an `int` that is not negative, and no answer of the memories is too long for
the reply. -/
def ReadFits (d : Target σ) (addr size : Word) : Prop :=
  size.msb = false ∧ (memoryReadLen size ≠ 0 → d.connected = true → d.lock.msb = false →
    ∀ v ∈ readVisits d.mem addr (memoryReadLen size) d.st,
      RegionFits replyMax v.1.op.read v.1 (memoryReadLen size) v.2)

/-- A write has both its numbers in the packet, and as many bytes as it says. -/
def WriteFits (text : List Byte) : Prop :=
  ∃ addr size sep sep' cp data, strtoul (text.drop 1) 16 = some (addr, sep :: cp) ∧
    strtoul cp 16 = some (size, sep' :: data) ∧ size.toNat ≤ data.length

/-! ## The reply -/

theorem putBytes_n (b : Builder) (bytes : List Byte) :
    (b.putBytes bytes).n = b.n + 2 * bytes.length := by
  induction bytes generalizing b with
  | nil => rfl
  | cons c bytes ih =>
      have hrest := ih (b.putByte (c.setWidth 32))
      rw [List.length_cons]
      refine hrest.trans ?_
      show b.n + 1 + 1 + 2 * bytes.length = _
      omega

theorem close_n (b : Builder) : b.close.n = b.n + 3 := rfl

/-- A reply fits if the read returned at most 254 bytes. -/
theorem memoryReadReply_n_le_iff (ret : Word) (buf pkt : Buf) :
    (memoryReadReply ret buf pkt).n ≤ rspBufferLen ↔ ret.toInt ≤ replyMax := by
  unfold memoryReadReply
  by_cases hmsb : ret.msb = true
  · rw [if_pos hmsb]
    have hneg := BitVec.toInt_neg_of_msb_true hmsb
    exact iff_of_true (by decide : 7 ≤ rspBufferLen) (by omega)
  · have hnat := BitVec.toInt_eq_toNat_of_msb (Bool.eq_false_iff.mpr hmsb)
    rw [if_neg hmsb, close_n, putBytes_n, List.length_map, List.length_range, hnat]
    show 1 + 2 * ret.toNat + 3 ≤ 512 ↔ (ret.toNat : Int) ≤ (254 : Nat)
    omega

/-- The length asked for fits in the array unless the number is negative as an `int`. -/
theorem memoryReadLen_le_iff (size : Word) :
    (memoryReadLen size).toNat ≤ memoryReadMax ↔ size.msb = false := by
  unfold memoryReadLen
  by_cases hmsb : size.msb = true
  · have hneg := BitVec.toInt_neg_of_msb_true hmsb
    have hge := BitVec.msb_eq_true_iff_two_mul_ge.mp hmsb
    rw [if_neg (by omega)]
    refine iff_of_false ?_ (by rw [hmsb]; exact Bool.noConfusion)
    show ¬size.toNat ≤ 253
    omega
  · have hint := BitVec.toInt_eq_toNat_of_msb (Bool.eq_false_iff.mpr hmsb)
    refine iff_of_true ?_ (Bool.eq_false_iff.mpr hmsb)
    split
    · exact (by decide : 253 ≤ memoryReadMax)
    · omega

theorem targetMemRead_le_iff (d : Target σ) (addr : Word) {len : Word}
    (hlen : len.toNat ≤ memoryReadMax) :
    (targetMemRead d addr len).1.toInt ≤ replyMax ↔
      (len ≠ 0 → d.connected = true → d.lock.msb = false →
        ∀ v ∈ readVisits d.mem addr len d.st, RegionFits replyMax v.1.op.read v.1 len v.2) := by
  have hmax : memoryReadMax = 253 := rfl
  have hreply : replyMax = 254 := rfl
  have hmsb : len.msb = false := BitVec.msb_eq_false_iff_two_mul_lt.mpr (by omega)
  unfold targetMemRead
  by_cases hzero : len = 0
  · rw [if_pos hzero]
    exact iff_of_true (by decide : (0 : Word).toInt ≤ replyMax) fun h => absurd hzero h
  · rw [if_neg hzero]
    by_cases hconn : d.connected = false
    · rw [if_pos hconn]
      exact iff_of_true (by decide : errState.toInt ≤ replyMax)
        fun _ h => absurd (h.symm.trans hconn) Bool.noConfusion
    · rw [if_neg hconn]
      by_cases hlock : d.lock.msb = true
      · rw [if_pos hlock]
        have hneg := BitVec.toInt_neg_of_msb_true hlock
        have hle : d.lock.toInt ≤ replyMax := by omega
        exact iff_of_true hle fun _ _ h => absurd (h.symm.trans hlock) Bool.noConfusion
      · rw [if_neg hlock]
        have hiff := IceDrv.iceMemRead_le_iff hmsb (m := replyMax) (by omega) d.mem addr d.st
        refine hiff.trans ⟨fun h _ _ _ => h, fun h => h hzero ?_ ?_⟩
        · exact Bool.not_eq_false _ |>.mp hconn
        · exact Bool.eq_false_iff.mpr hlock

/-! ## The numbers -/

theorem rspMemoryReadIn_eq (d : Target σ) (bytes : σ → Buf) (pkt : Buf) :
    rspMemoryReadIn d bytes pkt = (requestNumbers pkt).map fun r =>
      ⟨memoryReadLen r.2.1, memoryReadReply (targetMemRead d r.1 (memoryReadLen r.2.1)).1
        (bytes (targetMemRead d r.1 (memoryReadLen r.2.1)).2) pkt⟩ := by
  unfold rspMemoryReadIn requestNumbers
  cases strtoul ((contents pkt).drop 1) 16 with
  | none => rfl
  | some r =>
      simp only [Option.bind_eq_bind, Option.bind_some]
      cases strtoul (r.2.drop 1) 16 with
      | none => rfl
      | some q => rfl

theorem rspMemoryWriteBin_eq (targetMemWrite : MemWrite → Int) (junk pkt : Buf) :
    rspMemoryWriteBin targetMemWrite junk pkt = (requestNumbers pkt).map fun r =>
      (⟨r.1, r.2.2.drop 1, r.2.1⟩,
        if targetMemWrite ⟨r.1, r.2.2.drop 1, r.2.1⟩ < 0 then rspError 1 junk else rspOk) := by
  unfold rspMemoryWriteBin requestNumbers
  cases strtoul ((contents pkt).drop 1) 16 with
  | none => rfl
  | some r =>
      simp only [Option.bind_eq_bind, Option.bind_some]
      cases strtoul (r.2.drop 1) 16 with
      | none => rfl
      | some q => rfl

/-- A read respects its buffers if it fits. -/
theorem readRespects_iff (d : Target σ) (bytes : σ → Buf) (pkt : Buf) :
    ReadRespects d bytes pkt ↔
      ∃ addr size cp, requestNumbers pkt = some (addr, size, cp) ∧ ReadFits d addr size := by
  unfold ReadRespects
  rw [rspMemoryReadIn_eq]
  cases hnum : requestNumbers pkt with
  | none => simp
  | some r =>
      obtain ⟨addr, size, cp⟩ := r
      have hlen := memoryReadLen_le_iff size
      simp only [Option.map_some, Option.some.injEq, exists_eq_left', memoryReadReply_n_le_iff,
        Prod.mk.injEq]
      constructor
      · rintro ⟨hsize, hret⟩
        exact ⟨addr, size, cp, ⟨rfl, rfl, rfl⟩, hlen.mp hsize,
          (targetMemRead_le_iff d addr hsize).mp hret⟩
      · rintro ⟨_, _, _, ⟨rfl, rfl, rfl⟩, hmsb, hfits⟩
        exact ⟨hlen.mpr hmsb, (targetMemRead_le_iff d addr (hlen.mpr hmsb)).mpr hfits⟩

/-! ## Numbers inside a text -/

section Inside

open Tftp (skipBlanks digits_append skipBlanks_append strtoul_append)

variable {digit : Byte → Option Word} {base v v' : Word} {s t u r : List Byte}

theorem digits_length (h : Tftp.digits digit base v s = some (v', r)) : r.length ≤ s.length := by
  induction s generalizing v with
  | nil => cases h
  | cons c s ih =>
      rw [Tftp.digits] at h
      cases hd : digit c with
      | none =>
          rw [hd] at h
          simp only [Option.some.injEq, Prod.mk.injEq] at h
          rw [← h.2]
      | some d =>
          rw [hd] at h
          exact Nat.le_succ_of_le (ih h)

/-- A number that does not end inside a text ends behind it. -/
theorem digits_past (h : Tftp.digits digit base v s = none)
    (hr : Tftp.digits digit base v (s ++ t) = some (v', r)) : r.length ≤ t.length := by
  induction s generalizing v with
  | nil => exact digits_length hr
  | cons c s ih =>
      rw [List.cons_append, Tftp.digits] at hr
      rw [Tftp.digits] at h
      cases hd : digit c with
      | none =>
          rw [hd] at h
          cases h
      | some d =>
          rw [hd] at h hr
          exact ih h hr

theorem skipBlanks_length (s : List Byte) : (skipBlanks s).length ≤ s.length := by
  induction s with
  | nil => exact le_rfl
  | cons c s ih =>
      rw [skipBlanks]
      split
      · exact Nat.le_succ_of_le ih
      · exact le_rfl

theorem skipBlanks_past (h : skipBlanks s = []) (t : List Byte) :
    skipBlanks (s ++ t) = skipBlanks t := by
  induction s with
  | nil => rfl
  | cons c s ih =>
      rw [skipBlanks] at h
      by_cases hc : c = 0x20
      · rw [if_pos hc] at h
        rw [List.cons_append, skipBlanks, if_pos hc]
        exact ih h
      · rw [if_neg hc] at h
        cases h

/-- What follows a first zero, behind an `x`. -/
def behindZero : List Byte → Option (List Byte)
  | [] => none
  | x :: rest => some (if x &&& ~~~0x20 = 0x58 then rest else x :: rest)

/-- The digits of a hexadecimal number. -/
def hexStart : List Byte → Option (List Byte)
  | [] => none
  | c :: rest => if c = 0x30 then behindZero rest else some (c :: rest)

theorem strtoul_eq (s : List Byte) : strtoul s 16 =
    (hexStart (skipBlanks s)).bind (Tftp.digits Tftp.hexDigit 16 0) := by
  unfold strtoul
  cases skipBlanks s with
  | nil => rfl
  | cons c rest =>
      rw [hexStart]
      by_cases hc : c = 0x30
      · simp only [hc, or_true, and_self, if_true]
        cases rest with
        | nil => rfl
        | cons x rest' =>
            by_cases hx : x &&& ~~~0x20 = 0x58
            · simp only [behindZero, hx, if_true, Option.bind_some]
            · simp only [behindZero, hx, if_false, Option.bind_some]
      · simp only [hc, and_false, if_false]
        rfl

theorem behindZero_length (h : behindZero s = some u) : u.length ≤ s.length := by
  cases s with
  | nil => cases h
  | cons x rest =>
      rw [behindZero, Option.some.injEq] at h
      rw [← h]
      split
      · exact Nat.le_succ _
      · exact le_rfl

theorem behindZero_append (h : behindZero s = some u) (t : List Byte) :
    behindZero (s ++ t) = some (u ++ t) := by
  cases s with
  | nil => cases h
  | cons x rest =>
      rw [behindZero, Option.some.injEq] at h
      rw [List.cons_append, behindZero, ← h]
      split <;> rfl

theorem behindZero_past (h : behindZero s = none) (hu : behindZero (s ++ t) = some u) :
    u.length ≤ t.length := by
  cases s with
  | nil => exact behindZero_length hu
  | cons x rest => cases h

theorem hexStart_length (h : hexStart s = some u) : u.length ≤ s.length := by
  cases s with
  | nil => cases h
  | cons c rest =>
      rw [hexStart] at h
      split at h
      · exact Nat.le_succ_of_le (behindZero_length h)
      · rw [Option.some.injEq] at h
        rw [h]

theorem hexStart_append (h : hexStart s = some u) (t : List Byte) :
    hexStart (s ++ t) = some (u ++ t) := by
  cases s with
  | nil => cases h
  | cons c rest =>
      rw [hexStart] at h
      rw [List.cons_append, hexStart]
      split at h
      · next hc =>
        rw [if_pos hc]
        exact behindZero_append h t
      · next hc =>
        rw [Option.some.injEq] at h
        rw [if_neg hc, ← h]
        rfl

theorem hexStart_past (h : hexStart s = none) (hu : hexStart (s ++ t) = some u) :
    u.length ≤ t.length := by
  cases s with
  | nil => exact hexStart_length hu
  | cons c rest =>
      rw [hexStart] at h
      rw [List.cons_append, hexStart] at hu
      split at h
      · next hc =>
        rw [if_pos hc] at hu
        exact behindZero_past h hu
      · cases h

theorem strtoul_length (h : strtoul s 16 = some (v', r)) : r.length ≤ s.length := by
  rw [strtoul_eq, Option.bind_eq_some_iff] at h
  obtain ⟨u, hu, hr⟩ := h
  exact (digits_length hr).trans ((hexStart_length hu).trans (skipBlanks_length s))

theorem strtoul_past (h : strtoul s 16 = none) (hr : strtoul (s ++ t) 16 = some (v', r)) :
    r.length ≤ t.length := by
  rw [strtoul_eq] at h hr
  obtain ⟨w, hw, hr⟩ := Option.bind_eq_some_iff.mp hr
  by_cases hnil : skipBlanks s = []
  · rw [skipBlanks_past hnil] at hw
    exact (digits_length hr).trans ((hexStart_length hw).trans (skipBlanks_length t))
  · rw [skipBlanks_append hnil] at hw
    cases hu : hexStart (skipBlanks s) with
    | none => exact (digits_length hr).trans (hexStart_past hu hw)
    | some u =>
        rw [hexStart_append hu, Option.some.injEq] at hw
        rw [hu, Option.bind_some] at h
        rw [← hw] at hr
        exact digits_past h hr

/-- A number with more behind it than what follows a text is found inside the text. -/
theorem strtoul_inside (h : strtoul (s ++ t) 16 = some (v', r)) (hlt : t.length < r.length) :
    ∃ r', strtoul s 16 = some (v', r') ∧ r = r' ++ t := by
  cases hs : strtoul s 16 with
  | none => exact absurd (strtoul_past hs h) (by omega)
  | some q =>
      obtain ⟨w, r'⟩ := q
      rw [strtoul_append hs t, Option.some.injEq, Prod.mk.injEq] at h
      exact ⟨r', by rw [h.1], h.2.symm⟩

end Inside

/-! ## Writes -/

section Writes

variable {pkt : Buf} {text : List Byte}

theorem contents_length (pkt : Buf) : (contents pkt).length = rspBufferLen := by
  rw [contents, tcpSend, List.length_map, List.length_range]

/-- The buffer behind the first byte of a packet. -/
theorem Holds.drop (h : Holds pkt text) : ∃ tail, (contents pkt).drop 1 = text.drop 1 ++ tail ∧
    (text ≠ [] → tail.length + text.length = rspBufferLen) ∧
    tail.length + text.length ≤ rspBufferLen := by
  obtain ⟨more, hmore⟩ := h
  have hlen := contents_length pkt
  rw [← hmore] at hlen ⊢
  simp only [List.length_append, List.length_singleton] at hlen
  cases text with
  | nil =>
      refine ⟨more, rfl, fun hne => absurd rfl hne, ?_⟩
      simp only [List.length_nil] at hlen ⊢
      omega
  | cons c text =>
      have hsum : (hash :: more).length + (c :: text).length = rspBufferLen := by
        simp only [List.length_cons] at hlen ⊢
        omega
      exact ⟨hash :: more, by simp, fun _ => hsum, hsum.le⟩

/-- A write passes on bytes of the packet if it passes on nothing or fits. -/
theorem writeRespects_iff (targetMemWrite : MemWrite → Int) (junk : Buf) (h : Holds pkt text) :
    WriteRespects targetMemWrite junk pkt text.length ↔
      (∃ addr cp, requestNumbers pkt = some (addr, 0, cp)) ∨ WriteFits text := by
  obtain ⟨tail, htail, heq, hle⟩ := h.drop
  unfold WriteRespects
  rw [rspMemoryWriteBin_eq]
  constructor
  · rintro ⟨call, reply, hcall, hin⟩
    obtain ⟨⟨addr, size, cp⟩, hnum, hr⟩ := Option.map_eq_some_iff.mp hcall
    rw [Prod.mk.injEq] at hr
    obtain ⟨rfl, -⟩ := hr
    by_cases hzero : size = 0
    · exact Or.inl ⟨addr, cp, by rw [hnum, hzero]⟩
    · right
      have hpos : 0 < size.toNat := Nat.pos_of_ne_zero fun hn => hzero (BitVec.eq_of_toNat_eq hn)
      have hlast := hin (size.toNat - 1) (by show _ < size.toNat; omega)
      change rspBufferLen - (cp.drop 1).length + (size.toNat - 1) < text.length at hlast
      rw [List.length_drop] at hlast
      unfold requestNumbers at hnum
      rw [htail] at hnum
      obtain ⟨⟨addr', cp₁⟩, hfirst, hnum⟩ := Option.bind_eq_some_iff.mp hnum
      obtain ⟨⟨size', cp₂⟩, hsecond, hnum⟩ := Option.bind_eq_some_iff.mp hnum
      simp only [Option.pure_def, Option.some.injEq, Prod.mk.injEq] at hnum
      obtain ⟨rfl, rfl, rfl⟩ := hnum
      have hlen := strtoul_length hsecond
      rw [List.length_drop] at hlen
      obtain ⟨r₁, hr₁, rfl⟩ := strtoul_inside hfirst (by omega)
      obtain ⟨sep, cp, rfl⟩ := List.exists_cons_of_ne_nil
        (show r₁ ≠ [] by rintro rfl; simp at hlen; omega)
      rw [List.cons_append, List.drop_one, List.tail_cons] at hsecond
      obtain ⟨r₂, hr₂, rfl⟩ := strtoul_inside hsecond (by omega)
      obtain ⟨sep', data, rfl⟩ := List.exists_cons_of_ne_nil
        (show r₂ ≠ [] by rintro rfl; simp at hlast; omega)
      have hne : text ≠ [] := by
        rintro rfl
        cases hr₁
      have hsum := heq hne
      refine ⟨_, _, sep, sep', cp, data, hr₁, hr₂, ?_⟩
      simp only [List.length_append, List.length_cons] at hlast
      omega
  · rintro (⟨addr, cp, hnum⟩ | ⟨addr, size, sep, sep', cp, data, hr₁, hr₂, hsize⟩)
    · rw [hnum]
      exact ⟨_, _, rfl, fun i hi => absurd hi (Nat.not_lt_zero i)⟩
    · have hne : text ≠ [] := by
        rintro rfl
        cases hr₁
      have hsum := heq hne
      have hnum : requestNumbers pkt = some (addr, size, sep' :: data ++ tail) := by
        unfold requestNumbers
        rw [htail, Tftp.strtoul_append hr₁ tail]
        simp only [Option.bind_eq_bind, Option.bind_some, List.cons_append, List.drop_one,
          List.tail_cons, Tftp.strtoul_append hr₂ tail]
        rfl
      rw [hnum]
      refine ⟨_, _, rfl, fun i hi => ?_⟩
      change i < size.toNat at hi
      show rspBufferLen - ((sep' :: data ++ tail).drop 1).length + i < text.length
      simp only [List.cons_append, List.drop_one, List.tail_cons, List.length_append]
      have hdata : data.length < text.length := by
        have hlen₁ := strtoul_length hr₁
        have hlen₂ := strtoul_length hr₂
        rw [List.length_drop] at hlen₁
        simp only [List.length_cons] at hlen₁ hlen₂
        omega
      omega

end Writes
/-- A read respects its buffers if its length is not negative as an `int` and no answer of the
memories is too long, and a write if it has nothing to pass on or as many bytes as it says. -/
theorem rspMemory_buffers_iff (d : Target σ) (bytes : σ → Buf) (targetMemWrite : MemWrite → Int)
    (junk : Buf) {pkt : Buf} {text : List Byte} (h : Holds pkt text) :
    (ReadRespects d bytes pkt ↔
      ∃ addr size cp, requestNumbers pkt = some (addr, size, cp) ∧ ReadFits d addr size) ∧
    (WriteRespects targetMemWrite junk pkt text.length ↔
      (∃ addr cp, requestNumbers pkt = some (addr, 0, cp)) ∨ WriteFits text) :=
  ⟨readRespects_iff d bytes pkt, writeRespects_iff targetMemWrite junk h⟩

/-- A packet in a buffer that was zero. -/
def packet (text : List Byte) : Buf := store (fun _ => 0) 0 (text ++ [hash])

/-- A debugger without a target. -/
def noTarget : Target Unit := ⟨false, 0, [], ()⟩

/-- `X0,1:a`, and `m0,1`. -/
theorem rspMemory_buffers_one :
    ReadRespects noTarget (fun _ _ => 0) (packet (Tftp.text "m0,1")) ∧
      WriteRespects (fun _ => 0) (fun _ => 0) (packet (Tftp.text "X0,1:a")) 6 := by
  have hread : Holds (packet (Tftp.text "m0,1")) (Tftp.text "m0,1") := by decide +kernel
  have hwrite : Holds (packet (Tftp.text "X0,1:a")) (Tftp.text "X0,1:a") := by decide +kernel
  constructor
  · refine (rspMemory_buffers_iff noTarget (fun _ _ => 0) (fun _ => 0) (fun _ => 0) hread).1.mpr ?_
    exact ⟨0, 1, (contents (packet (Tftp.text "m0,1"))).drop 4, by decide +kernel, by decide,
      fun _ h => absurd h (by decide)⟩
  · refine (rspMemory_buffers_iff noTarget (fun _ _ => 0) (fun _ => 0) (fun _ => 0) hwrite).2.mpr
      (Or.inr ?_)
    exact ⟨0, 1, 0x2c, 0x3a, Tftp.text "1:a", [0x61], by decide, by decide, by decide⟩

/-- `m0,ffffffff` asks for 4294967295 bytes, and `X0,4:a` passes on three bytes behind the packet. -/
theorem rspMemory_leaves_buffers :
    Holds (packet (Tftp.text "m0,ffffffff")) (Tftp.text "m0,ffffffff") ∧
      ¬ReadRespects noTarget (fun _ _ => 0) (packet (Tftp.text "m0,ffffffff")) ∧
      Holds (packet (Tftp.text "X0,4:a")) (Tftp.text "X0,4:a") ∧
      ¬WriteRespects (fun _ => 0) (fun _ => 0) (packet (Tftp.text "X0,4:a")) 6 := by
  refine ⟨by decide +kernel, ?_, by decide +kernel, ?_⟩
  · rintro ⟨run, hrun, hsize, -⟩
    have hval : (rspMemoryReadIn noTarget (fun _ _ => 0) (packet (Tftp.text "m0,ffffffff"))).map
        ReadRun.size = some 0xffffffff := by decide +kernel
    rw [hrun, Option.map_some, Option.some.injEq] at hval
    rw [hval] at hsize
    exact absurd hsize (by decide)
  · rintro ⟨call, reply, hcall, hin⟩
    have hval : (rspMemoryWriteBin (fun _ => 0) (fun _ => 0) (packet (Tftp.text "X0,4:a"))).map
        (fun r => (r.1.len, r.1.ptr.length)) = some (4, 507) := by decide +kernel
    rw [hcall, Option.map_some, Option.some.injEq, Prod.mk.injEq] at hval
    have hlast := hin 3 (by rw [hval.1]; decide)
    rw [hval.2] at hlast
    exact absurd hlast (by decide)

end YardIce.Gdb
