import Mathlib.Tactic.Linarith
import YardIce.Xmodem.Transfer

/-!
# What is on the way to the receiver

The bytes that the receiver has of the current packet, together with those that it has not read,
are the packets behind the last one it took. Only the last of them may be damaged.
-/

namespace YardIce.Xmodem

/-- The sizes of the data of a packet. -/
def Size (b : List Byte) : Prop := b.length = 128 ∨ b.length = 1024

/-! ## Packets pass their checks -/

theorem fcs_length (crc : Bool) (data : List Byte) : (fcs crc data).length = fcsLen crc := by
  cases crc <;> rfl

theorem frame_length (crc : Bool) (seq : Byte) (data : List Byte) :
    (frame crc seq data).length = data.length + 3 + fcsLen crc := by
  simp only [frame, List.length_cons, List.length_append, fcs_length]
  omega

theorem crc_bytes (c : BitVec 16) :
    ((c >>> 8).setWidth 8).setWidth 16 <<< 8 ||| (c.setWidth 8).setWidth 16 = c := by
  ext i hi
  simp only [BitVec.getElem_or, BitVec.getElem_shiftLeft, BitVec.getElem_setWidth,
    BitVec.getLsbD_setWidth, BitVec.getLsbD_ushiftRight]
  rcases Nat.lt_or_ge i 8 with h | h
  · simp [h, BitVec.getLsbD_eq_getElem hi]
  · have h₈ : 8 + (i - 8) = i := by omega
    have hlt : i - 8 < 8 := by omega
    simp [Nat.not_lt.mpr h, h₈, hlt, hi]

/-- The check sequence of the sender is the one that the receiver expects. -/
theorem fcsError_fcs (crc : Bool) (data : List Byte) :
    fcsError crc data.length (data ++ fcs crc data) = false := by
  cases crc with
  | true =>
      have hb := crc_bytes (crcOf data)
      simp [fcsError, fcs, hb]
  | false => simp [fcsError, fcs]

theorem check_frame (r : Receiver) (data : List Byte) :
    r.check data.length (r.pktno :: ~~~r.pktno :: (data ++ fcs r.crc data)) = .good := by
  have hne : ¬ r.pktno = r.pktno - 1#8 := by bv_omega
  simp [Receiver.check, fcsError_fcs, hne]

theorem check_garbled (r : Receiver) (seq : Byte) {cnt : Nat} {cp : List Byte}
    (h : fcsError r.crc cnt cp = true) : r.check cnt (seq :: ~~~seq :: cp) = .error := by
  simp [Receiver.check, h]

/-! ## Arrivals -/

/-- What is to be read of the blocks from the `i`-th on, and of the `EOT` behind them. -/
inductive Coming (crc : Bool) (fin : Prop) : Bool → Nat → List (List Byte) → List Sig → Prop
  | done {i : Nat} : Coming crc fin true i [] []
  | eot {i : Nat} (h : fin) : Coming crc fin true i [] [.byte eot]
  | whole {w : Bool} {i : Nat} {b : List Byte} {bs : List (List Byte)} {sigs : List Sig}
      (h : Coming crc fin w (i + 1) bs sigs) :
      Coming crc fin w i (b :: bs) ((frame crc (BitVec.ofNat 8 (i + 1)) b).map .byte ++ sigs)
  | bad {i : Nat} {b : List Byte} {f : Fault} {sigs : List Sig} (hf : f ≠ .none)
      (h : f.arrive crc (frame crc (BitVec.ofNat 8 (i + 1)) b) = some sigs) :
      Coming crc fin false i [b] sigs
  | gone {i : Nat} {b : List Byte} : Coming crc fin false i [b] []

namespace Coming

variable {crc : Bool} {fin : Prop} {w : Bool} {i : Nat} {bs : List (List Byte)} {sigs : List Sig}

theorem mono {fin' : Prop} (hfin : fin → fin') (h : Coming crc fin w i bs sigs) :
    Coming crc fin' w i bs sigs := by
  induction h with
  | done => exact done
  | eot h => exact eot (hfin h)
  | whole _ ih => exact whole ih
  | bad hf h => exact bad hf h
  | gone => exact gone

/-- A packet is sent behind those that are on the way. -/
theorem send (h : Coming crc fin true i bs sigs) (hfin : ¬ fin) {b : List Byte} {f : Fault}
    {new : List Sig}
    (hf : f.arrive crc (frame crc (BitVec.ofNat 8 (i + bs.length + 1)) b) = some new) :
    Coming crc fin (f = .none) i (bs ++ [b]) (sigs ++ new) := by
  generalize hw : true = w at h
  induction h with
  | @done i =>
      by_cases hn : f = .none
      · subst hn
        simp only [Fault.arrive, Option.some.injEq] at hf
        have hone : Coming crc fin true i [b] _ := whole done
        simpa [← hf] using hone
      · have hbad : Coming crc fin false i [b] new := bad hn hf
        simpa [hn] using hbad
  | eot h => exact absurd h hfin
  | @whole w i b' bs sigs h ih =>
      have hlen : i + (b' :: bs).length + 1 = i + 1 + bs.length + 1 := by
        simp only [List.length_cons]
        omega
      rw [hlen] at hf
      rw [List.append_assoc]
      exact whole (ih hf hw)
  | bad => cases hw
  | gone => cases hw

/-- `EOT` is sent behind the packets. -/
theorem close (h : Coming crc fin true i bs sigs) (hfin : ¬ fin) :
    Coming crc True true i bs (sigs ++ [.byte Xmodem.eot]) := by
  generalize hw : true = w at h ⊢
  induction h with
  | done => exact eot trivial
  | eot h => exact absurd h hfin
  | whole _ ih =>
      rw [List.append_assoc]
      exact whole (ih hw)
  | bad => cases hw
  | gone => cases hw

end Coming

/-- The first byte of a packet. -/
def header (cnt : Nat) : Byte := if cnt = 1024 then stx else soh

theorem frame_eq (crc : Bool) (seq : Byte) (data : List Byte) :
    frame crc seq data = header data.length :: seq :: ~~~seq :: (data ++ fcs crc data) := rfl

/-- What arrives of a damaged packet. -/
theorem Fault.arrive_cases {crc : Bool} {seq : Byte} {b : List Byte} {f : Fault} {sigs : List Sig}
    (hf : f ≠ .none) (h : f.arrive crc (frame crc seq b) = some sigs) :
    (∃ n < b.length + 3 + fcsLen crc, 0 < n ∧
        sigs = ((frame crc seq b).take n).map .byte ++ [.gap]) ∨
      ∃ cp, cp.length = b.length + fcsLen crc ∧ fcsError crc b.length cp = true ∧
        sigs = (header b.length :: seq :: ~~~seq :: cp).map .byte := by
  cases f with
  | none => exact absurd rfl hf
  | short n =>
      simp only [Fault.arrive, frame_length, Option.ite_none_right_eq_some, Option.some.injEq] at h
      exact Or.inl ⟨n, h.1.2, h.1.1, h.2.symm⟩
  | garbled cp =>
      simp only [Fault.arrive, frame_length, Option.ite_none_right_eq_some, Option.some.injEq] at h
      obtain ⟨⟨hlen, herr⟩, hs⟩ := h
      have hcnt : cp.length - fcsLen crc = b.length := by omega
      rw [hcnt] at herr
      exact Or.inr ⟨cp, by omega, herr, hs.symm⟩

theorem header_inj {n m : Nat} (hn : n = 128 ∨ n = 1024) (hm : m = 128 ∨ m = 1024)
    (h : header n = header m) : n = m := by
  rcases hn with rfl | rfl <;> rcases hm with rfl | rfl <;> first | rfl | exact absurd h (by decide)

theorem header_cases (n : Nat) : header n = stx ∨ header n = soh := by
  unfold header
  split
  · exact Or.inl rfl
  · exact Or.inr rfl

/-- Behind bytes that are read there is what follows them on the line. -/
theorem getElem?_got (got : List Byte) (down : List Sig) :
    (got.map Sig.byte ++ down)[got.length]? = down.head? := by
  rw [List.getElem?_append_right (by simp)]
  simp [List.head?_eq_getElem?]

theorem getElem?_byte {bytes : List Byte} {sigs : List Sig} {n : Nat} (hn : n < bytes.length) :
    (bytes.map Sig.byte ++ sigs)[n]? = some (.byte (bytes[n])) := by
  rw [List.getElem?_append_left (by simpa using hn)]
  simp [hn]

theorem getElem?_gap (crc : Bool) (seq : Byte) {b : List Byte} {n : Nat}
    (hn : n < b.length + 3 + fcsLen crc) :
    (((frame crc seq b).take n).map Sig.byte ++ [Sig.gap])[n]? = some .gap := by
  have hlen : ((frame crc seq b).take n).length = n := by
    rw [List.length_take, frame_length]
    omega
  have hgot := getElem?_got ((frame crc seq b).take n) [Sig.gap]
  rwa [hlen] at hgot

theorem silence_head {down rest : List Sig} (h : Sys.silence down = some rest) (b : Byte) :
    down.head? ≠ some (.byte b) := by
  rcases down with _ | ⟨_ | _, down⟩
  · simp
  · cases h
  · simp

namespace Coming

variable {crc : Bool} {fin : Prop} {w : Bool} {i : Nat} {bs : List (List Byte)} {down : List Sig}

/-- The first byte is an `EOT` behind the last block, or begins a packet. -/
theorem head {b : Byte} (h : Coming crc fin w i bs (.byte b :: down)) (hsz : ∀ b ∈ bs, Size b) :
    (b = Xmodem.eot ∧ bs = [] ∧ fin ∧ down = []) ∨
      ∃ cnt, (cnt = 128 ∨ cnt = 1024) ∧ b = header cnt := by
  generalize hs : Sig.byte b :: down = sigs at h
  cases h with
  | done => cases hs
  | eot h =>
      cases hs
      exact Or.inl ⟨rfl, rfl, h, rfl⟩
  | @whole _ _ blk bs sigs h =>
      rw [frame_eq] at hs
      cases hs
      exact Or.inr ⟨blk.length, hsz blk List.mem_cons_self, rfl⟩
  | @bad _ blk f sigs hf ha =>
      refine Or.inr ⟨blk.length, hsz blk List.mem_cons_self, ?_⟩
      rcases Fault.arrive_cases hf ha with ⟨n, -, hpos, rfl⟩ | ⟨cp, -, -, rfl⟩
      · obtain ⟨m, rfl⟩ := Nat.exists_eq_succ_of_ne_zero hpos.ne'
        rw [frame_eq] at hs
        cases hs
        rfl
      · cases hs
        rfl
  | gone => cases hs

/-- A packet that is complete is the next block, or the last one with an error in it. -/
theorem complete {cnt : Nat} {body : List Byte} (hcnt : cnt = 128 ∨ cnt = 1024)
    (hlen : body.length = cnt + 2 + fcsLen crc)
    (h : Coming crc fin w i bs ((header cnt :: body).map .byte ++ down)) (hsz : ∀ b ∈ bs, Size b) :
    (∃ blk bs', bs = blk :: bs' ∧ blk.length = cnt ∧
        header cnt :: body = frame crc (BitVec.ofNat 8 (i + 1)) blk ∧
        Coming crc fin w (i + 1) bs' down) ∨
      ∃ blk cp, bs = [blk] ∧ w = false ∧ down = [] ∧ fcsError crc cnt cp = true ∧
        body = BitVec.ofNat 8 (i + 1) :: ~~~BitVec.ofNat 8 (i + 1) :: cp := by
  generalize hs : (header cnt :: body).map Sig.byte ++ down = sigs at h
  cases h with
  | done => cases hs
  | eot h =>
      have := congrArg List.length hs
      simp only [List.length_append, List.length_map, List.length_cons, List.length_nil] at this
      omega
  | @whole _ _ blk bs sigs h =>
      have hhd : header cnt = header blk.length := by
        rw [frame_eq] at hs
        simp only [List.map_cons, List.cons_append, List.cons.injEq, Sig.byte.injEq] at hs
        exact hs.1
      have hblk : cnt = blk.length := header_inj hcnt (hsz blk List.mem_cons_self) hhd
      obtain ⟨hgot, hdown⟩ := List.append_inj hs (by
        simp only [List.length_map, List.length_cons, frame_length]
        omega)
      refine Or.inl ⟨blk, bs, rfl, hblk.symm, ?_, hdown ▸ h⟩
      exact List.map_injective_iff.mpr (fun a b h => Sig.byte.inj h) hgot
  | @bad _ blk f sigs hf ha =>
      have hblk := hsz blk List.mem_cons_self
      rcases Fault.arrive_cases hf ha with ⟨n, hn, hpos, rfl⟩ | ⟨cp, hcp, herr, rfl⟩
      · exfalso
        obtain ⟨m, rfl⟩ := Nat.exists_eq_succ_of_ne_zero hpos.ne'
        have hhd : header cnt = header blk.length := by
          rw [frame_eq] at hs
          simp only [List.take_succ_cons, List.map_cons, List.cons_append, List.cons.injEq,
            Sig.byte.injEq] at hs
          exact hs.1
        have hc : cnt = blk.length := header_inj hcnt hblk hhd
        -- where the gap is, there is a byte of the packet
        have hgap := getElem?_gap crc (BitVec.ofNat 8 (i + 1)) hn
        rw [← hs, getElem?_byte (by simp only [List.length_cons]; omega)] at hgap
        cases hgap
      · have hhd : header cnt = header blk.length := by
          simp only [List.map_cons, List.cons_append, List.cons.injEq, Sig.byte.injEq] at hs
          exact hs.1
        have hc : cnt = blk.length := header_inj hcnt hblk hhd
        rw [← List.append_nil (List.map _ (header blk.length :: _))] at hs
        obtain ⟨hgot, hdown⟩ := List.append_inj hs (by
          simp only [List.length_map, List.length_cons]
          omega)
        have hbytes := List.map_injective_iff.mpr (fun a b h => Sig.byte.inj h) hgot
        simp only [List.cons.injEq] at hbytes
        exact Or.inr ⟨blk, cp, rfl, rfl, hdown, hc ▸ herr, hbytes.2⟩
  | gone => cases hs

/-- A silence inside a packet takes what is left of the last one. -/
theorem silent {cnt : Nat} {body : List Byte} {rest : List Sig} (hcnt : cnt = 128 ∨ cnt = 1024)
    (hlen : body.length < cnt + 2 + fcsLen crc)
    (h : Coming crc fin w i bs ((header cnt :: body).map .byte ++ down)) (hsz : ∀ b ∈ bs, Size b)
    (hsil : Sys.silence down = some rest) : ∃ blk, bs = [blk] ∧ w = false ∧ rest = [] := by
  have hgot := getElem?_got (header cnt :: body) down
  generalize hs : (header cnt :: body).map Sig.byte ++ down = sigs at h hgot
  -- a byte that follows would have been read
  have hbyte : ∀ b, sigs[(header cnt :: body).length]? ≠ some (.byte b) := fun b h =>
    silence_head hsil b (hgot.symm.trans h)
  cases h with
  | done => cases hs
  | eot h =>
      simp only [List.map_cons, List.cons_append, List.cons.injEq, Sig.byte.injEq] at hs
      rcases header_cases cnt with hc | hc <;> exact absurd (hc.symm.trans hs.1) (by decide)
  | @whole _ _ blk bs sigs h =>
      have hhd : header cnt = header blk.length := by
        rw [frame_eq] at hs
        simp only [List.map_cons, List.cons_append, List.cons.injEq, Sig.byte.injEq] at hs
        exact hs.1
      have hblk : cnt = blk.length := header_inj hcnt (hsz blk List.mem_cons_self) hhd
      refine absurd (getElem?_byte ?_) (hbyte _)
      simp only [List.length_cons, frame_length]
      omega
  | @bad _ blk f sigs hf ha =>
      have hblk := hsz blk List.mem_cons_self
      rcases Fault.arrive_cases hf ha with ⟨n, hn, hpos, rfl⟩ | ⟨cp, hcp, herr, rfl⟩
      · have hlenT : ((frame crc (BitVec.ofNat 8 (i + 1)) blk).take n).length = n := by
          rw [List.length_take, frame_length]
          omega
        rcases Nat.lt_trichotomy (header cnt :: body).length n with hlt | heq | hgt
        · exact absurd (getElem?_byte (hlt.trans_eq hlenT.symm)) (hbyte _)
        · obtain ⟨-, rfl⟩ := List.append_inj hs (by
            rw [List.length_map, List.length_map, heq, hlenT])
          cases hsil
          exact ⟨blk, rfl, rfl, rfl⟩
        · have hgap := getElem?_gap crc (BitVec.ofNat 8 (i + 1)) hn
          rw [← hs, getElem?_byte hgt] at hgap
          cases hgap
      · have hhd : header cnt = header blk.length := by
          simp only [List.map_cons, List.cons_append, List.cons.injEq, Sig.byte.injEq] at hs
          exact hs.1
        have hc : cnt = blk.length := header_inj hcnt hblk hhd
        rw [← List.append_nil (List.map _ (header blk.length :: _))] at hbyte
        refine absurd (getElem?_byte ?_) (hbyte _)
        simp only [List.length_cons]
        omega
  | gone => cases hs

/-- Between two packets a silence leaves the line as it is. -/
theorem silence_eq {rest : List Sig} (h : Coming crc fin w i bs down)
    (hsil : Sys.silence down = some rest) : rest = down := by
  rcases down with _ | ⟨b | _, down⟩
  · cases hsil
    rfl
  · cases hsil
  · generalize hs : Sig.gap :: down = sigs at h
    cases h with
    | done => cases hs
    | eot h => cases hs
    | whole h =>
        rw [frame_eq] at hs
        cases hs
    | bad hf ha =>
        rcases Fault.arrive_cases hf ha with ⟨n, -, hpos, rfl⟩ | ⟨cp, -, -, rfl⟩
        · obtain ⟨m, rfl⟩ := Nat.exists_eq_succ_of_ne_zero hpos.ne'
          rw [frame_eq] at hs
          cases hs
        · cases hs
    | gone => cases hs

end Coming

end YardIce.Xmodem
