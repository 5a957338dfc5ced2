import Mathlib.Tactic.Linarith
import YardIce.Bacnet.PtpFrame

/-!
# Frames that come through the BACnet point-to-point link

What the receiver keeps between two calls is a prefix of the stream with the escapes taken out.
The header loop stops at five bytes but reads the sixth; a piece that ends there is the one cut
at which a frame is lost.
-/

namespace YardIce.Bacnet

/-! ## Escapes -/

/-- The bytes with the escapes taken out, and whether the last one was an escape. -/
def unstuff : Bool → List Byte → List Byte × Bool
  | esc, [] => ([], esc)
  | true, c :: l => ((c &&& 0x7f) :: (unstuff false l).1, (unstuff false l).2)
  | false, c :: l =>
      if c = dle then unstuff true l else (c :: (unstuff false l).1, (unstuff false l).2)

theorem unstuff_append (esc : Bool) (l m : List Byte) :
    unstuff esc (l ++ m) =
      ((unstuff esc l).1 ++ (unstuff (unstuff esc l).2 m).1, (unstuff (unstuff esc l).2 m).2) := by
  induction l generalizing esc with
  | nil => rfl
  | cons c l ih =>
      cases esc with
      | true => simp [unstuff, ih]
      | false => by_cases h : c = dle <;> simp [unstuff, h, ih]

/-- An escaped byte comes back, and no escape is left open. -/
theorem unstuff_stuff (c : Byte) : unstuff false (stuff c) = ([c], false) := by
  by_cases h : Special c
  · have hback : (c ||| 0x80) &&& 0x7f = c := by
      rcases h with rfl | rfl | rfl <;> decide
    rw [stuff, if_pos h]
    simp only [unstuff, if_true]
    rw [hback]
  · have hc : c ≠ dle := fun e => h (Or.inl e)
    simp [stuff, h, unstuff, hc]

theorem unstuff_flatMap (l : List Byte) : unstuff false (l.flatMap stuff) = (l, false) := by
  induction l with
  | nil => rfl
  | cons c l ih => simp [unstuff_append, unstuff_stuff, ih]

/-- A prefix of the stuffed bytes ends behind a byte, or between an escape and its byte. -/
theorem prefix_flatMap_stuff {l p q : List Byte} (h : p ++ q = l.flatMap stuff) :
    p = (l.take (unstuff false p).1.length).flatMap stuff ∨
      p = (l.take (unstuff false p).1.length).flatMap stuff ++ [dle] := by
  induction l generalizing p with
  | nil =>
      have : p = [] := by simp at h; exact h.1
      simp [this]
  | cons c l ih =>
      rw [List.flatMap_cons] at h
      rcases List.append_eq_append_iff.mp h with ⟨t, ht, -⟩ | ⟨t, ht, hq⟩
      · -- the prefix ends within what stands for `c`
        by_cases hs : Special c
        · rw [stuff, if_pos hs] at ht
          rcases p with _ | ⟨a, _ | ⟨b, p⟩⟩
          · simp [unstuff]
          · have ha : a = dle := by simp at ht; exact ht.1.symm
            subst ha
            exact Or.inr (by simp [unstuff])
          · have hp : p = [] := by simp at ht; exact ht.2.2.1
            have hab : a :: b :: p = stuff c := by
              rw [stuff, if_pos hs, ht, hp]; simp at ht ⊢; tauto
            refine Or.inl ?_
            rw [hab, unstuff_stuff]
            simp
        · rw [stuff, if_neg hs] at ht
          rcases p with _ | ⟨a, p⟩
          · simp [unstuff]
          · have hp : p = [] := by simp at ht; exact ht.2.1
            have hab : a :: p = stuff c := by
              rw [stuff, if_neg hs]; simp at ht; simp [hp, ht.1]
            refine Or.inl ?_
            rw [hab, unstuff_stuff]
            simp
      · subst ht
        have hlen : (unstuff false (stuff c ++ t)).1.length = (unstuff false t).1.length + 1 := by
          rw [unstuff_append, unstuff_stuff]
          simp [Nat.add_comm]
        rw [hlen, List.take_succ_cons, List.flatMap_cons, List.append_assoc]
        rcases ih hq.symm with h' | h'
        · exact Or.inl (congrArg (stuff c ++ ·) h')
        · exact Or.inr (congrArg (stuff c ++ ·) h')

/-! ## Buffers -/

@[simp] theorem slice_length (buf : Nat → Byte) (i n : Nat) : (slice buf i n).length = n := by
  simp [slice]

@[simp] theorem slice_zero (buf : Nat → Byte) (i : Nat) : slice buf i 0 = [] := rfl

theorem slice_succ (buf : Nat → Byte) (i n : Nat) :
    slice buf i (n + 1) = buf i :: slice buf (i + 1) n := by
  simp [slice, List.range_succ_eq_map, Function.comp_def, Nat.add_assoc, Nat.add_comm 1]

theorem slice_append (buf : Nat → Byte) (i n m : Nat) :
    slice buf i (n + m) = slice buf i n ++ slice buf (i + n) m := by
  simp [slice, List.range_add, Function.comp_def, Nat.add_assoc]

theorem slice_congr {buf buf' : Nat → Byte} {i i' n : Nat}
    (h : ∀ k < n, buf (i + k) = buf' (i' + k)) : slice buf i n = slice buf' i' n := by
  apply List.map_congr_left
  intro k hk
  exact h k (List.mem_range.mp hk)

theorem slice_getElem? (buf : Nat → Byte) {i n k : Nat} (hk : k < n) :
    (slice buf i n)[k]? = some (buf (i + k)) := by
  simp [slice, hk]

theorem slice_putBytes (buf : Nat → Byte) (i : Nat) (piece : List Byte) :
    slice (putBytes buf i piece) i piece.length = piece := by
  apply List.ext_getElem?
  intro k
  rcases Nat.lt_or_ge k piece.length with hk | hk
  · rw [slice_getElem? _ hk, putBytes, if_pos ⟨by omega, by omega⟩, Nat.add_sub_cancel_left]
    simp [hk]
  · rw [List.getElem?_eq_none (by simpa using hk), List.getElem?_eq_none hk]

/-- The loop works in place: what it has written is never ahead of what it reads. -/
theorem destuffLoop_spec (cp : Nat) (n i : Nat) (d : Destuff) (hj : d.j ≤ i) :
    let r := destuffLoop cp n i d
    let out := unstuff d.dle (slice d.buf (cp + i) n)
    slice r.buf 0 (cp + r.j) = slice d.buf 0 (cp + d.j) ++ out.1 ∧ r.dle = out.2 ∧
      r.j ≤ i + n ∧ ∀ k, cp + i + n ≤ k → r.buf k = d.buf k := by
  induction n generalizing i d with
  | zero => simpa [destuffLoop, unstuff] using hj
  | succ n ih =>
      -- a byte that is written leaves the ones behind it as they are
      have hput : ∀ (v : Byte) (e : Bool),
          let d' : Destuff := ⟨e, d.j + 1, setByte d.buf (cp + d.j) v⟩
          slice d'.buf 0 (cp + d'.j) = slice d.buf 0 (cp + d.j) ++ [v] ∧
            slice d'.buf (cp + (i + 1)) n = slice d.buf (cp + i + 1) n ∧
            ∀ k, cp + (i + 1) + n ≤ k → d'.buf k = d.buf k := by
        intro v e
        refine ⟨?_, ?_, ?_⟩
        · show slice _ 0 (cp + d.j + 1) = _
          rw [slice_append]
          congr 1
          · apply slice_congr
            intro k hk
            exact if_neg (by omega)
          · simp [slice, setByte]
        · apply slice_congr
          intro k hk
          show setByte d.buf (cp + d.j) v _ = _
          rw [setByte, if_neg (by omega), Nat.add_assoc cp i 1]
        · intro k hk
          exact if_neg (by omega)
      rw [slice_succ]
      rcases hd : d.dle with _ | _
      · by_cases hc : d.buf (cp + i) = dle
        · have := ih (i + 1) { d with dle := true } (by show d.j ≤ i + 1; omega)
          simp only [destuffLoop, hd, hc, unstuff, if_true, Bool.false_eq_true, if_false]
          rw [Nat.add_assoc cp i 1]
          refine ⟨this.1, this.2.1, by omega, fun k hk => this.2.2.2 k (by omega)⟩
        · obtain ⟨h₁, h₂, h₃⟩ := hput (d.buf (cp + i)) false
          have := ih (i + 1) ⟨false, d.j + 1, setByte d.buf (cp + d.j) (d.buf (cp + i))⟩
            (by show d.j + 1 ≤ i + 1; omega)
          simp only [destuffLoop, hd, hc, unstuff, Bool.false_eq_true, if_false]
          rw [← h₂]
          refine ⟨?_, this.2.1, by omega, fun k hk => ?_⟩
          · rw [this.1, h₁, List.append_assoc]; rfl
          · rw [this.2.2.2 k (by omega), h₃ k (by omega)]
      · obtain ⟨h₁, h₂, h₃⟩ := hput (d.buf (cp + i) &&& 0x7f) false
        have := ih (i + 1) ⟨false, d.j + 1, setByte d.buf (cp + d.j) (d.buf (cp + i) &&& 0x7f)⟩
          (by show d.j + 1 ≤ i + 1; omega)
        simp only [destuffLoop, hd, unstuff, if_true]
        rw [← h₂]
        refine ⟨?_, this.2.1, by omega, fun k hk => ?_⟩
        · rw [this.1, h₁, List.append_assoc]; rfl
        · rw [this.2.2.2 k (by omega), h₃ k (by omega)]

/-! ## What is kept between two calls -/

section Stream

variable (pieces : List (List Byte))

/-- `done` has been taken from the stream; the stock is what came behind it. -/
structure Holds (buf₀ : Nat → Byte) (done : List Byte) (s : Stock) : Prop where
  taken : ∃ k, s.src = pieces.drop k ∧
    unstuff false (pieces.take k).flatten = (done ++ slice s.buf 0 s.cnt, s.dle)
  cnt_le : s.cnt ≤ bacnetPtpMtu
  beyond : ∀ k, bacnetPtpMtu ≤ k → s.buf k = buf₀ k

variable {pieces} {buf₀ : Nat → Byte} {done : List Byte}

/-- A piece is received behind the stock, and its escapes are taken out. -/
theorem Holds.receive {piece : List Byte} {src : List (List Byte)} {buf : Nat → Byte} {cnt : Nat}
    {esc : Bool} (h : Holds pieces buf₀ done ⟨buf, cnt, esc, piece :: src⟩)
    (hroom : cnt + piece.length ≤ bacnetPtpMtu) :
    let d := destuffLoop cnt piece.length 0 ⟨esc, 0, putBytes buf cnt piece⟩
    Holds pieces buf₀ done ⟨d.buf, cnt + d.j, d.dle, src⟩ := by
  obtain ⟨⟨k, hk, hun⟩, -, hbey⟩ := h
  obtain ⟨hs, hdle, hj, hk'⟩ :=
    destuffLoop_spec cnt piece.length 0 ⟨esc, 0, putBytes buf cnt piece⟩ (Nat.le_refl 0)
  have hold : slice (putBytes buf cnt piece) 0 cnt = slice buf 0 cnt := by
    apply slice_congr
    intro k hk
    exact if_neg (by omega)
  simp only [Nat.add_zero, slice_putBytes, hold] at hs hdle hk'
  refine ⟨⟨k + 1, ?_, ?_⟩, ?_, ?_⟩
  · rw [← List.drop_drop, ← hk]
    rfl
  · have htake : pieces.take (k + 1) = pieces.take k ++ [piece] := by
      rw [List.take_add, ← hk]
      rfl
    rw [htake, List.flatten_append, unstuff_append, hun, hs, hdle]
    simp
  · show cnt + _ ≤ _
    omega
  · intro m hm
    calc _ = putBytes buf cnt piece m := hk' m (by omega)
      _ = buf m := if_neg (by omega)
      _ = buf₀ m := hbey m hm

/-- The loop goes on as long as the stream has the bytes that are needed. -/
theorem recvLoop_holds (hne : ∀ p ∈ pieces, p ≠ []) {need : Nat}
    (hlong : done.length + need ≤ (unstuff false pieces.flatten).1.length)
    (src : List (List Byte)) (buf : Nat → Byte) (cnt : Nat) (esc : Bool)
    (h : Holds pieces buf₀ done ⟨buf, cnt, esc, src⟩) :
    recvLoop need src buf cnt esc = .refused ∨
      ∃ s, recvLoop need src buf cnt esc = .enough s ∧ Holds pieces buf₀ done s ∧ need ≤ s.cnt := by
  induction src generalizing buf cnt esc with
  | nil =>
      obtain ⟨k, hk, hun⟩ := h.taken
      -- nothing is left to come, so all of the stream is here
      have hall : pieces.take k = pieces := by
        rw [List.take_eq_self_iff]
        exact List.drop_eq_nil_iff.mp hk.symm
      have hcnt : need ≤ cnt := by
        rw [hall] at hun
        simp only [hun, List.length_append, slice_length] at hlong
        omega
      refine Or.inr ⟨_, ?_, h, hcnt⟩
      rw [recvLoop, if_neg (by omega)]
  | cons piece src ih =>
      rw [recvLoop]
      by_cases hcnt : cnt < need
      · rw [if_pos hcnt]
        by_cases hroom : bacnetPtpMtu - cnt < piece.length
        · exact Or.inl (if_pos hroom)
        · have hpiece : piece ≠ [] := by
            obtain ⟨k, hk, -⟩ := h.taken
            apply hne
            apply List.mem_of_mem_drop
            rw [← hk]
            exact List.mem_cons_self
          rw [if_neg hroom, if_neg hpiece]
          apply ih
          apply h.receive
          have := h.cnt_le
          simp only at this
          omega
      · rw [if_neg hcnt]
        exact Or.inr ⟨_, rfl, h, by show need ≤ cnt; omega⟩

/-- The stock is a prefix of what the stream still has. -/
theorem Holds.slice_eq {s : Stock} (h : Holds pieces buf₀ done s) {tail : List Byte}
    (hall : (unstuff false pieces.flatten).1 = done ++ tail) {n : Nat} (hn : n ≤ s.cnt) :
    slice s.buf 0 n = tail.take n := by
  obtain ⟨k, -, hun⟩ := h.taken
  have hsplit : pieces.flatten = (pieces.take k).flatten ++ (pieces.drop k).flatten := by
    rw [← List.flatten_append, List.take_append_drop]
  rw [hsplit, unstuff_append, hun, List.append_assoc] at hall
  rw [← List.append_cancel_left hall, List.take_append_of_le_length (by simpa using hn)]
  obtain ⟨m, hm⟩ := Nat.exists_eq_add_of_le hn
  rw [hm, slice_append, List.take_append_of_le_length (by simp), List.take_of_length_le (by simp)]

/-- The state between two calls. -/
structure Waits (pieces : List (List Byte)) (buf₀ : Nat → Byte) (done : List Byte) (rx : Rx)
    (src : List (List Byte)) : Prop where
  off_le : rx.off ≤ rx.cnt
  holds : Holds pieces buf₀ done ((rx.stock src).shift rx.off)

theorem waits_rst (rx : Rx) : Waits pieces rx.buf [] rx.rst pieces where
  off_le := Nat.le_refl 0
  holds := ⟨⟨0, rfl, rfl⟩, Nat.zero_le _, fun _ _ => rfl⟩

/-- The call leaves the bytes behind a frame for the next one. -/
theorem Holds.waits {s : Stock} (h : Holds pieces buf₀ done s) {out : List Byte} {len : Nat}
    (hpos : 0 < out.length) (hle : out.length ≤ s.cnt) (hout : slice s.buf 0 out.length = out) :
    Waits pieces buf₀ (done ++ out) ⟨s.buf, len, out.length, s.cnt, s.dle⟩ s.src := by
  have hshift : (Rx.stock ⟨s.buf, len, out.length, s.cnt, s.dle⟩ s.src).shift out.length =
      ⟨fun k => if k < s.cnt - out.length then s.buf (out.length + k) else s.buf k,
        s.cnt - out.length, s.dle, s.src⟩ := if_neg (by omega)
  constructor
  · exact hle
  · obtain ⟨⟨k, hk, hun⟩, hcnt, hbey⟩ := h
    have hsl : slice s.buf 0 s.cnt = out ++ slice s.buf out.length (s.cnt - out.length) := by
      have hm := slice_append s.buf 0 out.length (s.cnt - out.length)
      rwa [Nat.add_sub_cancel' hle, hout, Nat.zero_add] at hm
    show Holds _ _ _ (Stock.shift _ out.length)
    rw [hshift]
    constructor
    · refine ⟨k, hk, ?_⟩
      rw [hun, hsl, ← List.append_assoc]
      congr 2
      apply slice_congr
      intro m hm
      rw [Nat.zero_add]
      exact (if_pos hm).symm
    · exact (Nat.sub_le _ _).trans hcnt
    · intro m hm
      rw [← hbey m hm]
      exact if_neg (by omega)

end Stream

/-! ## One frame -/

namespace Frame

variable (f : Frame)

theorem hdr_eq :
    f.hdr = [0x55, 0xff, f.typ, BitVec.ofNat 8 (f.pdu.length / 256), BitVec.ofNat 8 f.pdu.length,
      ~~~bacnetCrc8 0xff f.checked] := rfl

@[simp] theorem hdr_length : f.hdr.length = 6 := rfl

@[simp] theorem data_length : f.data.length = f.pdu.length + 2 := by simp [data]

theorem bytes_length : f.bytes.length = if f.pdu.length > 0 then f.pdu.length + 8 else 6 := by
  unfold bytes
  split <;> simp
  omega

/-- The two bytes of the length give it back. -/
theorem length_eq :
    (BitVec.ofNat 8 (f.pdu.length / 256)).toNat * 256 + (BitVec.ofNat 8 f.pdu.length).toNat =
      f.pdu.length := by
  have := f.fits
  simp only [bacnetPtpMtu] at this
  simp only [BitVec.toNat_ofNat]
  omega

theorem send_eq : bacnetPtpFrameSend f = f.bytes.flatMap stuff := by
  simp only [bacnetPtpFrameSend, bytes]
  split
  · rw [List.flatMap_append]
  · rfl

end Frame

/-- What a call has to return for a frame. -/
structure Returns (pieces : List (List Byte)) (buf₀ : Nat → Byte) (done : List Byte) (f : Frame)
    (typ : Byte) (rx : Rx) (src : List (List Byte)) : Prop where
  typ_eq : typ = f.typ
  pduLen_eq : rx.pduLen = f.pdu.length
  pdu_eq : slice rx.buf 6 rx.pduLen = f.pdu
  cnt_le : rx.cnt ≤ bacnetPtpMtu
  beyond : ∀ k, bacnetPtpMtu ≤ k → rx.buf k = buf₀ k
  waits : Waits pieces buf₀ (done ++ f.bytes) rx src

section Call

variable {pieces : List (List Byte)} {buf₀ : Nat → Byte} {done rest : List Byte} {f : Frame}
  (hne : ∀ p ∈ pieces, p ≠ [])
  (hall : (unstuff false pieces.flatten).1 = done ++ (f.bytes ++ rest))

include hall in
theorem slice_header {s : Stock} (h : Holds pieces buf₀ done s) (h6 : 6 ≤ s.cnt) :
    slice s.buf 0 6 = f.hdr := by
  rw [h.slice_eq hall h6, Frame.bytes]
  split
  · rw [List.append_assoc, List.take_left' f.hdr_length]
  · rw [List.take_left' f.hdr_length]

include hall in
theorem slice_frame {s : Stock} (h : Holds pieces buf₀ done s) (hle : f.bytes.length ≤ s.cnt) :
    slice s.buf 0 f.bytes.length = f.bytes := by
  rw [h.slice_eq hall hle, List.take_left]

/-- The bytes of the header, one by one. -/
theorem header_bytes {buf : Nat → Byte} (h : slice buf 0 6 = f.hdr) :
    buf 0 = 0x55 ∧ buf 1 = 0xff ∧ buf 2 = f.typ ∧
      (buf 3).toNat * 256 + (buf 4).toNat = f.pdu.length ∧
      slice buf 2 3 = f.checked ∧ buf 5 = ~~~bacnetCrc8 0xff f.checked := by
  have hlen := f.length_eq
  rw [Frame.hdr_eq] at h
  simp only [slice_succ, slice_zero, List.cons.injEq, and_true, Nat.reduceAdd] at h
  obtain ⟨h₀, h₁, h₂, h₃, h₄, h₅⟩ := h
  refine ⟨h₀, h₁, h₂, by rw [h₃, h₄]; exact hlen, ?_, h₅⟩
  simp [slice_succ, Frame.checked, h₂, h₃, h₄]

/-- The PDU and its checksum stand behind the header. -/
theorem data_bytes {buf : Nat → Byte} (hpos : 0 < f.pdu.length)
    (h : slice buf 0 f.bytes.length = f.bytes) :
    slice buf 6 f.pdu.length = f.pdu ∧
      (buf (f.pdu.length + 7)).setWidth 16 <<< 8 + (buf (f.pdu.length + 6)).setWidth 16 =
        ~~~bacnetCrc16 0xffff f.pdu := by
  have hsplit : f.bytes.length = 6 + (f.pdu.length + (1 + 1)) := by
    rw [f.bytes_length, if_pos hpos]
    omega
  rw [hsplit, slice_append, slice_append, slice_append, Frame.bytes, if_pos hpos] at h
  have hd := (List.append_inj h (by simp)).2
  obtain ⟨hpdu, hcrc⟩ := List.append_inj hd (by simp)
  constructor
  · simpa using hpdu
  · simp only [slice_succ, slice_zero, List.cons_append, List.nil_append, List.cons.injEq,
      and_true] at hcrc
    have h₆ : 0 + 6 + f.pdu.length = f.pdu.length + 6 := by omega
    rw [h₆] at hcrc
    rw [hcrc.1, hcrc.2]
    bv_omega

include hne hall in
theorem recvData_spec (rx : Rx) {s : Stock} (h : Holds pieces buf₀ done s) (h6 : 6 ≤ s.cnt) :
    recvData rx s = .refused ∨ ∃ typ rx' src', recvData rx s = .frame typ rx' src' ∧
      Returns pieces buf₀ done f typ rx' src' := by
  obtain ⟨-, -, htyp, hlen, -⟩ := header_bytes (slice_header hall h h6)
  rw [recvData]
  simp only [hlen]
  by_cases hpos : f.pdu.length > 0
  · rw [if_pos hpos]
    have hbytes : f.bytes.length = f.pdu.length + 8 := by rw [f.bytes_length, if_pos hpos]
    have hlong : done.length + (f.pdu.length + 8) ≤ (unstuff false pieces.flatten).1.length := by
      rw [hall]
      simp only [List.length_append, hbytes]
      omega
    rcases recvLoop_holds hne hlong s.src s.buf s.cnt s.dle h with hr | ⟨s', hr, h', hcnt⟩
    · exact Or.inl (by rw [hr])
    · have hfr := slice_frame hall h' (by omega)
      obtain ⟨hpdu, hcrc⟩ := data_bytes hpos hfr
      obtain ⟨-, -, htyp', -⟩ := header_bytes (slice_header hall h' (by omega))
      rw [hr]
      simp only [hpdu, hcrc, ne_eq, not_true_eq_false, if_false]
      refine Or.inr ⟨_, _, _, rfl, htyp', rfl, hpdu, h'.cnt_le, h'.beyond, ?_⟩
      rw [← hbytes]
      exact h'.waits (by omega) (by omega) hfr
  · rw [if_neg hpos]
    have hbytes : f.bytes.length = 6 := by rw [f.bytes_length, if_neg hpos]
    have hzero : f.pdu.length = 0 := by omega
    refine Or.inr ⟨_, _, _, rfl, htyp, hzero.symm, ?_, h.cnt_le, h.beyond, ?_⟩
    · exact (List.length_eq_zero_iff.mp hzero).symm
    · rw [← hbytes]
      exact h.waits (by omega) (by omega) (slice_frame hall h (by omega))

include hne hall in
/-- A call returns the next frame, unless the stream is cut behind five bytes of it. -/
theorem frameRecv_spec
    (hfive : ∀ k, (unstuff false (pieces.take k).flatten).1.length ≠ done.length + 5) {rx : Rx}
    {src : List (List Byte)} (h : Waits pieces buf₀ done rx src) :
    bacnetPtpFrameRecv rx src = .refused ∨
      ∃ typ rx' src', bacnetPtpFrameRecv rx src = .frame typ rx' src' ∧
        Returns pieces buf₀ done f typ rx' src' := by
  have hlong : done.length + 5 ≤ (unstuff false pieces.flatten).1.length := by
    rw [hall]
    simp only [List.length_append, f.bytes_length]
    split <;> omega
  have hoff : ¬ (rx.stock src).cnt < rx.off := Nat.not_lt.mpr h.off_le
  rw [bacnetPtpFrameRecv, headerLoop, if_neg hoff]
  have hh := h.holds
  generalize (rx.stock src).shift rx.off = s₀ at hh ⊢
  simp only
  rcases recvLoop_holds hne hlong s₀.src s₀.buf s₀.cnt s₀.dle hh with hr | ⟨s, hr, hs, hcnt⟩
  · exact Or.inl (by rw [hr])
  · have h6 : 6 ≤ s.cnt := by
      obtain ⟨k, -, hun⟩ := hs.taken
      have := hfive k
      simp only [hun, List.length_append, slice_length] at this
      omega
    obtain ⟨h₀, h₁, -, -, hchk, h₅⟩ := header_bytes (slice_header hall hs h6)
    rw [hr]
    simp only [h₀, h₁, hchk, h₅, ne_eq, not_true_eq_false, if_false]
    exact recvData_spec hne hall rx hs h6

end Call

/-! ## Sequences of frames -/

/-- The buffer of `bacnet_ptp_frame_send` has room for the escapes of the frame. -/
def Frame.Fits (f : Frame) : Prop :=
  f.bytes.countP (fun c => decide (Special c)) ≤ if f.pdu = [] then 3 else f.pdu.length + 1

instance : DecidablePred Frame.Fits := fun f =>
  inferInstanceAs (Decidable (f.bytes.countP (fun c => decide (Special c)) ≤
    if f.pdu = [] then 3 else f.pdu.length + 1))

/-- The places of the stream behind the length of a frame, with or without the escape of the next
byte. -/
def fivePoints : List Frame → List (List Byte)
  | [] => []
  | f :: fs =>
      let five := (f.hdr.take 5).flatMap stuff
      five :: (five ++ [dle]) :: (fivePoints fs).map (bacnetPtpFrameSend f ++ ·)

/-- A piece ends behind the five bytes of a frame that the header loop waits for. -/
def CutAtFive (fs : List Frame) (pieces : List (List Byte)) : Prop :=
  ∃ front ∈ pieces.inits, front.flatten ∈ fivePoints fs

instance (fs : List Frame) (pieces : List (List Byte)) : Decidable (CutAtFive fs pieces) :=
  inferInstanceAs (Decidable (∃ front ∈ pieces.inits, front.flatten ∈ fivePoints fs))

/-- Successive calls return the frames, and keep to the buffer. -/
def Delivers : List Frame → Rx → List (List Byte) → Prop
  | [], _, _ => True
  | f :: fs, rx, src =>
      match bacnetPtpFrameRecv rx src with
      | .refused => True
      | .frame typ rx' src' =>
          typ = f.typ ∧ rx'.pduLen = f.pdu.length ∧ slice rx'.buf 6 rx'.pduLen = f.pdu ∧
            rx'.off ≤ rx'.cnt ∧ rx'.cnt ≤ bacnetPtpMtu ∧
            (∀ k, bacnetPtpMtu ≤ k → rx'.buf k = rx.buf k) ∧ Delivers fs rx' src'
      | _ => False

/-- The call returned without a frame. -/
def Outcome.gaveUp : Outcome → Bool
  | .ended _ _ => true
  | _ => false

theorem not_delivers_of_gaveUp {f : Frame} {fs : List Frame} {rx : Rx} {src : List (List Byte)}
    (h : (bacnetPtpFrameRecv rx src).gaveUp = true) : ¬ Delivers (f :: fs) rx src := by
  rw [Delivers]
  cases hr : bacnetPtpFrameRecv rx src <;> simp_all [Outcome.gaveUp]

theorem stuffed_length (l : List Byte) :
    (l.flatMap stuff).length = l.length + l.countP (fun c => decide (Special c)) := by
  induction l with
  | nil => rfl
  | cons c l ih =>
      rw [List.flatMap_cons, List.length_append, ih, List.countP_cons]
      by_cases h : Special c <;> simp [stuff, h] <;> omega

/-- The room is enough exactly for the frames that fit. -/
theorem send_length_le_iff (f : Frame) : (bacnetPtpFrameSend f).length ≤ f.room ↔ f.Fits := by
  rw [f.send_eq, stuffed_length, f.bytes_length, Frame.Fits, Frame.room]
  rcases hp : f.pdu with _ | ⟨c, l⟩
  · simp
    omega
  · simp
    omega

theorem flatMap_send (fs : List Frame) :
    fs.flatMap bacnetPtpFrameSend = (fs.flatMap Frame.bytes).flatMap stuff := by
  rw [List.flatMap_assoc]
  exact List.flatMap_congr fun f _ => f.send_eq

theorem mem_fivePoints (before after : List Frame) (f : Frame) {esc : List Byte}
    (hesc : esc = [] ∨ esc = [dle]) :
    before.flatMap bacnetPtpFrameSend ++ ((f.hdr.take 5).flatMap stuff ++ esc) ∈
      fivePoints (before ++ f :: after) := by
  induction before with
  | nil => rcases hesc with rfl | rfl <;> simp [fivePoints]
  | cons g before ih =>
      rw [List.flatMap_cons, List.append_assoc, List.cons_append, fivePoints]
      apply List.mem_cons_of_mem
      apply List.mem_cons_of_mem
      exact List.mem_map_of_mem ih

/-- Five bytes of a frame have come only if a piece ends there. -/
theorem five_of_cut {fs before after : List Frame} {f : Frame} {pieces : List (List Byte)}
    (hcut : pieces.flatten = fs.flatMap bacnetPtpFrameSend) (hfs : fs = before ++ f :: after)
    (hno : ¬ CutAtFive fs pieces) (k : Nat) :
    (unstuff false (pieces.take k).flatten).1.length ≠
      (before.flatMap Frame.bytes).length + 5 := by
  intro hk
  have hsplit : (pieces.take k).flatten ++ (pieces.drop k).flatten =
      (fs.flatMap Frame.bytes).flatMap stuff := by
    rw [← List.flatten_append, List.take_append_drop, hcut, flatMap_send]
  have htake : (fs.flatMap Frame.bytes).take ((before.flatMap Frame.bytes).length + 5) =
      before.flatMap Frame.bytes ++ f.hdr.take 5 := by
    have hf : (f.bytes ++ after.flatMap Frame.bytes).take 5 = f.hdr.take 5 := by
      rw [Frame.bytes]
      split <;> rfl
    rw [hfs, List.flatMap_append, List.flatMap_cons, List.take_length_add_append, hf]
  apply hno
  refine ⟨pieces.take k, (List.mem_inits _ _).mpr (List.take_prefix k pieces), ?_⟩
  have hpre := prefix_flatMap_stuff hsplit
  rw [hk, htake, List.flatMap_append, ← flatMap_send] at hpre
  rw [hfs]
  rcases hpre with h | h
  · rw [h, ← List.append_nil (List.flatMap stuff _)]
    exact mem_fivePoints before after f (Or.inl rfl)
  · rw [h, List.append_assoc]
    exact mem_fivePoints before after f (Or.inr rfl)

/-- What is left of the stream is delivered, by induction on the frames that are still to come. -/
theorem delivers_of_waits {fs before : List Frame} {pieces : List (List Byte)}
    {buf₀ : Nat → Byte} (hne : ∀ p ∈ pieces, p ≠ []) (hno : ¬ CutAtFive (before ++ fs) pieces)
    (hcut : pieces.flatten = (before ++ fs).flatMap bacnetPtpFrameSend) {rx : Rx}
    {src : List (List Byte)} (hbuf : ∀ k, bacnetPtpMtu ≤ k → rx.buf k = buf₀ k)
    (h : Waits pieces buf₀ (before.flatMap Frame.bytes) rx src) : Delivers fs rx src := by
  induction fs generalizing before rx src with
  | nil => trivial
  | cons f fs ih =>
      have hall : (unstuff false pieces.flatten).1 =
          before.flatMap Frame.bytes ++ (f.bytes ++ fs.flatMap Frame.bytes) := by
        rw [hcut, flatMap_send, unstuff_flatMap]
        simp
      rw [Delivers]
      have hfive := five_of_cut hcut rfl hno
      rcases frameRecv_spec hne hall hfive h with hr | ⟨typ, rx', src', hr, hret⟩
      · rw [hr]
        trivial
      · have hbefore :
            before.flatMap Frame.bytes ++ f.bytes = (before ++ [f]).flatMap Frame.bytes := by
          simp
        have hassoc : before ++ f :: fs = (before ++ [f]) ++ fs := by simp
        have hw := hret.waits
        rw [hbefore] at hw
        rw [hassoc] at hno hcut
        rw [hr]
        refine ⟨hret.typ_eq, hret.pduLen_eq, hret.pdu_eq, hw.off_le, hret.cnt_le, ?_, ?_⟩
        · intro k hk
          rw [hret.beyond k hk, hbuf k hk]
        · exact ih hno hcut hret.beyond hw

/-- Every cut of the stream but the one behind five bytes of a frame gives the frames back. -/
theorem frames_come_through (fs : List Frame) (pieces : List (List Byte)) (rx : Rx)
    (hfit : ∀ f ∈ fs, f.Fits) (hne : ∀ p ∈ pieces, p ≠ [])
    (hcut : pieces.flatten = fs.flatMap bacnetPtpFrameSend) (hno : ¬ CutAtFive fs pieces) :
    (∀ f ∈ fs, (bacnetPtpFrameSend f).length ≤ f.room) ∧ Delivers fs rx.rst pieces := by
  constructor
  · intro f hf
    exact (send_length_le_iff f).mpr (hfit f hf)
  · have hno' : ¬ CutAtFive ([] ++ fs) pieces := hno
    exact delivers_of_waits hne hno' hcut (fun _ _ => rfl) (waits_rst rx)

/-- A frame with an `XON` and a `DLE` in its PDU, cut between an escape and its byte. -/
def escapedFrame : Frame := ⟨2, [0x11, 7, 0x10], by decide⟩

/-- `BACNET_PTP_FRM_HEARTBEAT_XON` -/
def heartbeat : Frame := ⟨1, [], by decide⟩

theorem frames_come_through_two :
    (∀ f ∈ [heartbeat, escapedFrame], (bacnetPtpFrameSend f).length ≤ f.room) ∧
      Delivers [heartbeat, escapedFrame] (Rx.rst ⟨fun _ => 0, 0, 0, 0, false⟩)
        [(bacnetPtpFrameSend heartbeat ++ bacnetPtpFrameSend escapedFrame).take 13,
          (bacnetPtpFrameSend heartbeat ++ bacnetPtpFrameSend escapedFrame).drop 13] :=
  frames_come_through [heartbeat, escapedFrame] _ _ (by decide) (by decide) (by decide) (by decide)

/-- A frame of `DLE` only, for which the buffer has no room. -/
def crowdedFrame : Frame := ⟨0x10, List.replicate 16 0x10, by decide⟩

/-- The buffer is written behind its end; a header that is cut behind five bytes is not found. -/
theorem heartbeat_lost :
    crowdedFrame.room < (bacnetPtpFrameSend crowdedFrame).length ∧
      ¬ ∀ (fs : List Frame) (pieces : List (List Byte)) (rx : Rx), (∀ p ∈ pieces, p ≠ []) →
        pieces.flatten = fs.flatMap bacnetPtpFrameSend → Delivers fs rx.rst pieces := by
  constructor
  · decide +kernel
  · intro h
    have hd := h [heartbeat]
      [(bacnetPtpFrameSend heartbeat).take 5, (bacnetPtpFrameSend heartbeat).drop 5]
      ⟨fun _ => 0, 0, 0, 0, false⟩ (by decide) (by decide)
    refine not_delivers_of_gaveUp ?_ hd
    decide

end YardIce.Bacnet
