import Mathlib.Data.BitVec
import Mathlib.Data.List.Basic

/-!
# Reception of a packet

`rsp_pkt_recv` of `gdb-rsp.c`, which collects the text of a packet up to its `#` from
the results of `tcp_recv`. The position at which a result is stored is never moved on,
so that a packet is received only if its `#` comes with the first result.

## Implementation notes

The results of `tcp_recv` are an argument; a call whose results are used up has not
returned. A buffer is a function from positions. The sum over the text is computed and
not looked at by the code, and is left out.
-/

namespace YardIce.Gdb

abbrev Byte := BitVec 8

/-- The bytes of a buffer by position. -/
abbrev Buf := Nat → Byte

/-- `RSP_BUFFER_LEN`. -/
def rspBufferLen : Nat := 512

/-- `#`. -/
def hash : Byte := 0x23

/-- A result of `tcp_recv`: a negative number, or the bytes stored. -/
inductive Recv
  | fail (err : Int)
  | data (bytes : List Byte)

/-- The effect of `tcp_recv` on the buffer. -/
def store (pkt : Buf) (pos : Nat) (bytes : List Byte) : Buf := fun p =>
  if pos ≤ p ∧ p < pos + bytes.length then bytes.getD (p - pos) 0 else pkt p

/-- The loop over the bytes received, with the number left and the position. -/
def scan (cp : Buf) : Nat → Nat → Option Nat
  | 0, _ => none
  | left + 1, i => if cp i = hash then some i else scan cp left (i + 1)

/-- The loop of `rsp_pkt_recv`. -/
def pktRecvLoop : List Recv → Buf → Nat → Nat → Option (Int × Buf)
  | [], _, _, _ => none
  | .fail err :: _, pkt, _, _ => some (err, pkt)
  | .data bytes :: rest, pkt, pos, rem =>
      let n := bytes.length
      let pkt := store pkt pos bytes
      match scan (fun i => pkt (pos + i)) n 0 with
      | some i => some (pos + i, pkt)
      | none =>
          let rem := rem - n
          if rem = 0 then some (-1, pkt) else pktRecvLoop rest pkt pos rem

/-- `rsp_pkt_recv`: the value returned and the buffer left. -/
def rspPktRecv (results : List Recv) (pkt : Buf) (max : Nat) : Option (Int × Buf) :=
  pktRecvLoop results pkt 0 max

/-! ## One result -/

theorem store_at (pkt : Buf) (pos : Nat) (bytes : List Byte) {i : Nat} (hi : i < bytes.length) :
    store pkt pos bytes (pos + i) = bytes[i] := by
  rw [store, if_pos ⟨Nat.le_add_right _ _, Nat.add_lt_add_left hi _⟩, Nat.add_sub_cancel_left]
  simp [hi]

theorem scan_none {cp : Buf} {left i : Nat} (h : ∀ j < left, cp (i + j) ≠ hash) :
    scan cp left i = none := by
  induction left generalizing i with
  | zero => rfl
  | succ left ih =>
      have h0 : cp i ≠ hash := h 0 (Nat.succ_pos left)
      rw [scan, if_neg h0]
      apply ih
      intro j hj
      rw [Nat.add_assoc, Nat.add_comm 1 j]
      exact h (j + 1) (Nat.succ_lt_succ hj)

theorem scan_some {cp : Buf} {left i k : Nat} (hk : k < left) (hhash : cp (i + k) = hash)
    (h : ∀ j < k, cp (i + j) ≠ hash) : scan cp left i = some (i + k) := by
  induction left generalizing i k with
  | zero => exact absurd hk (Nat.not_lt_zero k)
  | succ left ih =>
      cases k with
      | zero => exact if_pos hhash
      | succ k =>
          have hshift : ∀ j, i + (j + 1) = i + 1 + j := by omega
          have h0 : cp i ≠ hash := h 0 (Nat.succ_pos k)
          rw [scan, if_neg h0, hshift k]
          apply ih (Nat.lt_of_succ_lt_succ hk)
          · rw [← hshift]
            exact hhash
          · intro j hj
            rw [← hshift]
            exact h (j + 1) (Nat.succ_lt_succ hj)

section Results

variable {bytes text tail : List Byte} {rest : List Recv} {pkt : Buf} {rem : Nat}

/-- A result with the `#` ends the reception at its own position of the `#`. -/
theorem pktRecvLoop_hash (htext : hash ∉ text) (hb : bytes = text ++ hash :: tail) :
    pktRecvLoop (.data bytes :: rest) pkt 0 rem =
      some ((text.length : Int), store pkt 0 bytes) := by
  have hget : ∀ j (hj : j < bytes.length), store pkt 0 bytes (0 + j) = bytes[j] :=
    fun j hj => store_at pkt 0 bytes hj
  have hscan : scan (fun i => store pkt 0 bytes (0 + i)) bytes.length 0 =
      some (0 + text.length) := by
    subst hb
    apply scan_some (by simp)
    · rw [Nat.zero_add text.length, hget _ (by simp)]
      simp
    · intro j hj heq
      rw [Nat.zero_add j, hget _ (by simp; omega), List.getElem_append_left hj] at heq
      exact htext (heq ▸ List.getElem_mem hj)
  simp only [pktRecvLoop, hscan]
  simp

/-- A result without the `#` is dropped: the next one is stored over it. -/
theorem pktRecvLoop_text (htext : hash ∉ bytes) (hlt : bytes.length < rem) :
    pktRecvLoop (.data bytes :: rest) pkt 0 rem =
      pktRecvLoop rest (store pkt 0 bytes) 0 (rem - bytes.length) := by
  have hscan : scan (fun i => store pkt 0 bytes (0 + i)) bytes.length 0 = none := by
    apply scan_none
    intro j hj heq
    rw [Nat.zero_add j, store_at pkt 0 bytes hj] at heq
    exact htext (heq ▸ List.getElem_mem hj)
  have hrem : rem - bytes.length ≠ 0 := by omega
  simp only [pktRecvLoop, hscan, if_neg hrem]

end Results

/-! ## Segmentation -/

/-- The results with which `tcp_recv` delivers a packet up to its `#`: the stream is cut
anywhere, and no more than asked is delivered. -/
structure Delivered (payload digits : List Byte) (chunks : List (List Byte)) : Prop where
  nonempty : ∀ c ∈ chunks, c ≠ []
  stream : chunks.flatten <+: payload ++ hash :: digits
  complete : payload.length < chunks.flatten.length
  fits : chunks.flatten.length ≤ rspBufferLen

/-- `rsp_pkt_recv` returns the length of the payload and leaves it in the buffer. -/
def Received (payload : List Byte) (chunks : List (List Byte)) (pkt : Buf) : Prop :=
  ∃ pkt', rspPktRecv (chunks.map .data) pkt rspBufferLen = some ((payload.length : Int), pkt') ∧
    ∀ i (hi : i < payload.length), pkt' i = payload[i]

section Segmentation

variable {c payload digits : List Byte} {cs : List (List Byte)}

theorem chunk_of_hash (h : (c ++ cs.flatten) <+: payload ++ hash :: digits)
    (hlt : payload.length < c.length) : ∃ tail, c = payload ++ hash :: tail := by
  obtain ⟨rest, hrest⟩ := h
  obtain ⟨t, ht, htail⟩ | ⟨t, ht, htail⟩ :=
    List.append_eq_append_iff.mp ((List.append_assoc _ _ _).symm.trans hrest)
  · rw [ht, List.length_append] at hlt
    omega
  · cases t with
    | nil =>
        rw [ht] at hlt
        simp at hlt
    | cons x t =>
        rw [List.cons_append, List.cons.injEq] at htail
        exact ⟨t, by rw [ht, htail.1]⟩

theorem payload_of_chunk (h : (c ++ cs.flatten) <+: payload ++ hash :: digits)
    (hle : c.length ≤ payload.length) :
    ∃ rest, payload = c ++ rest ∧ cs.flatten <+: rest ++ hash :: digits := by
  have hc : c <+: payload := by
    apply List.prefix_of_prefix_length_le _ (List.prefix_append payload (hash :: digits)) hle
    exact (List.prefix_append c cs.flatten).trans h
  obtain ⟨rest, rfl⟩ := hc
  refine ⟨rest, rfl, ?_⟩
  rw [List.append_assoc] at h
  exact (List.prefix_append_right_inj c).mp h

/-- Wherever the stream is cut, the value returned is the position of the `#` in its own
result. -/
theorem pktRecvLoop_le (rem : Nat) (pkt : Buf) (hp : hash ∉ payload)
    (hs : cs.flatten <+: payload ++ hash :: digits) (hc : payload.length < cs.flatten.length)
    (hf : cs.flatten.length ≤ rem) :
    ∃ (i : Nat) (pkt' : Buf), pktRecvLoop (cs.map .data) pkt 0 rem = some ((i : Int), pkt') ∧
      i ≤ payload.length := by
  induction cs generalizing payload rem pkt with
  | nil => simp at hc
  | cons c cs ih =>
      rw [List.flatten_cons] at hs hc hf
      rw [List.length_append] at hc hf
      by_cases hlt : payload.length < c.length
      · obtain ⟨tail, hb⟩ := chunk_of_hash hs hlt
        exact ⟨payload.length, _, pktRecvLoop_hash hp hb, le_rfl⟩
      · obtain ⟨rest, rfl, hs'⟩ := payload_of_chunk hs (Nat.not_lt.mp hlt)
        rw [List.length_append] at hc
        rw [List.mem_append, not_or] at hp
        obtain ⟨i, pkt', hrun, hi⟩ := ih (rem - c.length) (store pkt 0 c)
          hp.2 hs' (by omega) (by omega)
        refine ⟨i, pkt', ?_, by rw [List.length_append]; omega⟩
        rw [List.map_cons, pktRecvLoop_text hp.1 (by omega)]
        exact hrun

/-- The length of a packet is returned if its `#` comes with the first result of `tcp_recv`,
which is then what the buffer holds. -/
theorem rspPktRecv_length_iff {chunks : List (List Byte)} {pkt pkt' : Buf} (hp : hash ∉ payload)
    (h : Delivered payload digits chunks) :
    rspPktRecv (chunks.map .data) pkt rspBufferLen = some ((payload.length : Int), pkt') ↔
      ∃ rest tail, chunks = (payload ++ hash :: tail) :: rest ∧
        pkt' = store pkt 0 (payload ++ hash :: tail) := by
  obtain ⟨hne, hs, hc, hf⟩ := h
  cases chunks with
  | nil => simp at hc
  | cons c cs =>
      rw [List.flatten_cons] at hs hc hf
      rw [List.length_append] at hc hf
      constructor
      · intro hrun
        by_cases hlt : payload.length < c.length
        · obtain ⟨tail, rfl⟩ := chunk_of_hash hs hlt
          rw [rspPktRecv, List.map_cons, pktRecvLoop_hash hp rfl, Option.some.injEq,
            Prod.mk.injEq] at hrun
          exact ⟨cs, tail, rfl, hrun.2.symm⟩
        · obtain ⟨rest, rfl, hs'⟩ := payload_of_chunk hs (Nat.not_lt.mp hlt)
          rw [List.length_append] at hc
          rw [List.mem_append, not_or] at hp
          obtain ⟨i, pkt'', hrun', hi⟩ := pktRecvLoop_le (rspBufferLen - c.length)
            (store pkt 0 c) hp.2 hs' (by omega) (by omega)
          rw [rspPktRecv, List.map_cons, pktRecvLoop_text hp.1 (by omega), hrun',
            Option.some.injEq, Prod.mk.injEq, List.length_append] at hrun
          have hpos : 0 < c.length := List.length_pos_iff.mpr (hne c List.mem_cons_self)
          omega
      · rintro ⟨rest, tail, heq, rfl⟩
        obtain ⟨rfl, rfl⟩ := List.cons.inj heq
        exact pktRecvLoop_hash hp rfl

theorem store_text (pkt : Buf) (payload tail : List Byte) {i : Nat} (hi : i < payload.length) :
    store pkt 0 (payload ++ tail) i = payload[i] := by
  have hstore := store_at pkt 0 (payload ++ tail) (i := i) (by rw [List.length_append]; omega)
  rw [Nat.zero_add] at hstore
  rw [hstore, List.getElem_append_left hi]

/-- A packet is received exactly if its `#` comes with the first result of `tcp_recv`. -/
theorem rspPktRecv_iff (payload digits : List Byte) (chunks : List (List Byte)) (pkt : Buf)
    (hp : hash ∉ payload) (h : Delivered payload digits chunks) :
    Received payload chunks pkt ↔
      ∃ first rest, chunks = first :: rest ∧ payload.length < first.length := by
  constructor
  · rintro ⟨pkt', hrun, -⟩
    obtain ⟨rest, tail, rfl, -⟩ := (rspPktRecv_length_iff hp h).mp hrun
    exact ⟨_, rest, rfl, by simp⟩
  · rintro ⟨first, rest, rfl, hlt⟩
    obtain ⟨tail, rfl⟩ := chunk_of_hash h.stream hlt
    exact ⟨_, (rspPktRecv_length_iff hp h).mpr ⟨rest, tail, rfl, rfl⟩,
      fun i hi => store_text pkt payload _ hi⟩

end Segmentation

/-- `m0,4` in one piece. -/
theorem rspPktRecv_iff_whole :
    Received [0x6d, 0x30, 0x2c, 0x34] [[0x6d, 0x30, 0x2c, 0x34, 0x23, 0x66, 0x64]]
      (fun _ => 0) := by
  apply (rspPktRecv_iff _ [0x66, 0x64] _ _ (by decide) ?_).mpr
  · exact ⟨_, _, rfl, by decide⟩
  · exact ⟨by decide, by decide, by decide, by decide⟩

/-- `m0,4` cut after its second byte. -/
theorem rspPktRecv_cut :
    ¬ ∀ (payload digits : List Byte) (chunks : List (List Byte)) (pkt : Buf),
      hash ∉ payload → payload.length ≤ rspBufferLen - 1 → digits.length = 2 →
      Delivered payload digits chunks → Received payload chunks pkt := by
  intro h
  obtain ⟨pkt', hrun, -⟩ := h [0x6d, 0x30, 0x2c, 0x34] [0x66, 0x64]
    [[0x6d, 0x30], [0x2c, 0x34, 0x23, 0x66, 0x64]] (fun _ => 0) (by decide) (by decide) rfl
    ⟨by decide, by decide, by decide, by decide⟩
  have hlen : (rspPktRecv ([[0x6d, 0x30], [0x2c, 0x34, 0x23, 0x66, 0x64]].map .data)
      (fun _ => 0) rspBufferLen).map Prod.fst = some 4 := by
    rw [hrun]
    rfl
  exact absurd hlen (by decide)

end YardIce.Gdb
