import YardIce.Lib.Ring
import YardIce.IceComm.Channel

/-!
# The two rings of the trace channel

What the stores of the target leave in the ring of the block, and what one call of
`ice_comm_read` takes out of the queue.
-/

namespace YardIce.IceComm

open YardIce.Lib

/-! ## Stores into the block -/

theorem extract_word_place (j : BitVec 4) (i : BitVec 2) : (place j i).extractLsb' 2 4 = j := by
  apply BitVec.eq_of_getLsbD_eq
  intro n hn
  simp only [place, BitVec.getLsbD_extractLsb', BitVec.getLsbD_append, hn, decide_true,
    Bool.true_and]
  rw [if_neg (by lia)]
  congr 1
  lia

theorem extract_byte_place (j : BitVec 4) (i : BitVec 2) : (place j i).extractLsb' 0 2 = i := by
  apply BitVec.eq_of_getLsbD_eq
  intro n hn
  simp only [place, BitVec.getLsbD_extractLsb', BitVec.getLsbD_append, hn, decide_true,
    Bool.true_and]
  rw [if_pos (by lia), Nat.zero_add]

theorem place_inj {j j' : BitVec 4} {i i' : BitVec 2} :
    place j i = place j' i' ↔ j = j' ∧ i = i' := by
  constructor
  · intro h
    have hj := extract_word_place j i
    have hi := extract_byte_place j i
    rw [h, extract_word_place] at hj
    rw [h, extract_byte_place] at hi
    exact ⟨hj.symm, hi.symm⟩
  · rintro ⟨rfl, rfl⟩
    rfl

theorem ofBytes_byteOf (w : Word) :
    ofBytes (byteOf w 0) (byteOf w 1) (byteOf w 2) (byteOf w 3) = w := by
  apply BitVec.eq_of_getLsbD_eq
  intro n hn
  simp only [ofBytes, byteOf, BitVec.getLsbD_append, BitVec.getLsbD_extractLsb']
  obtain h | h | h | h : n < 8 ∨ (8 ≤ n ∧ n < 16) ∨ (16 ≤ n ∧ n < 24) ∨ 24 ≤ n := by lia
  · simp [h]
  · have h₁ : ¬ n < 8 := by lia
    have h₂ : n - 8 < 8 := by lia
    simp [h₁, h₂, Nat.add_sub_cancel' h.1]
  · have h₁ : ¬ n < 8 := by lia
    have h₂ : ¬ n - 8 < 8 := by lia
    have h₃ : n - 8 - 8 < 8 := by lia
    have h₄ : 16 + (n - 8 - 8) = n := by lia
    simp [h₁, h₂, h₃, h₄]
  · have h₁ : ¬ n < 8 := by lia
    have h₂ : ¬ n - 8 < 8 := by lia
    have h₃ : ¬ n - 8 - 8 < 8 := by lia
    have h₄ : n - 8 - 8 - 8 < 8 := by lia
    have h₅ : 24 + (n - 8 - 8 - 8) = n := by lia
    simp [h₁, h₂, h₃, h₄, h₅]

/-- Storing a word changes its slot only. -/
theorem u32_store_u32 (buf : TxBuf) (j : BitVec 4) (w : Word) :
    (buf.store (.u32 j w)).u32 = Function.update buf.u32 j w := by
  funext j'
  simp only [TxBuf.u32, TxBuf.store, extract_word_place, extract_byte_place]
  by_cases h : j' = j
  · subst h
    simp only [if_true, ofBytes_byteOf, Function.update_self]
  · simp only [if_neg h, Function.update_of_ne h]
    rfl

/-- Storing the bytes of a slot one by one is storing the word they make. -/
theorem u32_store_bytes (buf : TxBuf) (j : BitVec 4) (b₀ b₁ b₂ b₃ : Byte) :
    ((((buf.store (.u8 (place j 0) b₀)).store (.u8 (place j 1) b₁)).store
      (.u8 (place j 2) b₂)).store (.u8 (place j 3) b₃)).u32 =
        Function.update buf.u32 j (ofBytes b₀ b₁ b₂ b₃) := by
  funext j'
  by_cases h : j' = j
  · subst h
    simp [TxBuf.u32, TxBuf.store, place_inj]
  · simp [TxBuf.u32, TxBuf.store, place_inj, h]

/-- The slot that a store touches. -/
def Store.slot : Store → BitVec 4
  | .u32 j _ => j
  | .u8 p _ => p.extractLsb' 2 4

theorem u32_store_of_ne (buf : TxBuf) (s : Store) {j : BitVec 4} (h : j ≠ s.slot) :
    (buf.store s).u32 j = buf.u32 j := by
  cases s with
  | u32 j' w =>
      rw [u32_store_u32]
      exact Function.update_of_ne h w buf.u32
  | u8 p b =>
      have hne : ∀ i, place j i ≠ p := by
        rintro i rfl
        exact h (extract_word_place j i).symm
      simp [TxBuf.u32, TxBuf.store, hne]

/-! ## Filling the ring -/

/-- The stores put the words behind the entries of the log, in slots that are free. -/
structure Fills (buf : TxBuf) (h acked : Nat) (log ws : List Word) (stores : List Store) :
    Prop where
  free : ∀ s ∈ stores, ∃ i < ws.length, s.slot = BitVec.ofNat 4 (h + (log.length + i))
  result : Ring.Holds (stores.foldl TxBuf.store buf).u32 h (log ++ ws) acked

section Fills

variable {buf : TxBuf} {h acked : Nat} {log ws : List Word}

theorem Fills.mono {stores : List Store} (hf : Fills buf h acked log ws stores)
    {acked' : Nat} (hle : acked ≤ acked') : Fills buf h acked' log ws stores :=
  ⟨hf.free, hf.result.mono hle⟩

theorem Fills.tail {s : Store} {stores : List Store}
    (hf : Fills buf h acked log ws (s :: stores)) :
    Fills (buf.store s) h acked log ws stores :=
  ⟨fun s' hs' => hf.free s' (List.mem_cons_of_mem s hs'), hf.result⟩

/-- The entries that are there survive a store. -/
theorem Fills.head {s : Store} {stores : List Store}
    (hf : Fills buf h acked log ws (s :: stores)) (hroom : log.length + ws.length ≤ acked + 16)
    (hold : Ring.Holds buf.u32 h log acked) : Ring.Holds (buf.store s).u32 h log acked := by
  intro i hi hle
  obtain ⟨k, hk, hs⟩ := hf.free s List.mem_cons_self
  have hne : BitVec.ofNat 4 (h + i) ≠ s.slot := by
    rw [hs]
    exact Ring.counter_ne (by lia) (by lia)
  rw [u32_store_of_ne buf s hne]
  exact hold i hi hle

theorem setWidth_head (p : Nat) : (BitVec.ofNat 16 p).setWidth 4 = BitVec.ofNat 4 p :=
  Ring.setWidth_counter (by decide) p

theorem head_succ (p : Nat) : BitVec.ofNat 16 p + 1 = BitVec.ofNat 16 (p + 1) :=
  Ring.counter_succ p

/-- The stores of an `ice_trace` function. -/
theorem traceStores_result (hold : Ring.Holds buf.u32 h log acked)
    (hroom : log.length + ws.length ≤ acked + 16) :
    Ring.Holds ((traceStores (BitVec.ofNat 16 (h + log.length)) ws).foldl TxBuf.store buf).u32 h
      (log ++ ws) acked := by
  induction ws generalizing buf log with
  | nil => simpa [traceStores] using hold
  | cons w ws ih =>
      have hpush := hold.push (by simp only [List.length_cons] at hroom; lia) w
      rw [← setWidth_head, ← u32_store_u32] at hpush
      have hrest := ih hpush (by simp only [List.length_append, List.length_cons,
        List.length_nil] at hroom ⊢; lia)
      rw [traceStores, List.foldl_cons, head_succ, Nat.add_assoc]
      simpa using hrest

theorem traceStores_slot {p : Nat} {s : Store}
    (hs : s ∈ traceStores (BitVec.ofNat 16 p) ws) :
    ∃ i < ws.length, s.slot = BitVec.ofNat 4 (p + i) := by
  induction ws generalizing p with
  | nil => exact absurd hs List.not_mem_nil
  | cons w ws ih =>
      rw [traceStores, head_succ, List.mem_cons] at hs
      obtain rfl | hs := hs
      · exact ⟨0, Nat.zero_lt_succ _, setWidth_head p⟩
      · obtain ⟨i, hi, hslot⟩ := ih hs
        refine ⟨i + 1, Nat.succ_lt_succ hi, ?_⟩
        rw [hslot]
        congr 1
        lia

theorem traceStores_fills (hold : Ring.Holds buf.u32 h log acked)
    (hroom : log.length + ws.length ≤ acked + 16) :
    Fills buf h acked log ws (traceStores (BitVec.ofNat 16 (h + log.length)) ws) where
  free s hs := by
    obtain ⟨i, hi, hslot⟩ := traceStores_slot hs
    exact ⟨i, hi, by rw [hslot, Nat.add_assoc]⟩
  result := traceStores_result hold hroom

/-! ## Bytes -/

theorem place_eq (p : Nat) (i : BitVec 2) :
    place (BitVec.ofNat 4 p) i = BitVec.ofNat 6 (4 * p + i.toNat) := by
  apply BitVec.eq_of_toNat_eq
  have hi := i.isLt
  rw [place, BitVec.toNat_append, BitVec.toNat_ofNat, BitVec.toNat_ofNat,
    ← Nat.shiftLeft_add_eq_or_of_lt hi, Nat.shiftLeft_eq]
  lia

/-- Four bytes are one word. -/
theorem ioStores_word (p : Nat) (b₀ b₁ b₂ b₃ : Byte) (bs : List Byte) :
    (ioStores (BitVec.ofNat 6 (4 * p)) (b₀ :: b₁ :: b₂ :: b₃ :: bs)) =
      .u8 (place (BitVec.ofNat 4 p) 0) b₀ :: .u8 (place (BitVec.ofNat 4 p) 1) b₁ ::
        .u8 (place (BitVec.ofNat 4 p) 2) b₂ :: .u8 (place (BitVec.ofNat 4 p) 3) b₃ ::
          ioStores (BitVec.ofNat 6 (4 * (p + 1))) bs := by
  have h (i : Nat) : BitVec.ofNat 6 i + 1 = BitVec.ofNat 6 (i + 1) := Ring.counter_succ i
  simp only [ioStores, place_eq, h]
  rfl

theorem ioStores_result {bs : List Byte} (hlen : 4 ∣ bs.length)
    (hold : Ring.Holds buf.u32 h log acked)
    (hroom : log.length + (wordsOfBytes bs).length ≤ acked + 16) :
    Ring.Holds ((ioStores (BitVec.ofNat 6 (4 * (h + log.length))) bs).foldl TxBuf.store buf).u32
      h (log ++ wordsOfBytes bs) acked := by
  induction bs using wordsOfBytes.induct generalizing buf log with
  | case1 b₀ b₁ b₂ b₃ bs ih =>
      rw [wordsOfBytes, List.length_cons] at hroom
      have hpush := hold.push (by lia) (ofBytes b₀ b₁ b₂ b₃)
      rw [← u32_store_bytes] at hpush
      have hrest := ih (by simp only [List.length_cons] at hlen; lia) hpush
        (by simp only [List.length_append, List.length_cons, List.length_nil]; lia)
      rw [wordsOfBytes, ioStores_word, Nat.add_assoc]
      simpa using hrest
  | case2 bs hne =>
      -- fewer than four bytes are none
      match bs, hne with
      | [], _ => simpa [wordsOfBytes, ioStores] using hold
      | [_], _ | [_, _], _ | [_, _, _], _ => simp at hlen
      | b₀ :: b₁ :: b₂ :: b₃ :: bs, hne => exact absurd rfl (hne b₀ b₁ b₂ b₃ bs)

theorem length_wordsOfBytes {bs : List Byte} (hlen : 4 ∣ bs.length) :
    4 * (wordsOfBytes bs).length = bs.length := by
  induction bs using wordsOfBytes.induct with
  | case1 b₀ b₁ b₂ b₃ bs ih =>
      simp only [List.length_cons] at hlen
      have := ih (by lia)
      simp only [wordsOfBytes, List.length_cons]
      lia
  | case2 bs hne =>
      match bs, hne with
      | [], _ => rfl
      | [_], _ | [_, _], _ | [_, _, _], _ => simp at hlen
      | b₀ :: b₁ :: b₂ :: b₃ :: bs, hne => exact absurd rfl (hne b₀ b₁ b₂ b₃ bs)

end Fills

/-! ## Reading the queue -/

/-- The two pieces are the words that are there, or as many as there is room for. -/
theorem span_sum (p avail max : Nat) (hpos : 0 < avail) (hfull : avail ≤ 512) :
    (span (p % 512) ((p + avail) % 512) max).1 + (span (p % 512) ((p + avail) % 512) max).2 =
      min max avail := by
  simp only [span]
  split_ifs <;> dsimp only <;> lia

/-- A second piece begins where the buffer ends. -/
theorem span_wrap (p avail max : Nat) (_ : 0 < avail) (_ : avail ≤ 512)
    (h : (span (p % 512) ((p + avail) % 512) max).2 ≠ 0) :
    (p + (span (p % 512) ((p + avail) % 512) max).1) % 512 = 0 := by
  simp only [span] at h ⊢
  split_ifs at h ⊢ <;> dsimp only at h ⊢ <;> lia

section Copied

variable {buf : BitVec 9 → Word} {r i q : Nat}

theorem copied_eq (hpos : i < q) (hfull : q ≤ i + 512) (len : Nat) :
    copied buf (BitVec.ofNat 32 (r + i)) (BitVec.ofNat 32 (r + q)) len =
      (List.range (min (len / 4) (q - i))).map fun j => buf (BitVec.ofNat 9 (r + (i + j))) := by
  have hq : r + q = r + i + (q - i) := by lia
  have hm (x : Nat) : ((BitVec.ofNat 32 x).setWidth 9).toNat = x % 512 := by
    rw [Ring.setWidth_counter (by decide), BitVec.toNat_ofNat]
  have hsum := span_sum (r + i) (q - i) (len / 4) (by lia) (by lia)
  have hwrap := span_wrap (r + i) (q - i) (len / 4) (by lia) (by lia)
  simp only [copied, hm, hq]
  generalize span ((r + i) % 512) ((r + i + (q - i)) % 512) (len / 4) = nm at hsum hwrap ⊢
  rw [← hsum, List.range_add, List.map_append, List.map_map]
  congr 1
  · apply List.map_congr_left
    intro j _
    rw [Ring.setWidth_counter (by decide), Ring.counter_add, Nat.add_assoc]
  · apply List.map_congr_left
    intro j hj
    have hz := hwrap (Nat.ne_of_gt (Nat.lt_of_le_of_lt (Nat.zero_le j) (List.mem_range.mp hj)))
    have hidx : BitVec.ofNat 9 j = BitVec.ofNat 9 (r + (i + (nm.1 + j))) := by
      apply BitVec.eq_of_toNat_eq
      simp only [BitVec.toNat_ofNat]
      lia
    simp only [Function.comp_apply, hidx]

/-- A call of `ice_comm_read` copies the next words, up to the head it has seen. -/
theorem copied_take {log : List Word} (hold : Ring.Holds buf r log i) (hpos : i < q)
    (hfull : q ≤ i + 512) (hq : q ≤ log.length) (len : Nat) :
    copied buf (BitVec.ofNat 32 (r + i)) (BitVec.ofNat 32 (r + q)) len =
      (log.drop i).take (min (len / 4) (q - i)) := by
  rw [copied_eq hpos hfull]
  exact hold.read (by lia)

end Copied

end YardIce.IceComm
