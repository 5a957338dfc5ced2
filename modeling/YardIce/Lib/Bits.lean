import Mathlib.Data.BitVec

/-!
# Single bits of a word

Allocation and presence bitmaps are words in which one bit is set, cleared or
tested at a time.
-/

namespace YardIce.Lib

theorem getLsbD_bit {i : Nat} (hi : i < 32) (j : Nat) :
    (1#32 <<< i).getLsbD j = decide (j = i) := by
  rw [← BitVec.twoPow_eq, BitVec.getLsbD_twoPow]
  simp [hi, eq_comm]

theorem getLsbD_set (x : BitVec 32) {i : Nat} (hi : i < 32) (j : Nat) :
    (x ||| (1#32 <<< i)).getLsbD j = true ↔ j = i ∨ x.getLsbD j = true := by
  rw [BitVec.getLsbD_or, getLsbD_bit hi]
  simp [or_comm]

theorem getLsbD_clr (x : BitVec 32) {i : Nat} (hi : i < 32) (j : Nat) :
    (x &&& ~~~(1#32 <<< i)).getLsbD j = true ↔ x.getLsbD j = true ∧ j ≠ i := by
  rw [BitVec.getLsbD_and, BitVec.getLsbD_not, getLsbD_bit hi]
  have hlt : x.getLsbD j = true → j < 32 := BitVec.lt_of_getLsbD
  simp only [Bool.and_eq_true, decide_eq_true_eq, Bool.not_eq_true', decide_eq_false_iff_not]
  constructor
  · rintro ⟨hx, -, hne⟩
    exact ⟨hx, hne⟩
  · rintro ⟨hx, hne⟩
    exact ⟨hx, hlt hx, hne⟩

theorem and_bit_ne_zero {x : BitVec 32} {i : Nat} (hi : i < 32) (hx : x.getLsbD i = true) :
    x &&& (1#32 <<< i) ≠ 0 := by
  intro h
  have hbit := congrArg (fun y => y.getLsbD i) h
  simp only [BitVec.getLsbD_and, hx, getLsbD_bit hi] at hbit
  simp at hbit

end YardIce.Lib
