import Mathlib.Data.BitVec
import Mathlib.Tactic.Ring

/-!
# Sequence space

Positions in a circular space of `w`-bit words, counted from a base. Two positions
that lie less than half a turn from the base compare as the signed difference of
their words, which is how serial numbers are compared.
-/

namespace YardIce.Lib

variable {w : Nat} (a : BitVec w) {i j : Nat}

theorem offset_sub_offset (i j : Nat) :
    a + BitVec.ofNat w i - (a + BitVec.ofNat w j) = BitVec.ofInt w ((i : Int) - j) := by
  rw [sub_eq_add_neg (i : Int), BitVec.ofInt_add, BitVec.ofInt_neg, BitVec.ofInt_natCast,
    BitVec.ofInt_natCast]
  ring

/-- The signed difference of two positions within half a turn of the base. -/
theorem toInt_offset_sub_offset (hi : 2 * i < 2 ^ w) (hj : 2 * j < 2 ^ w) :
    (a + BitVec.ofNat w i - (a + BitVec.ofNat w j)).toInt = (i : Int) - j := by
  rw [offset_sub_offset, BitVec.toInt_ofInt]
  generalize 2 ^ w = m at hi hj ⊢
  apply Int.bmod_eq_of_le_mul_two <;> omega

theorem toInt_offset_sub (hi : 2 * i < 2 ^ w) : (a + BitVec.ofNat w i - a).toInt = i := by
  have h := toInt_offset_sub_offset a hi (j := 0) (by omega)
  simpa using h

theorem offset_add_offset (i j : Nat) :
    a + BitVec.ofNat w i + BitVec.ofNat w j = a + BitVec.ofNat w (i + j) := by
  rw [BitVec.ofNat_add, add_assoc]

theorem toNat_offset_sub (hi : i < 2 ^ w) : (a + BitVec.ofNat w i - a).toNat = i := by
  rw [add_sub_cancel_left, BitVec.toNat_ofNat, Nat.mod_eq_of_lt hi]

end YardIce.Lib
