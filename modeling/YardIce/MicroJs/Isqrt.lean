import Mathlib.Data.BitVec
import Mathlib.Data.Nat.Sqrt
import Mathlib.Tactic.Ring

/-!
# The square root of the scripts

`__isqrt` takes two bits of its argument a turn, and keeps the root twofold.
-/

namespace YardIce.MicroJs

/-- The variables of `__isqrt`. -/
structure Isqrt where
  x : BitVec 32
  rem : BitVec 32
  root : BitVec 32

/-- A turn of the loop of `__isqrt`. -/
def Isqrt.turn (s : Isqrt) : Isqrt :=
  let root := s.root <<< 1
  let rem := (s.rem <<< 2) + (s.x >>> 30)
  let x := s.x <<< 2
  let root := root + 1
  if root ≤ rem then ⟨x, rem - root, root + 1⟩ else ⟨x, rem, root - 1⟩

theorem Isqrt.turn_of_le {s : Isqrt}
    (h : s.root <<< 1 + (1 : BitVec 32) ≤ s.rem <<< 2 + s.x >>> 30) :
    s.turn = ⟨s.x <<< 2, s.rem <<< 2 + s.x >>> 30 - (s.root <<< 1 + 1), s.root <<< 1 + 1 + 1⟩ :=
  if_pos h

theorem Isqrt.turn_of_not_le {s : Isqrt}
    (h : ¬ s.root <<< 1 + (1 : BitVec 32) ≤ s.rem <<< 2 + s.x >>> 30) :
    s.turn = ⟨s.x <<< 2, s.rem <<< 2 + s.x >>> 30, s.root <<< 1 + 1 - 1⟩ :=
  if_neg h

/-- The variables after some turns. -/
def Isqrt.turns (x : BitVec 32) : Nat → Isqrt
  | 0 => ⟨x, 0, 0⟩
  | n + 1 => (turns x n).turn

/-- `__isqrt`, with `argv[0]`: what `retv[0]` is. -/
def isqrt (x : BitVec 32) : BitVec 32 := (Isqrt.turns x 16).root >>> 1

/-! ## Two bits more -/

/-- The root of a number with two bits more, by the test of a turn. -/
theorem sqrt_four_mul_add (t : Nat) {d : Nat} (hd : d < 4) :
    Nat.sqrt (4 * t + d) =
      if 4 * t.sqrt + 1 ≤ 4 * (t - t.sqrt * t.sqrt) + d then 2 * t.sqrt + 1 else 2 * t.sqrt := by
  have hle := Nat.sqrt_le t
  have hlt := Nat.lt_succ_sqrt t
  generalize t.sqrt = r at hle hlt ⊢
  have hsucc : (r + 1) * (r + 1) = r * r + 2 * r + 1 := by ring
  rw [Nat.succ_eq_add_one, hsucc] at hlt
  have hdouble : 2 * r * (2 * r) = 4 * (r * r) := by ring
  have hodd : (2 * r + 1) * (2 * r + 1) = 4 * (r * r) + 4 * r + 1 := by ring
  have heven : (2 * r + 1 + 1) * (2 * r + 1 + 1) = 4 * (r * r) + 8 * r + 4 := by ring
  symm
  split_ifs with hroot
  · exact Nat.eq_sqrt.mpr ⟨by omega, by omega⟩
  · exact Nat.eq_sqrt.mpr ⟨by omega, by omega⟩

theorem sqrt_lt_two_pow {t n : Nat} (h : t < 4 ^ n) : t.sqrt < 2 ^ n := by
  refine Nat.sqrt_lt.mpr (h.trans_eq ?_)
  rw [← Nat.mul_pow]

/-! ## The turns -/

/-- When `k` turns are left: the root and the rest of the bits that were taken, and the bits that
were not. -/
structure Isqrt.Taken (arg : BitVec 32) (k : Nat) (s : Isqrt) : Prop where
  x : s.x.toNat = arg.toNat % 4 ^ k * 4 ^ (16 - k)
  rem : s.rem.toNat = arg.toNat / 4 ^ k - (arg.toNat / 4 ^ k).sqrt * (arg.toNat / 4 ^ k).sqrt
  root : s.root.toNat = 2 * (arg.toNat / 4 ^ k).sqrt

namespace Isqrt.Taken

variable {x : BitVec 32} {k : Nat} {s : Isqrt}

theorem top_lt (x : BitVec 32) (hk : k ≤ 16) : x.toNat / 4 ^ k < 4 ^ (16 - k) := by
  refine Nat.div_lt_of_lt_mul ?_
  rw [← Nat.pow_add, Nat.add_sub_cancel' hk]
  exact x.isLt

theorem sqrt_lt (x : BitVec 32) (hk : k ≤ 16) : (x.toNat / 4 ^ k).sqrt < 2 ^ 16 :=
  (sqrt_lt_two_pow (top_lt x hk)).trans_le (Nat.pow_le_pow_right (by decide) (Nat.sub_le 16 k))

theorem rem_le (h : Taken x k s) : s.rem.toNat ≤ 2 * (x.toNat / 4 ^ k).sqrt := by
  have hlt := Nat.sqrt_le_add (x.toNat / 4 ^ k)
  rw [h.rem]
  omega

/-- The shift of `root` loses no bit. -/
theorem root_shift (h : Taken x k s) (hk : k ≤ 16) :
    (s.root <<< 1).toNat = 2 * s.root.toNat := by
  have hlt := sqrt_lt x hk
  have hroot := h.root
  rw [BitVec.toNat_shiftLeft, Nat.shiftLeft_eq, Nat.mod_eq_of_lt (by omega)]
  omega

/-- The shift of `rem` loses no bit. -/
theorem rem_shift (h : Taken x k s) (hk : k ≤ 16) :
    (s.rem <<< 2).toNat = 4 * s.rem.toNat := by
  have hlt := sqrt_lt x hk
  have hrem := h.rem_le
  rw [BitVec.toNat_shiftLeft, Nat.shiftLeft_eq, Nat.mod_eq_of_lt (by omega)]
  omega

/-- The two bits that a turn takes. -/
theorem top_bits (h : Taken x (k + 1) s) (hk : k < 16) :
    (s.x >>> 30).toNat = x.toNat / 4 ^ k % 4 := by
  have hpow : 4 ^ k * 4 ^ (15 - k) = 2 ^ 30 := by
    rw [← Nat.pow_add, show k + (15 - k) = 15 by omega]
    rfl
  rw [BitVec.toNat_ushiftRight, Nat.shiftRight_eq_div_pow, h.x, ← hpow,
    show 16 - (k + 1) = 15 - k by omega, Nat.mul_div_mul_right _ _ (Nat.pow_pos (by decide)),
    Nat.pow_succ, Nat.mod_mul_right_div_self]

/-- The bits that are left behind a turn. -/
theorem low_bits (h : Taken x (k + 1) s) (hk : k < 16) :
    (s.x <<< 2).toNat = x.toNat % 4 ^ k * 4 ^ (16 - k) := by
  have hpow : (2 : Nat) ^ 32 = 4 ^ k * 4 ^ (16 - k) := by
    rw [← Nat.pow_add, show k + (16 - k) = 16 by omega]
    rfl
  have hx : x.toNat % 4 ^ (k + 1) * 4 ^ (15 - k) * 2 ^ 2 =
      x.toNat % 4 ^ (k + 1) * 4 ^ (16 - k) := by
    rw [show 16 - k = 15 - k + 1 by omega, Nat.pow_succ 4 (15 - k), Nat.mul_assoc]
    rfl
  rw [BitVec.toNat_shiftLeft, Nat.shiftLeft_eq, h.x, show 16 - (k + 1) = 15 - k by omega, hx, hpow,
    Nat.mul_mod_mul_right, Nat.mod_mod_of_dvd _ (Nat.pow_dvd_pow 4 (Nat.le_succ k))]

theorem turn (h : Taken x (k + 1) s) (hk : k < 16) : Taken x k s.turn := by
  have htop : x.toNat / 4 ^ k = 4 * (x.toNat / 4 ^ (k + 1)) + x.toNat / 4 ^ k % 4 := by
    rw [Nat.pow_succ, ← Nat.div_div_eq_div_mul]
    exact (Nat.div_add_mod _ 4).symm
  have hd := Nat.mod_lt (x.toNat / 4 ^ k) (show 4 > 0 by decide)
  have hsqrt := sqrt_four_mul_add (x.toNat / 4 ^ (k + 1)) hd
  have hlt := sqrt_lt x (show k + 1 ≤ 16 from hk)
  have hle := Nat.sqrt_le (x.toNat / 4 ^ (k + 1))
  have hremLe := h.rem_le
  have hroot : (s.root <<< 1 + 1).toNat = 4 * (x.toNat / 4 ^ (k + 1)).sqrt + 1 := by
    rw [BitVec.toNat_add, h.root_shift hk, h.root, show (1 : BitVec 32).toNat = 1 from rfl]
    omega
  have hrem : (s.rem <<< 2 + s.x >>> 30).toNat = 4 * s.rem.toNat + x.toNat / 4 ^ k % 4 := by
    rw [BitVec.toNat_add, h.rem_shift hk, h.top_bits hk]
    exact Nat.mod_eq_of_lt (by omega)
  have hmul := h.rem
  have hdouble : 2 * (x.toNat / 4 ^ (k + 1)).sqrt * (2 * (x.toNat / 4 ^ (k + 1)).sqrt) =
      4 * ((x.toNat / 4 ^ (k + 1)).sqrt * (x.toNat / 4 ^ (k + 1)).sqrt) := by ring
  have hodd : (2 * (x.toNat / 4 ^ (k + 1)).sqrt + 1) * (2 * (x.toNat / 4 ^ (k + 1)).sqrt + 1) =
      4 * ((x.toNat / 4 ^ (k + 1)).sqrt * (x.toNat / 4 ^ (k + 1)).sqrt) +
        4 * (x.toNat / 4 ^ (k + 1)).sqrt + 1 := by ring
  rw [← htop, ← h.rem, ← hrem, ← hroot] at hsqrt
  by_cases hle' : s.root <<< 1 + (1 : BitVec 32) ≤ s.rem <<< 2 + s.x >>> 30
  · rw [if_pos (BitVec.le_def.mp hle')] at hsqrt
    rw [turn_of_le hle']
    refine ⟨h.low_bits hk, ?_, ?_⟩
    · show (s.rem <<< 2 + s.x >>> 30 - (s.root <<< 1 + 1)).toNat = _
      rw [BitVec.toNat_sub_of_le hle', hrem, hroot, hsqrt, hodd]
      omega
    · show (s.root <<< 1 + 1 + 1).toNat = _
      rw [BitVec.toNat_add, hroot, hsqrt, show (1 : BitVec 32).toNat = 1 from rfl]
      omega
  · rw [if_neg (mt BitVec.le_def.mpr hle')] at hsqrt
    rw [turn_of_not_le hle']
    refine ⟨h.low_bits hk, ?_, ?_⟩
    · show (s.rem <<< 2 + s.x >>> 30).toNat = _
      rw [hrem, hsqrt, hdouble]
      omega
    · show (s.root <<< 1 + 1 - 1).toNat = _
      rw [BitVec.add_sub_cancel, h.root_shift hk, h.root, hsqrt]

end Isqrt.Taken

namespace Isqrt

theorem taken_init (x : BitVec 32) : Taken x 16 (turns x 0) := by
  have htop : x.toNat / 4 ^ 16 = 0 := Nat.div_eq_of_lt x.isLt
  refine ⟨?_, ?_, ?_⟩
  · exact ((Nat.mul_one _).trans (Nat.mod_eq_of_lt x.isLt)).symm
  · rw [htop]
    rfl
  · rw [htop]
    rfl

theorem taken_turns (x : BitVec 32) {n : Nat} (hn : n ≤ 16) : Taken x (16 - n) (turns x n) := by
  induction n with
  | zero => exact taken_init x
  | succ n ih =>
      have h := ih (Nat.le_of_succ_le hn)
      rw [show 16 - n = 16 - (n + 1) + 1 by omega] at h
      exact h.turn (by omega)

end Isqrt

theorem isqrt_toNat (x : BitVec 32) : (isqrt x).toNat = x.toNat.sqrt := by
  have h := (Isqrt.taken_turns x le_rfl).root
  rw [show 16 - 16 = 0 from rfl, Nat.pow_zero, Nat.div_one] at h
  unfold isqrt
  rw [BitVec.toNat_ushiftRight, h, Nat.shiftRight_eq_div_pow]
  exact Nat.mul_div_cancel_left _ (by decide)

/-- The value is the integer square root, and no shift of a turn loses a bit. -/
theorem isqrt_exact (x : BitVec 32) :
    ((isqrt x).toNat * (isqrt x).toNat ≤ x.toNat ∧
      x.toNat < ((isqrt x).toNat + 1) * ((isqrt x).toNat + 1)) ∧
    ∀ n < 16, ((Isqrt.turns x n).root <<< 1).toNat = 2 * (Isqrt.turns x n).root.toNat ∧
      ((Isqrt.turns x n).rem <<< 2).toNat = 4 * (Isqrt.turns x n).rem.toNat := by
  refine ⟨?_, fun n hn => ?_⟩
  · rw [isqrt_toNat]
    exact ⟨Nat.sqrt_le _, Nat.lt_succ_sqrt _⟩
  · have h := Isqrt.taken_turns x hn.le
    exact ⟨h.root_shift (Nat.sub_le 16 n), h.rem_shift (Nat.sub_le 16 n)⟩

end YardIce.MicroJs
