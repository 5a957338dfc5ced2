import Mathlib.Data.Nat.ModEq

/-!
# End-around carry

A sum is folded into one digit of base `b + 1` by adding the carry back in. The
folded digit is congruent to the sum modulo `b`, and it is zero only for the sum
zero, so a sum that is a positive multiple of `b` folds to `b`.
-/

namespace YardIce.Lib

/-- Add the carry back in until one digit is left. -/
def foldCarry (b s : Nat) : Nat :=
  if h : b = 0 ∨ s ≤ b then s
  else foldCarry b (s % (b + 1) + s / (b + 1))
  termination_by s
  decreasing_by
    have hs : s = (b + 1) * (s / (b + 1)) + s % (b + 1) := (Nat.div_add_mod s (b + 1)).symm
    have hq : 0 < s / (b + 1) := Nat.div_pos (by omega) (by omega)
    have hb : 1 * (s / (b + 1)) < (b + 1) * (s / (b + 1)) := Nat.mul_lt_mul_of_pos_right (by omega) hq
    omega

variable {b s : Nat}

theorem foldCarry_of_le (h : s ≤ b) : foldCarry b s = s := by
  rw [foldCarry, dif_pos (Or.inr h)]

/-- One round of carrying keeps the residue. -/
theorem carry_modEq (b s : Nat) : s % (b + 1) + s / (b + 1) ≡ s [MOD b] := by
  have hone : b + 1 ≡ 1 [MOD b] := by simp [Nat.ModEq]
  calc s % (b + 1) + s / (b + 1) = s % (b + 1) + 1 * (s / (b + 1)) := by rw [one_mul]
    _ ≡ s % (b + 1) + (b + 1) * (s / (b + 1)) [MOD b] :=
      Nat.ModEq.add_left _ (Nat.ModEq.mul_right _ hone.symm)
    _ = s := Nat.mod_add_div s (b + 1)

theorem foldCarry_modEq (b s : Nat) : foldCarry b s ≡ s [MOD b] := by
  induction s using foldCarry.induct (b := b) with
  | case1 s h =>
      rw [foldCarry, dif_pos h]
  | case2 s h ih =>
      rw [foldCarry, dif_neg h]
      exact ih.trans (carry_modEq b s)

theorem foldCarry_le (hb : 0 < b) (s : Nat) : foldCarry b s ≤ b := by
  induction s using foldCarry.induct (b := b) with
  | case1 s h =>
      rw [foldCarry, dif_pos h]
      omega
  | case2 s h ih =>
      rw [foldCarry, dif_neg h]
      exact ih

theorem foldCarry_le_self (b s : Nat) : foldCarry b s ≤ s := by
  induction s using foldCarry.induct (b := b) with
  | case1 s h =>
      rw [foldCarry, dif_pos h]
  | case2 s h ih =>
      rw [foldCarry, dif_neg h]
      have hdiv := Nat.div_add_mod s (b + 1)
      have hmul : 1 * (s / (b + 1)) ≤ (b + 1) * (s / (b + 1)) := Nat.mul_le_mul_right _ (by omega)
      omega

theorem foldCarry_pos (hs : 0 < s) : 0 < foldCarry b s := by
  induction s using foldCarry.induct (b := b) with
  | case1 s h =>
      rw [foldCarry, dif_pos h]
      exact hs
  | case2 s h ih =>
      rw [foldCarry, dif_neg h]
      apply ih
      have hq : 0 < s / (b + 1) := Nat.div_pos (by omega) (by omega)
      omega

/-- Residues modulo `b` are distinct on `1, …, b`. -/
theorem eq_of_modEq_digit {x y : Nat} (h : x ≡ y [MOD b]) (hx : 0 < x) (hxb : x ≤ b) (hy : 0 < y)
    (hyb : y ≤ b) : x = y := by
  simp only [Nat.ModEq] at h
  rcases Nat.lt_or_eq_of_le hxb with hxlt | rfl
  · rw [Nat.mod_eq_of_lt hxlt] at h
    rcases Nat.lt_or_eq_of_le hyb with hylt | rfl
    · rwa [Nat.mod_eq_of_lt hylt] at h
    · rw [Nat.mod_self] at h
      omega
  · rw [Nat.mod_self] at h
    exact (Nat.le_antisymm hyb (Nat.le_of_dvd hy (Nat.dvd_of_mod_eq_zero h.symm))).symm

/-- Folding a part of a sum first does not change the result. -/
theorem foldCarry_add (hb : 0 < b) (hs : 0 < s) (n : Nat) :
    foldCarry b (foldCarry b s + n) = foldCarry b (s + n) := by
  have hmod : foldCarry b (foldCarry b s + n) ≡ foldCarry b (s + n) [MOD b] :=
    calc foldCarry b (foldCarry b s + n) ≡ foldCarry b s + n [MOD b] := foldCarry_modEq b _
      _ ≡ s + n [MOD b] := Nat.ModEq.add_right n (foldCarry_modEq b s)
      _ ≡ foldCarry b (s + n) [MOD b] := (foldCarry_modEq b _).symm
  have hl := foldCarry_le hb (foldCarry b s + n)
  have hr := foldCarry_le hb (s + n)
  have hfs : 0 < foldCarry b s := foldCarry_pos hs
  have hlpos : 0 < foldCarry b (foldCarry b s + n) := foldCarry_pos (by omega)
  have hrpos : 0 < foldCarry b (s + n) := foldCarry_pos (by omega)
  exact eq_of_modEq_digit hmod hlpos hl hrpos hr

/-- A sum with the complement of its folded value folds to the largest digit. -/
theorem foldCarry_add_complement (hb : 0 < b) (hs : 0 < s) :
    foldCarry b (s + (b - foldCarry b s)) = b := by
  have hle := foldCarry_le hb s
  rw [← foldCarry_add hb hs, Nat.add_sub_cancel' hle, foldCarry_of_le le_rfl]

/-- A part of a sum may be folded first, the sum zero included. -/
theorem foldCarry_add_left (hb : 0 < b) (s n : Nat) :
    foldCarry b (foldCarry b s + n) = foldCarry b (s + n) := by
  rcases Nat.eq_zero_or_pos s with rfl | hs
  · rw [foldCarry_of_le (Nat.zero_le b)]
  · exact foldCarry_add hb hs n

/-- The sums that fold to the largest digit. -/
theorem foldCarry_eq_max_iff (hb : 0 < b) : foldCarry b s = b ↔ 0 < s ∧ b ∣ s := by
  constructor
  · intro h
    have hmod : b ≡ s [MOD b] := by
      calc b = foldCarry b s := h.symm
        _ ≡ s [MOD b] := foldCarry_modEq b s
    refine ⟨Nat.pos_of_ne_zero fun hzero => ?_, (Nat.modEq_zero_iff_dvd).mp ?_⟩
    · rw [hzero, foldCarry_of_le (Nat.zero_le b)] at h
      omega
    · exact hmod.symm.trans ((Nat.modEq_zero_iff_dvd).mpr dvd_rfl)
  · rintro ⟨hs, hdvd⟩
    have hmod : foldCarry b s ≡ b [MOD b] :=
      calc foldCarry b s ≡ s [MOD b] := foldCarry_modEq b s
        _ ≡ 0 [MOD b] := (Nat.modEq_zero_iff_dvd).mpr hdvd
        _ ≡ b [MOD b] := ((Nat.modEq_zero_iff_dvd).mpr dvd_rfl).symm
    exact eq_of_modEq_digit hmod (foldCarry_pos hs) (foldCarry_le hb s) hb le_rfl

end YardIce.Lib
