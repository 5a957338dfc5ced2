import YardIce.Lib.Numerals
import YardIce.Libc.Printf

/-!
# Decimal conversion

`uint2dec` and `ull2dec` find a digit from the weights of its bits. The first row of a table has
three of them, and `i` starts at 4: this is right for four thousand millions, and wrong for the
ten of `ull2dec`.
-/

namespace YardIce.Libc

open Lib

/-- The character of a digit. -/
def digitByte (d : Nat) : Byte := BitVec.ofNat 8 (d + 0x30)

/-- The decimal representation. -/
def decimal (v : Nat) : List Byte := (numeral 10 v).map digitByte

/-! ## The conversions with what they store -/

/-- The loop over the table, with what stands before `s` and with `n`. -/
def storeDigits : List Nat → List Nat → Nat → List Byte × Nat → List Byte × Nat
  | [], _, _, r => r
  | dv :: tab, is, val, r =>
      let (c, val) := divDigit is val dv 0
      storeDigits tab [8, 4, 2, 1] val
        (if c ≠ 0 ∨ r.2 ≠ 0 then (r.1 ++ [BitVec.ofNat 8 (c + 0x30)], r.2 + 1) else r)

/-- `*s = '\0'` and `return n` -/
def storeNul (r : List Byte × Nat) : List Byte × Nat := (r.1 ++ [0], r.2)

/-- `uint2dec`: what it writes from `s` on, and its value. -/
def uint2decStore (val : Word) : List Byte × Nat :=
  if val = 0 then ([0x30, 0], 1) else storeNul (storeDigits uintDivTab [4, 2, 1] val.toNat ([], 0))

/-- `ull2dec`: what it writes from `s` on, and its value. -/
def ull2decStore (val : BitVec 64) : List Byte × Nat :=
  if val = 0 then ([0x30, 0], 1) else storeNul (storeDigits ullDivTab [4, 2, 1] val.toNat ([], 0))

theorem storeDigits_eq (tab is : List Nat) (val : Nat) (s : List Byte) :
    storeDigits tab is val (s, s.length) =
      (divDigits tab is val s, (divDigits tab is val s).length) := by
  induction tab generalizing is val s with
  | nil => rfl
  | cons dv tab ih =>
      unfold storeDigits divDigits
      simp only [ne_eq, List.length_eq_zero_iff]
      split_ifs
      · rw [← ih, List.length_append, List.length_singleton]
      · exact ih ..

theorem storeNul_eq (tab is : List Nat) (val : Nat) :
    storeNul (storeDigits tab is val ([], 0)) =
      (divDigits tab is val [] ++ [0], (divDigits tab is val []).length) :=
  congrArg storeNul (storeDigits_eq tab is val [])

theorem uint2decStore_eq (val : Word) :
    uint2decStore val = (uint2dec val ++ [0], (uint2dec val).length) := by
  unfold uint2decStore uint2dec
  split_ifs
  · rfl
  · rw [storeNul_eq]

theorem ull2decStore_eq (val : BitVec 64) :
    ull2decStore val = (ull2dec val ++ [0], (ull2dec val).length) := by
  unfold ull2decStore ull2dec
  split_ifs
  · rfl
  · rw [storeNul_eq]

/-! ## A row -/

/-- The weights of `k` bits. -/
def weights : Nat → List Nat
  | 0 => []
  | k + 1 => 2 ^ k :: weights k

/-- A digit is the quotient, and leaves the rest. -/
theorem divDigit_weights (k : Nat) {val p : Nat} (h : val < 2 ^ (k + 1) * p) (c : Nat) :
    divDigit (weights (k + 1)) val (2 ^ k * p) c = (c + val / p, val % p) := by
  have hp : 0 < p := Nat.pos_of_ne_zero fun hp => by simp [hp] at h
  induction k generalizing val c with
  | zero =>
      show (if 2 ^ 0 * p ≤ val then (c + 1, val - 2 ^ 0 * p) else (c, val)) = _
      rw [Nat.pow_zero, Nat.one_mul]
      split_ifs with hle
      · rw [Nat.div_eq_sub_div hp hle, Nat.mod_eq_sub_mod hle,
          Nat.div_eq_of_lt (by omega), Nat.mod_eq_of_lt (by omega)]
      · rw [Nat.div_eq_of_lt (by omega), Nat.mod_eq_of_lt (by omega), Nat.add_zero]
  | succ k ih =>
      have hhalf : 2 ^ (k + 1) * p / 2 = 2 ^ k * p := by
        rw [Nat.pow_succ, Nat.mul_right_comm, Nat.mul_div_cancel _ (by decide)]
      have hpow : 2 ^ (k + 1 + 1) * p = 2 ^ (k + 1) * p + 2 ^ (k + 1) * p := by
        rw [Nat.pow_succ 2 (k + 1), Nat.mul_right_comm, Nat.mul_two]
      show (if 2 ^ (k + 1) * p ≤ val then
          divDigit (weights (k + 1)) (val - 2 ^ (k + 1) * p) (2 ^ (k + 1) * p / 2) (c + 2 ^ (k + 1))
        else divDigit (weights (k + 1)) val (2 ^ (k + 1) * p / 2) c) = _
      rw [hhalf]
      split_ifs with hle
      · rw [ih (by omega), Nat.add_assoc]
        have hval : val = val - 2 ^ (k + 1) * p + p * 2 ^ (k + 1) := by
          rw [Nat.mul_comm p, Nat.sub_add_cancel hle]
        conv_rhs => rw [hval, Nat.add_mul_div_left _ _ hp, Nat.add_mul_mod_self_left]
        rw [Nat.add_comm (2 ^ (k + 1))]
      · exact ih (Nat.lt_of_not_le hle) c

theorem divDigits_cons {is : List Nat} {val dv c rest : Nat} (h : divDigit is val dv 0 = (c, rest))
    (tab : List Nat) (s : List Byte) :
    divDigits (dv :: tab) is val s =
      divDigits tab [8, 4, 2, 1] rest (if c ≠ 0 ∨ s ≠ [] then s ++ [digitByte c] else s) := by
  conv_lhs => unfold divDigits
  rw [h]
  rfl

/-- The rows of the decimal places below `k`. -/
def divRows : Nat → List Nat
  | 0 => []
  | k + 1 => 8 * 10 ^ k :: divRows k

theorem divDigits_rows (k : Nat) {val : Nat} (h : val < 10 ^ k) (s : List Byte) :
    divDigits (divRows k) [8, 4, 2, 1] val s =
      s ++ (if s = [] then (places 10 k val).dropWhile (· == 0) else places 10 k val).map
        digitByte := by
  induction k generalizing val s with
  | zero => simp [divRows, divDigits, places]
  | succ k ih =>
      have hdigit : divDigit [8, 4, 2, 1] val (8 * 10 ^ k) 0 = (0 + val / 10 ^ k, val % 10 ^ k) :=
        divDigit_weights 3 (h.trans_le (by rw [Nat.pow_succ]; omega)) 0
      have hmod := Nat.mod_lt val (@Nat.pow_pos 10 k (by decide))
      unfold divRows places
      rw [divDigits_cons hdigit, Nat.zero_add]
      by_cases hs : s = []
      · rw [if_pos hs, List.dropWhile_cons]
        by_cases hd : val / 10 ^ k = 0
        · rw [if_neg (not_or.mpr ⟨not_not.mpr hd, not_not.mpr hs⟩), if_pos (beq_iff_eq.mpr hd),
            ih hmod, if_pos hs]
        · rw [if_pos (Or.inl hd), if_neg (beq_iff_eq.not.mpr hd), ih hmod,
            if_neg (List.append_ne_nil_of_right_ne_nil s (List.cons_ne_nil _ _)), List.append_assoc]
          rfl
      · rw [if_pos (Or.inr hs), if_neg hs, ih hmod,
          if_neg (List.append_ne_nil_of_left_ne_nil hs _), List.append_assoc]
        rfl

theorem divDigits_rows_nil (k : Nat) {val : Nat} (h : val < 10 ^ k) (hne : val ≠ 0) :
    divDigits (divRows k) [8, 4, 2, 1] val [] = decimal val := by
  rw [divDigits_rows k h, if_pos rfl, dropWhile_places (by decide) h hne]
  rfl

/-! ## The first row -/

theorem uintDivTab_eq : uintDivTab = 2 ^ 2 * 1000000000 :: divRows 9 := by
  simp [uintDivTab, divRows]

theorem ullDivTab_eq : ullDivTab = 2 ^ 2 * 2500000000000000000 :: divRows 19 := by
  simp [ullDivTab, divRows]

theorem weights_three : [4, 2, 1] = weights 3 := rfl

/-- The digits when the first row finds a digit `c`. -/
theorem divDigits_first (k : Nat) {val p : Nat} (h : val < 2 ^ 3 * p) (hmod : val % p < 10 ^ k) :
    divDigits (2 ^ 2 * p :: divRows k) [4, 2, 1] val [] =
      if val / p = 0 then divDigits (divRows k) [8, 4, 2, 1] val []
      else (val / p :: places 10 k (val % p)).map digitByte := by
  have hdigit := divDigit_weights 2 h 0
  rw [Nat.zero_add, ← weights_three] at hdigit
  rw [divDigits_cons hdigit]
  split_ifs with hif hzero hzero
  · exact absurd hzero (hif.resolve_right (fun h => h rfl))
  · rw [divDigits_rows k hmod,
      if_neg (List.append_ne_nil_of_right_ne_nil _ (List.cons_ne_nil _ _))]
    rfl
  · have hlt : val < p := (Nat.div_eq_zero_iff.mp hzero).resolve_left fun hp => by simp [hp] at h
    rw [Nat.mod_eq_of_lt hlt]
  · exact absurd (Or.inl hzero) hif

theorem decimal_zero : decimal 0 = [0x30] := by
  unfold decimal
  rw [numeral_zero]
  rfl

theorem uint2dec_eq_decimal (val : Word) : uint2dec val = decimal val.toNat := by
  unfold uint2dec
  split_ifs with hzero
  · rw [hzero]
    exact decimal_zero.symm
  · have hne : val.toNat ≠ 0 := fun h => hzero (BitVec.eq_of_toNat_eq h)
    have hlt := val.isLt
    have hmod := Nat.mod_lt val.toNat (show 1000000000 > 0 by decide)
    rw [uintDivTab_eq, divDigits_first 9 (by omega) hmod]
    split_ifs with hdigit
    · have hsmall : val.toNat < 1000000000 :=
        (Nat.div_eq_zero_iff.mp hdigit).resolve_left (by decide)
      exact divDigits_rows_nil 9 hsmall hne
    · have hplaces : places 10 10 val.toNat =
          val.toNat / 1000000000 :: places 10 9 (val.toNat % 1000000000) := rfl
      have hdrop := dropWhile_places (by decide) (show val.toNat < 10 ^ 10 by omega) hne
      rw [hplaces, List.dropWhile_cons, if_neg (beq_iff_eq.not.mpr hdigit)] at hdrop
      rw [hdrop]
      rfl

/-- The digits of `ull2dec` where the first row finds one. -/
theorem ull2dec_first {val : BitVec 64} (h : 2500000000000000000 ≤ val.toNat) :
    ull2dec val = (val.toNat / 2500000000000000000 ::
      places 10 19 (val.toNat % 2500000000000000000)).map digitByte := by
  have hne : val ≠ 0 := fun hz => by simp [hz] at h
  have hlt := val.isLt
  have hmod := Nat.mod_lt val.toNat (show 2500000000000000000 > 0 by decide)
  unfold ull2dec
  rw [if_neg hne, ullDivTab_eq, divDigits_first 19 (by omega) (by omega), if_neg]
  exact (Nat.div_pos h (by decide)).ne'

theorem ull2dec_eq_decimal {val : BitVec 64} (h : val.toNat < 2500000000000000000) :
    ull2dec val = decimal val.toNat := by
  unfold ull2dec
  split_ifs with hzero
  · rw [hzero]
    exact decimal_zero.symm
  · have hne : val.toNat ≠ 0 := fun h => hzero (BitVec.eq_of_toNat_eq h)
    rw [ullDivTab_eq, divDigits_first 19 (by omega) (by omega), if_pos (Nat.div_eq_of_lt h)]
    exact divDigits_rows_nil 19 (by omega) hne

/-! ## The representation -/

theorem digit_digitByte {d : Nat} (h : d < 10) : (digitByte d).toNat - 0x30 = d := by
  unfold digitByte
  rw [BitVec.toNat_ofNat, Nat.mod_eq_of_lt (by omega), Nat.add_sub_cancel]

theorem digitByte_ne {d e : Nat} (hd : d < 10) (he : e < 10) (hne : d ≠ e) :
    digitByte d ≠ digitByte e := fun h => by
  rw [← digit_digitByte hd, h, digit_digitByte he] at hne
  exact hne rfl

/-- The first digits that `ull2dec` writes and that it should write, where the first row finds
one. -/
theorem ull2dec_heads {val : BitVec 64} (h : 2500000000000000000 ≤ val.toNat) :
    ∃ c d cs ds, ull2dec val = digitByte c :: cs ∧ decimal val.toNat = digitByte d :: ds ∧
      (0 < c ∧ c < 10) ∧ (0 < d ∧ d < 10) ∧ c ≠ d := by
  have hlt := val.isLt
  have hdrop := dropWhile_places (by decide) (show val.toNat < 10 ^ 20 by omega)
    (show val.toNat ≠ 0 by omega)
  have hplaces : places 10 20 val.toNat = val.toNat / 10000000000000000000 ::
      val.toNat % 10000000000000000000 / 1000000000000000000 ::
        places 10 18 (val.toNat % 10000000000000000000 % 1000000000000000000) := rfl
  rw [hplaces, List.dropWhile_cons] at hdrop
  unfold decimal
  by_cases htop : val.toNat / 10000000000000000000 = 0
  · rw [if_pos (beq_iff_eq.mpr htop), List.dropWhile_cons, if_neg (by simp; omega)] at hdrop
    exact ⟨_, _, _, _, ull2dec_first h, congrArg (List.map digitByte) hdrop.symm,
      ⟨by omega, by omega⟩, ⟨by omega, by omega⟩, by omega⟩
  · rw [if_neg (beq_iff_eq.not.mpr htop)] at hdrop
    exact ⟨_, _, _, _, ull2dec_first h, congrArg (List.map digitByte) hdrop.symm,
      ⟨by omega, by omega⟩, ⟨by omega, by omega⟩, by omega⟩

theorem ull2dec_ne_decimal {val : BitVec 64} (h : 2500000000000000000 ≤ val.toNat) :
    ull2dec val ≠ decimal val.toNat := fun heq => by
  obtain ⟨c, d, cs, ds, hc, hd, hcs, hds, hne⟩ := ull2dec_heads h
  rw [hc, hd] at heq
  exact digitByte_ne hcs.2 hds.2 hne (List.cons_eq_cons.mp heq).1

/-- What a conversion of `v` writes and returns is the decimal representation of `v` with a `NUL`
and its length, which is at most `most`. -/
structure IsDecimal (v most : Nat) (r : List Byte × Nat) : Prop where
  text : r.1 = decimal v ++ [0]
  count : r.2 = (decimal v).length
  bounded : r.2 ≤ most

theorem isDecimal_of_eq {v most : Nat} {s : List Byte} (h : s = decimal v) (hmost : 0 < most)
    (hv : v < 10 ^ most) : IsDecimal v most (s ++ [0], s.length) := by
  rw [h]
  refine ⟨rfl, rfl, ?_⟩
  show (decimal v).length ≤ most
  unfold decimal
  rw [List.length_map]
  exact numeral_length_le (by decide) hmost hv

/-- `uint2dec` is right, and `ull2dec` is where the first row of its table finds no digit. -/
theorem uint2dec_ull2dec_decimal_iff (val : Word) (val2 : BitVec 64) :
    IsDecimal val.toNat 10 (uint2decStore val) ∧
      (IsDecimal val2.toNat 20 (ull2decStore val2) ↔ val2.toNat < 2500000000000000000) := by
  have hlt := val.isLt
  have hlt2 := val2.isLt
  rw [uint2decStore_eq, ull2decStore_eq]
  refine ⟨isDecimal_of_eq (uint2dec_eq_decimal val) (by decide) (by omega), fun h => ?_, fun h =>
    isDecimal_of_eq (ull2dec_eq_decimal h) (by decide) (by omega)⟩
  exact Nat.lt_of_not_le fun hle => ull2dec_ne_decimal hle (List.append_cancel_right h.text)

/-- Two and a half millions of millions of millions are written as ten. -/
theorem ull2dec_not_decimal :
    ull2decStore 2500000000000000000 =
        ([0x31] ++ List.replicate 19 0x30 ++ [0], 20) ∧
      ¬ IsDecimal 2500000000000000000 20 (ull2decStore 2500000000000000000) := by
  have hrun : ull2decStore 2500000000000000000 =
      ([0x31] ++ List.replicate 19 0x30 ++ [0], 20) := by decide
  refine ⟨hrun, fun h => ?_⟩
  have hlength : (decimal 2500000000000000000).length ≤ 19 := by
    unfold decimal
    rw [List.length_map]
    exact numeral_length_le (by decide) (by decide) (by decide)
  have hcount := h.count
  rw [hrun] at hcount
  exact absurd (hcount.trans_le hlength) (by decide)

end YardIce.Libc
