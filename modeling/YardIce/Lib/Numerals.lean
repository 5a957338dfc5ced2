import Mathlib.Data.Nat.Digits.Lemmas

/-!
# Numerals

The digits of a number with the most significant one first: how they are written and read.
-/

namespace YardIce.Lib

/-- The numeral of `v`: no zero leads it, but in the numeral of zero. -/
def numeral (b v : Nat) : List Nat := if v = 0 then [0] else (Nat.digits b v).reverse

/-- The value of digits that are read behind a value. -/
def readNumeral (b : Nat) (v : Nat) (ds : List Nat) : Nat := ds.foldl (fun v d => v * b + d) v

section

variable {b : Nat}

@[simp] theorem readNumeral_nil (v : Nat) : readNumeral b v [] = v := rfl

@[simp] theorem readNumeral_cons (v d : Nat) (ds : List Nat) :
    readNumeral b v (d :: ds) = readNumeral b (v * b + d) ds := rfl

theorem readNumeral_append (v : Nat) (ds es : List Nat) :
    readNumeral b v (ds ++ es) = readNumeral b (readNumeral b v ds) es :=
  List.foldl_append

theorem readNumeral_eq (v : Nat) (ds : List Nat) :
    readNumeral b v ds = v * b ^ ds.length + Nat.ofDigits b ds.reverse := by
  induction ds generalizing v with
  | nil => simp
  | cons d ds ih =>
      rw [readNumeral_cons, ih, List.reverse_cons, Nat.ofDigits_append, Nat.ofDigits_singleton,
        List.length_reverse, List.length_cons, Nat.pow_succ]
      ring

/-- The first digits have no larger value. -/
theorem readNumeral_take_le (hb : 0 < b) (k v : Nat) (ds : List Nat) :
    readNumeral b v (ds.take k) ≤ readNumeral b v ds := by
  have hsplit : readNumeral b v ds =
      readNumeral b (readNumeral b v (ds.take k)) (ds.drop k) := by
    rw [← readNumeral_append, List.take_append_drop]
  rw [hsplit, readNumeral_eq (readNumeral b v _)]
  exact Nat.le_add_right_of_le (Nat.le_mul_of_pos_right _ (Nat.pow_pos hb))

theorem numeral_zero : numeral b 0 = [0] := if_pos rfl

theorem numeral_of_ne_zero {v : Nat} (h : v ≠ 0) : numeral b v = (Nat.digits b v).reverse :=
  if_neg h

theorem numeral_ne_nil (v : Nat) : numeral b v ≠ [] := by
  unfold numeral
  split_ifs with h
  · exact List.cons_ne_nil _ _
  · exact List.reverse_eq_nil_iff.not.mpr (Nat.digits_ne_nil_iff_ne_zero.mpr h)

theorem lt_of_mem_numeral (hb : 1 < b) {v d : Nat} (h : d ∈ numeral b v) : d < b := by
  unfold numeral at h
  split_ifs at h
  · rw [List.mem_singleton.mp h]
    exact hb.le
  · exact Nat.digits_lt_base hb (List.mem_reverse.mp h)

/-- A number is read from its numeral. -/
theorem readNumeral_numeral (v : Nat) : readNumeral b 0 (numeral b v) = v := by
  rw [readNumeral_eq, Nat.zero_mul, Nat.zero_add]
  unfold numeral
  split_ifs with h
  · rw [h]
    rfl
  · rw [List.reverse_reverse, Nat.ofDigits_digits]

theorem numeral_length_le (hb : 1 < b) {v n : Nat} (hn : 0 < n) (h : v < b ^ n) :
    (numeral b v).length ≤ n := by
  unfold numeral
  split_ifs
  · exact hn
  · rw [List.length_reverse]
    exact (Nat.digits_length_le_iff hb v).mpr h

/-- Digits that no zero leads are the numeral of their value. -/
theorem eq_numeral (hb : 1 < b) {d : Nat} {ds : List Nat} (hd : d ≠ 0)
    (hds : ∀ e ∈ d :: ds, e < b) : d :: ds = numeral b (readNumeral b 0 (d :: ds)) := by
  have hdigits := Nat.digits_ofDigits b hb (d :: ds).reverse
    (fun e he => hds e (List.mem_reverse.mp he)) (fun _ => by rw [List.getLast_reverse]; exact hd)
  have hread : readNumeral b 0 (d :: ds) = Nat.ofDigits b (d :: ds).reverse := by
    rw [readNumeral_eq, Nat.zero_mul, Nat.zero_add]
  have hne : readNumeral b 0 (d :: ds) ≠ 0 := fun h => by
    rw [← hread, h, Nat.digits_zero] at hdigits
    exact List.cons_ne_nil d ds (List.reverse_eq_nil_iff.mp hdigits.symm)
  rw [numeral_of_ne_zero hne, hread, hdigits, List.reverse_reverse]

/-- The first digit of the numeral of a number that is not zero. -/
theorem numeral_head_ne_zero {v d : Nat} {ds : List Nat} (hv : v ≠ 0)
    (h : numeral b v = d :: ds) : d ≠ 0 := by
  rw [numeral_of_ne_zero hv] at h
  have hlast := Nat.getLast_digit_ne_zero b hv
  have hdigits : Nat.digits b v = (d :: ds).reverse := by rw [← h, List.reverse_reverse]
  simp only [hdigits, List.getLast_reverse, List.head_cons] at hlast
  exact hlast

/-! ## Places -/

/-- The digits of `v` at `k` places. -/
def places (b : Nat) : Nat → Nat → List Nat
  | 0, _ => []
  | k + 1, v => v / b ^ k :: places b k (v % b ^ k)

theorem places_length (k v : Nat) : (places b k v).length = k := by
  induction k generalizing v with
  | zero => rfl
  | succ k ih => exact congrArg Nat.succ (ih _)

theorem lt_of_mem_places (hb : 0 < b) {k v d : Nat} (hv : v < b ^ k) (h : d ∈ places b k v) :
    d < b := by
  induction k generalizing v with
  | zero => exact absurd h List.not_mem_nil
  | succ k ih =>
      rcases List.mem_cons.mp h with rfl | h
      · exact Nat.div_lt_of_lt_mul (hv.trans_eq (Nat.pow_succ ..))
      · exact ih (Nat.mod_lt _ (Nat.pow_pos hb)) h

theorem readNumeral_places (hb : 0 < b) {k v : Nat} (hv : v < b ^ k) (u : Nat) :
    readNumeral b u (places b k v) = u * b ^ k + v := by
  induction k generalizing u v with
  | zero =>
      rw [Nat.lt_one_iff.mp hv]
      simp [places]
  | succ k ih =>
      unfold places
      rw [readNumeral_cons, ih (Nat.mod_lt _ (Nat.pow_pos hb)), Nat.add_mul, Nat.add_assoc,
        Nat.div_add_mod', Nat.pow_succ, Nat.mul_assoc, Nat.mul_comm b]

theorem readNumeral_dropWhile_zero (ds : List Nat) :
    readNumeral b 0 (ds.dropWhile (· == 0)) = readNumeral b 0 ds := by
  induction ds with
  | nil => rfl
  | cons d ds ih =>
      rw [List.dropWhile_cons]
      split_ifs with hd
      · rw [ih, readNumeral_cons, beq_iff_eq.mp hd, Nat.zero_mul]
      · rfl

/-- The numeral is what follows the zeros of the places. -/
theorem dropWhile_places (hb : 1 < b) {k v : Nat} (hv : v < b ^ k) (hne : v ≠ 0) :
    (places b k v).dropWhile (· == 0) = numeral b v := by
  have hread : readNumeral b 0 ((places b k v).dropWhile (· == 0)) = v := by
    rw [readNumeral_dropWhile_zero, readNumeral_places (Nat.zero_lt_of_lt hb) hv, Nat.zero_mul,
      Nat.zero_add]
  have hlt : ∀ d ∈ (places b k v).dropWhile (· == 0), d < b := fun d hd =>
    lt_of_mem_places (Nat.zero_lt_of_lt hb) hv ((List.dropWhile_sublist _).subset hd)
  have hhead := List.head?_dropWhile_not (· == 0) (places b k v)
  cases hds : (places b k v).dropWhile (· == 0) with
  | nil =>
      rw [hds] at hread
      exact absurd hread.symm hne
  | cons d ds =>
      rw [hds] at hread hlt hhead
      have hd : d ≠ 0 := by simpa using hhead
      rw [eq_numeral hb hd hlt, hread]

theorem places_zero (k : Nat) : places b k 0 = List.replicate k 0 := by
  induction k with
  | zero => rfl
  | succ k ih => rw [places, Nat.zero_div, Nat.zero_mod, ih, List.replicate_succ]

theorem numeral_lt_pow_length (hb : 1 < b) (v : Nat) : v < b ^ (numeral b v).length := by
  unfold numeral
  split_ifs with h
  · rw [h]
    exact Nat.pow_pos (Nat.zero_lt_of_lt hb)
  · rw [List.length_reverse]
    exact Nat.lt_base_pow_length_digits hb

/-- The places are zeros and the numeral. -/
theorem places_eq (hb : 1 < b) {k v : Nat} (hk : 0 < k) (hv : v < b ^ k) :
    places b k v = List.replicate (k - (numeral b v).length) 0 ++ numeral b v := by
  by_cases hne : v = 0
  · rw [hne, numeral_zero, places_zero, ← List.replicate_one, List.replicate_append_replicate,
      List.length_replicate, Nat.sub_add_cancel hk]
  · have hsplit := @List.takeWhile_append_dropWhile _ (· == 0) (places b k v)
    rw [dropWhile_places hb hv hne] at hsplit
    have hlength := congrArg List.length hsplit
    rw [List.length_append, places_length] at hlength
    rw [← hsplit]
    refine congrArg (· ++ _) (List.eq_replicate_iff.mpr ⟨by omega, fun d hd => ?_⟩)
    exact beq_iff_eq.mp (List.all_eq_true.mp List.all_takeWhile d hd)

end

end YardIce.Lib
