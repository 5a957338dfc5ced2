import Mathlib.Data.List.Basic

/-!
# Windows of a buffer

A buffer gives every index its content. A window is the list of neighbouring contents, and a
string is stored by neighbouring writes.
-/

namespace YardIce.Lib

variable {β : Type*}

/-- `n` neighbours from `i` on. -/
def window (buf : Nat → β) (i n : Nat) : List β := (List.range n).map fun k => buf (i + k)

/-- The string is stored from `i` on. -/
def store (buf : Nat → β) (i : Nat) (l : List β) : Nat → β :=
  fun j => if i ≤ j then l.getD (j - i) (buf j) else buf j

variable {buf : Nat → β} {i j n : Nat} {l : List β}

@[simp] theorem window_length : (window buf i n).length = n := by
  rw [window, List.length_map, List.length_range]

@[simp] theorem window_zero : window buf i 0 = [] := rfl

theorem window_getElem? {k : Nat} (hk : k < n) : (window buf i n)[k]? = some (buf (i + k)) := by
  rw [window, List.getElem?_map, List.getElem?_range hk, Option.map_some]

theorem window_succ : window buf i (n + 1) = buf i :: window buf (i + 1) n := by
  rw [window, List.range_succ_eq_map, List.map_cons, List.map_map]
  refine congrArg (buf i :: ·) (List.map_congr_left fun k _ => ?_)
  exact congrArg buf (by simp only [Nat.succ_eq_add_one]; omega)

/-- Windows that agree at every place are equal. -/
theorem window_congr {other : Nat → β} (h : ∀ k < n, buf (i + k) = other (j + k)) :
    window buf i n = window other j n :=
  List.map_congr_left fun k hk => h k (List.mem_range.mp hk)

theorem window_add {m : Nat} : window buf i (n + m) = window buf i n ++ window buf (i + n) m := by
  induction n generalizing i with
  | zero => rw [Nat.zero_add, window_zero, List.nil_append, Nat.add_zero]
  | succ n ih =>
      have hsum : n + 1 + m = n + m + 1 := by omega
      have hnext : i + 1 + n = i + (n + 1) := by omega
      rw [hsum, window_succ, ih, window_succ, hnext, List.cons_append]

theorem window_take {m : Nat} (h : m ≤ n) : (window buf i n).take m = window buf i m := by
  obtain ⟨d, rfl⟩ := Nat.exists_eq_add_of_le h
  rw [window_add, List.take_left' window_length]

theorem window_drop {m : Nat} (h : m ≤ n) :
    (window buf i n).drop m = window buf (i + m) (n - m) := by
  obtain ⟨d, rfl⟩ := Nat.exists_eq_add_of_le h
  rw [window_add, List.drop_left' window_length, Nat.add_sub_cancel_left]

/-- A place outside of the string keeps its content. -/
theorem store_of_outside (h : j < i ∨ i + l.length ≤ j) : store buf i l j = buf j := by
  rw [store]
  split
  · rw [List.getD_eq_getElem?_getD, List.getElem?_eq_none (by omega), Option.getD_none]
  · rfl

theorem store_nil : store buf i [] = buf := by
  funext j
  rw [store, List.getD_nil, ite_self]

/-- A window apart from the string keeps its contents. -/
theorem window_store_apart (h : j + n ≤ i ∨ i + l.length ≤ j) :
    window (store buf i l) j n = window buf j n :=
  window_congr fun k hk => store_of_outside (by omega)

/-- The window of the string. -/
theorem window_store (hn : l.length = n) : window (store buf i l) i n = l := by
  refine List.ext_getElem? fun k => ?_
  rcases Nat.lt_or_ge k n with hk | hk
  · rw [window_getElem? hk, store, if_pos (Nat.le_add_right i k), Nat.add_sub_cancel_left,
      List.getD_eq_getElem?_getD, List.getElem?_eq_getElem (by omega), Option.getD_some]
  · rw [List.getElem?_eq_none (by rw [window_length]; exact hk), List.getElem?_eq_none (by omega)]

/-- A string stored behind a window extends it. -/
theorem window_store_behind {m : Nat} (hm : l.length = m) :
    window (store buf (i + n) l) i (n + m) = window buf i n ++ l := by
  rw [window_add, window_store_apart (Or.inl (Nat.le_refl _)), window_store hm]

end YardIce.Lib
