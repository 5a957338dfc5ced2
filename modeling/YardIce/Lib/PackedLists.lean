import Mathlib.Algebra.BigOperators.Group.List.Basic
import Mathlib.Algebra.Order.BigOperators.Group.List
import Mathlib.Algebra.Order.Group.Nat
import Mathlib.Algebra.Ring.Nat

/-!
# Packed lists

Lists that are written one after the other into one vector, each found again by its offset and its
length, and the bisection that looks up a key in a sorted one.
-/

namespace YardIce.Lib

/-! ## Offsets -/

/-- The offset of the `i`-th of the lists whose lengths are given. -/
def offset (counts : List ℕ) (i : ℕ) : ℕ := (counts.take i).sum

theorem offset_le_sum (counts : List ℕ) (i : ℕ) : offset counts i ≤ counts.sum :=
  (List.take_sublist i counts).sum_le_sum fun _ _ => Nat.zero_le _

theorem offset_mono (counts : List ℕ) {i j : ℕ} (h : i ≤ j) : offset counts i ≤ offset counts j :=
  (List.take_sublist_take_left h).sum_le_sum fun _ _ => Nat.zero_le _

/-- The last offset is what the lists before the last one take up. -/
theorem offset_last (counts : List ℕ) :
    offset counts (counts.length - 1) = counts.sum - counts.getLastD 0 := by
  rcases List.eq_nil_or_concat counts with rfl | ⟨l, c, rfl⟩
  · rfl
  · simp [offset]

theorem offset_le_last {counts : List ℕ} {i : ℕ} (hi : i < counts.length) :
    offset counts i ≤ counts.sum - counts.getLastD 0 := by
  rw [← offset_last]
  exact offset_mono counts (by omega)

/-- An element of one of the lists, found by the offset of the list. -/
theorem getElem?_flatten_offset {α : Type*} {ls : List (List α)} {i : ℕ} {l : List α}
    (hi : ls[i]? = some l) {k : ℕ} (hk : k < l.length) :
    ls.flatten[offset (ls.map List.length) i + k]? = l[k]? := by
  induction ls generalizing i with
  | nil => simp at hi
  | cons l₀ ls ih =>
      cases i with
      | zero =>
          obtain rfl : l₀ = l := by simpa using hi
          simp [offset, List.getElem?_append_left hk]
      | succ i =>
          have hi' : ls[i]? = some l := by simpa using hi
          rw [← ih hi', List.flatten_cons, List.getElem?_append_right]
          · congr 1
            simp only [offset, List.map_cons, List.take_succ_cons, List.sum_cons]
            omega
          · simp only [offset, List.map_cons, List.take_succ_cons, List.sum_cons]
            omega

/-! ## Bisection -/

/-- `while (lo < hi)`, with at most so many turns: the interval is cut at its middle, which `p` says
to be too low or not. -/
def bisect (p : ℕ → Bool) : ℕ → ℕ → ℕ → ℕ
  | 0, lo, _ => lo
  | turns + 1, lo, hi =>
    if lo < hi then
      let mid := (lo + hi) / 2
      if p mid then bisect p turns (mid + 1) hi else bisect p turns lo mid
    else lo

/-- The bisection ends where `p` ceases to hold. -/
theorem bisect_spec {p : ℕ → Bool} {turns lo hi : ℕ} (hturns : hi - lo ≤ turns) (hle : lo ≤ hi)
    (hmono : ∀ i j, lo ≤ i → i ≤ j → j < hi → p j = true → p i = true) :
    lo ≤ bisect p turns lo hi ∧ bisect p turns lo hi ≤ hi ∧
      (∀ i, lo ≤ i → i < bisect p turns lo hi → p i = true) ∧
      ∀ i, bisect p turns lo hi ≤ i → i < hi → p i = false := by
  induction turns generalizing lo hi with
  | zero =>
      obtain rfl : lo = hi := by omega
      exact ⟨le_rfl, le_rfl, fun i h h' => absurd h' (Nat.not_lt.mpr h),
        fun i h h' => absurd h' (Nat.not_lt.mpr h)⟩
  | succ turns ih =>
      unfold bisect
      split
      next hlt =>
        dsimp only
        split
        next hmid =>
          have hturns' : hi - ((lo + hi) / 2 + 1) ≤ turns := by omega
          obtain ⟨hlo, hhi, hbelow, habove⟩ := ih hturns' (by omega)
            fun i j hi' hij hj hp => hmono i j (by omega) hij hj hp
          refine ⟨by omega, hhi, fun i hlo' hi' => ?_, habove⟩
          rcases Nat.lt_or_ge ((lo + hi) / 2) i with hcut | hcut
          · exact hbelow i hcut hi'
          · exact hmono i _ hlo' hcut (by omega) hmid
        next hmid =>
          have hturns' : (lo + hi) / 2 - lo ≤ turns := by omega
          obtain ⟨hlo, hhi, hbelow, habove⟩ := ih hturns' (by omega)
            fun i j hi' hij hj hp => hmono i j hi' hij (by omega) hp
          refine ⟨hlo, by omega, hbelow, fun i hi' hhi' => ?_⟩
          rcases Nat.lt_or_ge i ((lo + hi) / 2) with hcut | hcut
          · exact habove i hi' hcut
          · rw [← Bool.not_eq_true]
            exact fun hp => hmid (hmono _ i (by omega) hcut hhi' hp)
      next hlt =>
        obtain rfl : lo = hi := by omega
        exact ⟨le_rfl, le_rfl, fun i _ _ => by omega, fun i _ _ => by omega⟩

end YardIce.Lib
