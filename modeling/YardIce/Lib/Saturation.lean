import Mathlib.Algebra.BigOperators.Group.Finset.Basic
import Mathlib.Algebra.Order.BigOperators.Group.Finset
import Mathlib.Data.Fintype.BigOperators

/-!
# Saturation

A pass over a list of rules that only adds to a state, repeated until nothing changes. The repeated
pass ends in a state that every rule leaves as it is.
-/

namespace YardIce.Lib

variable {σ ρ τ : Type*}

/-- `do { pass } while (changed)`, with at most `n` passes. -/
def saturate [DecidableEq σ] (pass : σ → σ) : ℕ → σ → σ
  | 0, s => s
  | n + 1, s => if pass s = s then s else saturate pass n (pass s)

theorem saturate_invariant [DecidableEq σ] {pass : σ → σ} {I : σ → Prop}
    (hpass : ∀ s, I s → I (pass s)) {s : σ} (hs : I s) (n : ℕ) : I (saturate pass n s) := by
  induction n generalizing s with
  | zero => exact hs
  | succ n ih =>
      unfold saturate
      split
      · exact hs
      · exact ih (hpass s hs)

theorem foldl_invariant {f : σ → ρ → σ} {rs : List ρ} {s : σ} {I : σ → Prop}
    (hf : ∀ s, I s → ∀ r ∈ rs, I (f s r)) (hs : I s) : I (rs.foldl f s) := by
  induction rs generalizing s with
  | nil => exact hs
  | cons r rs ih =>
      apply ih
      · exact fun s hs r' hr' => hf s hs r' (List.mem_cons_of_mem r hr')
      · exact hf s hs r List.mem_cons_self

section

variable [PartialOrder σ] {f : σ → ρ → σ} {rs : List ρ} {s : σ}

theorem le_foldl (hf : ∀ s r, s ≤ f s r) (rs : List ρ) (s : σ) : s ≤ rs.foldl f s := by
  induction rs generalizing s with
  | nil => exact le_rfl
  | cons r rs ih => exact (hf s r).trans (ih (f s r))

/-- A pass that changes nothing has no rule that changes anything. -/
theorem foldl_fixed (hf : ∀ s r, s ≤ f s r) (h : rs.foldl f s = s) : ∀ r ∈ rs, f s r = s := by
  induction rs with
  | nil => exact fun r hr => absurd hr List.not_mem_nil
  | cons r rs ih =>
      have hle : f s r ≤ s := (le_foldl hf rs (f s r)).trans h.le
      have heq : f s r = s := le_antisymm hle (hf s r)
      rw [List.foldl_cons, heq] at h
      intro r' hr'
      rcases List.mem_cons.mp hr' with rfl | hr'
      · exact heq
      · exact ih h r' hr'

/-- Rules that change nothing. -/
theorem foldl_eq_self {σ : Type*} {f : σ → ρ → σ} {s : σ} (h : ∀ r ∈ rs, f s r = s) :
    rs.foldl f s = s :=
  foldl_invariant (I := (· = s)) (fun _ hs r hr => hs ▸ h r hr) rfl

/-- The passes end when each one that changes something adds to a size that is bounded. -/
theorem saturate_fixed [DecidableEq σ] {pass : σ → σ} {I : σ → Prop} {size : σ → ℕ} {B n : ℕ}
    (hle : ∀ s, s ≤ pass s) (hpass : ∀ s, I s → I (pass s)) (hsize : StrictMono size)
    (hbound : ∀ s, I s → size s ≤ B) (hs : I s) (hn : B < n + size s) :
    pass (saturate pass n s) = saturate pass n s := by
  induction n generalizing s with
  | zero =>
      have := hbound s hs
      omega
  | succ n ih =>
      unfold saturate
      split
      next h => exact h
      next h =>
        have hlt : size s < size (pass s) := hsize (lt_of_le_of_ne (hle s) (Ne.symm h))
        exact ih (hpass s hs) (by omega)

end

/-! ## Loops that report their changes -/

/-- `do { changed = pass } while (changed)`, when it ends within `n` passes. -/
def doWhile (pass : τ → τ × ℕ) : ℕ → τ → Option τ
  | 0, _ => none
  | n + 1, s =>
    let (s, changed) := pass s
    if changed = 0 then some s else doWhile pass n s

theorem doWhile_mono {pass : τ → τ × ℕ} {n m : ℕ} {s t : τ} (h : doWhile pass n s = some t)
    (hle : n ≤ m) : doWhile pass m s = some t := by
  induction n generalizing s m with
  | zero => cases h
  | succ n ih =>
      obtain ⟨m, rfl⟩ : ∃ k, m = k + 1 := ⟨m - 1, by omega⟩
      rw [doWhile] at h ⊢
      dsimp only at h ⊢
      split at h
      next hdone => rw [if_pos hdone, h]
      next hmore => rw [if_neg hmore, ih h (by omega)]

/-- A loop whose passes report their changes ends where the passes saturate. -/
theorem doWhile_saturate [DecidableEq σ] {abs : τ → σ} {I : τ → Prop} {passC : τ → τ × ℕ}
    {pass : σ → σ} (hpass : ∀ s, I s → I (passC s).1 ∧ abs (passC s).1 = pass (abs s) ∧
      ((passC s).2 = 0 ↔ pass (abs s) = abs s)) {s : τ} (hs : I s) {n : ℕ}
    (hfix : pass (saturate pass n (abs s)) = saturate pass n (abs s)) :
    ∃ t, doWhile passC (n + 1) s = some t ∧ I t ∧ abs t = saturate pass n (abs s) := by
  induction n generalizing s with
  | zero =>
      obtain ⟨hI, habs, hchanged⟩ := hpass s hs
      rw [saturate] at hfix ⊢
      refine ⟨(passC s).1, ?_, hI, habs.trans hfix⟩
      rw [doWhile]
      exact if_pos (hchanged.mpr hfix)
  | succ n ih =>
      obtain ⟨hI, habs, hchanged⟩ := hpass s hs
      rw [saturate] at hfix ⊢
      rw [doWhile]
      dsimp only
      by_cases hsame : pass (abs s) = abs s
      · rw [if_pos (hchanged.mpr hsame), if_pos hsame]
        exact ⟨_, rfl, hI, habs.trans hsame⟩
      · rw [if_neg hsame] at hfix ⊢
        rw [if_neg (mt hchanged.mp hsame)]
        rw [← habs] at hfix ⊢
        exact ih hI hfix

/-! ## Families of sets -/

section

variable {ι α : Type*}

/-- The number of elements in the sets of a family. -/
def familySize [Fintype ι] (s : ι → Finset α) : ℕ := ∑ i, (s i).card

theorem familySize_strictMono [Fintype ι] : StrictMono (familySize : (ι → Finset α) → ℕ) := by
  intro s t hlt
  obtain ⟨hle, i, hi⟩ := Pi.lt_def.mp hlt
  apply Finset.sum_lt_sum
  · exact fun j _ => Finset.card_le_card (hle j)
  · exact ⟨i, Finset.mem_univ i, Finset.card_lt_card hi⟩

theorem familySize_le [Fintype ι] {s : ι → Finset α} {c : ℕ} (h : ∀ i, (s i).card ≤ c) :
    familySize s ≤ Fintype.card ι * c := by
  have hsum := Finset.sum_le_card_nsmul Finset.univ (fun i => (s i).card) c fun i _ => h i
  simpa [familySize, Finset.card_univ] using hsum

/-- Elements are added to one set of a family. -/
theorem le_update_union [DecidableEq ι] [DecidableEq α] (s : ι → Finset α) (i : ι) (x : Finset α) :
    s ≤ Function.update s i (s i ∪ x) :=
  le_update_self_iff.mpr Finset.subset_union_left

end

end YardIce.Lib
