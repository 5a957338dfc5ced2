import Mathlib.Data.List.Perm.Basic
import Mathlib.Data.List.Nodup
import Mathlib.Logic.Function.Basic

/-!
# Items distributed over places

`contents p` lists what a place `p` holds. A partition puts every item in
exactly one place, and at most once there. Items move between two places; the
other places keep theirs.
-/

namespace YardIce.Lib

variable {P I : Type*}

/-- Every item is in exactly one place and listed once there. -/
structure Partition (contents : P → List I) : Prop where
  unique : ∀ i, ∃! p, i ∈ contents p
  nodup : ∀ p, (contents p).Nodup

namespace Partition

variable {contents contents' : P → List I}

theorem eq_of_mem (h : Partition contents) {i : I} {p q : P} (hp : i ∈ contents p)
    (hq : i ∈ contents q) : p = q :=
  (h.unique i).unique hp hq

theorem disjoint (h : Partition contents) {p q : P} (hpq : p ≠ q) :
    List.Disjoint (contents p) (contents q) := fun _ hp hq => hpq (h.eq_of_mem hp hq)

/-- Rearranging the items of two places, and of no other, keeps a partition. -/
theorem of_perm (h : Partition contents) {p q : P} (hpq : p ≠ q)
    (hperm : (contents' p ++ contents' q).Perm (contents p ++ contents q))
    (hother : ∀ r, r ≠ p → r ≠ q → contents' r = contents r) : Partition contents' := by
  have hnd : (contents p ++ contents q).Nodup :=
    List.nodup_append'.mpr ⟨h.nodup p, h.nodup q, h.disjoint hpq⟩
  have hnd' := hperm.nodup_iff.mpr hnd
  rw [List.nodup_append'] at hnd'
  have hmem (i : I) : i ∈ contents' p ∨ i ∈ contents' q ↔ i ∈ contents p ∨ i ∈ contents q := by
    simpa only [List.mem_append] using hperm.mem_iff (a := i)
  refine ⟨fun i => ?_, fun r => ?_⟩
  · by_cases hi : i ∈ contents p ∨ i ∈ contents q
    · have hother' (r : P) (hr : i ∈ contents' r) : r = p ∨ r = q := by
        by_contra hne
        rw [not_or] at hne
        rw [hother r hne.1 hne.2] at hr
        rcases hi with hp | hq
        · exact hne.1 (h.eq_of_mem hr hp)
        · exact hne.2 (h.eq_of_mem hr hq)
      rcases (hmem i).mpr hi with hp | hq
      · refine ⟨p, hp, fun r hr => (hother' r hr).elim id fun he => ?_⟩
        exact absurd (he ▸ hr) fun hq => hnd'.2.2 hp hq
      · refine ⟨q, hq, fun r hr => (hother' r hr).elim (fun he => ?_) id⟩
        exact absurd (he ▸ hr) fun hp => hnd'.2.2 hp hq
    · obtain ⟨r, hr, huniq⟩ := h.unique i
      have hrp : r ≠ p := fun he => hi (Or.inl (he ▸ hr))
      have hrq : r ≠ q := fun he => hi (Or.inr (he ▸ hr))
      refine ⟨r, ?_, fun t ht => ?_⟩
      · show i ∈ contents' r
        rw [hother r hrp hrq]
        exact hr
      · have htp : t ≠ p := fun he => hi ((hmem i).mp (Or.inl (he ▸ ht)))
        have htq : t ≠ q := fun he => hi ((hmem i).mp (Or.inr (he ▸ ht)))
        change i ∈ contents' t at ht
        rw [hother t htp htq] at ht
        exact huniq t ht
  · by_cases hp : r = p
    · exact hp ▸ hnd'.1
    · by_cases hq : r = q
      · exact hq ▸ hnd'.2.1
      · rw [hother r hp hq]
        exact h.nodup r

end Partition

end YardIce.Lib
