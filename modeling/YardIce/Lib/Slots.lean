import Mathlib.Logic.Function.Basic

/-!
# Slots and their owners

A resource has slots, some of them in use. An entity owns at most one slot. The
book is right when owning is a one-to-one correspondence between the entities
that own a slot and the slots in use.
-/

namespace YardIce.Lib

variable {S E : Type*}

/-- The slots in use correspond one to one to the entities that own one. -/
structure Assigned (used : S → Prop) (owner : E → Option S) : Prop where
  used_of_owner : ∀ e i, owner e = some i → used i
  owner_of_used : ∀ i, used i → ∃ e, owner e = some i
  unique : ∀ e e' i, owner e = some i → owner e' = some i → e = e'

namespace Assigned

variable {used used' : S → Prop} {owner owner' : E → Option S}

theorem of_none (hu : ∀ i, ¬used i) (ho : ∀ e, owner e = none) : Assigned used owner := by
  constructor
  · intro e i he
    rw [ho] at he
    cases he
  · intro i hi
    exact absurd hi (hu i)
  · intro e e' i he
    rw [ho] at he
    cases he

theorem congr (h : Assigned used owner) (hu : ∀ i, used' i ↔ used i)
    (ho : ∀ e, owner' e = owner e) : Assigned used' owner' := by
  constructor
  · intro e i he
    exact (hu i).mpr (h.used_of_owner e i ((ho e).symm.trans he))
  · intro i hi
    obtain ⟨e, he⟩ := h.owner_of_used i ((hu i).mp hi)
    exact ⟨e, (ho e).trans he⟩
  · intro e e' i he he'
    exact h.unique e e' i ((ho e).symm.trans he) ((ho e').symm.trans he')

/-- An entity without a slot takes a slot that is not in use. -/
theorem assign (h : Assigned used owner) {e : E} {i : S} (he : owner e = none) (hi : ¬used i)
    (hu : ∀ j, used' j ↔ j = i ∨ used j) (hself : owner' e = some i)
    (hother : ∀ e', e' ≠ e → owner' e' = owner e') : Assigned used' owner' := by
  have hcases : ∀ x j, owner' x = some j → (x = e ∧ j = i) ∨ (x ≠ e ∧ owner x = some j) := by
    intro x j hx
    by_cases hxe : x = e
    · subst hxe
      exact Or.inl ⟨rfl, Option.some.inj (hx.symm.trans hself)⟩
    · exact Or.inr ⟨hxe, (hother x hxe).symm.trans hx⟩
  constructor
  · intro x j hx
    obtain ⟨-, rfl⟩ | ⟨-, hx⟩ := hcases x j hx
    · exact (hu j).mpr (Or.inl rfl)
    · exact (hu j).mpr (Or.inr (h.used_of_owner x j hx))
  · intro j hj
    obtain rfl | hj := (hu j).mp hj
    · exact ⟨e, hself⟩
    · obtain ⟨x, hx⟩ := h.owner_of_used j hj
      have hxe : x ≠ e := by
        rintro rfl
        rw [he] at hx
        cases hx
      exact ⟨x, (hother x hxe).trans hx⟩
  · intro x y j hx hy
    obtain ⟨rfl, rfl⟩ | ⟨-, hx⟩ := hcases x j hx
    · obtain ⟨rfl, -⟩ | ⟨-, hy⟩ := hcases y j hy
      · rfl
      · exact absurd (h.used_of_owner y j hy) hi
    · obtain ⟨-, rfl⟩ | ⟨-, hy⟩ := hcases y j hy
      · exact absurd (h.used_of_owner x j hx) hi
      · exact h.unique x y j hx hy

/-- An entity gives its slot back. -/
theorem unassign (h : Assigned used owner) {e : E} {i : S} (he : owner e = some i)
    (hu : ∀ j, used' j ↔ used j ∧ j ≠ i) (hself : owner' e = none)
    (hother : ∀ e', e' ≠ e → owner' e' = owner e') : Assigned used' owner' := by
  have hcases : ∀ x j, owner' x = some j → x ≠ e ∧ owner x = some j := by
    intro x j hx
    have hxe : x ≠ e := by
      rintro rfl
      rw [hself] at hx
      cases hx
    exact ⟨hxe, (hother x hxe).symm.trans hx⟩
  constructor
  · intro x j hx
    obtain ⟨hxe, hx⟩ := hcases x j hx
    refine (hu j).mpr ⟨h.used_of_owner x j hx, ?_⟩
    rintro rfl
    exact hxe (h.unique x e j hx he)
  · intro j hj
    obtain ⟨hj, hji⟩ := (hu j).mp hj
    obtain ⟨x, hx⟩ := h.owner_of_used j hj
    have hxe : x ≠ e := by
      rintro rfl
      exact hji (Option.some.inj (hx.symm.trans he))
    exact ⟨x, (hother x hxe).trans hx⟩
  · intro x y j hx hy
    exact h.unique x y j (hcases x j hx).2 (hcases y j hy).2

end Assigned

end YardIce.Lib
