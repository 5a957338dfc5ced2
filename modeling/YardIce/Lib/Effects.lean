import Mathlib.Data.List.Basic

/-!
# Effects on a stack of kinds

A word over an alphabet whose letters take entries off a stack and put others there, as
the parse stack of a translator does with the entries of its value stack. What a word makes
of a stack is found by running over its letters, and a letter may be replaced by any word
with the same effect.
-/

namespace YardIce.Lib

/-- What a letter takes off the stack and what it puts there. -/
structure Effect (κ : Type) where
  pops : List κ
  pushes : List κ

namespace Effect

variable {κ σ : Type} [DecidableEq κ]

/-- The stack after the effect, if what the effect takes off is there. -/
def apply (e : Effect κ) (ks : List κ) : Option (List κ) :=
  if e.pops <+: ks then some (e.pushes ++ ks.drop e.pops.length) else none

theorem apply_eq_some {e : Effect κ} {ks ks' : List κ} :
    e.apply ks = some ks' ↔ ∃ r, ks = e.pops ++ r ∧ ks' = e.pushes ++ r := by
  unfold apply
  constructor
  · intro h
    split_ifs at h with hprefix
    obtain ⟨r, rfl⟩ := hprefix
    rw [List.drop_left] at h
    exact ⟨r, rfl, (Option.some.inj h).symm⟩
  · rintro ⟨r, rfl, rfl⟩
    rw [if_pos (List.prefix_append _ _), List.drop_left]

variable (eff : σ → Effect κ)

/-- The stack after all letters of a word. -/
def applyAll : List σ → List κ → Option (List κ)
  | [], ks => some ks
  | a :: w, ks => ((eff a).apply ks).bind (applyAll w)

variable {eff} {a : σ} {w w' : List σ} {ks ks' : List κ}

theorem applyAll_cons :
    applyAll eff (a :: w) ks = some ks' ↔
      ∃ r, ks = (eff a).pops ++ r ∧ applyAll eff w ((eff a).pushes ++ r) = some ks' := by
  rw [applyAll, Option.bind_eq_some_iff]
  constructor
  · rintro ⟨ks₁, h₁, h⟩
    obtain ⟨r, rfl, rfl⟩ := apply_eq_some.mp h₁
    exact ⟨r, rfl, h⟩
  · rintro ⟨r, rfl, h⟩
    exact ⟨_, apply_eq_some.mpr ⟨r, rfl, rfl⟩, h⟩

theorem applyAll_append (w w' : List σ) (ks : List κ) :
    applyAll eff (w ++ w') ks = (applyAll eff w ks).bind (applyAll eff w') := by
  induction w generalizing ks with
  | nil => rfl
  | cons a w ih =>
      rw [List.cons_append, applyAll, applyAll, Option.bind_assoc]
      exact congrArg _ (funext ih)

/-- What lies below the entries that a word uses stays. -/
theorem applyAll_frame (h : applyAll eff w ks = some ks') (r : List κ) :
    applyAll eff w (ks ++ r) = some (ks' ++ r) := by
  induction w generalizing ks with
  | nil =>
      cases h
      rfl
  | cons a w ih =>
      obtain ⟨r', rfl, hw⟩ := applyAll_cons.mp h
      have hrest := ih hw
      rw [List.append_assoc] at hrest ⊢
      exact applyAll_cons.mpr ⟨_, rfl, hrest⟩

/-- A letter may be replaced by a word with its effect. -/
theorem applyAll_replace (hw : applyAll eff w' (eff a).pops = some (eff a).pushes)
    (h : applyAll eff (a :: w) ks = some ks') : applyAll eff (w' ++ w) ks = some ks' := by
  obtain ⟨r, rfl, hrest⟩ := applyAll_cons.mp h
  rw [applyAll_append, applyAll_frame hw]
  exact hrest

end Effect

end YardIce.Lib
