import YardIce.Lib.Predictive
import Mathlib.Logic.Relation

/-!
# Sentential forms

Nullable, first and follow in terms of derivations: what the inductive definitions find is what the
sentential forms show. An action may be dropped anywhere in a form.

## Main results

* `Grammar.nullable_iff_forms`, `Grammar.first_iff_forms`, `Grammar.follow_iff_forms`
* `Grammar.follow_iff_start`: when forms of a start symbol hold every nonterminal, they show all
  that may follow one.
-/

namespace YardIce.Lib.Predictive.Grammar

open Relation

variable {T N A R : Type*} (g : Grammar T N A R)

/-- One symbol of a form is replaced. -/
inductive Rewrites : List (Sym T N A) → List (Sym T N A) → Prop
  | action (α : List (Sym T N A)) (a : A) (β : List (Sym T N A)) :
      Rewrites (α ++ .action a :: β) (α ++ β)
  | nonterm (α : List (Sym T N A)) (r : R) (β : List (Sym T N A)) :
      Rewrites (α ++ .nonterm (g.lhs r) :: β) (α ++ g.rhs r ++ β)

/-- A form of the list. -/
def Forms : List (Sym T N A) → List (Sym T N A) → Prop := ReflTransGen g.Rewrites

variable {g} {t : T} {s s' u v : List (Sym T N A)}

/-! ## Forms in a context -/

theorem Rewrites.context (h : g.Rewrites s s') (u v : List (Sym T N A)) :
    g.Rewrites (u ++ s ++ v) (u ++ s' ++ v) := by
  cases h with
  | action α a β => simpa using Rewrites.action (g := g) (u ++ α) a (β ++ v)
  | nonterm α r β => simpa using Rewrites.nonterm (g := g) (u ++ α) r (β ++ v)

theorem Forms.refl (s : List (Sym T N A)) : g.Forms s s := ReflTransGen.refl

theorem Forms.trans (h : g.Forms s s') (h' : g.Forms s' u) : g.Forms s u := ReflTransGen.trans h h'

theorem Forms.context (h : g.Forms s s') (u v : List (Sym T N A)) :
    g.Forms (u ++ s ++ v) (u ++ s' ++ v) := by
  induction h with
  | refl => exact .refl _
  | tail _ hstep ih => exact ReflTransGen.tail ih (hstep.context u v)

theorem Forms.append (h : g.Forms s s') (h' : g.Forms u v) : g.Forms (s ++ u) (s' ++ v) := by
  have hleft := h.context [] u
  have hright := h'.context s' []
  rw [List.append_nil, List.append_nil] at hright
  exact hleft.trans hright

theorem Forms.action (a : A) : g.Forms [.action a] [] :=
  ReflTransGen.single (Rewrites.action [] a [])

theorem Forms.nonterm (r : R) : g.Forms [.nonterm (g.lhs r)] (g.rhs r) := by
  have hstep := Rewrites.nonterm (g := g) [] r []
  rw [List.append_nil] at hstep
  exact ReflTransGen.single hstep

/-! ## Nullable -/

theorem nullable_append : g.Nullable (s ++ s') ↔ g.Nullable s ∧ g.Nullable s' := by
  induction s with
  | nil => exact ⟨fun h => ⟨.nil, h⟩, fun h => h.2⟩
  | cons x s ih =>
      rw [List.cons_append, nullable_cons, ih, nullable_cons (s := s), and_assoc]

/-- What a form derives its origin derives. -/
theorem Rewrites.nullable (h : g.Rewrites s s') (hnull : g.Nullable s') : g.Nullable s := by
  cases h with
  | action α a β =>
      obtain ⟨hα, hβ⟩ := nullable_append.mp hnull
      exact hα.append (.action hβ)
  | nonterm α r β =>
      obtain ⟨hαr, hβ⟩ := nullable_append.mp hnull
      obtain ⟨hα, hr⟩ := nullable_append.mp hαr
      exact hα.append (.nonterm hr hβ)

theorem nullable_iff_forms : g.Nullable s ↔ g.Forms s [] := by
  constructor
  · intro h
    induction h with
    | nil => exact .refl []
    | action _ ih => exact (Forms.action _).append ih
    | nonterm _ _ ihr ih => exact ((Forms.nonterm _).trans ihr).append ih
  · intro h
    induction h using ReflTransGen.head_induction_on with
    | refl => exact .nil
    | head hstep _ ih => exact hstep.nullable ih

/-! ## First -/

theorem first_append : g.First t (s ++ s') ↔ g.First t s ∨ g.Nullable s ∧ g.First t s' := by
  induction s with
  | nil => exact ⟨fun h => .inr ⟨.nil, h⟩, fun h => h.elim (absurd · not_first_nil) (·.2)⟩
  | cons x s ih =>
      rw [List.cons_append, first_cons, ih, first_cons (s := s), nullable_cons (s := s)]
      tauto

theorem Rewrites.first (h : g.Rewrites s s') (hfirst : g.First t s') : g.First t s := by
  cases h with
  | action α a β =>
      rcases first_append.mp hfirst with hα | ⟨hα, hβ⟩
      · exact hα.append _
      · exact (First.skip (.action .nil) hβ).after_nullable hα
  | nonterm α r β =>
      rw [List.append_assoc] at hfirst
      rcases first_append.mp hfirst with hα | ⟨hα, hrest⟩
      · exact hα.append _
      rcases first_append.mp hrest with hr | ⟨hr, hβ⟩
      · exact (First.nonterm hr).after_nullable hα
      · exact (First.skip (.nonterm hr .nil) hβ).after_nullable hα

theorem first_iff_forms : g.First t s ↔ ∃ β, g.Forms s (.term t :: β) := by
  constructor
  · intro h
    induction h with
    | term => exact ⟨_, .refl _⟩
    | @nonterm r s _ ih =>
        obtain ⟨β, hβ⟩ := ih
        exact ⟨β ++ s, ((Forms.nonterm r).trans hβ).append (.refl s)⟩
    | skip hx _ ih =>
        obtain ⟨β, hβ⟩ := ih
        exact ⟨β, (nullable_iff_forms.mp hx).append hβ⟩
  · rintro ⟨β, h⟩
    induction h using ReflTransGen.head_induction_on with
    | refl => exact .term
    | head hstep _ ih => exact hstep.first ih

/-! ## Follow -/

/-- An element of a list that is put together from two is in one of them. -/
theorem append_eq_append_cons {α : Type*} {s s' u v : List α} {x : α}
    (h : s ++ s' = u ++ x :: v) :
    (∃ w, s = u ++ x :: w ∧ v = w ++ s') ∨ ∃ w, u = s ++ w ∧ s' = w ++ x :: v := by
  rcases List.append_eq_append_iff.mp h with ⟨w, hu, hs⟩ | ⟨w, hs, hv⟩
  · exact .inr ⟨w, hu, hs⟩
  · cases w with
    | nil => exact .inr ⟨[], by simpa using hs.symm, hv.symm⟩
    | cons y w =>
        obtain ⟨rfl, rfl⟩ := List.cons.inj hv
        exact .inl ⟨w, hs, rfl⟩

/-- Every token that may come after a nonterminal of the form may follow it. -/
def Adjacent (g : Grammar T N A R) (s : List (Sym T N A)) : Prop :=
  ∀ α n β, s = α ++ .nonterm n :: β → ∀ t, g.First t β → g.Follow t n

theorem Adjacent.rewrites (h : g.Rewrites s s') (hs : g.Adjacent s) : g.Adjacent s' := by
  intro u n v hsplit t hfirst
  cases h with
  | action α a β =>
      rcases append_eq_append_cons hsplit with ⟨w, rfl, rfl⟩ | ⟨w, rfl, rfl⟩
      · refine hs u n (w ++ .action a :: β) (by simp) t ?_
        exact (Rewrites.action w a β).first hfirst
      · exact hs (α ++ .action a :: w) n v (by simp) t hfirst
  | nonterm α r β =>
      rw [List.append_assoc] at hsplit
      rcases append_eq_append_cons hsplit with ⟨w, rfl, rfl⟩ | ⟨w, rfl, hw⟩
      · refine hs u n (w ++ .nonterm (g.lhs r) :: β) (by simp) t ?_
        rw [← List.append_assoc] at hfirst
        exact (Rewrites.nonterm w r β).first hfirst
      · rcases append_eq_append_cons hw with ⟨w', hr, rfl⟩ | ⟨w', rfl, rfl⟩
        · -- in the right-hand side
          rcases first_append.mp hfirst with hw' | ⟨hw', hβ⟩
          · exact .after hr hw'
          · exact .up hr hw' (hs α (g.lhs r) β rfl t hβ)
        · exact hs (α ++ .nonterm (g.lhs r) :: w') n v (by simp) t hfirst

theorem Forms.adjacent (h : g.Forms s s') (hs : g.Adjacent s) : g.Adjacent s' := by
  induction h with
  | refl => exact hs
  | tail _ hstep ih => exact ih.rewrites hstep

theorem adjacent_nonterm (m : N) : g.Adjacent [.nonterm m] := by
  intro α n β hsplit t hfirst
  have hβ : β = [] := by
    have hlen := congrArg List.length hsplit
    simp only [List.length_append, List.length_cons, List.length_nil] at hlen
    exact List.length_eq_zero_iff.mp (by omega)
  rw [hβ] at hfirst
  exact absurd hfirst not_first_nil

/-- A form in which a token comes after a nonterminal, with more around it. -/
theorem Forms.follow {r : R} {α β : List (Sym T N A)} {n : N} (hr : g.rhs r = α ++ .nonterm n :: β)
    (hs : g.Forms s (u ++ .nonterm (g.lhs r) :: v)) (hv : g.Forms (β ++ v) (.term t :: s')) :
    g.Forms s (u ++ α ++ .nonterm n :: .term t :: s') := by
  have hrule := (Forms.nonterm (g := g) r).context u v
  rw [hr] at hrule
  have hrest := hv.context (u ++ α ++ [.nonterm n]) []
  simp only [List.append_assoc, List.append_nil, List.cons_append, List.nil_append] at hrule hrest hs ⊢
  exact (hs.trans hrule).trans hrest

theorem follow_iff_forms {n : N} : g.Follow t n ↔
    ∃ m α β, g.Forms [.nonterm m] (α ++ .nonterm n :: .term t :: β) := by
  constructor
  · intro h
    induction h with
    | @after r α n β hr hβ =>
        obtain ⟨γ, hγ⟩ := first_iff_forms.mp hβ
        refine ⟨g.lhs r, [] ++ α, γ, Forms.follow hr (.refl _) ?_⟩
        rw [List.append_nil]
        exact hγ
    | @up r α n β hr hβ _ ih =>
        obtain ⟨m, u, v, hm⟩ := ih
        exact ⟨m, u ++ α, v, Forms.follow hr hm ((nullable_iff_forms.mp hβ).append (.refl _))⟩
  · rintro ⟨m, α, β, h⟩
    exact h.adjacent (adjacent_nonterm m) α n _ rfl t .term

/-- The same from a start symbol whose forms hold every nonterminal that has a rule. -/
theorem follow_iff_start {n start : N}
    (hstart : ∀ r, ∃ α β, g.Forms [.nonterm start] (α ++ .nonterm (g.lhs r) :: β)) :
    g.Follow t n ↔ ∃ α β, g.Forms [.nonterm start] (α ++ .nonterm n :: .term t :: β) := by
  constructor
  · intro h
    induction h with
    | @after r α n β hr hβ =>
        obtain ⟨γ, hγ⟩ := first_iff_forms.mp hβ
        obtain ⟨u, v, huv⟩ := hstart r
        exact ⟨u ++ α, γ ++ v, Forms.follow hr huv (hγ.append (.refl v))⟩
    | @up r α n β hr hβ _ ih =>
        obtain ⟨u, v, hm⟩ := ih
        exact ⟨u ++ α, v, Forms.follow hr hm ((nullable_iff_forms.mp hβ).append (.refl _))⟩
  · rintro ⟨α, β, h⟩
    exact h.adjacent (adjacent_nonterm start) α n _ rfl t .term

end YardIce.Lib.Predictive.Grammar
