import Mathlib.Computability.ContextFreeGrammar
import Mathlib.Data.Set.Finite.Range
import Mathlib.Data.Set.Finite.Basic

/-!
# Predictive parsing

Grammars whose right-hand sides may hold actions, which derive nothing, and the parser that keeps
a stack of symbols and expands a nonterminal by the rule that predicts the next token. If the rule
is always the one that predicts the token, the parser stops on every input and accepts exactly the
words of the grammar, provided that the rules of the start symbol end in a terminal.

## Main results

* `Grammar.stops`: no stack and input let the parser run forever.
* `Grammar.accepts_iff`: the words that are accepted are those that the start symbol derives.
* `Grammar.derives_iff_mem_language`: deriving a word, in the sense of context-free grammars.
-/

namespace YardIce.Lib.Predictive

/-- A symbol of a right-hand side. -/
inductive Sym (T N A : Type*) where
  | term (t : T)
  | nonterm (n : N)
  | action (a : A)
  deriving DecidableEq

/-- The rules of a grammar, by their numbers. -/
structure Grammar (T N A R : Type*) where
  lhs : R → N
  rhs : R → List (Sym T N A)

namespace Grammar

variable {T N A R : Type*} (g : Grammar T N A R)

/-! ## Nullable, first, follow and predict -/

/-- All symbols of the list derive the empty word. -/
inductive Nullable : List (Sym T N A) → Prop
  | nil : Nullable []
  | action {a s} (hs : Nullable s) : Nullable (.action a :: s)
  | nonterm {r s} (hr : Nullable (g.rhs r)) (hs : Nullable s) : Nullable (.nonterm (g.lhs r) :: s)

/-- What the list derives may begin with `t`. -/
inductive First (t : T) : List (Sym T N A) → Prop
  | term {s} : First t (.term t :: s)
  | nonterm {r s} (hr : First t (g.rhs r)) : First t (.nonterm (g.lhs r) :: s)
  | skip {x s} (hx : g.Nullable [x]) (hs : First t s) : First t (x :: s)

/-- `t` may come after what the nonterminal derives. -/
inductive Follow (t : T) : N → Prop
  | after {r α n β} (hr : g.rhs r = α ++ .nonterm n :: β) (hβ : g.First t β) : Follow t n
  | up {r α n β} (hr : g.rhs r = α ++ .nonterm n :: β) (hβ : g.Nullable β)
      (hl : Follow t (g.lhs r)) : Follow t n

/-- The rule is the one to expand by when the next token is `t`. -/
def Predict (r : R) (t : T) : Prop :=
  g.First t (g.rhs r) ∨ g.Nullable (g.rhs r) ∧ g.Follow t (g.lhs r)

variable {g} {t : T} {s s' : List (Sym T N A)}

theorem Nullable.append (h : g.Nullable s) (h' : g.Nullable s') : g.Nullable (s ++ s') := by
  induction h with
  | nil => exact h'
  | action _ ih => exact .action ih
  | nonterm hr _ _ ih => exact .nonterm hr ih

theorem Nullable.head_tail {x : Sym T N A} (h : g.Nullable (x :: s)) :
    g.Nullable [x] ∧ g.Nullable s := by
  cases h with
  | action hs => exact ⟨.action .nil, hs⟩
  | nonterm hr hs => exact ⟨.nonterm hr .nil, hs⟩

theorem nullable_cons {x : Sym T N A} : g.Nullable (x :: s) ↔ g.Nullable [x] ∧ g.Nullable s :=
  ⟨Nullable.head_tail, fun h => h.1.append h.2⟩

theorem not_nullable_term (a : T) : ¬ g.Nullable (.term a :: s) := by
  intro h
  cases h

theorem nullable_nonterm {n : N} (h : g.Nullable [.nonterm n]) :
    ∃ r, g.lhs r = n ∧ g.Nullable (g.rhs r) := by
  generalize hs : [Sym.nonterm n] = s at h
  cases h with
  | nil => cases hs
  | action _ => cases hs
  | @nonterm r _ hr _ =>
      cases hs
      exact ⟨r, rfl, hr⟩

theorem First.append (h : g.First t s) (s' : List (Sym T N A)) : g.First t (s ++ s') := by
  induction h with
  | term => exact .term
  | nonterm hr => exact .nonterm hr
  | skip hx _ ih => exact .skip hx ih

theorem First.after_nullable (h : g.First t s') (hs : g.Nullable s) : g.First t (s ++ s') := by
  induction hs with
  | nil => exact h
  | action _ ih => exact .skip (.action .nil) ih
  | nonterm hr _ _ ih => exact .skip (.nonterm hr .nil) ih

theorem first_cons {x : Sym T N A} :
    g.First t (x :: s) ↔ g.First t [x] ∨ g.Nullable [x] ∧ g.First t s := by
  constructor
  · intro h
    cases h with
    | term => exact .inl .term
    | nonterm hr => exact .inl (.nonterm hr)
    | skip hx hs => exact .inr ⟨hx, hs⟩
  · rintro (hx | ⟨hx, hs⟩)
    · exact hx.append s
    · exact .skip hx hs

theorem not_first_nil : ¬ g.First t [] := by
  intro h
  cases h

/-- A token that may come after a part of a right-hand side may follow the nonterminal before it. -/
theorem follow_of_after {r : R} {α β γ : List (Sym T N A)} {n : N}
    (hr : g.rhs r = α ++ .nonterm n :: β ++ γ) (hβ : g.Nullable β)
    (ht : g.First t γ ∨ g.Nullable γ ∧ g.Follow t (g.lhs r)) : g.Follow t n := by
  rw [List.append_assoc, List.cons_append] at hr
  rcases ht with hfirst | ⟨hnull, hfollow⟩
  · exact .after hr (hfirst.after_nullable hβ)
  · exact .up hr (hβ.append hnull) hfollow

/-! ## Derivations -/

variable (g) in
/-- The list derives the word. -/
inductive Derives : List (Sym T N A) → List T → Prop
  | nil : Derives [] []
  | term {t s w} (hs : Derives s w) : Derives (.term t :: s) (t :: w)
  | action {a s w} (hs : Derives s w) : Derives (.action a :: s) w
  | nonterm {r s u v} (hr : Derives (g.rhs r) u) (hs : Derives s v) :
      Derives (.nonterm (g.lhs r) :: s) (u ++ v)

theorem Derives.append {u v : List T} (h : g.Derives s u) (h' : g.Derives s' v) :
    g.Derives (s ++ s') (u ++ v) := by
  induction h with
  | nil => exact h'
  | term _ ih => exact .term ih
  | action _ ih => exact .action ih
  | nonterm hr _ _ ih =>
      rw [List.append_assoc]
      exact .nonterm hr ih

/-- What a concatenation derives is the concatenation of what its parts derive. -/
theorem Derives.split {w : List T} (h : g.Derives (s ++ s') w) :
    ∃ u v, w = u ++ v ∧ g.Derives s u ∧ g.Derives s' v := by
  induction s generalizing w with
  | nil => exact ⟨[], w, rfl, .nil, h⟩
  | cons x s ih =>
      cases h with
      | term hs =>
          obtain ⟨u, v, rfl, hu, hv⟩ := ih hs
          exact ⟨_ :: u, v, rfl, .term hu, hv⟩
      | action hs =>
          obtain ⟨u, v, rfl, hu, hv⟩ := ih hs
          exact ⟨u, v, rfl, .action hu, hv⟩
      | nonterm hr hs =>
          obtain ⟨u, v, rfl, hu, hv⟩ := ih hs
          exact ⟨_ ++ u, v, (List.append_assoc ..).symm, .nonterm hr hu, hv⟩

theorem Derives.nullable (h : g.Derives s []) : g.Nullable s := by
  generalize hw : ([] : List T) = w at h
  induction h with
  | nil => exact .nil
  | term _ => cases hw
  | action _ ih => exact .action (ih hw)
  | nonterm _ _ ihr ih =>
      obtain ⟨hu, hv⟩ := List.append_eq_nil_iff.mp hw.symm
      exact .nonterm (ihr hu.symm) (ih hv.symm)

theorem Derives.first {w : List T} (h : g.Derives s (t :: w)) : g.First t s := by
  generalize hw : t :: w = v at h
  induction h generalizing w with
  | nil => cases hw
  | term _ =>
      cases hw
      exact .term
  | action _ ih => exact .skip (.action .nil) (ih hw)
  | @nonterm r s u v hr _ ihr ih =>
      cases u with
      | nil => exact .skip (.nonterm hr.nullable .nil) (ih hw)
      | cons a u =>
          cases hw
          exact .nonterm (ihr rfl)
/-! ## The parser -/

variable (g) in
/-- One step on the stack and the input that is left. No step is left when the stack is empty, when
a terminal is not the next token, or when no rule is chosen. -/
def step [DecidableEq T] (choose : N → T → Option R) :
    List (Sym T N A) × List T → Option (List (Sym T N A) × List T)
  | ([], _) => none
  | (.action _ :: s, w) => some (s, w)
  | (.term _ :: _, []) => none
  | (.term t :: s, t' :: w) => if t = t' then some (s, w) else none
  | (.nonterm _ :: _, []) => none
  | (.nonterm n :: s, t :: w) => (choose n t).map fun r => (g.rhs r ++ s, t :: w)

variable (g) in
/-- The rule that is chosen is the one that predicts the token. -/
def Chooses (choose : N → T → Option R) : Prop :=
  ∀ n t r, choose n t = some r ↔ g.lhs r = n ∧ g.Predict r t

section

variable [DecidableEq T] {choose : N → T → Option R}

variable (g choose) in
/-- The parser stops. -/
abbrev Stops : List (Sym T N A) × List T → Prop := Acc fun c' c => g.step choose c = some c'

variable (g choose) in
/-- The parser gets from one stack and input to another. -/
abbrev Reaches : List (Sym T N A) × List T → List (Sym T N A) × List T → Prop :=
  Relation.ReflTransGen fun c c' => g.step choose c = some c'

theorem stops_of_next {c : List (Sym T N A) × List T}
    (h : ∀ c', g.step choose c = some c' → g.Stops choose c') : g.Stops choose c :=
  Acc.intro c h

/-! ### It stops -/

/-- A part of a right-hand side that derives the empty word is taken off the stack when what comes
next may follow it: each nonterminal is expanded by the rule that derives the empty word. -/
theorem stops_nullable (hc : g.Chooses choose) {w : List T} (hs : g.Stops choose (s', t :: w))
    {r : R} {α : List (Sym T N A)} (hr : g.rhs r = α ++ s) (hnull : g.Nullable s)
    (hfollow : g.Follow t (g.lhs r)) : g.Stops choose (s ++ s', t :: w) := by
  induction hnull generalizing r α s' with
  | nil => exact hs
  | @action a s _ ih =>
      apply stops_of_next
      rintro c' ⟨⟩
      exact ih hs (hr.trans (List.append_cons ..)) hfollow
  | @nonterm r₀ s hr₀ hnull ihr ih =>
      have hlhs : g.Follow t (g.lhs r₀) := .up hr hnull hfollow
      have hchoose : choose (g.lhs r₀) t = some r₀ := (hc _ _ _).mpr ⟨rfl, .inr ⟨hr₀, hlhs⟩⟩
      apply stops_of_next
      intro c' hstep
      rw [List.cons_append, step, hchoose] at hstep
      cases hstep
      exact ihr (ih hs (hr.trans (List.append_cons ..)) hfollow) (List.nil_append _).symm hlhs

/-- A part of a right-hand side that may begin with the next token comes to match it. -/
theorem stops_first (hc : g.Chooses choose) {w : List T} (hshift : ∀ s, g.Stops choose (s, w))
    {r : R} {α : List (Sym T N A)} (hr : g.rhs r = α ++ s) (hfirst : g.First t s)
    (s' : List (Sym T N A)) : g.Stops choose (s ++ s', t :: w) := by
  induction hfirst generalizing r α s' with
  | @term s =>
      apply stops_of_next
      intro c' hstep
      rw [List.cons_append, step, if_pos rfl] at hstep
      cases hstep
      exact hshift _
  | @nonterm r₀ s hr₀ ih =>
      have hchoose : choose (g.lhs r₀) t = some r₀ := (hc _ _ _).mpr ⟨rfl, .inl hr₀⟩
      apply stops_of_next
      intro c' hstep
      rw [List.cons_append, step, hchoose] at hstep
      cases hstep
      exact ih (List.nil_append _).symm _
  | @skip x s hx hs ih =>
      have hrest := ih (hr.trans (List.append_cons ..)) s'
      cases x with
      | term a => exact absurd hx (not_nullable_term a)
      | action a =>
          apply stops_of_next
          rintro c' ⟨⟩
          exact hrest
      | nonterm n =>
          obtain ⟨r₀, rfl, hr₀⟩ := nullable_nonterm hx
          have hlhs : g.Follow t (g.lhs r₀) := .after hr hs
          have hchoose : choose (g.lhs r₀) t = some r₀ := (hc _ _ _).mpr ⟨rfl, .inr ⟨hr₀, hlhs⟩⟩
          apply stops_of_next
          intro c' hstep
          rw [List.cons_append, step, hchoose] at hstep
          cases hstep
          exact stops_nullable hc hrest (List.nil_append _).symm hr₀ hlhs

theorem stops_cons (hc : g.Chooses choose) {w : List T} (hshift : ∀ s, g.Stops choose (s, w))
    (x : Sym T N A) (hs : g.Stops choose (s, t :: w)) : g.Stops choose (x :: s, t :: w) := by
  apply stops_of_next
  intro c' hstep
  cases x with
  | term a =>
      rw [step, Option.ite_none_right_eq_some] at hstep
      obtain ⟨-, hstep⟩ := hstep
      cases hstep
      exact hshift s
  | action a =>
      cases hstep
      exact hs
  | nonterm n =>
      rw [step, Option.map_eq_some_iff] at hstep
      obtain ⟨r, hchoose, rfl⟩ := hstep
      obtain ⟨-, hfirst | ⟨hnull, hfollow⟩⟩ := (hc _ _ _).mp hchoose
      · exact stops_first hc hshift (List.nil_append _).symm hfirst s
      · exact stops_nullable hc hs (List.nil_append _).symm hnull hfollow

/-- The parser stops on every input, with whatever stack it starts. -/
theorem stops (hc : g.Chooses choose) (s : List (Sym T N A)) (w : List T) :
    g.Stops choose (s, w) := by
  induction w generalizing s with
  | nil =>
      induction s with
      | nil => exact stops_of_next fun c' h => by cases h
      | cons x s ih =>
          apply stops_of_next
          intro c' hstep
          cases x with
          | term a => cases hstep
          | nonterm n => cases hstep
          | action a =>
              cases hstep
              exact ih
  | cons t w hshift =>
      induction s with
      | nil => exact stops_of_next fun c' h => by cases h
      | cons x s ih => exact stops_cons hc hshift x ih

/-! ### What it accepts -/

/-- What brings the stack and the input to an end derives the input. -/
theorem derives_of_reaches (hc : g.Chooses choose) {c : List (Sym T N A) × List T}
    (h : g.Reaches choose c ([], [])) : g.Derives c.1 c.2 := by
  induction h using Relation.ReflTransGen.head_induction_on with
  | refl => exact .nil
  | @head c c' hstep _ ih =>
      obtain ⟨s, w⟩ := c
      cases s with
      | nil => cases hstep
      | cons x s =>
          cases x with
          | action a =>
              cases hstep
              exact .action ih
          | term a =>
              cases w with
              | nil => cases hstep
              | cons t w =>
                  rw [step, Option.ite_none_right_eq_some] at hstep
                  obtain ⟨rfl, hstep⟩ := hstep
                  cases hstep
                  exact .term ih
          | nonterm n =>
              cases w with
              | nil => cases hstep
              | cons t w =>
                  rw [step, Option.map_eq_some_iff] at hstep
                  obtain ⟨r, hchoose, rfl⟩ := hstep
                  obtain ⟨rfl, -⟩ := (hc _ _ _).mp hchoose
                  obtain ⟨u, v, huv, hu, hv⟩ := ih.split
                  rw [show (⟨_, t :: w⟩ : List (Sym T N A) × List T).2 = u ++ v from huv]
                  exact .nonterm hu hv

/-- A part of a right-hand side is taken off the stack with the tokens that it derives, when what
comes next may come after it. -/
theorem reaches_of_derives (hc : g.Chooses choose) {u v : List T} (h : g.Derives s u)
    {r : R} {α β : List (Sym T N A)} (hr : g.rhs r = α ++ s ++ β)
    (hnext : ∃ t v', v = t :: v' ∧
      (g.First t β ∨ g.Nullable β ∧ g.Follow t (g.lhs r))) (s' : List (Sym T N A)) :
    g.Reaches choose (s ++ s', u ++ v) (s', v) := by
  induction h generalizing r α β v s' with
  | nil => exact .refl
  | @term t s w _ ih =>
      have hrest := ih (α := α ++ [.term t]) (hr.trans (by simp)) hnext s'
      exact .head (b := (s ++ s', w ++ v)) (if_pos rfl) hrest
  | @action a s w _ ih =>
      have hrest := ih (α := α ++ [.action a]) (hr.trans (by simp)) hnext s'
      have hstep : g.step choose (.action a :: (s ++ s'), w ++ v) = some (s ++ s', w ++ v) := rfl
      exact .head hstep hrest
  | @nonterm r₀ s w₀ w hr₀ hs ihr ih =>
      have hrest := ih (α := α ++ [.nonterm (g.lhs r₀)]) (hr.trans (by simp)) hnext s'
      -- the token that comes after what the nonterminal derives may follow it
      have hafter : ∃ t v', w ++ v = t :: v' ∧ g.Follow t (g.lhs r₀) := by
        cases w with
        | nil =>
            obtain ⟨t, v', rfl, ht⟩ := hnext
            exact ⟨t, v', rfl, follow_of_after hr hs.nullable ht⟩
        | cons t w =>
            refine ⟨t, w ++ v, rfl, .after (r := r) (α := α) (β := s ++ β) ?_ (hs.first.append β)⟩
            rw [hr, List.append_assoc, List.cons_append]
      have hhead := ihr (r := r₀) (α := []) (β := []) (by simp)
        (by
          obtain ⟨t, v', hv, ht⟩ := hafter
          exact ⟨t, v', hv, .inr ⟨.nil, ht⟩⟩) (s ++ s')
      -- the rule of the derivation predicts the next token
      have hpredict : ∃ t v', w₀ ++ (w ++ v) = t :: v' ∧ g.Predict r₀ t := by
        cases w₀ with
        | nil =>
            obtain ⟨t, v', hv, ht⟩ := hafter
            exact ⟨t, v', hv, .inr ⟨hr₀.nullable, ht⟩⟩
        | cons t w₀ => exact ⟨t, w₀ ++ (w ++ v), rfl, .inl hr₀.first⟩
      obtain ⟨t, v', hv, ht⟩ := hpredict
      rw [List.append_assoc, List.cons_append]
      refine .head ?_ (hhead.trans hrest)
      rw [hv, step, (hc _ _ _).mpr ⟨rfl, ht⟩]
      rfl

/-- The parser that starts with a nonterminal whose rules end in a terminal accepts what the
nonterminal derives. -/
theorem accepts_iff (hc : g.Chooses choose) {n : N}
    (hend : ∀ r, g.lhs r = n → ∃ α t, g.rhs r = α ++ [.term t]) (w : List T) :
    g.Reaches choose ([.nonterm n], w) ([], []) ↔ g.Derives [.nonterm n] w := by
  constructor
  · exact derives_of_reaches hc
  · intro h
    generalize hs : [Sym.nonterm n] = s at h
    cases h with
    | nil => cases hs
    | term _ => cases hs
    | action _ => cases hs
    | @nonterm r _ u v hr hnil =>
        cases hs
        cases hnil
        obtain ⟨α, t, hα⟩ := hend r rfl
        have hsplit := hα ▸ hr
        obtain ⟨u, v, rfl, hu, hv⟩ := hsplit.split
        cases hv with
        | term hv =>
            cases hv
            have hfirst : ∃ t' u', u ++ [t] = t' :: u' ∧ g.First t' (g.rhs r) := by
              cases u with
              | nil => exact ⟨t, [], rfl, hr.first⟩
              | cons a u => exact ⟨a, u ++ [t], rfl, hr.first⟩
            obtain ⟨t', u', hu', hfirst⟩ := hfirst
            rw [List.append_nil]
            refine .head (b := (g.rhs r ++ [], u ++ [t])) ?_ ?_
            · rw [hu', step, (hc _ _ _).mpr ⟨rfl, .inl hfirst⟩]
              rfl
            · rw [List.append_nil, hα]
              refine (reaches_of_derives hc hu (α := []) hα ⟨t, [], rfl, .inl .term⟩ _).trans ?_
              exact .single (if_pos rfl)

end

/-! ## Context-free grammars -/

section

variable {N : Type} {g : Grammar T N A R} {s s' : List (Sym T N A)}

/-- The symbols of a list without its actions. -/
def erase : List (Sym T N A) → List (Symbol T N)
  | [] => []
  | .term t :: s => .terminal t :: erase s
  | .nonterm n :: s => .nonterminal n :: erase s
  | .action _ :: s => erase s

theorem erase_append (s s' : List (Sym T N A)) : erase (s ++ s') = erase s ++ erase s' := by
  induction s with
  | nil => rfl
  | cons x s ih => cases x <;> simp [erase, ih]

variable (g) in
/-- The rules without their actions, as a context-free grammar. -/
noncomputable def toCfg [Finite R] (n : N) : ContextFreeGrammar T where
  NT := N
  initial := n
  rules := Set.Finite.toFinset
    (Set.finite_range fun r => (⟨g.lhs r, erase (g.rhs r)⟩ : ContextFreeRule T N))

theorem mem_rules_toCfg [Finite R] {n : N} {rule : ContextFreeRule T N} :
    rule ∈ (g.toCfg n).rules ↔ ∃ r, ⟨g.lhs r, erase (g.rhs r)⟩ = rule :=
  Set.Finite.mem_toFinset _

theorem Derives.derives_toCfg [Finite R] (n : N) {w : List T} (h : g.Derives s w) :
    (g.toCfg n).Derives (erase s) (w.map .terminal) := by
  induction h with
  | nil => exact ContextFreeGrammar.Derives.refl _
  | term _ ih => exact ih.append_left [_]
  | action _ ih => exact ih
  | @nonterm r s u v _ _ ihr ih =>
      have hrule : (g.toCfg n).Produces [.nonterminal (g.lhs r)] (erase (g.rhs r)) :=
        ⟨_, mem_rules_toCfg.mpr ⟨r, rfl⟩, ContextFreeRule.Rewrites.input_output⟩
      rw [List.map_append]
      have hhead := (hrule.single.trans ihr).append_right (erase s)
      exact hhead.trans (ih.append_left _)

/-- The symbols left and right of a nonterminal, with their actions. -/
theorem split_erase {p q : List (Symbol T N)} {n : N} (h : erase s = p ++ .nonterminal n :: q) :
    ∃ α β, s = α ++ .nonterm n :: β ∧ erase α = p ∧ erase β = q := by
  induction s generalizing p with
  | nil => simp [erase] at h
  | cons x s ih =>
      cases x with
      | action a =>
          obtain ⟨α, β, rfl, hα, hβ⟩ := ih h
          exact ⟨.action a :: α, β, rfl, hα, hβ⟩
      | term t =>
          cases p with
          | nil => simp [erase] at h
          | cons y p =>
              obtain ⟨rfl, htail⟩ := List.cons.inj h
              obtain ⟨α, β, rfl, rfl, hβ⟩ := ih htail
              exact ⟨.term t :: α, β, rfl, rfl, hβ⟩
      | nonterm m =>
          cases p with
          | nil =>
              obtain ⟨hm, htail⟩ := List.cons.inj h
              cases hm
              exact ⟨[], s, rfl, rfl, htail⟩
          | cons y p =>
              obtain ⟨rfl, htail⟩ := List.cons.inj h
              obtain ⟨α, β, rfl, rfl, hβ⟩ := ih htail
              exact ⟨.nonterm m :: α, β, rfl, rfl, hβ⟩

theorem derives_of_erase_eq {w : List T} (h : erase s = w.map .terminal) : g.Derives s w := by
  induction s generalizing w with
  | nil =>
      cases w with
      | nil => exact .nil
      | cons t w => simp [erase] at h
  | cons x s ih =>
      cases x with
      | action a => exact .action (ih h)
      | term t =>
          cases w with
          | nil => simp [erase] at h
          | cons t' w =>
              obtain ⟨ht, htail⟩ := List.cons.inj h
              cases ht
              exact .term (ih htail)
      | nonterm n =>
          cases w with
          | nil => simp [erase] at h
          | cons t' w => simp [erase] at h

theorem derives_of_toCfg [Finite R] {n : N} {w : List T} {e : List (Symbol T N)}
    (h : (g.toCfg n).Derives e (w.map .terminal)) (hs : erase s = e) : g.Derives s w := by
  induction h using Relation.ReflTransGen.head_induction_on generalizing s with
  | refl => exact derives_of_erase_eq hs
  | head hstep _ ih =>
      obtain ⟨rule, hrule, hrw⟩ := hstep
      obtain ⟨r, rfl⟩ := mem_rules_toCfg.mp hrule
      obtain ⟨p, q, rfl, rfl⟩ := hrw.exists_parts
      rw [List.append_assoc] at hs
      obtain ⟨α, β, rfl, rfl, rfl⟩ := split_erase hs
      have herase : erase (α ++ (g.rhs r ++ β)) = erase α ++ erase (g.rhs r) ++ erase β := by
        rw [erase_append, erase_append, List.append_assoc]
      obtain ⟨u, v, rfl, hα, hv⟩ := (ih herase).split
      obtain ⟨v, v', rfl, hr, hβ⟩ := hv.split
      exact hα.append (.nonterm hr hβ)

/-- A nonterminal derives the words of the context-free grammar that starts with it. -/
theorem derives_iff_mem_language [Finite R] (n : N) (w : List T) :
    g.Derives [.nonterm n] w ↔ w ∈ (g.toCfg n).language :=
  ⟨fun h => h.derives_toCfg n, fun h => derives_of_toCfg h rfl⟩

end

end Grammar

end YardIce.Lib.Predictive
