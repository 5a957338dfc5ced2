import YardIce.Ell.Tables
import Mathlib.Data.Fin.VecNotation

/-!
# The generated parser

The driver of a generated parser: it pops actions, matches terminals and calls `ll_push` for
nonterminals. With tables that hold the right-hand sides it follows the predictive parser of the
grammar step by step, so it stops on every token string and accepts the sentences.
-/

namespace YardIce.Ell

open Lib

namespace Grammar

variable (g : Grammar)

/-- One turn of the driver, on the stack and the tokens that are left. -/
def step : List ℕ × List ℕ → Option (List ℕ × List ℕ)
  | ([], _) => none
  | (sym :: sp, toks) =>
    if g.isAction sym then some (sp, toks)
    else
      match toks with
      | [] => none
      | tok :: rest =>
        if g.isTerminal sym then if sym = tok then some (sp, rest) else none
        else (g.llPush sym tok).map fun rhs => (rhs ++ sp, tok :: rest)

/-- The driver, with at most so many turns. It accepts if nothing is left of the stack and of the
tokens. -/
def drive : ℕ → List ℕ × List ℕ → Option Bool
  | 0, _ => none
  | turns + 1, c =>
    match g.step c with
    | some c' => drive turns c'
    | none => some (c = ([], []))

/-- `ll_push` pushes the right-hand side of a rule if and only if the token is in its predict set,
and nothing if and only if it is in none. -/
def PushExact : Prop :=
  ∀ x, g.kind x = .nonterm → ∀ tok,
    (∀ r ∈ g.rules, r.lhs = x →
      (g.llPush (g.symNo x) tok = some (r.rhs.map g.symNo) ↔ tok ∈ g.predict r)) ∧
    (g.llPush (g.symNo x) tok = none ↔ ∀ r ∈ g.rules, r.lhs = x → tok ∉ g.predict r)

/-- The driver stops on every token string and accepts exactly the sentences. -/
def DriverExact (start : Fin g.n) : Prop :=
  ∀ w : List ℕ, ∃ turns accepted, g.drive turns ([g.symNo start], w) = some accepted ∧
    (accepted = true ↔ w ∈ g.language start)

/-- Every rule of the start symbol ends in a token that is used nowhere else. -/
def EndsInToken (start : Fin g.n) : Prop :=
  ∃ e, g.kind e = .term ∧ (∀ r ∈ g.rules, r.lhs = start → ∃ α, r.rhs = α ++ [e] ∧ e ∉ α) ∧
    ∀ r ∈ g.rules, r.lhs ≠ start → e ∉ r.rhs

/-- The right-hand sides fit the tables: they are counted in a byte, and the names of their symbols
stand for these symbols. -/
def RulesFit : Prop := ∀ r ∈ g.rules, r.rhs.length < 256 ∧ ∀ x ∈ r.rhs, g.NameApart x

variable {g}

/-! ## `ll_push` -/

/-- The right-hand side of the rule that is chosen. -/
def PushesRhs (g : Grammar) : Prop :=
  ∀ x, g.kind x = .nonterm → ∀ tok,
    g.llPush (g.symNo x) tok = (g.choose x tok).map fun r => (g.rules.get r).rhs.map g.symNo

section

variable (h : g.testLL1conflict = noConflict)

include h

theorem pushesRhs_of_fit (hn : g.n < 256) (hrules : g.rules.length < 256) (hfit : g.RulesFit) :
    g.PushesRhs := by
  intro x hx tok
  have hlen : ∀ r ∈ g.rules, r.rhs.length < 256 := fun r hr => (hfit r hr).1
  have hpushed : ∀ r : Fin g.rules.length, g.pushed r.val = (g.rules.get r).rhs.map g.symNo := by
    intro r
    rw [pushed_eq hrules hlen]
    apply List.map_congr_left
    intro y hy
    have hvalue := cValue_cName_iff.mpr ((hfit _ (List.getElem_mem r.isLt)).2 y hy)
    rw [hvalue, Nat.mod_eq_of_lt ((symNo_lt y).trans hn)]
  rw [llPush_eq h hn hrules hx]
  simp only [hpushed]

theorem choose_eq_some_iff {x : Fin g.n} {tok : ℕ} {r : Fin g.rules.length} :
    g.choose x tok = some r ↔ (g.rules.get r).lhs = x ∧ tok ∈ g.predict (g.rules.get r) := by
  rw [mem_predict_iff]
  exact chooses_choose h x tok r

theorem pushExact_of_pushesRhs (hpush : g.PushesRhs) : g.PushExact := by
  intro x hx tok
  rw [hpush x hx]
  constructor
  · intro r hr hlhs
    obtain ⟨i, hi, rfl⟩ := List.getElem_of_mem hr
    rw [Option.map_eq_some_iff]
    constructor
    · rintro ⟨r', hchoose, hrhs⟩
      obtain ⟨hlhs', hpred⟩ := (choose_eq_some_iff h).mp hchoose
      have hinj : Function.Injective g.symNo := fun _ _ => symNo_inj
      have heq : g.rules.get r' = g.rules[i] := by
        have hrhs' := List.map_injective_iff.mpr hinj hrhs
        have hlhs'' := hlhs'.trans hlhs.symm
        cases h₁ : g.rules.get r' with
        | mk l s =>
            cases h₂ : g.rules[i] with
            | mk l' s' =>
                simp only [h₁, h₂] at hrhs' hlhs''
                rw [hrhs', hlhs'']
      exact heq ▸ hpred
    · intro hpred
      exact ⟨⟨i, hi⟩, (choose_eq_some_iff h).mpr ⟨hlhs, hpred⟩, rfl⟩
  · rw [Option.map_eq_none_iff]
    constructor
    · intro hnone r hr hlhs hpred
      obtain ⟨i, hi, rfl⟩ := List.getElem_of_mem hr
      have hsome := (choose_eq_some_iff h (r := ⟨i, hi⟩)).mpr ⟨hlhs, hpred⟩
      rw [hnone] at hsome
      cases hsome
    · intro hall
      cases hchoose : g.choose x tok with
      | none => rfl
      | some r =>
          obtain ⟨hlhs, hpred⟩ := (choose_eq_some_iff h).mp hchoose
          exact absurd hpred (hall _ (List.getElem_mem r.isLt) hlhs)

/-- Tables from which `ll_push` pushes the right-hand sides hold them. -/
theorem fit_of_pushExact (hn : g.n < 256) (hrules : g.rules.length < 256) (hpush : g.PushExact) :
    g.RulesFit := by
  have hpushed : ∀ r : Fin g.rules.length, g.pushed r.val = (g.rules.get r).rhs.map g.symNo := by
    intro r
    have hr : g.rules.get r ∈ g.rules := List.get_mem g.rules r
    have hkind := g.lhs_kind _ hr
    obtain ⟨t, ht⟩ := Finset.nonempty_iff_ne_empty.mpr (predict_ne_empty h hr)
    have heq := ((hpush _ hkind t).1 _ hr rfl).mpr ht
    rw [llPush_eq h hn hrules hkind, (choose_eq_some_iff h).mpr ⟨rfl, ht⟩] at heq
    exact Option.some.inj heq
  have hlen : ∀ r ∈ g.rules, r.rhs.length < 256 := by
    intro r hr
    obtain ⟨i, hi, rfl⟩ := List.getElem_of_mem hr
    have heq := congrArg List.length (hpushed ⟨i, hi⟩)
    rw [pushed_length, List.length_map] at heq
    change g.rules[i].rhs.length % 256 = g.rules[i].rhs.length at heq
    omega
  intro r hr
  refine ⟨hlen r hr, fun x hx => ?_⟩
  obtain ⟨i, hi, rfl⟩ := List.getElem_of_mem hr
  have heq := hpushed ⟨i, hi⟩
  rw [pushed_eq hrules hlen] at heq
  have hx' := List.map_inj_left.mp heq x hx
  rw [Nat.mod_eq_of_lt ((cValue_lt x).trans hn)] at hx'
  exact cValue_cName_iff.mp hx'

end

/-! ## The driver -/

/-- The driver follows the predictive parser. -/
theorem step_follows {y : Fin g.n} (hy : g.kind y = .nonterm) (hpush : g.PushesRhs)
    (xs : List (Fin g.n)) (w : List ℕ) :
    (g.cfg.step g.choose (xs.map g.sym, w) = none → g.step (xs.map g.symNo, w) = none) ∧
      ∀ c, g.cfg.step g.choose (xs.map g.sym, w) = some c → ∃ (xs' : List (Fin g.n)) (w' : List ℕ),
        c = (xs'.map g.sym, w') ∧ g.step (xs.map g.symNo, w) = some (xs'.map g.symNo, w') := by
  cases xs with
  | nil => exact ⟨fun _ => rfl, fun c hc => by cases hc⟩
  | cons x xs =>
      have hterm := isTerminal_symNo hy x
      have hact := isAction_symNo x
      rw [List.map_cons, List.map_cons]
      cases hx : g.kind x with
      | action =>
          have hstep : g.step (g.symNo x :: xs.map g.symNo, w) = some (xs.map g.symNo, w) := by
            cases w <;> rw [step, if_pos (hact.mpr hx)]
          rw [sym_action hx, hstep]
          constructor
          · intro hc
            cases hc
          · rintro c ⟨⟩
            exact ⟨xs, w, rfl, rfl⟩
      | term =>
          have hnot : ¬ g.isAction (g.symNo x) = true := by
            rw [hact, hx]
            decide
          rw [sym_term hx]
          cases w with
          | nil =>
              refine ⟨fun _ => ?_, fun c hc => by cases hc⟩
              rw [step, if_neg hnot]
          | cons t w =>
              rw [step, if_neg hnot]
              dsimp only [Predictive.Grammar.step]
              rw [if_pos (hterm.mpr hx)]
              split
              · exact ⟨fun hc => (by cases hc), fun c hc => ⟨xs, w, (Option.some.inj hc).symm, rfl⟩⟩
              · exact ⟨fun _ => rfl, fun c hc => by cases hc⟩
      | nonterm =>
          have hnot : ¬ g.isAction (g.symNo x) = true := by
            rw [hact, hx]
            decide
          have hnot' : ¬ g.isTerminal (g.symNo x) = true := by
            rw [hterm, hx]
            decide
          rw [sym_nonterm hx]
          cases w with
          | nil =>
              refine ⟨fun _ => ?_, fun c hc => by cases hc⟩
              rw [step, if_neg hnot]
          | cons t w =>
              rw [step, if_neg hnot]
              dsimp only [Predictive.Grammar.step]
              rw [if_neg hnot', hpush x hx]
              cases g.choose x t with
              | none => exact ⟨fun _ => rfl, fun c hc => by cases hc⟩
              | some r =>
                  refine ⟨fun hc => (by cases hc), fun c hc => ?_⟩
                  refine ⟨(g.rules.get r).rhs ++ xs, t :: w, ?_, ?_⟩
                  · rw [← Option.some.inj hc, List.map_append]
                    rfl
                  · rw [List.map_append]
                    rfl

theorem drive_stops (h : g.testLL1conflict = noConflict) {y : Fin g.n}
    (hy : g.kind y = .nonterm) (hpush : g.PushesRhs) (xs : List (Fin g.n)) (w : List ℕ) :
    ∃ turns accepted, g.drive turns (xs.map g.symNo, w) = some accepted ∧
      (accepted = true ↔ g.cfg.Reaches g.choose (xs.map g.sym, w) ([], [])) := by
  have hstops := Predictive.Grammar.stops (chooses_choose h) (xs.map g.sym) w
  generalize hc : (xs.map g.sym, w) = c at hstops
  induction hstops generalizing xs w with
  | intro c _ ih =>
      subst hc
      obtain ⟨hnone, hsome⟩ := step_follows hy hpush xs w
      cases hstep : g.cfg.step g.choose (xs.map g.sym, w) with
      | none =>
          refine ⟨1, decide ((xs.map g.symNo, w) = ([], [])), ?_, ?_⟩
          · rw [drive, hnone hstep]
          · rw [decide_eq_true_iff]
            constructor
            · intro heq
              simp only [Prod.mk.injEq, List.map_eq_nil_iff] at heq
              obtain ⟨rfl, rfl⟩ := heq
              exact .refl
            · intro hreach
              rcases hreach.cases_head with heq | ⟨c', hc', -⟩
              · simp only [Prod.mk.injEq, List.map_eq_nil_iff] at heq ⊢
                exact heq
              · rw [hstep] at hc'
                cases hc'
      | some c' =>
          obtain ⟨xs', w', rfl, hnext⟩ := hsome c' hstep
          obtain ⟨turns, accepted, hdrive, haccept⟩ := ih _ hstep xs' w' rfl
          refine ⟨turns + 1, accepted, ?_, haccept.trans ?_⟩
          · rw [drive, hnext]
            exact hdrive
          · constructor
            · exact fun hreach => .head hstep hreach
            · intro hreach
              rcases hreach.cases_head with heq | ⟨c'', hc'', hreach⟩
              · rw [heq] at hstep
                cases hstep
              · rw [hstep] at hc''
                cases hc''
                exact hreach

/-- A generated parser pushes and accepts exactly what the grammar says if and only if the
right-hand sides fit the tables. -/
theorem generated_parser_exact (g : Grammar) (start : Fin g.n) (hstart : g.kind start = .nonterm)
    (hn : g.n < 256) (hrules : g.rules.length < 256) (hend : g.EndsInToken start)
    (h : g.testLL1conflict = noConflict) :
    (g.PushExact ∧ g.DriverExact start) ↔ g.RulesFit := by
  constructor
  · exact fun hexact => fit_of_pushExact h hn hrules hexact.1
  · intro hfit
    have hpush := pushesRhs_of_fit h hn hrules hfit
    refine ⟨pushExact_of_pushesRhs h hpush, fun w => ?_⟩
    obtain ⟨turns, accepted, hdrive, haccept⟩ := drive_stops h hstart hpush [start] w
    refine ⟨turns, accepted, hdrive, haccept.trans ?_⟩
    rw [List.map_singleton, sym_nonterm hstart, Predictive.Grammar.accepts_iff (chooses_choose h)]
    · exact Predictive.Grammar.derives_iff_mem_language start w
    · intro r hr
      obtain ⟨e, he, hrhs, -⟩ := hend
      obtain ⟨α, hα, -⟩ := hrhs _ (List.getElem_mem r.isLt) hr
      refine ⟨α.map g.sym, g.symNo e, ?_⟩
      rw [← sym_term he]
      simp [cfg, hα]
/-- `s : list EOF ; list : ITEM { add } list | ;` -/
def listRules : List (Rule 5) := [⟨0, [1, 2]⟩, ⟨1, [3, 4, 1]⟩, ⟨1, []⟩]

def listGrammar : Grammar where
  n := 5
  kind := ![.nonterm, .nonterm, .term, .term, .action]
  symtext := ![['s'], ['l', 'i', 's', 't'], ['E', 'O', 'F'], ['I', 'T', 'E', 'M'], ['a', 'd', 'd']]
  rules := listRules
  lhs_kind := by decide
  has_rule := by decide

theorem generated_parser_exact_list :
    (listGrammar.PushExact ∧ listGrammar.DriverExact (0 : Fin 5)) ↔ listGrammar.RulesFit := by
  apply generated_parser_exact listGrammar (0 : Fin 5) (by decide) (by decide) (by decide)
  · have hrules : ∀ r ∈ listRules, r.lhs = 0 → r.rhs = [1] ++ [2] ∧ (2 : Fin 5) ∉ [1] := by decide
    have hother : ∀ r ∈ listRules, r.lhs ≠ 0 → 2 ∉ r.rhs := by decide
    exact ⟨(2 : Fin 5), by decide, fun r hr hlhs => ⟨_, hrules r hr hlhs⟩, hother⟩
  · decide

/-- `s : a A EOF ;` -/
def caseRules : List (Rule 4) := [⟨0, [1, 2, 3]⟩]

/-- Two tokens whose names are the same in upper case. -/
def caseGrammar : Grammar where
  n := 4
  kind := ![.nonterm, .term, .term, .term]
  symtext := ![['s'], ['a'], ['A'], ['E', 'O', 'F']]
  rules := caseRules
  lhs_kind := by decide
  has_rule := by decide

/-- The table has the second token twice. -/
theorem same_name_pushed :
    ¬ ∀ (g : Grammar) (start : Fin g.n), g.kind start = .nonterm → g.n < 256 →
      g.rules.length < 256 → g.EndsInToken start → g.testLL1conflict = noConflict →
        g.PushExact ∧ g.DriverExact start := by
  intro h
  have hrules : ∀ r ∈ caseRules, r.lhs = 0 → r.rhs = [1, 2] ++ [3] ∧ (3 : Fin 4) ∉ [1, 2] := by
    decide
  have hother : ∀ r ∈ caseRules, r.lhs ≠ 0 → 3 ∉ r.rhs := by decide
  have hend : caseGrammar.EndsInToken (0 : Fin 4) :=
    ⟨(3 : Fin 4), by decide, fun r hr hlhs => ⟨_, hrules r hr hlhs⟩, hother⟩
  obtain ⟨hpush, -⟩ := h caseGrammar (0 : Fin 4) (by decide) (by decide) (by decide) hend
    (by decide)
  have hrule : (⟨0, [1, 2, 3]⟩ : Rule 4) ∈ caseRules := List.mem_singleton_self _
  have hpred : 0 ∈ caseGrammar.predict (⟨0, [1, 2, 3]⟩ : Rule 4) := by decide
  have hexact := ((hpush (0 : Fin 4) (by decide) 0).1 _ hrule rfl).mpr hpred
  have hgot : caseGrammar.llPush (caseGrammar.symNo (0 : Fin 4)) 0 = some [1, 1, 2] := by
    decide
  have hrhs : ([1, 2, 3] : List (Fin 4)).map caseGrammar.symNo = [0, 1, 2] := by decide
  rw [hgot] at hexact
  exact absurd (hexact.trans (congrArg some hrhs)) (by decide)

end Grammar

end YardIce.Ell
