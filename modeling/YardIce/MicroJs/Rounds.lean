import YardIce.MicroJs.Blocks
import YardIce.MicroJs.Compiler

/-!
# Runs of the compiler

One round of the parser's loop, taken apart by the symbol on top of the parser's stack, and
the states that a compilation of any number of lines goes through.

## Implementation notes

A run carries the actions that it has executed, with the states in which they were
executed. What the history of a program means, such as the scopes that are open, is computed
from this record.
-/

namespace YardIce.MicroJs

open YardIce.Lib

/-! ## One round -/

variable {E : Env} {t : Text} {p p' : Parse}

theorem callAction_run (a : Action) (m : Sdt) :
    (callAction E a m).2 = (op E a m).2 ∧
      ((callAction E a m).1 = .ok () → (op E a m).1 = .ok ()) ∧
      ∀ e, (callAction E a m).1 = .error e →
        (op E a m).1 = .error e ∨ (op E a m).1 = .ok () ∧ e = .codeMemOverflow := by
  simp only [callAction, Attempt.run_bind]
  cases hop : op E a m with
  | mk o m' =>
      cases o with
      | error e =>
          exact ⟨rfl, fun h => (by cases h), fun e' h => Or.inl (congrArg _ (Except.error.inj h))⟩
      | ok u =>
          simp only [Attempt.andThen_ok, Attempt.run_bind, Attempt.run_read, Attempt.guard]
          split_ifs with hfull
          · exact ⟨rfl, fun _ => trivial, fun e h => by cases h⟩
          · exact ⟨rfl, fun h => (by cases h),
              fun e h => Or.inr ⟨trivial, (Except.error.inj h).symm⟩⟩

/-- What a round without an error has done. -/
inductive Round (E : Env) (t : Text) (p : Parse) : Parse → Prop
  | idle : p.m.ll = [] → Round E t p p
  | terminal {a : Terminal} {ll : List Sym} {tok : Token} {off : Nat} :
      p.m.ll = .t a :: ll → a = p.ahead.typ → lexerScan t 65536 p.off = .ok (tok, off) →
      Round E t p ⟨{ p.m with ll, tok := p.ahead }, tok, off⟩
  | action {a : Action} {ll : List Sym} : p.m.ll = .a a :: ll →
      (op E a { p.m with ll }).1 = .ok () →
      Round E t p { p with m := (op E a { p.m with ll }).2 }
  | nonterminal {a : NonTerminal} {ll w : List Sym} : p.m.ll = .n a :: ll →
      microjsLlPush a p.ahead.typ = some w → Round E t p { p with m := { p.m with ll := w ++ ll } }

/-- What a round with an error has left behind. -/
inductive Broken (E : Env) (p : Parse) (e : Err) : Sdt → Prop
  | terminal {a : Terminal} {ll : List Sym} (tok : Token) : p.m.ll = .t a :: ll →
      Broken E p e { p.m with ll, tok }
  | action {a : Action} {ll : List Sym} : p.m.ll = .a a :: ll →
      ((op E a { p.m with ll }).1 = .error e ∨
        (op E a { p.m with ll }).1 = .ok () ∧ e = .codeMemOverflow) →
      Broken E p e (op E a { p.m with ll }).2
  | overflow {a : NonTerminal} {ll w : List Sym} : p.m.ll = .n a :: ll →
      microjsLlPush a p.ahead.typ = some w → e = .sdtStackOverflow →
      Broken E p e { p.m with ll := w ++ ll }
  | nonterminal {a : NonTerminal} {ll : List Sym} : p.m.ll = .n a :: ll → Broken E p e p.m

theorem compileStep_terminal {a : Terminal} {ll : List Sym} (hll : p.m.ll = .t a :: ll) :
    compileStep E t p = matchTerminal t a { p with m := { p.m with ll } } := by
  simp only [compileStep, Attempt.run_bind, Attempt.run_read, Attempt.andThen_ok, hll, popSym,
    Attempt.run_update]

theorem compileStep_action {a : Action} {ll : List Sym} (hll : p.m.ll = .a a :: ll) :
    compileStep E t p = ((callAction E a { p.m with ll }).1,
      { p with m := (callAction E a { p.m with ll }).2 }) := by
  simp only [compileStep, Attempt.run_bind, Attempt.run_read, Attempt.andThen_ok, hll, popSym,
    Attempt.run_update]
  rfl

theorem compileStep_nonterminal {a : NonTerminal} {ll : List Sym} (hll : p.m.ll = .n a :: ll) :
    compileStep E t p = expand E a ll p := by
  simp only [compileStep, Attempt.run_bind, Attempt.run_read, Attempt.andThen_ok, hll]

theorem matchTerminal_run (a : Terminal) (p : Parse) :
    matchTerminal t a p = if a = p.ahead.typ then
      match lexerScan t 65536 p.off with
      | .ok (tok, off) => (.ok (), ⟨{ p.m with tok := p.ahead }, tok, off⟩)
      | .error e => (.error e, { p with m := { p.m with tok := p.ahead } })
    else (.error .unexpectedSymbol, p) := by
  simp only [matchTerminal, Attempt.run_bind, Attempt.run_read, Attempt.andThen_ok,
    Attempt.guard]
  split_ifs with ha
  · change advance t { p with m := { p.m with tok := p.ahead } } = _
    cases hscan : lexerScan t 65536 p.off with
    | ok r => simp only [advance, hscan]
    | error e => simp only [advance, hscan]
  · rfl

theorem expand_run (a : NonTerminal) (ll : List Sym) (p : Parse) :
    expand E a ll p = match microjsLlPush a p.ahead.typ with
      | some w => (if (w ++ ll).length ≤ E.room then .ok () else .error .sdtStackOverflow,
          { p with m := { p.m with ll := w ++ ll } })
      | none => (.error (if p.ahead.typ = .eof then .unexpectedEof else .syntaxError), p) := by
  simp only [expand, Attempt.run_bind, Attempt.run_read, Attempt.andThen_ok]
  cases microjsLlPush a p.ahead.typ with
  | none => rfl
  | some w =>
      simp only [Attempt.run_bind, popSym, Attempt.run_update, Attempt.andThen_ok, Attempt.guard]
      split_ifs <;> rfl

theorem round_of_ok (h : compileStep E t p = (.ok (), p')) : Round E t p p' := by
  cases hll : p.m.ll with
  | nil =>
      simp only [compileStep, Attempt.run_bind, Attempt.run_read, Attempt.andThen_ok, hll,
        Attempt.run_pure, Prod.mk.injEq, true_and] at h
      exact h ▸ .idle hll
  | cons sym ll =>
      cases sym with
      | t a =>
          rw [compileStep_terminal hll, matchTerminal_run] at h
          split_ifs at h with ha
          · cases hscan : lexerScan t 65536 p.off with
            | error e =>
                simp only [hscan] at h
                cases h
            | ok r =>
                simp only [hscan, Prod.mk.injEq, true_and] at h
                exact h ▸ .terminal hll ha hscan
          · cases h
      | a a =>
          rw [compileStep_action hll] at h
          obtain ⟨hsnd, hok, -⟩ := callAction_run (E := E) a { p.m with ll }
          obtain ⟨hfst, rfl⟩ := Prod.mk.injEq .. ▸ h
          rw [hsnd]
          exact .action hll (hok hfst)
      | n a =>
          rw [compileStep_nonterminal hll, expand_run] at h
          cases hpush : microjsLlPush a p.ahead.typ with
          | none =>
              simp only [hpush] at h
              cases h
          | some w =>
              simp only [hpush, Prod.mk.injEq] at h
              exact h.2 ▸ .nonterminal hll hpush

theorem broken_of_error {e : Err} (h : compileStep E t p = (.error e, p')) :
    Broken E p e p'.m := by
  cases hll : p.m.ll with
  | nil =>
      simp only [compileStep, Attempt.run_bind, Attempt.run_read, Attempt.andThen_ok, hll,
        Attempt.run_pure, Prod.mk.injEq, reduceCtorEq, false_and] at h
  | cons sym ll =>
      cases sym with
      | t a =>
          rw [compileStep_terminal hll, matchTerminal_run] at h
          split_ifs at h with ha
          · cases hscan : lexerScan t 65536 p.off with
            | error e' =>
                simp only [hscan, Prod.mk.injEq] at h
                exact h.2 ▸ .terminal p.ahead hll
            | ok r =>
                simp only [hscan] at h
                cases h
          · exact (Prod.mk.inj h).2 ▸ .terminal p.m.tok hll
      | a a =>
          rw [compileStep_action hll] at h
          obtain ⟨hsnd, -, herr⟩ := callAction_run (E := E) a { p.m with ll }
          obtain ⟨hfst, rfl⟩ := Prod.mk.injEq .. ▸ h
          have hbroken : Broken E p e (op E a { p.m with ll }).2 := .action hll (herr e hfst)
          rw [← hsnd] at hbroken
          exact hbroken
      | n a =>
          rw [compileStep_nonterminal hll, expand_run] at h
          cases hpush : microjsLlPush a p.ahead.typ with
          | none =>
              simp only [hpush, Prod.mk.injEq] at h
              exact h.2 ▸ .nonterminal hll
          | some w =>
              simp only [hpush, Prod.mk.injEq] at h
              split_ifs at h with hroom
              · cases h.1
              · exact h.2 ▸ .overflow hll hpush (Except.error.inj h.1).symm

end YardIce.MicroJs
