import YardIce.Lib.Predictive
import Mathlib.Data.List.Nodup
import Mathlib.Data.Fintype.Card

/-!
# The grammar in `ell`

The symbols and rules as they are after the grammar was read, and the numbers that `sort_symbols`
gives to the symbols: first the terminals, then the nonterminals, then the actions.

## Implementation notes

A symbol is its place in the list `first_sym`, a rule number its place in `first_rule`. The start
symbol is not a field: which nonterminal a parser starts with is a parameter. `symtext` holds
characters of identifiers. The array of 128 symbols that `elemenlist` reads a right-hand side into
belongs to the reader of the grammar and is not modelled.
-/

namespace YardIce.Ell

/-- `TERM`, `NONTERM` and `ACTION` -/
inductive Kind where
  | term
  | nonterm
  | action
  deriving DecidableEq

/-- A production rule. -/
structure Rule (n : ℕ) where
  lhs : Fin n
  rhs : List (Fin n)
  deriving DecidableEq

/-- The lists of symbols and rules. Nonterminals are the left-hand sides. -/
structure Grammar where
  n : ℕ
  kind : Fin n → Kind
  symtext : Fin n → List Char
  rules : List (Rule n)
  lhs_kind : ∀ r ∈ rules, kind r.lhs = .nonterm
  has_rule : ∀ x, kind x = .nonterm → ∃ r ∈ rules, r.lhs = x

namespace Grammar

variable (g : Grammar)

/-- The symbols of one kind, in the order of the list. -/
def ofKind (k : Kind) : List (Fin g.n) := (List.finRange g.n).filter fun x => g.kind x = k

/-- The symbols in the order in which `sort_symbols` counts them. -/
def sorted : List (Fin g.n) := g.ofKind .term ++ (g.ofKind .nonterm ++ g.ofKind .action)

/-- `sp->sym_no` -/
def symNo (x : Fin g.n) : ℕ := g.sorted.idxOf x

/-- `NONTERM_BASE`, the number of the first nonterminal -/
def nontermBase : ℕ := ((g.ofKind .nonterm).head?).elim 0 g.symNo

/-- `ACTION_BASE`, which is defined where there is an action -/
def actionBase : Option ℕ := ((g.ofKind .action).head?).map g.symNo

/-- `IS_A_TERMINAL` -/
def isTerminal (sym : ℕ) : Bool := sym < g.nontermBase

/-- `IS_AN_ACTION` -/
def isAction (sym : ℕ) : Bool := g.actionBase.any fun b => b ≤ sym

variable {g}

@[simp] theorem mem_ofKind {k : Kind} {x : Fin g.n} : x ∈ g.ofKind k ↔ g.kind x = k := by
  simp [ofKind]

theorem mem_sorted (x : Fin g.n) : x ∈ g.sorted := by
  simp only [sorted, List.mem_append, mem_ofKind]
  cases g.kind x <;> simp

theorem nodup_sorted : g.sorted.Nodup := by
  have hkind : ∀ k, (g.ofKind k).Nodup := fun k => (List.nodup_finRange g.n).filter _
  have hdisj : ∀ k k', k ≠ k' → List.Disjoint (g.ofKind k) (g.ofKind k') := by
    intro k k' hne x hx hx'
    exact hne ((mem_ofKind.mp hx).symm.trans (mem_ofKind.mp hx'))
  apply (hkind _).append
  · exact (hkind _).append (hkind _) (hdisj _ _ (by decide))
  · rw [List.disjoint_append_right]
    exact ⟨hdisj _ _ (by decide), hdisj _ _ (by decide)⟩

theorem getElem?_symNo (x : Fin g.n) : g.sorted[g.symNo x]? = some x :=
  List.getElem?_idxOf (mem_sorted x)

theorem symNo_inj {x y : Fin g.n} (h : g.symNo x = g.symNo y) : x = y := by
  have hx := getElem?_symNo x
  rw [h, getElem?_symNo y] at hx
  exact (Option.some.inj hx).symm

theorem symNo_lt (x : Fin g.n) : g.symNo x < g.n := by
  have hlen : g.sorted.length ≤ g.n := by
    simpa using nodup_sorted.length_le_card
  exact (List.idxOf_lt_length_of_mem (mem_sorted x)).trans_le hlen

theorem symNo_term {x : Fin g.n} (hx : g.kind x = .term) : g.symNo x < (g.ofKind .term).length := by
  have hmem : x ∈ g.ofKind .term := mem_ofKind.mpr hx
  rw [symNo, sorted, List.idxOf_append_of_mem hmem]
  exact List.idxOf_lt_length_of_mem hmem

theorem symNo_nonterm {x : Fin g.n} (hx : g.kind x = .nonterm) :
    g.symNo x = (g.ofKind .term).length + (g.ofKind .nonterm).idxOf x := by
  have hmem : x ∈ g.ofKind .nonterm := mem_ofKind.mpr hx
  have hterm : x ∉ g.ofKind .term := by simp [hx]
  rw [symNo, sorted, List.idxOf_append_of_notMem hterm, List.idxOf_append_of_mem hmem]

theorem symNo_action {x : Fin g.n} (hx : g.kind x = .action) :
    g.symNo x = (g.ofKind .term).length + ((g.ofKind .nonterm).length +
      (g.ofKind .action).idxOf x) := by
  have hterm : x ∉ g.ofKind .term := by simp [hx]
  have hnonterm : x ∉ g.ofKind .nonterm := by simp [hx]
  rw [symNo, sorted, List.idxOf_append_of_notMem hterm, List.idxOf_append_of_notMem hnonterm]
/-! ## Kinds by number -/

theorem nontermBase_eq {y : Fin g.n} (hy : g.kind y = .nonterm) :
    g.nontermBase = (g.ofKind .term).length := by
  have hmem : y ∈ g.ofKind .nonterm := mem_ofKind.mpr hy
  cases hl : g.ofKind .nonterm with
  | nil => simp [hl] at hmem
  | cons x xs =>
      have hx : g.kind x = .nonterm := by
        rw [← mem_ofKind, hl]
        exact List.mem_cons_self
      rw [nontermBase, hl, List.head?_cons, Option.elim_some, symNo_nonterm hx, hl,
        List.idxOf_cons_self, Nat.add_zero]

/-- The macros tell the kinds of the symbols apart. -/
theorem isTerminal_symNo {y : Fin g.n} (hy : g.kind y = .nonterm) (x : Fin g.n) :
    g.isTerminal (g.symNo x) = true ↔ g.kind x = .term := by
  rw [isTerminal, decide_eq_true_iff, nontermBase_eq hy]
  constructor
  · intro hlt
    cases hx : g.kind x with
    | term => rfl
    | nonterm =>
        have := symNo_nonterm hx
        omega
    | action =>
        have := symNo_action hx
        omega
  · exact symNo_term

theorem isAction_symNo (x : Fin g.n) : g.isAction (g.symNo x) = true ↔ g.kind x = .action := by
  cases hl : g.ofKind .action with
  | nil =>
      have hnone : g.kind x ≠ .action := by
        rw [Ne, ← mem_ofKind, hl]
        exact List.not_mem_nil
      simp [isAction, actionBase, hl, hnone]
  | cons a as =>
      have ha : g.kind a = .action := by
        rw [← mem_ofKind, hl]
        exact List.mem_cons_self
      have hbase : g.symNo a = (g.ofKind .term).length + (g.ofKind .nonterm).length := by
        rw [symNo_action ha, hl, List.idxOf_cons_self]
        omega
      simp only [isAction, actionBase, hl, List.head?_cons, Option.map_some, Option.any_some,
        decide_eq_true_iff, hbase]
      constructor
      · intro hle
        cases hx : g.kind x with
        | term =>
            have := symNo_term hx
            omega
        | nonterm =>
            have := symNo_nonterm hx
            have := List.idxOf_lt_length_of_mem (mem_ofKind.mpr hx)
            omega
        | action => rfl
      · intro hx
        have := symNo_action hx
        omega

/-! ## The grammar that is meant -/

/-- What a symbol of a right-hand side stands for. Terminals stand for their token numbers. -/
def sym (g : Grammar) (x : Fin g.n) : Lib.Predictive.Sym ℕ (Fin g.n) (Fin g.n) :=
  match g.kind x with
  | .term => .term (g.symNo x)
  | .nonterm => .nonterm x
  | .action => .action x

/-- The rules, by their numbers. -/
def cfg (g : Grammar) : Lib.Predictive.Grammar ℕ (Fin g.n) (Fin g.n) (Fin g.rules.length) where
  lhs r := (g.rules.get r).lhs
  rhs r := (g.rules.get r).rhs.map g.sym

/-- The sentences of the grammar: the token strings that its context-free rules generate. -/
noncomputable def language (g : Grammar) (start : Fin g.n) : Language ℕ :=
  (g.cfg.toCfg start).language

theorem sym_term {x : Fin g.n} (hx : g.kind x = .term) : g.sym x = .term (g.symNo x) := by
  simp [sym, hx]

theorem sym_nonterm {x : Fin g.n} (hx : g.kind x = .nonterm) : g.sym x = .nonterm x := by
  simp [sym, hx]

theorem sym_action {x : Fin g.n} (hx : g.kind x = .action) : g.sym x = .action x := by
  simp [sym, hx]

theorem kind_of_sym_action {x y : Fin g.n} (h : g.sym x = .action y) : g.kind x = .action := by
  cases hx : g.kind x with
  | term => simp [sym, hx] at h
  | nonterm => simp [sym, hx] at h
  | action => rfl

theorem eq_of_sym_nonterm {x y : Fin g.n} (h : g.sym x = .nonterm y) : x = y := by
  cases hx : g.kind x with
  | term => simp [sym, hx] at h
  | nonterm => simpa [sym, hx] using h
  | action => simp [sym, hx] at h

theorem kind_of_sym_nonterm {x y : Fin g.n} (h : g.sym x = .nonterm y) : g.kind x = .nonterm := by
  cases hx : g.kind x with
  | term => simp [sym, hx] at h
  | nonterm => rfl
  | action => simp [sym, hx] at h

theorem eq_of_sym_term {x : Fin g.n} {t : ℕ} (h : g.sym x = .term t) :
    g.kind x = .term ∧ g.symNo x = t := by
  cases hx : g.kind x with
  | term => exact ⟨rfl, by simpa [sym, hx] using h⟩
  | nonterm => simp [sym, hx] at h
  | action => simp [sym, hx] at h

end Grammar

end YardIce.Ell
