import YardIce.Ell.Symbols
import YardIce.Lib.Saturation
import Mathlib.Data.Fin.Tuple.Basic
import Mathlib.Order.BooleanAlgebra.Basic

/-!
# The sets of `ell`

`FindNullableSymbols`, `ComputeFIRST`, `ComputeFOLLOW` and `ComputePREDICT`, with the sets that they
come to. A `BITVEC` is a finite set of symbol numbers. The functions report a change exactly when a
set or a flag has grown, so a loop `do … while (changed)` stops after a pass that changes nothing.
-/

namespace YardIce.Ell

open Lib

namespace Grammar

variable (g : Grammar)

/-! ## Nullable symbols -/

/-- The flags after the first loops: those of the last rule of each nonterminal. -/
def nullableStart : Fin g.n → Bool :=
  g.rules.foldl (fun s r => Function.update s r.lhs (r.rhs.all fun x => g.kind x = .action))
    fun x => g.kind x = .action

/-- One rule of the loop. -/
def nullableRule (s : Fin g.n → Bool) (r : Rule g.n) : Fin g.n → Bool :=
  if s r.lhs then s else if r.rhs.all s then Function.update s r.lhs true else s

/-- `FindNullableSymbols` -/
def nullable : Fin g.n → Bool :=
  saturate (fun s => g.rules.foldl g.nullableRule s) (g.n + 1) g.nullableStart

/-! ## First sets -/

/-- The first sets before the loop. -/
def firstStart (x : Fin g.n) : Finset ℕ := if g.kind x = .term then {g.symNo x} else ∅

/-- The symbols of a right-hand side, from one of them on. -/
def firstRhs (lhs : Fin g.n) : List (Fin g.n) → (Fin g.n → Finset ℕ) → Fin g.n → Finset ℕ
  | [], s => s
  | x :: xs, s =>
    if g.kind x = .term then Function.update s lhs (s lhs ∪ {g.symNo x})
    else if lhs = x then if g.nullable lhs then firstRhs lhs xs s else s
    else
      let s := Function.update s lhs (s lhs ∪ s x)
      if g.nullable x then firstRhs lhs xs s else s

/-- One rule of the loop. -/
def firstRule (s : Fin g.n → Finset ℕ) (r : Rule g.n) : Fin g.n → Finset ℕ :=
  g.firstRhs r.lhs r.rhs s

/-- `ComputeFIRST` -/
def first : Fin g.n → Finset ℕ :=
  saturate (fun s => g.rules.foldl g.firstRule s) (g.n * g.n + 1) g.firstStart

/-! ## Follow sets -/

/-- The symbols after `sp`, from one of them on. -/
def followRest (sp lhs : Fin g.n) : List (Fin g.n) → (Fin g.n → Finset ℕ) → Fin g.n → Finset ℕ
  | [], s => Function.update s sp (s sp ∪ s lhs)
  | tp :: rest, s =>
    if g.kind tp = .action then followRest sp lhs rest s
    else
      let s := Function.update s sp (s sp ∪ g.first tp)
      if g.nullable tp then followRest sp lhs rest s else s

/-- The symbols of a right-hand side, from one of them on. -/
def followRhs (lhs : Fin g.n) : List (Fin g.n) → (Fin g.n → Finset ℕ) → Fin g.n → Finset ℕ
  | [], s => s
  | sp :: rest, s =>
    followRhs lhs rest (if g.kind sp = .nonterm then g.followRest sp lhs rest s else s)

/-- One rule of the loop. -/
def followRule (s : Fin g.n → Finset ℕ) (r : Rule g.n) : Fin g.n → Finset ℕ :=
  g.followRhs r.lhs r.rhs s

/-- `ComputeFOLLOW` -/
def follow : Fin g.n → Finset ℕ :=
  saturate (fun s => g.rules.foldl g.followRule s) (g.n * g.n + 1) fun _ => ∅

/-! ## Predict sets -/

/-- The symbols of a right-hand side, from one of them on. -/
def predictRhs (lhs : Fin g.n) : List (Fin g.n) → Finset ℕ → Finset ℕ
  | [], p => p ∪ g.follow lhs
  | x :: xs, p =>
    let p := p ∪ g.first x
    if g.nullable x then predictRhs lhs xs p else p

/-- `ComputePREDICT`, for one rule -/
def predict (r : Rule g.n) : Finset ℕ := g.predictRhs r.lhs r.rhs ∅

variable {g}

/-! ## Correctness of the nullable symbols -/

theorem nullable_map_iff {l : List (Fin g.n)} :
    g.cfg.Nullable (l.map g.sym) ↔ ∀ x ∈ l, g.cfg.Nullable [g.sym x] := by
  induction l with
  | nil => simp [Predictive.Grammar.Nullable.nil]
  | cons x l ih =>
      rw [List.map_cons, Predictive.Grammar.nullable_cons, ih, List.forall_mem_cons]

theorem nullable_lhs {r : Rule g.n} (hr : r ∈ g.rules) (h : g.cfg.Nullable (r.rhs.map g.sym)) :
    g.cfg.Nullable [g.sym r.lhs] := by
  rw [sym_nonterm (g.lhs_kind r hr)]
  obtain ⟨i, hi, rfl⟩ := List.getElem_of_mem hr
  exact .nonterm (r := (⟨i, hi⟩ : Fin g.rules.length)) h .nil

/-- The flags are set of symbols that derive the empty word only. -/
def NullableSound (g : Grammar) (s : Fin g.n → Bool) : Prop :=
  ∀ x, s x = true → g.cfg.Nullable [g.sym x]

theorem nullableSound_update {s : Fin g.n → Bool} (hs : g.NullableSound s) {r : Rule g.n}
    (hr : r ∈ g.rules) {b : Bool} (hb : b = true → ∀ x ∈ r.rhs, g.cfg.Nullable [g.sym x]) :
    g.NullableSound (Function.update s r.lhs b) := by
  intro x hx
  by_cases hlhs : x = r.lhs
  · subst hlhs
    rw [Function.update_self] at hx
    exact nullable_lhs hr (nullable_map_iff.mpr (hb hx))
  · rw [Function.update_of_ne hlhs] at hx
    exact hs x hx

theorem nullable_action {x : Fin g.n} (hx : g.kind x = .action) : g.cfg.Nullable [g.sym x] := by
  rw [sym_action hx]
  exact .action .nil

theorem nullableSound_start : g.NullableSound g.nullableStart := by
  apply foldl_invariant (I := g.NullableSound)
  · intro s hs r hr
    apply nullableSound_update hs hr
    intro hall x hx
    exact nullable_action (of_decide_eq_true (List.all_eq_true.mp hall x hx))
  · intro x hx
    exact nullable_action (of_decide_eq_true hx)

theorem nullableSound_rule {s : Fin g.n → Bool} (hs : g.NullableSound s) {r : Rule g.n}
    (hr : r ∈ g.rules) : g.NullableSound (g.nullableRule s r) := by
  unfold nullableRule
  split
  · exact hs
  · split
    next hall =>
      apply nullableSound_update hs hr
      exact fun _ x hx => hs x (List.all_eq_true.mp hall x hx)
    · exact hs

theorem le_nullableRule (s : Fin g.n → Bool) (r : Rule g.n) : s ≤ g.nullableRule s r := by
  unfold nullableRule
  split
  · exact le_rfl
  · split
    · exact le_update_self_iff.mpr le_top
    · exact le_rfl

theorem card_strictMono :
    StrictMono fun s : Fin g.n → Bool => (Finset.univ.filter fun x => s x = true).card := by
  intro s t hlt
  obtain ⟨hle, x, hx⟩ := Pi.lt_def.mp hlt
  apply Finset.card_lt_card
  rw [Finset.ssubset_iff_of_subset]
  · refine ⟨x, ?_, ?_⟩
    · simpa using (Bool.lt_iff.mp hx).2
    · simpa using (Bool.lt_iff.mp hx).1
  · intro y hy
    simp only [Finset.mem_filter_univ] at hy ⊢
    exact hle y hy

theorem nullableStart_action {x : Fin g.n} (hx : g.kind x = .action) :
    g.nullableStart x = true := by
  apply foldl_invariant (I := fun s : Fin g.n → Bool => s x = true)
  · intro s hs r hr
    have hne : x ≠ r.lhs := by
      rintro rfl
      rw [g.lhs_kind r hr] at hx
      cases hx
    rw [Function.update_of_ne hne]
    exact hs
  · exact decide_eq_true hx

theorem nullableSound_nullable : g.NullableSound g.nullable := by
  apply saturate_invariant (I := g.NullableSound) _ nullableSound_start
  intro s hs
  exact foldl_invariant (I := g.NullableSound) (fun _ hs _ hr => nullableSound_rule hs hr) hs

theorem nullable_fixed : ∀ r ∈ g.rules, g.nullableRule g.nullable r = g.nullable := by
  apply foldl_fixed le_nullableRule
  apply saturate_fixed (I := fun _ => True) (B := g.n) (fun s => le_foldl le_nullableRule _ s)
    (fun _ _ => trivial) card_strictMono _ trivial (by omega)
  intro s _
  simpa using Finset.card_le_univ (Finset.univ.filter fun x => s x = true)

theorem nullable_of_rhs {r : Rule g.n} (hr : r ∈ g.rules) (h : ∀ x ∈ r.rhs, g.nullable x = true) :
    g.nullable r.lhs = true := by
  have hfix := nullable_fixed r hr
  by_contra hlhs
  rw [nullableRule, if_neg hlhs, if_pos (List.all_eq_true.mpr h)] at hfix
  exact hlhs (by rw [← hfix, Function.update_self])

theorem nullable_of_action {x : Fin g.n} (hx : g.kind x = .action) : g.nullable x = true := by
  apply saturate_invariant (I := fun s : Fin g.n → Bool => s x = true) _ (nullableStart_action hx)
  intro s hs
  exact le_foldl le_nullableRule g.rules s x hs

/-- `FindNullableSymbols` finds the symbols that derive the empty word. -/
theorem nullable_iff {x : Fin g.n} : g.nullable x = true ↔ g.cfg.Nullable [g.sym x] := by
  have hlist : ∀ s, g.cfg.Nullable s → ∀ l : List (Fin g.n), l.map g.sym = s →
      ∀ x ∈ l, g.nullable x = true := by
    intro s h
    induction h with
    | nil =>
        intro l hl x hx
        rw [List.map_eq_nil_iff.mp hl] at hx
        exact absurd hx List.not_mem_nil
    | action _ ih =>
        intro l hl
        obtain ⟨y, l, rfl, hy, hl⟩ := List.map_eq_cons_iff.mp hl
        rw [List.forall_mem_cons]
        exact ⟨nullable_of_action (kind_of_sym_action hy), ih l hl⟩
    | @nonterm r _ _ _ ihr ih =>
        intro l hl
        obtain ⟨y, l, rfl, hy, hl⟩ := List.map_eq_cons_iff.mp hl
        rw [List.forall_mem_cons]
        refine ⟨?_, ih l hl⟩
        rw [eq_of_sym_nonterm hy]
        exact nullable_of_rhs (List.getElem_mem r.isLt) (ihr _ rfl)
  exact ⟨nullableSound_nullable x, fun h => hlist _ h [x] rfl x List.mem_cons_self⟩

theorem nullable_map_iff' {l : List (Fin g.n)} :
    g.cfg.Nullable (l.map g.sym) ↔ ∀ x ∈ l, g.nullable x = true := by
  simp only [nullable_map_iff, nullable_iff]
/-! ## Correctness of the first sets -/

/-- The sets hold tokens that the symbols may begin with only. -/
def FirstSound (g : Grammar) (s : Fin g.n → Finset ℕ) : Prop :=
  ∀ x, ∀ t ∈ s x, g.cfg.First t [g.sym x]

/-- A family of sets that are bounded by the number of symbols. -/
theorem familySize_le_symbols {s : Fin g.n → Finset ℕ} (h : ∀ x, ∀ t ∈ s x, t < g.n) :
    familySize s ≤ g.n * g.n := by
  have hcard : ∀ x, (s x).card ≤ g.n := by
    intro x
    have hsub : s x ⊆ Finset.range g.n := fun t ht => Finset.mem_range.mpr (h x t ht)
    simpa using Finset.card_le_card hsub
  simpa using familySize_le hcard

/-- What right-hand sides may begin with are numbers of symbols. -/
theorem exists_symNo_of_first {t : ℕ} {s : List (Predictive.Sym ℕ (Fin g.n) (Fin g.n))}
    (h : g.cfg.First t s) : ∀ l : List (Fin g.n), l.map g.sym = s → ∃ x, g.symNo x = t := by
  induction h with
  | term =>
      intro l hl
      obtain ⟨x, _, rfl, hx, -⟩ := List.map_eq_cons_iff.mp hl
      exact ⟨x, (eq_of_sym_term hx).2⟩
  | nonterm _ ih => exact fun _ _ => ih _ rfl
  | skip _ _ ih =>
      intro l hl
      obtain ⟨_, l, rfl, -, hl⟩ := List.map_eq_cons_iff.mp hl
      exact ih l hl

theorem lt_of_exists_symNo {t : ℕ} (h : ∃ x : Fin g.n, g.symNo x = t) : t < g.n := by
  obtain ⟨x, rfl⟩ := h
  exact symNo_lt x

theorem first_lhs {r : Rule g.n} (hr : r ∈ g.rules) {t : ℕ}
    (h : g.cfg.First t (r.rhs.map g.sym)) : g.cfg.First t [g.sym r.lhs] := by
  rw [sym_nonterm (g.lhs_kind r hr)]
  obtain ⟨i, hi, rfl⟩ := List.getElem_of_mem hr
  exact .nonterm (r := (⟨i, hi⟩ : Fin g.rules.length)) h

/-- Tokens that a symbol after nullable ones may begin with are added to the left-hand side. -/
theorem firstSound_update {s : Fin g.n → Finset ℕ} (hs : g.FirstSound s) {r : Rule g.n}
    (hr : r ∈ g.rules) {α β : List (Fin g.n)} {x : Fin g.n} (hrhs : r.rhs = α ++ x :: β)
    (hα : g.cfg.Nullable (α.map g.sym)) {p : Finset ℕ} (hp : ∀ t ∈ p, g.cfg.First t [g.sym x]) :
    g.FirstSound (Function.update s r.lhs (s r.lhs ∪ p)) := by
  intro y t ht
  by_cases hlhs : y = r.lhs
  · subst hlhs
    rw [Function.update_self, Finset.mem_union] at ht
    rcases ht with ht | ht
    · exact hs _ t ht
    · apply first_lhs hr
      rw [hrhs, List.map_append, List.map_cons]
      exact ((hp t ht).append _).after_nullable hα
  · rw [Function.update_of_ne hlhs] at ht
    exact hs y t ht

theorem firstSound_rhs {r : Rule g.n} (hr : r ∈ g.rules) {l α : List (Fin g.n)}
    (hrhs : r.rhs = α ++ l) (hα : g.cfg.Nullable (α.map g.sym)) {s : Fin g.n → Finset ℕ}
    (hs : g.FirstSound s) : g.FirstSound (g.firstRhs r.lhs l s) := by
  induction l generalizing α s with
  | nil => exact hs
  | cons x l ih =>
      have hnext : g.nullable x = true → ∀ {s}, g.FirstSound s →
          g.FirstSound (g.firstRhs r.lhs l s) := by
        intro hx s hs
        apply ih (hrhs.trans (List.append_cons ..)) _ hs
        rw [List.map_append]
        exact hα.append (nullable_iff.mp hx)
      unfold firstRhs
      split
      next hx =>
        apply firstSound_update hs hr hrhs hα
        intro t ht
        rw [Finset.mem_singleton.mp ht, sym_term hx]
        exact .term
      · split
        next hself =>
          split
          next hnull => exact hnext (hself ▸ hnull) hs
          · exact hs
        · dsimp only
          have hs' := firstSound_update hs hr hrhs hα (hs x)
          split
          next hnull => exact hnext hnull hs'
          · exact hs'

theorem le_firstRhs (lhs : Fin g.n) (l : List (Fin g.n)) (s : Fin g.n → Finset ℕ) :
    s ≤ g.firstRhs lhs l s := by
  induction l generalizing s with
  | nil => exact le_rfl
  | cons x l ih =>
      unfold firstRhs
      split
      · exact le_update_union s lhs _
      · split
        · split
          · exact ih s
          · exact le_rfl
        · dsimp only
          split
          · exact (le_update_union s lhs _).trans (ih _)
          · exact le_update_union s lhs _

theorem le_firstRule (s : Fin g.n → Finset ℕ) (r : Rule g.n) : s ≤ g.firstRule s r :=
  le_firstRhs r.lhs r.rhs s

/-- A symbol of the list, after nullable ones, has the token in its set. -/
def InFirst (g : Grammar) (s : Fin g.n → Finset ℕ) (t : ℕ) : List (Fin g.n) → Prop
  | [] => False
  | x :: l => t ∈ s x ∨ g.nullable x = true ∧ InFirst g s t l

/-- A rule that adds nothing has all that its right-hand side may begin with in its set. -/
theorem firstRhs_closed {lhs : Fin g.n} {l : List (Fin g.n)} {s : Fin g.n → Finset ℕ}
    (hterm : ∀ x, g.kind x = .term → g.nullable x = false ∧ s x = {g.symNo x})
    (hfix : g.firstRhs lhs l s = s) {t : ℕ} (ht : g.InFirst s t l) : t ∈ s lhs := by
  have hadd : ∀ p : Finset ℕ, Function.update s lhs (s lhs ∪ p) ≤ s → p ⊆ s lhs := by
    intro p hle
    have hlhs := hle lhs
    rw [Function.update_self] at hlhs
    exact Finset.subset_union_right.trans hlhs
  induction l with
  | nil => exact ht.elim
  | cons x l ih =>
      unfold firstRhs at hfix
      split at hfix
      next hx =>
        obtain ⟨hnull, hset⟩ := hterm x hx
        rcases ht with ht | ⟨hx', -⟩
        · exact hadd _ hfix.le (hset ▸ ht)
        · exact absurd hx' (by rw [hnull]; decide)
      · split at hfix
        next hself =>
          subst hself
          rcases ht with ht | ⟨hx, ht⟩
          · exact ht
          · rw [if_pos hx] at hfix
            exact ih hfix ht
        · dsimp only at hfix
          split at hfix
          next hnull =>
            have hle := (le_firstRhs lhs l _).trans hfix.le
            rcases ht with ht | ⟨-, ht⟩
            · exact hadd _ hle ht
            · have heq := le_antisymm hle (le_update_union s lhs _)
              rw [heq] at hfix
              exact ih hfix ht
          next hnull =>
            rcases ht with ht | ⟨hx, -⟩
            · exact hadd _ hfix.le ht
            · exact absurd hx hnull

theorem firstSound_start : g.FirstSound g.firstStart := by
  intro x t ht
  unfold firstStart at ht
  split at ht
  next hx =>
    rw [Finset.mem_singleton.mp ht, sym_term hx]
    exact .term
  · exact absurd ht (Finset.notMem_empty t)

theorem firstSound_first : g.FirstSound g.first := by
  apply saturate_invariant (I := g.FirstSound) _ firstSound_start
  intro s hs
  exact foldl_invariant (I := g.FirstSound)
    (fun _ hs r hr => firstSound_rhs hr (α := []) rfl .nil hs) hs

theorem first_fixed : ∀ r ∈ g.rules, g.firstRule g.first r = g.first := by
  apply foldl_fixed le_firstRule
  apply saturate_fixed (I := g.FirstSound) (B := g.n * g.n)
    (fun s => le_foldl le_firstRule g.rules s) _ familySize_strictMono _ _
    (by omega)
  · intro s hs
    exact foldl_invariant (I := g.FirstSound)
      (fun _ hs r hr => firstSound_rhs hr (α := []) rfl .nil hs) hs
  · intro s hs
    exact familySize_le_symbols fun x t ht =>
      lt_of_exists_symNo (exists_symNo_of_first (hs x t ht) [x] rfl)
  · exact firstSound_start

theorem nullable_term {x : Fin g.n} (hx : g.kind x = .term) : g.nullable x = false := by
  rw [Bool.eq_false_iff, Ne, nullable_iff, sym_term hx]
  exact Predictive.Grammar.not_nullable_term _

theorem first_term {x : Fin g.n} (hx : g.kind x = .term) : g.first x = {g.symNo x} := by
  apply Finset.Subset.antisymm
  · intro t ht
    have hfirst := firstSound_first x t ht
    rw [sym_term hx] at hfirst
    cases hfirst with
    | term => exact Finset.mem_singleton_self _
    | skip _ hs => exact absurd hs Predictive.Grammar.not_first_nil
  · have hstart : {g.symNo x} ⊆ g.firstStart x := by rw [firstStart, if_pos hx]
    apply hstart.trans
    apply saturate_invariant (I := fun s : Fin g.n → Finset ℕ => g.firstStart ≤ s) _ le_rfl
    intro s hs
    exact hs.trans (le_foldl le_firstRule _ s)

theorem inFirst_of_first {t : ℕ} {s : List (Predictive.Sym ℕ (Fin g.n) (Fin g.n))}
    (h : g.cfg.First t s) : ∀ l : List (Fin g.n), l.map g.sym = s → g.InFirst g.first t l := by
  induction h with
  | term =>
      intro l hl
      obtain ⟨x, l, rfl, hx, -⟩ := List.map_eq_cons_iff.mp hl
      obtain ⟨hkind, rfl⟩ := eq_of_sym_term hx
      exact .inl (by rw [first_term hkind, Finset.mem_singleton])
  | @nonterm r _ _ ih =>
      intro l hl
      obtain ⟨x, l, rfl, hx, -⟩ := List.map_eq_cons_iff.mp hl
      rw [eq_of_sym_nonterm hx]
      have hr : g.rules.get r ∈ g.rules := List.get_mem g.rules r
      exact .inl (firstRhs_closed (fun x hx => ⟨nullable_term hx, first_term hx⟩)
        (first_fixed _ hr) (ih _ rfl))
  | skip hx _ ih =>
      intro l hl
      obtain ⟨x, l, rfl, rfl, htail⟩ := List.map_eq_cons_iff.mp hl
      exact .inr ⟨nullable_iff.mpr hx, ih l htail⟩

/-- `ComputeFIRST` finds the tokens that a symbol may begin with. -/
theorem mem_first_iff {x : Fin g.n} {t : ℕ} : t ∈ g.first x ↔ g.cfg.First t [g.sym x] := by
  constructor
  · exact firstSound_first x t
  · intro h
    rcases inFirst_of_first h [x] rfl with ht | ⟨-, ht⟩
    · exact ht
    · exact ht.elim

/-! ## Correctness of the follow sets -/

/-- The sets hold tokens that may follow the nonterminals only. -/
def FollowSound (g : Grammar) (s : Fin g.n → Finset ℕ) : Prop :=
  ∀ x, ∀ t ∈ s x, g.cfg.Follow t x

theorem exists_symNo_of_follow {t : ℕ} {x : Fin g.n} (h : g.cfg.Follow t x) :
    ∃ y, g.symNo y = t := by
  induction h with
  | @after r α n β hr hβ =>
      obtain ⟨_, l, -, -, hl⟩ := List.map_eq_append_iff.mp hr
      obtain ⟨_, l, -, -, hl⟩ := List.map_eq_cons_iff.mp hl
      exact exists_symNo_of_first hβ l hl
  | up _ _ _ ih => exact ih

theorem followSound_union {s : Fin g.n → Finset ℕ} (hs : g.FollowSound s) {x : Fin g.n}
    {p : Finset ℕ} (hp : ∀ t ∈ p, g.cfg.Follow t x) :
    g.FollowSound (Function.update s x (s x ∪ p)) := by
  intro y t ht
  by_cases hy : y = x
  · subst hy
    rw [Function.update_self, Finset.mem_union] at ht
    rcases ht with ht | ht
    · exact hs _ t ht
    · exact hp t ht
  · rw [Function.update_of_ne hy] at ht
    exact hs y t ht

/-- What comes after a nonterminal in a right-hand side may follow it. -/
theorem follow_of_rhs {r : Rule g.n} (hr : r ∈ g.rules) {α l : List (Fin g.n)} {sp : Fin g.n}
    (hrhs : r.rhs = α ++ sp :: l) (hsp : g.kind sp = .nonterm) {t : ℕ} :
    (g.cfg.First t (l.map g.sym) → g.cfg.Follow t sp) ∧
      (g.cfg.Nullable (l.map g.sym) → g.cfg.Follow t r.lhs → g.cfg.Follow t sp) := by
  obtain ⟨i, hi, rfl⟩ := List.getElem_of_mem hr
  have hrhs' : g.cfg.rhs ⟨i, hi⟩ = α.map g.sym ++ .nonterm sp :: l.map g.sym := by
    rw [← sym_nonterm hsp]
    simp [cfg, hrhs]
  exact ⟨fun h => .after hrhs' h, fun h h' => .up hrhs' h h'⟩

theorem followSound_rest {r : Rule g.n} (hr : r ∈ g.rules) {α γ l : List (Fin g.n)}
    {sp : Fin g.n} (hrhs : r.rhs = α ++ sp :: (γ ++ l)) (hsp : g.kind sp = .nonterm)
    (hγ : g.cfg.Nullable (γ.map g.sym)) {s : Fin g.n → Finset ℕ} (hs : g.FollowSound s) :
    g.FollowSound (g.followRest sp r.lhs l s) := by
  induction l generalizing γ s with
  | nil =>
      apply followSound_union hs
      intro t ht
      apply (follow_of_rhs hr hrhs hsp).2 _ (hs _ t ht)
      rwa [List.append_nil]
  | cons tp l ih =>
      have hnext : g.nullable tp = true → ∀ {s}, g.FollowSound s →
          g.FollowSound (g.followRest sp r.lhs l s) := by
        intro hnull s hs
        apply ih (γ := γ ++ [tp]) _ _ hs
        · rw [hrhs, List.append_assoc]
          rfl
        · rw [List.map_append]
          exact hγ.append (nullable_iff.mp hnull)
      unfold followRest
      split
      next hact => exact hnext (nullable_of_action hact) hs
      · dsimp only
        have hs' : g.FollowSound (Function.update s sp (s sp ∪ g.first tp)) := by
          apply followSound_union hs
          intro t ht
          apply (follow_of_rhs hr hrhs hsp).1
          rw [List.map_append, List.map_cons]
          exact ((mem_first_iff.mp ht).append _).after_nullable hγ
        split
        next hnull => exact hnext hnull hs'
        · exact hs'

theorem followSound_rhs {r : Rule g.n} (hr : r ∈ g.rules) {α l : List (Fin g.n)}
    (hrhs : r.rhs = α ++ l) {s : Fin g.n → Finset ℕ} (hs : g.FollowSound s) :
    g.FollowSound (g.followRhs r.lhs l s) := by
  induction l generalizing α s with
  | nil => exact hs
  | cons sp l ih =>
      apply ih (hrhs.trans (List.append_cons ..))
      split
      next hsp => exact followSound_rest hr (γ := []) hrhs hsp .nil hs
      · exact hs

theorem le_followRest (sp lhs : Fin g.n) (l : List (Fin g.n)) (s : Fin g.n → Finset ℕ) :
    s ≤ g.followRest sp lhs l s := by
  induction l generalizing s with
  | nil => exact le_update_union s sp _
  | cons tp l ih =>
      unfold followRest
      split
      · exact ih s
      · dsimp only
        split
        · exact (le_update_union s sp _).trans (ih _)
        · exact le_update_union s sp _

theorem le_followRhs (lhs : Fin g.n) (l : List (Fin g.n)) (s : Fin g.n → Finset ℕ) :
    s ≤ g.followRhs lhs l s := by
  induction l generalizing s with
  | nil => exact le_rfl
  | cons sp l ih =>
      refine le_trans ?_ (ih _)
      split
      · exact le_followRest sp lhs l s
      · exact le_rfl

theorem le_followRule (s : Fin g.n → Finset ℕ) (r : Rule g.n) : s ≤ g.followRule s r :=
  le_followRhs r.lhs r.rhs s

/-- A nonterminal that gets nothing has all that may come after it in its set. -/
theorem followRest_closed {sp lhs : Fin g.n} {l : List (Fin g.n)} {s : Fin g.n → Finset ℕ}
    (hfix : g.followRest sp lhs l s = s) {t : ℕ} :
    (g.cfg.First t (l.map g.sym) → t ∈ s sp) ∧
      (g.cfg.Nullable (l.map g.sym) → t ∈ s lhs → t ∈ s sp) := by
  have hadd : ∀ p : Finset ℕ, Function.update s sp (s sp ∪ p) ≤ s → p ⊆ s sp := by
    intro p hle
    have hsp := hle sp
    rw [Function.update_self] at hsp
    exact Finset.subset_union_right.trans hsp
  induction l with
  | nil =>
      constructor
      · exact fun h => absurd h Predictive.Grammar.not_first_nil
      · exact fun _ ht => hadd _ hfix.le ht
  | cons tp l ih =>
      rw [List.map_cons, Predictive.Grammar.first_cons,
        Predictive.Grammar.nullable_cons (s := l.map g.sym)]
      unfold followRest at hfix
      split at hfix
      next hact =>
        obtain ⟨hfirst, hnull⟩ := ih hfix
        constructor
        · rintro (htp | ⟨-, hl⟩)
          · rw [sym_action hact] at htp
            cases htp with
            | skip _ hs => exact absurd hs Predictive.Grammar.not_first_nil
          · exact hfirst hl
        · exact fun h => hnull h.2
      · dsimp only at hfix
        split at hfix
        next hnull =>
          have hle := (le_followRest sp lhs l _).trans hfix.le
          have heq := le_antisymm hle (le_update_union s sp _)
          rw [heq] at hfix
          obtain ⟨hfirst, hrest⟩ := ih hfix
          constructor
          · rintro (htp | ⟨-, hl⟩)
            · exact hadd _ hle (mem_first_iff.mpr htp)
            · exact hfirst hl
          · exact fun h => hrest h.2
        next hnull =>
          constructor
          · rintro (htp | ⟨htp, -⟩)
            · exact hadd _ hfix.le (mem_first_iff.mpr htp)
            · exact absurd (nullable_iff.mpr htp) hnull
          · exact fun h => absurd (nullable_iff.mpr h.1) hnull

/-- A rule that adds nothing adds nothing to any nonterminal of its right-hand side. -/
theorem followRhs_closed {lhs : Fin g.n} {l : List (Fin g.n)} {s : Fin g.n → Finset ℕ}
    (hfix : g.followRhs lhs l s = s) {α β : List (Fin g.n)} {sp : Fin g.n}
    (hl : l = α ++ sp :: β) (hsp : g.kind sp = .nonterm) : g.followRest sp lhs β s = s := by
  induction l generalizing α with
  | nil => simp at hl
  | cons x l ih =>
      rw [followRhs] at hfix
      have hhead : (if g.kind x = .nonterm then g.followRest x lhs l s else s) = s := by
        apply le_antisymm ((le_followRhs lhs l _).trans hfix.le)
        split
        · exact le_followRest x lhs l s
        · exact le_rfl
      rw [hhead] at hfix
      cases α with
      | nil =>
          obtain ⟨rfl, rfl⟩ := List.cons.inj hl
          rwa [if_pos hsp] at hhead
      | cons y α =>
          obtain ⟨-, hl⟩ := List.cons.inj hl
          exact ih hfix hl

theorem followSound_follow : g.FollowSound g.follow := by
  apply saturate_invariant (I := g.FollowSound)
  · intro s hs
    exact foldl_invariant (I := g.FollowSound)
      (fun _ hs r hr => followSound_rhs hr (α := []) rfl hs) hs
  · exact fun _ t ht => absurd ht (Finset.notMem_empty t)

theorem follow_fixed : ∀ r ∈ g.rules, g.followRule g.follow r = g.follow := by
  apply foldl_fixed le_followRule
  apply saturate_fixed (I := g.FollowSound) (B := g.n * g.n)
    (fun s => le_foldl le_followRule g.rules s) _ familySize_strictMono _ _
    (by omega)
  · intro s hs
    exact foldl_invariant (I := g.FollowSound)
      (fun _ hs r hr => followSound_rhs hr (α := []) rfl hs) hs
  · intro s hs
    exact familySize_le_symbols fun x t ht => lt_of_exists_symNo (exists_symNo_of_follow (hs x t ht))
  · exact fun _ t ht => absurd ht (Finset.notMem_empty t)

/-- `ComputeFOLLOW` finds the tokens that may follow a nonterminal. -/
theorem mem_follow_iff {x : Fin g.n} {t : ℕ} : t ∈ g.follow x ↔ g.cfg.Follow t x := by
  have hclosed : ∀ {r : Fin g.rules.length} {α β n},
      g.cfg.rhs r = α ++ .nonterm n :: β →
        ∃ l, β = l.map g.sym ∧ g.followRest n (g.cfg.lhs r) l g.follow = g.follow := by
    intro r α β n hr
    obtain ⟨α', l, hl, -, hβ⟩ := List.map_eq_append_iff.mp hr
    obtain ⟨y, l, rfl, hy, rfl⟩ := List.map_eq_cons_iff.mp hβ
    obtain rfl := eq_of_sym_nonterm hy
    have hfix := follow_fixed _ (List.getElem_mem r.isLt)
    exact ⟨l, rfl, followRhs_closed hfix hl (kind_of_sym_nonterm hy)⟩
  constructor
  · exact followSound_follow x t
  · intro h
    induction h with
    | after hr hβ =>
        obtain ⟨l, rfl, hfix⟩ := hclosed hr
        exact (followRest_closed hfix).1 hβ
    | up hr hβ _ ih =>
        obtain ⟨l, rfl, hfix⟩ := hclosed hr
        exact (followRest_closed hfix).2 hβ ih

/-! ## Correctness of the predict sets -/

theorem mem_predictRhs_iff {lhs : Fin g.n} {l : List (Fin g.n)} {p : Finset ℕ} {t : ℕ} :
    t ∈ g.predictRhs lhs l p ↔ t ∈ p ∨ g.cfg.First t (l.map g.sym) ∨
      g.cfg.Nullable (l.map g.sym) ∧ g.cfg.Follow t lhs := by
  induction l generalizing p with
  | nil =>
      rw [predictRhs, Finset.mem_union, mem_follow_iff, List.map_nil]
      simp [Predictive.Grammar.Nullable.nil, Predictive.Grammar.not_first_nil]
  | cons x l ih =>
      rw [List.map_cons, Predictive.Grammar.first_cons,
        Predictive.Grammar.nullable_cons (s := l.map g.sym), predictRhs, ← mem_first_iff,
        ← nullable_iff]
      split
      next hx =>
        rw [ih, Finset.mem_union]
        simp only [hx, true_and]
        tauto
      next hx =>
        rw [Finset.mem_union]
        simp [hx]

/-- `ComputePREDICT` finds the tokens that predict a rule. -/
theorem mem_predict_iff {r : Fin g.rules.length} {t : ℕ} :
    t ∈ g.predict (g.rules.get r) ↔ g.cfg.Predict r t := by
  rw [predict, mem_predictRhs_iff]
  simp [Predictive.Grammar.Predict, cfg]

theorem exists_symNo_of_mem_predict {r : Fin g.rules.length} {t : ℕ}
    (ht : t ∈ g.predict (g.rules.get r)) : ∃ x, g.symNo x = t := by
  rcases mem_predict_iff.mp ht with h | ⟨-, h⟩
  · exact exists_symNo_of_first h _ rfl
  · exact exists_symNo_of_follow h

end Grammar

end YardIce.Ell
