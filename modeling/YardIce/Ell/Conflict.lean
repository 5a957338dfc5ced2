import YardIce.Ell.Sets

/-!
# The conflict test of `ell`

`TestLL1conflict` and what it means that it finds no conflict: every rule is predicted by some token
and no two rules of a nonterminal by the same one.
-/

namespace YardIce.Ell

/-- `NO_CONFLICT` -/
def noConflict : ℕ := 0

/-- `LR_CONFLICT` -/
def lrConflict : ℕ := 1

/-- `CLP_CONFLICT` -/
def clpConflict : ℕ := 2

namespace Grammar

variable (g : Grammar)

/-- The test for immediate left recursion, for one rule. -/
def testLeft (c : ℕ) (r : Rule g.n) : ℕ :=
  if 1 < r.rhs.length ∧ r.rhs.head? = some r.lhs then c ||| lrConflict else c

/-- One rule of the test of the nonterminal `sp`. -/
def testRule (sp : Fin g.n) (s : Finset ℕ × ℕ) (r : Rule g.n) : Finset ℕ × ℕ :=
  if r.lhs = sp then
    let c := if g.predict r = ∅ then s.2 ||| lrConflict else s.2
    let c := if s.1 ∩ g.predict r ≠ ∅ then c ||| clpConflict else c
    (s.1 ∪ g.predict r, c)
  else s

/-- The test of one symbol. -/
def testSymbol (c : ℕ) (sp : Fin g.n) : ℕ :=
  if g.kind sp = .nonterm then (g.rules.foldl (g.testRule sp) (∅, c)).2 else c

/-- `TestLL1conflict` -/
def testLL1conflict : ℕ :=
  (List.finRange g.n).foldl g.testSymbol (g.rules.foldl g.testLeft noConflict)

/-- The rule of a nonterminal that a token predicts. -/
def choose (n : Fin g.n) (t : ℕ) : Option (Fin g.rules.length) :=
  (List.finRange g.rules.length).find? fun r =>
    (g.rules.get r).lhs = n ∧ t ∈ g.predict (g.rules.get r)

variable {g}

theorem or_ne_zero {c d : ℕ} (hd : d ≠ 0) : c ||| d ≠ 0 := by
  intro h
  exact hd (Nat.or_eq_zero_iff.mp h).2

/-- What the test of a rule that adds no conflict has found. -/
theorem testRule_zero {sp : Fin g.n} {s : Finset ℕ × ℕ} {r : Rule g.n}
    (h : (g.testRule sp s r).2 = 0) : s.2 = 0 ∧
      (r.lhs = sp → g.predict r ≠ ∅ ∧ s.1 ∩ g.predict r = ∅) := by
  unfold testRule at h
  split at h
  next hlhs =>
    dsimp only at h
    split at h
    · exact absurd h (or_ne_zero (by decide))
    next hdisj =>
      split at h
      · exact absurd h (or_ne_zero (by decide))
      next hempty => exact ⟨h, fun _ => ⟨hempty, not_not.mp hdisj⟩⟩
  next hlhs => exact ⟨h, fun h' => absurd h' hlhs⟩

theorem testRule_set (sp : Fin g.n) (s : Finset ℕ × ℕ) (r : Rule g.n) :
    s.1 ⊆ (g.testRule sp s r).1 ∧ (r.lhs = sp → g.predict r ⊆ (g.testRule sp s r).1) := by
  unfold testRule
  split
  · exact ⟨Finset.subset_union_left, fun _ => Finset.subset_union_right⟩
  next hlhs => exact ⟨Finset.Subset.refl _, fun h => absurd h hlhs⟩

/-- The rules that are tested for one nonterminal are predicted, by tokens that are not in the set
so far, and by different ones. -/
theorem testRules_zero {sp : Fin g.n} {rs : List (Rule g.n)} {s : Finset ℕ × ℕ}
    (h : (rs.foldl (g.testRule sp) s).2 = 0) : s.2 = 0 ∧
      (∀ r ∈ rs, r.lhs = sp → g.predict r ≠ ∅ ∧ s.1 ∩ g.predict r = ∅) ∧
      rs.Pairwise fun r r' => r.lhs = sp → r'.lhs = sp → g.predict r ∩ g.predict r' = ∅ := by
  induction rs generalizing s with
  | nil => exact ⟨h, fun r hr => absurd hr List.not_mem_nil, .nil⟩
  | cons r rs ih =>
      obtain ⟨hzero, hrest, hpair⟩ := ih h
      obtain ⟨hs, hr⟩ := testRule_zero hzero
      obtain ⟨hset, hpred⟩ := testRule_set sp s r
      refine ⟨hs, ?_, ?_⟩
      · rw [List.forall_mem_cons]
        refine ⟨hr, fun r' hr' hlhs => ?_⟩
        obtain ⟨hne, hdisj⟩ := hrest r' hr' hlhs
        exact ⟨hne, Finset.subset_empty.mp (hdisj ▸ Finset.inter_subset_inter_right hset)⟩
      · refine List.pairwise_cons.mpr ⟨fun r' hr' hlhs hlhs' => ?_, hpair⟩
        obtain ⟨-, hdisj⟩ := hrest r' hr' hlhs'
        exact Finset.subset_empty.mp (hdisj ▸ Finset.inter_subset_inter_right (hpred hlhs))

theorem testSymbol_zero {c : ℕ} {sp : Fin g.n} (h : g.testSymbol c sp = 0) : c = 0 ∧
    (g.kind sp = .nonterm → (g.rules.foldl (g.testRule sp) (∅, 0)).2 = 0) := by
  unfold testSymbol at h
  split at h
  · obtain ⟨hc, -⟩ := testRules_zero h
    rw [show c = 0 from hc] at h
    exact ⟨hc, fun _ => h⟩
  next hkind => exact ⟨h, fun h' => absurd h' hkind⟩

theorem testSymbols_zero {xs : List (Fin g.n)} {c : ℕ} (h : xs.foldl g.testSymbol c = 0) :
    c = 0 ∧ ∀ sp ∈ xs, g.kind sp = .nonterm → (g.rules.foldl (g.testRule sp) (∅, 0)).2 = 0 := by
  induction xs generalizing c with
  | nil => exact ⟨h, fun sp hsp => absurd hsp List.not_mem_nil⟩
  | cons sp xs ih =>
      obtain ⟨hzero, hrest⟩ := ih h
      obtain ⟨hc, hsp⟩ := testSymbol_zero hzero
      exact ⟨hc, List.forall_mem_cons.mpr ⟨hsp, hrest⟩⟩

section

variable (h : g.testLL1conflict = noConflict)

include h

theorem testRules_of_noConflict {sp : Fin g.n} (hsp : g.kind sp = .nonterm) :
    (g.rules.foldl (g.testRule sp) (∅, 0)).2 = 0 :=
  (testSymbols_zero h).2 sp (List.mem_finRange sp) hsp

/-- Every rule is predicted by some token. -/
theorem predict_ne_empty {r : Rule g.n} (hr : r ∈ g.rules) : g.predict r ≠ ∅ := by
  have hzero := testRules_of_noConflict h (g.lhs_kind r hr)
  exact ((testRules_zero hzero).2.1 r hr rfl).1

/-- A token predicts one rule of a nonterminal at most. -/
theorem predict_unique {r r' : Fin g.rules.length}
    (hlhs : (g.rules.get r).lhs = (g.rules.get r').lhs) {t : ℕ}
    (ht : t ∈ g.predict (g.rules.get r)) (ht' : t ∈ g.predict (g.rules.get r')) : r = r' := by
  have hpair := (testRules_zero (testRules_of_noConflict h
    (g.lhs_kind _ (List.getElem_mem r.isLt)))).2.2
  rw [List.pairwise_iff_getElem] at hpair
  have hmem : t ∈ g.predict (g.rules.get r) ∩ g.predict (g.rules.get r') :=
    Finset.mem_inter.mpr ⟨ht, ht'⟩
  rcases lt_trichotomy r.val r'.val with hlt | heq | hlt
  · have hempty := hpair r.val r'.val r.isLt r'.isLt hlt rfl hlhs.symm
    exact absurd hmem (hempty ▸ Finset.notMem_empty t)
  · exact Fin.ext heq
  · have hempty := hpair r'.val r.val r'.isLt r.isLt hlt hlhs.symm rfl
    rw [Finset.inter_comm] at hmem
    exact absurd hmem (hempty ▸ Finset.notMem_empty t)

/-- Without conflicts the rule that a token predicts is the one to expand by. -/
theorem chooses_choose : g.cfg.Chooses g.choose := by
  intro n t r
  rw [← mem_predict_iff]
  constructor
  · intro hfind
    have hr := List.find?_some hfind
    rw [decide_eq_true_iff] at hr
    exact hr
  · rintro ⟨hlhs, ht⟩
    cases hfind : g.choose n t with
    | none =>
        have hnone := List.find?_eq_none.mp hfind r (List.mem_finRange r)
        exact absurd (decide_eq_true ⟨hlhs, ht⟩) hnone
    | some r' =>
        have hr' := List.find?_some hfind
        rw [decide_eq_true_iff] at hr'
        have hlhs' : (g.rules.get r').lhs = (g.rules.get r).lhs := hr'.1.trans hlhs.symm
        rw [predict_unique h hlhs' hr'.2 ht]

end

end Grammar

end YardIce.Ell
