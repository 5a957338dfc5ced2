import YardIce.Ell.Conflict
import YardIce.Lib.PackedLists
import Mathlib.Data.List.Sort

/-!
# The tables of the generated parser

What `write_compact_c` and `write_compact_h` print, as the C compiler stores it, and `ll_push`.

## Implementation notes

The numbers in the tables are bytes, an offset is a byte or a half word as the last one requires.
The right-hand sides are printed by names, `T_`, `N_` or `A_` and the text of the symbol in upper
case; a name that the header defines twice stands for its last definition. `ll_push` gives the
symbols that it pushes, the top of the stack first; it returns their number.
-/

namespace YardIce.Ell

open Lib

/-- `kind_prefix` -/
def kindPrefix : Kind → Char
  | .action => 'A'
  | .nonterm => 'N'
  | .term => 'T'

/-- `strupper` -/
def strupper (s : List Char) : List Char := s.map Char.toUpper

/-- The offset as it is stored in an index: the last one decides between `uint8_t` and
`uint16_t`. -/
def storedOffset (counts : List ℕ) (off : ℕ) : ℕ :=
  if counts.sum - counts.getLastD 0 ≥ 256 then off % 65536 else off % 256

/-- An index, `predict_idx` or `rule_idx`: offsets and counts. -/
def packedIndex (counts : List ℕ) : List (ℕ × ℕ) :=
  (List.range counts.length).map fun i =>
    (storedOffset counts (offset counts i), counts.getD i 0 % 256)

namespace Grammar

variable (g : Grammar)

/-! ## What is printed -/

/-- The name of a symbol in the C files. -/
def cName (x : Fin g.n) : Char × List Char := (kindPrefix (g.kind x), strupper (g.symtext x))

/-- What a name stands for: the symbol of the last `#define`. -/
def cValue (name : Char × List Char) : ℕ :=
  (g.sorted.reverse.find? fun x => g.cName x = name).elim 0 g.symNo

/-- The pairs of one rule: the tokens that predict it and its number. -/
def rulePairs (r : Fin g.rules.length) : List (ℕ × ℕ) :=
  ((List.finRange g.n).filter fun tp => g.symNo tp ∈ g.predict (g.rules.get r)).map fun tp =>
    (g.symNo tp, r.val)

/-- `tr_vec` of a nonterminal, before it is sorted -/
def pairs (x : Fin g.n) : List (ℕ × ℕ) :=
  (List.finRange g.rules.length).flatMap fun r =>
    if (g.rules.get r).lhs = x then g.rulePairs r else []

/-- `tr_vec` of a nonterminal, sorted by `tr_pair_cmp` -/
def trVec (x : Fin g.n) : List (ℕ × ℕ) := (g.pairs x).insertionSort fun a b => a.1 ≤ b.1

/-- `predict_vec` -/
def predictVec : List (ℕ × ℕ) :=
  ((g.ofKind .nonterm).map fun x => (g.trVec x).map fun a => (a.1 % 256, a.2 % 256)).flatten

/-- `predict_idx` -/
def predictIdx : List (ℕ × ℕ) :=
  packedIndex ((g.ofKind .nonterm).map fun x => (g.trVec x).length)

/-- `rule_vec` -/
def ruleVec : List ℕ :=
  (g.rules.map fun r => r.rhs.map fun x => g.cValue (g.cName x) % 256).flatten

/-- `rule_idx` -/
def ruleIdx : List (ℕ × ℕ) := packedIndex (g.rules.map fun r => r.rhs.length)

/-! ## The generated function -/

/-- The right-hand side of a rule as the tables have it. -/
def pushed (i : ℕ) : List ℕ :=
  let idx := g.ruleIdx.getD i (0, 0)
  (List.range idx.2).map fun k => g.ruleVec.getD (idx.1 + k) 0

/-- `ll_push` -/
def llPush (sym tok : ℕ) : Option (List ℕ) :=
  if sym < g.nontermBase then none
  else
    let idx := g.predictIdx.getD (sym - g.nontermBase) (0, 0)
    let vec (k : ℕ) : ℕ × ℕ := g.predictVec.getD (idx.1 + k) (0, 0)
    let imin := bisect (fun imid => (vec (imid - 1)).1 < tok) idx.2 1 idx.2
    if (vec (imin - 1)).1 ≠ tok then none else some (g.pushed (vec (imin - 1)).2)

variable {g}

/-! ## The indices -/

theorem storedOffset_eq {counts : List ℕ} (hlen : counts.length < 256)
    (hcount : ∀ c ∈ counts, c < 256) {i : ℕ} (hi : i < counts.length) :
    storedOffset counts (offset counts i) = offset counts i := by
  have hlast := offset_le_last hi
  have hsum : counts.sum ≤ counts.length * 255 :=
    List.sum_le_card_nsmul counts 255 fun c hc => Nat.le_of_lt_succ (hcount c hc)
  have hle := offset_le_sum counts i
  unfold storedOffset
  split
  · exact Nat.mod_eq_of_lt (by omega)
  · exact Nat.mod_eq_of_lt (by omega)

theorem packedIndex_getD {counts : List ℕ} {i : ℕ} (hi : i < counts.length) :
    (packedIndex counts).getD i (0, 0) =
      (storedOffset counts (offset counts i), counts.getD i 0 % 256) := by
  rw [packedIndex, List.getD_eq_getElem?_getD, List.getElem?_map, List.getElem?_range hi]
  rfl
/-! ## The pairs of a nonterminal -/

theorem mem_rulePairs {r : Fin g.rules.length} {a : ℕ × ℕ} :
    a ∈ g.rulePairs r ↔ a.1 ∈ g.predict (g.rules.get r) ∧ a.2 = r.val := by
  obtain ⟨t, k⟩ := a
  simp only [rulePairs, List.mem_map, List.mem_filter, List.mem_finRange, true_and,
    decide_eq_true_iff, Prod.mk.injEq]
  constructor
  · rintro ⟨tp, htp, rfl, rfl⟩
    exact ⟨htp, rfl⟩
  · rintro ⟨ht, rfl⟩
    obtain ⟨tp, rfl⟩ := exists_symNo_of_mem_predict ht
    exact ⟨tp, ht, rfl, rfl⟩

theorem mem_trVec {x : Fin g.n} {a : ℕ × ℕ} :
    a ∈ g.trVec x ↔ ∃ r : Fin g.rules.length, (g.rules.get r).lhs = x ∧
      a.1 ∈ g.predict (g.rules.get r) ∧ a.2 = r.val := by
  rw [trVec, List.mem_insertionSort, pairs, List.mem_flatMap]
  constructor
  · rintro ⟨r, -, ha⟩
    split at ha
    next hlhs => exact ⟨r, hlhs, mem_rulePairs.mp ha⟩
    · exact absurd ha List.not_mem_nil
  · rintro ⟨r, hlhs, ha⟩
    refine ⟨r, List.mem_finRange r, ?_⟩
    rw [if_pos hlhs]
    exact mem_rulePairs.mpr ha

theorem nodup_rulePairs (r : Fin g.rules.length) :
    (g.rulePairs r).Pairwise fun a b => a.1 ≠ b.1 := by
  rw [rulePairs, List.pairwise_map]
  apply ((List.nodup_finRange g.n).filter _).imp
  intro tp tp' hne heq
  exact hne (symNo_inj heq)

section

variable (h : g.testLL1conflict = noConflict)

include h

/-- Without conflicts a nonterminal has one pair at most for each token. -/
theorem nodup_pairs (x : Fin g.n) : (g.pairs x).Pairwise fun a b => a.1 ≠ b.1 := by
  rw [pairs, List.pairwise_flatMap]
  constructor
  · intro r _
    split
    · exact nodup_rulePairs r
    · exact .nil
  · apply (List.nodup_finRange g.rules.length).imp
    intro r r' hne a ha b hb heq
    split at ha
    next hlhs =>
      split at hb
      next hlhs' =>
        obtain ⟨hat, -⟩ := mem_rulePairs.mp ha
        obtain ⟨hbt, -⟩ := mem_rulePairs.mp hb
        exact hne (predict_unique h (hlhs.trans hlhs'.symm) hat (heq ▸ hbt))
      · exact absurd hb List.not_mem_nil
    · exact absurd ha List.not_mem_nil

theorem sorted_trVec (x : Fin g.n) : (g.trVec x).Pairwise fun a b => a.1 < b.1 := by
  have hle : (g.trVec x).Pairwise fun a b => a.1 ≤ b.1 :=
    List.pairwise_insertionSort (fun a b : ℕ × ℕ => a.1 ≤ b.1) _
  have hne : (g.trVec x).Pairwise fun a b => a.1 ≠ b.1 :=
    (List.perm_insertionSort _ _).symm.pairwise (nodup_pairs h x) fun hab => hab.symm
  exact (hle.and hne).imp fun hab => lt_of_le_of_ne hab.1 hab.2

/-- A nonterminal has a pair, since all its rules are predicted by some token. -/
theorem trVec_ne_nil {x : Fin g.n} (hx : g.kind x = .nonterm) : g.trVec x ≠ [] := by
  obtain ⟨r, hr, rfl⟩ := g.has_rule x hx
  obtain ⟨t, ht⟩ := Finset.nonempty_iff_ne_empty.mpr (predict_ne_empty h hr)
  obtain ⟨i, hi, rfl⟩ := List.getElem_of_mem hr
  have hmem : (t, i) ∈ g.trVec g.rules[i].lhs := mem_trVec.mpr ⟨⟨i, hi⟩, rfl, ht, rfl⟩
  exact List.ne_nil_of_mem hmem

theorem length_trVec (x : Fin g.n) : (g.trVec x).length ≤ g.n := by
  have hnodup : ((g.trVec x).map Prod.fst).Nodup := by
    apply List.pairwise_map.mpr
    exact (sorted_trVec h x).imp fun hab => Nat.ne_of_lt hab
  have hsub : ((g.trVec x).map Prod.fst).toFinset ⊆ Finset.range g.n := by
    intro t ht
    obtain ⟨a, ha, rfl⟩ := List.mem_map.mp (List.mem_toFinset.mp ht)
    obtain ⟨r, -, hpred, -⟩ := mem_trVec.mp ha
    exact Finset.mem_range.mpr (lt_of_exists_symNo (exists_symNo_of_mem_predict hpred))
  have hcard := Finset.card_le_card hsub
  rwa [List.toFinset_card_of_nodup hnodup, List.length_map, Finset.card_range] at hcard

end

/-- The bisection comes to the pair with the token if there is one. -/
theorem bisect_pairs {l : List (ℕ × ℕ)} (hsorted : l.Pairwise fun a b => a.1 < b.1) (hne : l ≠ [])
    {vec : ℕ → ℕ × ℕ} (hvec : ∀ k, ∀ hk : k < l.length, vec k = l[k]) (tok : ℕ) :
    vec (bisect (fun imid => (vec (imid - 1)).1 < tok) l.length 1 l.length - 1) ∈ l ∧
      ∀ a ∈ l, a.1 = tok →
        vec (bisect (fun imid => (vec (imid - 1)).1 < tok) l.length 1 l.length - 1) = a := by
  have hpos : 0 < l.length := List.length_pos_of_ne_nil hne
  have hlt : ∀ i j, i < j → ∀ hj : j < l.length, (vec i).1 < (vec j).1 := by
    intro i j hij hj
    rw [hvec i (by omega), hvec j hj]
    exact List.pairwise_iff_getElem.mp hsorted i j (by omega) hj hij
  have hmono : ∀ i j, 1 ≤ i → i ≤ j → j < l.length → decide ((vec (j - 1)).1 < tok) = true →
      decide ((vec (i - 1)).1 < tok) = true := by
    intro i j hi hij hj hp
    rw [decide_eq_true_iff] at hp ⊢
    rcases Nat.eq_or_lt_of_le hij with rfl | hij
    · exact hp
    · exact (hlt (i - 1) (j - 1) (by omega) (by omega)).trans hp
  obtain ⟨hlo, hhi, hbelow, habove⟩ := bisect_spec (Nat.sub_le l.length 1) hpos hmono
  generalize bisect (fun imid => decide ((vec (imid - 1)).1 < tok)) l.length 1 l.length = imin
    at hlo hhi hbelow habove
  constructor
  · rw [hvec (imin - 1) (by omega)]
    exact List.getElem_mem _
  · rintro a ha rfl
    obtain ⟨k, hk, rfl⟩ := List.getElem_of_mem ha
    have hkeq : imin = k + 1 := by
      rcases Nat.lt_trichotomy imin (k + 1) with hcut | heq | hcut
      · -- an entry at or above the cut is not below the token, and is below the pair's
        have hge := habove imin le_rfl (by omega)
        rw [decide_eq_false_iff_not, ← hvec k hk] at hge
        exact absurd (hlt (imin - 1) k (by omega) hk) hge
      · exact heq
      · have hbel := hbelow (k + 1) (by omega) hcut
        rw [decide_eq_true_iff, Nat.add_sub_cancel, hvec k hk] at hbel
        exact absurd hbel (Nat.lt_irrefl _)
    rw [hkeq, Nat.add_sub_cancel, hvec k hk]
/-! ## `ll_push` -/

/-- The numbers of the pairs are bytes. -/
theorem trVec_bytes (hn : g.n < 256) (hrules : g.rules.length < 256) (x : Fin g.n) :
    ((g.trVec x).map fun a => (a.1 % 256, a.2 % 256)) = g.trVec x := by
  have hbyte : ∀ a ∈ g.trVec x, (a.1 % 256, a.2 % 256) = id a := by
    intro a ha
    obtain ⟨r, -, hpred, hr⟩ := mem_trVec.mp ha
    have ht : a.1 < g.n := lt_of_exists_symNo (exists_symNo_of_mem_predict hpred)
    have hk : a.2 < g.rules.length := hr ▸ r.isLt
    rw [Nat.mod_eq_of_lt (ht.trans hn), Nat.mod_eq_of_lt (hk.trans hrules), id]
  rw [List.map_congr_left hbyte, List.map_id]

section

variable (h : g.testLL1conflict = noConflict) (hn : g.n < 256) (hrules : g.rules.length < 256)

include h hn hrules

/-- The entry of a nonterminal in `predict_idx`, and its pairs in `predict_vec`. -/
theorem predict_entry {x : Fin g.n} (hx : g.kind x = .nonterm) :
    ∃ off, g.predictIdx.getD (g.symNo x - g.nontermBase) (0, 0) = (off, (g.trVec x).length) ∧
      ∀ k, ∀ hk : k < (g.trVec x).length, g.predictVec.getD (off + k) (0, 0) = (g.trVec x)[k] := by
  have hmem : x ∈ g.ofKind .nonterm := mem_ofKind.mpr hx
  have hi : g.symNo x - g.nontermBase = (g.ofKind .nonterm).idxOf x := by
    rw [symNo_nonterm hx, nontermBase_eq hx, Nat.add_sub_cancel_left]
  have hlt := List.idxOf_lt_length_of_mem hmem
  have hget : (g.ofKind .nonterm)[(g.ofKind .nonterm).idxOf x]? = some x :=
    List.getElem?_idxOf hmem
  generalize (g.ofKind .nonterm).idxOf x = i at hi hlt hget
  -- the bytes of the pairs are the pairs
  have hpairs : ∀ y, ((g.trVec y).map fun a => (a.1 % 256, a.2 % 256)) = g.trVec y :=
    trVec_bytes hn hrules
  have hlists : g.predictVec = ((g.ofKind .nonterm).map g.trVec).flatten := by
    rw [predictVec]
    simp only [hpairs]
  have hcounts : ((g.ofKind .nonterm).map g.trVec).map List.length =
      (g.ofKind .nonterm).map fun x => (g.trVec x).length := List.map_map
  have hlen : ((g.ofKind .nonterm).map fun x => (g.trVec x).length).length < 256 := by
    have := ((List.nodup_finRange g.n).filter fun x => g.kind x = .nonterm).length_le_card
    rw [Fintype.card_fin] at this
    rw [List.length_map, ofKind]
    omega
  have hbound : ∀ c ∈ (g.ofKind .nonterm).map fun x => (g.trVec x).length, c < 256 := by
    intro c hc
    obtain ⟨y, -, rfl⟩ := List.mem_map.mp hc
    exact (length_trVec h y).trans_lt hn
  refine ⟨offset ((g.ofKind .nonterm).map fun x => (g.trVec x).length) i, ?_, ?_⟩
  · rw [predictIdx, hi, packedIndex_getD (by rwa [List.length_map]),
      storedOffset_eq hlen hbound (by rwa [List.length_map]), List.getD_eq_getElem?_getD,
      List.getElem?_map, hget, Option.map_some, Option.getD_some,
      Nat.mod_eq_of_lt ((length_trVec h x).trans_lt hn)]
  · intro k hk
    have hmap : ((g.ofKind .nonterm).map g.trVec)[i]? = some (g.trVec x) := by
      rw [List.getElem?_map, hget, Option.map_some]
    rw [hlists, List.getD_eq_getElem?_getD, ← hcounts, getElem?_flatten_offset hmap hk,
      List.getElem?_eq_getElem hk, Option.getD_some]

/-- `ll_push` pushes what the tables have of the rule that the token predicts. -/
theorem llPush_eq {x : Fin g.n} (hx : g.kind x = .nonterm) (tok : ℕ) :
    g.llPush (g.symNo x) tok = (g.choose x tok).map fun r => g.pushed r.val := by
  obtain ⟨off, hidx, hvec⟩ := predict_entry h hn hrules hx
  have hbase : ¬ g.symNo x < g.nontermBase := by
    rw [symNo_nonterm hx, nontermBase_eq hx]
    omega
  obtain ⟨hmem, hfound⟩ := bisect_pairs (sorted_trVec h x) (trVec_ne_nil h hx) hvec tok
  rw [llPush, if_neg hbase, hidx]
  dsimp only
  split
  next hne =>
    cases hchoose : g.choose x tok with
    | none => rfl
    | some r =>
        obtain ⟨hlhs, hpred⟩ := (chooses_choose h x tok r).mp hchoose
        have hpair : (tok, r.val) ∈ g.trVec x :=
          mem_trVec.mpr ⟨r, hlhs, mem_predict_iff.mpr hpred, rfl⟩
        exact absurd (congrArg Prod.fst (hfound _ hpair rfl)) hne
  next heq =>
    obtain ⟨r, hlhs, hpred, hr⟩ := mem_trVec.mp hmem
    rw [not_not.mp heq] at hpred
    rw [(chooses_choose h x tok r).mpr ⟨hlhs, mem_predict_iff.mp hpred⟩, hr]
    rfl

end

/-! ## Right-hand sides -/

theorem pushed_length (r : Fin g.rules.length) :
    (g.pushed r.val).length = (g.rules.get r).rhs.length % 256 := by
  have hlt : r.val < (g.rules.map fun r => r.rhs.length).length := by simp
  rw [pushed, List.length_map, List.length_range, ruleIdx, packedIndex_getD hlt]
  simp

/-- The tables have the values of the names of the symbols. -/
theorem pushed_eq (hrules : g.rules.length < 256) (hlen : ∀ r ∈ g.rules, r.rhs.length < 256)
    (r : Fin g.rules.length) :
    g.pushed r.val = (g.rules.get r).rhs.map fun x => g.cValue (g.cName x) % 256 := by
  have hlt : r.val < (g.rules.map fun r => r.rhs.length).length := by simp
  have hbound : ∀ c ∈ g.rules.map fun r => r.rhs.length, c < 256 := by
    intro c hc
    obtain ⟨r, hr, rfl⟩ := List.mem_map.mp hc
    exact hlen r hr
  have hoff := storedOffset_eq (by rwa [List.length_map]) hbound hlt
  have hget : (g.rules.map fun r => r.rhs.map fun x => g.cValue (g.cName x) % 256)[r.val]? =
      some ((g.rules.get r).rhs.map fun x => g.cValue (g.cName x) % 256) := by
    rw [List.getElem?_map, List.getElem?_eq_getElem r.isLt]
    rfl
  have hcounts : (g.rules.map fun r => r.rhs.map fun x => g.cValue (g.cName x) % 256).map
      List.length = g.rules.map fun r => r.rhs.length := by
    simp [Function.comp_def]
  have hr : (g.rules.get r).rhs.length < 256 := hlen _ (List.get_mem g.rules r)
  apply List.ext_getElem
  · rw [pushed_length, List.length_map, Nat.mod_eq_of_lt hr]
  · intro k hk hk'
    have hflat := getElem?_flatten_offset hget hk'
    rw [hcounts] at hflat
    rw [← Option.some_inj, ← List.getElem?_eq_getElem hk', ← hflat]
    simp only [pushed, ruleIdx, packedIndex_getD hlt, List.getElem_map, List.getElem_range, hoff,
      ruleVec]
    rw [List.getD_eq_getElem?_getD, hflat, List.getElem?_eq_getElem hk', Option.getD_some]

/-! ## Names -/

theorem sorted_pairwise : g.sorted.Pairwise fun x y => g.kind x = g.kind y → x < y := by
  have hkind : ∀ k, (g.ofKind k).Pairwise fun x y => g.kind x = g.kind y → x < y := by
    intro k
    apply List.Pairwise.imp _ ((List.pairwise_lt_finRange g.n).filter _)
    exact fun hlt _ => hlt
  have hother : ∀ k k', k ≠ k' → ∀ x ∈ g.ofKind k, ∀ y ∈ g.ofKind k',
      g.kind x = g.kind y → x < y := by
    intro k k' hne x hx y hy heq
    exact absurd ((mem_ofKind.mp hx).symm.trans (heq.trans (mem_ofKind.mp hy))) hne
  rw [sorted, List.pairwise_append, List.pairwise_append]
  refine ⟨hkind _, ⟨hkind _, hkind _, hother _ _ (by decide)⟩, fun x hx y hy => ?_⟩
  rcases List.mem_append.mp hy with hy | hy
  · exact hother _ _ (by decide) x hx y hy
  · exact hother _ _ (by decide) x hx y hy

theorem kindPrefix_inj {k k' : Kind} (h : kindPrefix k = kindPrefix k') : k = k' := by
  cases k <;> cases k' <;> first | rfl | exact absurd h (by decide)

/-- No later symbol of the same kind has the same text in upper case. -/
def NameApart (g : Grammar) (x : Fin g.n) : Prop :=
  ∀ y, x < y → g.kind y = g.kind x → strupper (g.symtext y) ≠ strupper (g.symtext x)

/-- The name of a symbol stands for the symbol unless a later symbol has the name too. -/
theorem cValue_cName_iff {x : Fin g.n} : g.cValue (g.cName x) = g.symNo x ↔ g.NameApart x := by
  have hpair : g.sorted.reverse.Pairwise fun x y => g.kind y = g.kind x → y < x :=
    List.pairwise_reverse.mpr sorted_pairwise
  have hname : ∀ {y z : Fin g.n}, g.cName y = g.cName z →
      g.kind y = g.kind z ∧ strupper (g.symtext y) = strupper (g.symtext z) := fun heq =>
    ⟨kindPrefix_inj (congrArg Prod.fst heq), congrArg Prod.snd heq⟩
  cases hfind : g.sorted.reverse.find? fun y => g.cName y = g.cName x with
  | none =>
      have hx := List.find?_eq_none.mp hfind x (List.mem_reverse.mpr (mem_sorted x))
      exact absurd (decide_eq_true rfl) hx
  | some z =>
      obtain ⟨hz, as, bs, hsplit, has⟩ := List.find?_eq_some_iff_append.mp hfind
      rw [decide_eq_true_iff] at hz
      obtain ⟨hkind, htext⟩ := hname hz
      have hvalue : g.cValue (g.cName x) = g.symNo z := by rw [cValue, hfind, Option.elim_some]
      -- whoever has the name comes not before `z` in the reversed list
      have hlast : ∀ y, g.cName y = g.cName x → y = z ∨ y < z := by
        intro y hy
        have hmem : y ∈ as ++ z :: bs := hsplit ▸ List.mem_reverse.mpr (mem_sorted y)
        rcases List.mem_append.mp hmem with hmem | hmem
        · have := has y hmem
          simp [hy] at this
        · rcases List.mem_cons.mp hmem with heq | hmem
          · exact .inl heq
          · rw [hsplit] at hpair
            have hzb := (List.pairwise_append.mp hpair).2.1
            exact .inr ((List.pairwise_cons.mp hzb).1 y hmem ((hname hy).1.trans hkind.symm))
      rw [hvalue]
      constructor
      · intro heq y hlt hykind hytext
        obtain rfl := symNo_inj heq
        have hy : g.cName y = g.cName z := by rw [cName, cName, hykind, hytext]
        rcases hlast y hy with rfl | hlt'
        · exact lt_irrefl _ hlt
        · exact lt_asymm hlt hlt'
      · intro hapart
        rcases hlast x rfl with rfl | hlt
        · rfl
        · exact absurd htext (hapart z hlt hkind)

theorem cValue_lt (x : Fin g.n) : g.cValue (g.cName x) < g.n := by
  unfold cValue
  cases g.sorted.reverse.find? fun y => g.cName y = g.cName x with
  | none => exact (Nat.zero_le _).trans_lt x.isLt
  | some z => exact symNo_lt z

end Grammar

end YardIce.Ell
