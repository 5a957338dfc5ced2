import YardIce.Ell.BitVectors
import YardIce.Ell.Sets
import YardIce.Lib.SententialForms

/-!
# The analysis of a grammar

The four functions of `ell.c` over bit vectors, with their loops `do … while (changed)`. They end,
and find what derivations define.

## Implementation notes

`changed` is a natural number: it counts changes of one pass, of which there are fewer than bits.
-/

namespace YardIce.Ell

open Lib Lib.Predictive.Grammar

namespace Grammar

variable (g : Grammar)

/-- A vector for each symbol. -/
abbrev Vectors := Fin g.n → List Word

/-! ## The functions -/

/-- One rule of the loop, with `changed`. -/
def findNullableRule (s : (Fin g.n → Bool) × ℕ) (r : Rule g.n) : (Fin g.n → Bool) × ℕ :=
  if s.1 r.lhs then s
  else if r.rhs.all s.1 then (Function.update s.1 r.lhs true, 1) else s

/-- `FindNullableSymbols`, with at most `fuel` passes of its loop -/
def findNullableSymbols (fuel : ℕ) : Option (Fin g.n → Bool) :=
  doWhile (fun s => g.rules.foldl g.findNullableRule (s, 0)) fuel g.nullableStart

variable {g} in
/-- `changed += BitVecAdd(v, pos)`, for the vector of a symbol -/
def addNumber (x : Fin g.n) (pos : ℕ) (s : g.Vectors × ℕ) : g.Vectors × ℕ :=
  let (v, c) := bitVecAdd (s.1 x) pos
  (Function.update s.1 x v, s.2 + c.toNat)

variable {g} in
/-- `changed += BitVecUnion(v, y)`, for the vector of a symbol -/
def uniteWith (x : Fin g.n) (y : List Word) (s : g.Vectors × ℕ) : g.Vectors × ℕ :=
  let (v, c) := bitVecUnion (s.1 x) y
  (Function.update s.1 x v, s.2 + c.toNat)

/-- The first vectors before the loop. -/
def firstVectors (x : Fin g.n) : List Word :=
  let v := bitVecNew (bitVecSetSize g.n)
  if g.kind x = .term then (bitVecAdd v (g.symNo x)).1 else v

/-- The symbols of a right-hand side, from one of them on. -/
def computeFirstRhs (nullable : Fin g.n → Bool) (s1 : Fin g.n) :
    List (Fin g.n) → g.Vectors × ℕ → g.Vectors × ℕ
  | [], s => s
  | s2 :: rest, s =>
    if g.kind s2 = .term then addNumber s1 (g.symNo s2) s
    else if s1 = s2 then if nullable s1 then computeFirstRhs nullable s1 rest s else s
    else
      let s := uniteWith s1 (s.1 s2) s
      if nullable s2 then computeFirstRhs nullable s1 rest s else s

/-- `ComputeFIRST` -/
def computeFirst (nullable : Fin g.n → Bool) (fuel : ℕ) : Option g.Vectors :=
  doWhile (fun s => g.rules.foldl (fun s r => g.computeFirstRhs nullable r.lhs r.rhs s) (s, 0))
    fuel g.firstVectors

/-- The symbols after `sp`, from one of them on. -/
def computeFollowRest (nullable : Fin g.n → Bool) (first : g.Vectors) (sp lhs : Fin g.n) :
    List (Fin g.n) → g.Vectors × ℕ → g.Vectors × ℕ
  | [], s => uniteWith sp (s.1 lhs) s
  | tp :: rest, s =>
    if g.kind tp = .action then computeFollowRest nullable first sp lhs rest s
    else
      let s := uniteWith sp (first tp) s
      if nullable tp then computeFollowRest nullable first sp lhs rest s else s

/-- The symbols of a right-hand side, from one of them on. -/
def computeFollowRhs (nullable : Fin g.n → Bool) (first : g.Vectors) (lhs : Fin g.n) :
    List (Fin g.n) → g.Vectors × ℕ → g.Vectors × ℕ
  | [], s => s
  | sp :: rest, s =>
    computeFollowRhs nullable first lhs rest
      (if g.kind sp = .nonterm then g.computeFollowRest nullable first sp lhs rest s else s)

/-- `ComputeFOLLOW` -/
def computeFollow (nullable : Fin g.n → Bool) (first : g.Vectors) (fuel : ℕ) : Option g.Vectors :=
  doWhile
    (fun s => g.rules.foldl (fun s r => g.computeFollowRhs nullable first r.lhs r.rhs s) (s, 0))
    fuel fun _ => bitVecNew (bitVecSetSize g.n)

/-- The symbols of a right-hand side, from one of them on. -/
def computePredictRhs (nullable : Fin g.n → Bool) (first follow : g.Vectors) (lhs : Fin g.n) :
    List (Fin g.n) → List Word → List Word
  | [], p => (bitVecUnion p (follow lhs)).1
  | sp :: rest, p =>
    let p := (bitVecUnion p (first sp)).1
    if nullable sp then computePredictRhs nullable first follow lhs rest p else p

/-- `ComputePREDICT`, for one rule -/
def computePredict (nullable : Fin g.n → Bool) (first follow : g.Vectors) (r : Rule g.n) :
    List Word :=
  g.computePredictRhs nullable first follow r.lhs r.rhs (bitVecNew (bitVecSetSize g.n))

/-- What the functions leave in the symbols and rules. -/
structure Analysis where
  nullable : Fin g.n → Bool
  first : g.Vectors
  follow : g.Vectors
  predict : Rule g.n → List Word

/-- The calls of `main`. -/
def analyse (fuel : ℕ) : Option g.Analysis := do
  let nullable ← g.findNullableSymbols fuel
  let first ← g.computeFirst nullable fuel
  let follow ← g.computeFollow nullable first fuel
  return ⟨nullable, first, follow, g.computePredict nullable first follow⟩

variable {g}

/-! ## Flags -/

theorem findNullableRules (rs : List (Rule g.n)) (s : (Fin g.n → Bool) × ℕ) :
    (rs.foldl g.findNullableRule s).1 = rs.foldl g.nullableRule s.1 ∧
      ((rs.foldl g.findNullableRule s).2 = 0 ↔ s.2 = 0 ∧ rs.foldl g.nullableRule s.1 = s.1) := by
  induction rs generalizing s with
  | nil => exact ⟨rfl, (and_iff_left rfl).symm⟩
  | cons r rs ih =>
      have hrule : (g.findNullableRule s r).1 = g.nullableRule s.1 r ∧
          ((g.findNullableRule s r).2 = 0 ↔ s.2 = 0 ∧ g.nullableRule s.1 r = s.1) := by
        rw [findNullableRule, nullableRule]
        split
        · exact ⟨rfl, (and_iff_left rfl).symm⟩
        next hlhs =>
          split
          · refine ⟨rfl, ⟨fun h => absurd h one_ne_zero, fun h => absurd ?_ hlhs⟩⟩
            rw [← h.2, Function.update_self]
          · exact ⟨rfl, (and_iff_left rfl).symm⟩
      obtain ⟨hval, hcount⟩ := ih (g.findNullableRule s r)
      rw [List.foldl_cons, List.foldl_cons, hval, hcount, hrule.1, hrule.2]
      refine ⟨rfl, ?_, ?_⟩
      · rintro ⟨⟨hzero, hsame⟩, hrest⟩
        exact ⟨hzero, hrest.trans hsame⟩
      · rintro ⟨hzero, hall⟩
        have hle : g.nullableRule s.1 r ≤ s.1 := (le_foldl le_nullableRule rs _).trans hall.le
        have hsame := le_antisymm hle (le_nullableRule s.1 r)
        exact ⟨⟨hzero, hsame⟩, hall.trans hsame.symm⟩

theorem findNullableSymbols_eq {fuel : ℕ} (hfuel : g.n + 2 ≤ fuel) :
    g.findNullableSymbols fuel = some g.nullable := by
  have hpass : ∀ s, True → True ∧ id (g.rules.foldl g.findNullableRule (s, 0)).1 =
      g.rules.foldl g.nullableRule (id s) ∧ ((g.rules.foldl g.findNullableRule (s, 0)).2 = 0 ↔
        g.rules.foldl g.nullableRule (id s) = id s) := by
    intro s _
    obtain ⟨hval, hcount⟩ := findNullableRules g.rules (s, 0)
    exact ⟨trivial, hval, hcount.trans (and_iff_right rfl)⟩
  obtain ⟨t, ht, -, rfl⟩ := @doWhile_saturate _ _ _ id (fun _ => True) _
    (fun s => g.rules.foldl g.nullableRule s) hpass g.nullableStart trivial (g.n + 1)
    (foldl_eq_self nullable_fixed)
  exact doWhile_mono ht hfuel

/-! ## Vectors -/

/-- All vectors have the size that was set. -/
def Sized (s : g.Vectors) : Prop := ∀ x, (s x).length = bitVecSetSize g.n

/-- The sets of the vectors. -/
def sets (s : g.Vectors) : Fin g.n → Finset ℕ := fun x => members (s x)

/-- From `s` to `t` the sets grew to `u`, and `changed` counts it. -/
structure Grown (s t : g.Vectors × ℕ) (u : Fin g.n → Finset ℕ) : Prop where
  sized : Sized t.1
  eq : sets t.1 = u
  le : sets s.1 ≤ u
  count : s.2 ≤ t.2
  changed : t.2 = s.2 ↔ u = sets s.1

variable {s t : g.Vectors × ℕ} {u : Fin g.n → Finset ℕ}

theorem Grown.refl (hs : Sized s.1) : Grown s s (sets s.1) :=
  ⟨hs, rfl, le_rfl, le_rfl, iff_of_true rfl rfl⟩

theorem Grown.trans {v : g.Vectors × ℕ} {w : Fin g.n → Finset ℕ} (h : Grown s t u)
    (h' : Grown t v w) : Grown s v w := by
  have hle := h'.le
  have hchanged := h'.changed
  rw [h.eq] at hle hchanged
  refine ⟨h'.sized, h'.eq, h.le.trans hle, h.count.trans h'.count, ?_⟩
  have hcount := h.count
  have hcount' := h'.count
  constructor
  · intro heq
    exact (hchanged.mp (by omega)).trans (h.changed.mp (by omega))
  · intro heq
    have hu : u = sets s.1 := le_antisymm (hle.trans heq.le) h.le
    exact (hchanged.mpr (heq.trans hu.symm)).trans (h.changed.mpr hu)

theorem Grown.added (hs : Sized s.1) (x : Fin g.n) {p : Finset ℕ} {r : List Word × Bool}
    (h : Added (s.1 x) p r) :
    Grown s (Function.update s.1 x r.1, s.2 + r.2.toNat)
      (Function.update (sets s.1) x (sets s.1 x ∪ p)) := by
  refine ⟨?_, ?_, le_update_union _ x p, Nat.le_add_right _ _, ?_⟩
  · intro y
    dsimp only
    by_cases hy : y = x
    · subst hy
      rw [Function.update_self, h.length]
      exact hs y
    · rw [Function.update_of_ne hy]
      exact hs y
  · funext y
    dsimp only [sets]
    by_cases hy : y = x
    · subst hy
      rw [Function.update_self, Function.update_self, h.members]
    · rw [Function.update_of_ne hy, Function.update_of_ne hy]
      rfl
  · have hsame : r.2 = false ↔ r.1 = s.1 x := by
      rw [← Bool.not_eq_true, h.changed, Ne, not_not]
    rw [Nat.add_eq_left, Bool.toNat_eq_zero, hsame, ← members_inj h.length, h.members,
      Function.update_eq_self_iff]
    rfl

theorem Grown.addNumber (hs : Sized s.1) (x y : Fin g.n) :
    Grown s (addNumber x (g.symNo y) s)
      (Function.update (sets s.1) x (sets s.1 x ∪ {g.symNo y})) := by
  refine Grown.added hs x (bitVecAdd_added ?_)
  have hy := symNo_lt y
  rw [hs x, bitVecSetSize]
  omega

theorem Grown.uniteWith (hs : Sized s.1) (x : Fin g.n) {y : List Word}
    (hy : y.length = bitVecSetSize g.n) :
    Grown s (uniteWith x y s) (Function.update (sets s.1) x (sets s.1 x ∪ members y)) :=
  Grown.added hs x (bitVecUnion_added ((hs x).trans hy.symm))

/-- A loop over the rules. -/
theorem Grown.foldl {f : g.Vectors × ℕ → Rule g.n → g.Vectors × ℕ}
    {f' : (Fin g.n → Finset ℕ) → Rule g.n → Fin g.n → Finset ℕ}
    (hf : ∀ s r, Sized s.1 → Grown s (f s r) (f' (sets s.1) r)) (rs : List (Rule g.n))
    (hs : Sized s.1) : Grown s (rs.foldl f s) (rs.foldl f' (sets s.1)) := by
  induction rs generalizing s with
  | nil => exact Grown.refl hs
  | cons r rs ih =>
      have hrule := hf s r hs
      have hrest := ih hrule.sized
      rw [hrule.eq] at hrest
      exact hrule.trans hrest

/-- A loop until nothing changes. -/
theorem Grown.saturates {f : g.Vectors × ℕ → Rule g.n → g.Vectors × ℕ}
    {f' : (Fin g.n → Finset ℕ) → Rule g.n → Fin g.n → Finset ℕ}
    (hf : ∀ s r, Sized s.1 → Grown s (f s r) (f' (sets s.1) r)) {s : g.Vectors}
    (hs : Sized s) {n fuel : ℕ} (hfuel : n + 1 ≤ fuel)
    (hfix : ∀ r ∈ g.rules, f' (saturate (fun s => g.rules.foldl f' s) n (sets s)) r =
      saturate (fun s => g.rules.foldl f' s) n (sets s)) :
    ∃ t, doWhile (fun s => g.rules.foldl f (s, 0)) fuel s = some t ∧ Sized t ∧
      sets t = saturate (fun s => g.rules.foldl f' s) n (sets s) := by
  have hpass : ∀ s, Sized s → Sized (g.rules.foldl f (s, 0)).1 ∧
      sets (g.rules.foldl f (s, 0)).1 = g.rules.foldl f' (sets s) ∧
      ((g.rules.foldl f (s, 0)).2 = 0 ↔ g.rules.foldl f' (sets s) = sets s) := by
    intro s hs
    have hgrown := Grown.foldl (s := (s, 0)) hf g.rules hs
    exact ⟨hgrown.sized, hgrown.eq, hgrown.changed⟩
  obtain ⟨t, ht, hsized, hsets⟩ := @doWhile_saturate _ _ _ sets Sized _
    (fun s => g.rules.foldl f' s) hpass s hs n (foldl_eq_self hfix)
  exact ⟨t, doWhile_mono ht hfuel, hsized, hsets⟩

/-! ## The loops -/

theorem computeFirstRhs_grown (lhs : Fin g.n) (l : List (Fin g.n)) (hs : Sized s.1) :
    Grown s (g.computeFirstRhs g.nullable lhs l s) (g.firstRhs lhs l (sets s.1)) := by
  induction l generalizing s with
  | nil => exact Grown.refl hs
  | cons x l ih =>
      rw [computeFirstRhs, firstRhs]
      split
      · exact Grown.addNumber hs lhs x
      · split
        · split
          · exact ih hs
          · exact Grown.refl hs
        · have hunite := Grown.uniteWith hs lhs (hs x)
          dsimp only
          split
          · have hrest := ih hunite.sized
            rw [hunite.eq] at hrest
            exact hunite.trans hrest
          · exact hunite

theorem computeFollowRest_grown {first : g.Vectors} (hsized : Sized first)
    (hfirst : sets first = g.first) (sp lhs : Fin g.n) (l : List (Fin g.n)) (hs : Sized s.1) :
    Grown s (g.computeFollowRest g.nullable first sp lhs l s)
      (g.followRest sp lhs l (sets s.1)) := by
  induction l generalizing s with
  | nil => exact Grown.uniteWith hs sp (hs lhs)
  | cons tp l ih =>
      rw [computeFollowRest, followRest]
      split
      · exact ih hs
      · have hunite := Grown.uniteWith hs sp (hsized tp)
        have htp : members (first tp) = g.first tp := congrFun hfirst tp
        rw [htp] at hunite
        dsimp only
        split
        · have hrest := ih hunite.sized
          rw [hunite.eq] at hrest
          exact hunite.trans hrest
        · exact hunite

theorem computeFollowRhs_grown {first : g.Vectors} (hsized : Sized first)
    (hfirst : sets first = g.first) (lhs : Fin g.n) (l : List (Fin g.n)) (hs : Sized s.1) :
    Grown s (g.computeFollowRhs g.nullable first lhs l s) (g.followRhs lhs l (sets s.1)) := by
  induction l generalizing s with
  | nil => exact Grown.refl hs
  | cons sp l ih =>
      rw [computeFollowRhs, followRhs]
      split
      · have hsp := computeFollowRest_grown hsized hfirst sp lhs l hs
        have hrest := ih hsp.sized
        rw [hsp.eq] at hrest
        exact hsp.trans hrest
      · exact ih hs

theorem computePredictRhs_members {first follow : g.Vectors} (hsized : Sized first)
    (hfirst : sets first = g.first) (hsized' : Sized follow) (hfollow : sets follow = g.follow)
    (lhs : Fin g.n) (l : List (Fin g.n)) {p : List Word} (hp : p.length = bitVecSetSize g.n) :
    members (g.computePredictRhs g.nullable first follow lhs l p) =
      g.predictRhs lhs l (members p) := by
  induction l generalizing p with
  | nil =>
      rw [computePredictRhs, predictRhs, ← hfollow]
      exact (bitVecUnion_added (hp.trans (hsized' lhs).symm)).members
  | cons x l ih =>
      have hadded := bitVecUnion_added (hp.trans (hsized x).symm)
      have hx : members (first x) = g.first x := congrFun hfirst x
      rw [computePredictRhs, predictRhs, ← hx, ← hadded.members]
      split
      · exact ih (hadded.length.trans hp)
      · rfl

theorem sized_new : Sized (g := g) fun _ => bitVecNew (bitVecSetSize g.n) :=
  fun _ => List.length_replicate

theorem firstVectors_sets : Sized g.firstVectors ∧ sets g.firstVectors = g.firstStart := by
  have hadd : ∀ x, Added (bitVecNew (bitVecSetSize g.n)) {g.symNo x}
      (bitVecAdd (bitVecNew (bitVecSetSize g.n)) (g.symNo x)) := by
    intro x
    apply bitVecAdd_added
    have hx := symNo_lt x
    rw [sized_new x, bitVecSetSize]
    omega
  constructor
  · intro x
    rw [firstVectors]
    split
    · rw [(hadd x).length]
      exact sized_new x
    · exact sized_new x
  · funext x
    rw [sets, firstVectors, firstStart]
    split
    · rw [(hadd x).members, members_new, Finset.empty_union]
    · exact members_new _

theorem computeFirst_sets {fuel : ℕ} (hfuel : g.n * g.n + 2 ≤ fuel) :
    ∃ first, g.computeFirst g.nullable fuel = some first ∧ Sized first ∧ sets first = g.first := by
  obtain ⟨hsized, hsets⟩ := @firstVectors_sets g
  have hloop := @Grown.saturates g (fun s r => g.computeFirstRhs g.nullable r.lhs r.rhs s)
    g.firstRule (fun s r hs => computeFirstRhs_grown r.lhs r.rhs hs) _ hsized _ _ hfuel
  rw [hsets] at hloop
  exact hloop first_fixed

theorem computeFollow_sets {first : g.Vectors} (hsized : Sized first)
    (hfirst : sets first = g.first) {fuel : ℕ} (hfuel : g.n * g.n + 2 ≤ fuel) :
    ∃ follow, g.computeFollow g.nullable first fuel = some follow ∧ Sized follow ∧
      sets follow = g.follow := by
  have hloop := @Grown.saturates g (fun s r => g.computeFollowRhs g.nullable first r.lhs r.rhs s)
    g.followRule (fun s r hs => computeFollowRhs_grown hsized hfirst r.lhs r.rhs hs) _ sized_new
    _ _ hfuel
  have hempty : sets (g := g) (fun _ => bitVecNew (bitVecSetSize g.n)) = fun _ => ∅ :=
    funext fun _ => members_new _
  rw [hempty] at hloop
  exact hloop follow_fixed

/-! ## The result -/

/-- The analysis ends, and finds what the sentential forms show: which symbols derive the empty
form, what forms of a symbol begin with, and what comes after a nonterminal in forms of any
nonterminal, or in those of one from which all others are reached. -/
theorem analyse_exact (g : Grammar) : ∃ fuel a, g.analyse fuel = some a ∧
    (∀ x, a.nullable x = true ↔ g.cfg.Forms [g.sym x] []) ∧
    (∀ x t, bitVecTest (a.first x) t ≠ 0 ↔ ∃ β, g.cfg.Forms [g.sym x] (.term t :: β)) ∧
    (∀ x t, bitVecTest (a.follow x) t ≠ 0 ↔
      ∃ m α β, g.cfg.Forms [.nonterm m] (α ++ .nonterm x :: .term t :: β)) ∧
    (∀ start, (∀ x, g.kind x = .nonterm →
        ∃ α β, g.cfg.Forms [.nonterm start] (α ++ .nonterm x :: β)) →
      ∀ x t, bitVecTest (a.follow x) t ≠ 0 ↔
        ∃ α β, g.cfg.Forms [.nonterm start] (α ++ .nonterm x :: .term t :: β)) ∧
    ∀ r ∈ g.rules, ∀ t, bitVecTest (a.predict r) t ≠ 0 ↔
      (∃ β, g.cfg.Forms (r.rhs.map g.sym) (.term t :: β)) ∨
        g.cfg.Forms (r.rhs.map g.sym) [] ∧
          ∃ m α β, g.cfg.Forms [.nonterm m] (α ++ .nonterm r.lhs :: .term t :: β) := by
  have hfuel : g.n * g.n + 2 ≤ g.n * g.n + g.n + 2 := by omega
  obtain ⟨first, hfirst, hsized, hsets⟩ := @computeFirst_sets g _ hfuel
  obtain ⟨follow, hfollow, hsized', hsets'⟩ := computeFollow_sets hsized hsets hfuel
  have hfollow_iff : ∀ x t, bitVecTest (follow x) t ≠ 0 ↔ g.cfg.Follow t x := by
    intro x t
    rw [← mem_members, ← mem_follow_iff, ← hsets']
    rfl
  refine ⟨g.n * g.n + g.n + 2, ⟨g.nullable, first, follow, g.computePredict g.nullable first follow⟩,
    ?_, fun x => ?_, fun x t => ?_, fun x t => ?_, fun start hstart x t => ?_, fun r hr t => ?_⟩
  · rw [analyse, findNullableSymbols_eq (by omega)]
    simp [hfirst, hfollow]
  · rw [nullable_iff, nullable_iff_forms]
  · rw [← first_iff_forms, ← mem_first_iff, ← hsets, ← mem_members]
    rfl
  · rw [hfollow_iff, follow_iff_forms]
  · rw [hfollow_iff, follow_iff_start]
    exact fun r => hstart _ (g.lhs_kind _ (List.getElem_mem r.isLt))
  · have hpredict := computePredictRhs_members hsized hsets hsized' hsets' r.lhs r.rhs
      (sized_new r.lhs)
    rw [← mem_members]
    show t ∈ members (g.computePredictRhs g.nullable first follow r.lhs r.rhs _) ↔ _
    rw [hpredict, mem_predictRhs_iff, members_new,
      ← first_iff_forms, ← nullable_iff_forms, ← follow_iff_forms]
    simp

end Grammar

end YardIce.Ell
