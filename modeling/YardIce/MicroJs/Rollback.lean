import YardIce.MicroJs.Tables

/-!
# Rolling a table back

What a compilation leaves of the table that it started from, wherever it stops, and what
`symtab_state_rollback` makes of it.
-/

namespace YardIce.MicroJs

open YardIce.Lib

/-! ## The global objects -/

/-- Where the global objects end: where the outermost frame says, or at `bp`. -/
def globalEnd : List Entry → Nat → Nat
  | [], bp => bp
  | .frame _ b :: es, _ => globalEnd es b
  | _ :: es, bp => globalEnd es bp

theorem globalEnd_cons {e : Entry} (hkind : e.kind ≠ .frame) (es : List Entry) (bp : Nat) :
    globalEnd (e :: es) bp = globalEnd es bp := by
  cases e with
  | frame => exact (hkind rfl).elim
  | _ => rfl

theorem globalEnd_append {es : List Entry} (h : Frameless es) (r : List Entry) (bp : Nat) :
    globalEnd (es ++ r) bp = globalEnd r bp := by
  induction es with
  | nil => rfl
  | cons e es ih =>
      rw [List.cons_append, globalEnd_cons (h e List.mem_cons_self)]
      exact ih fun e he => h e (List.mem_cons_of_mem _ he)

theorem Linked.globalEnd_le {top : Nat} {es : List Entry} {fp bp : Nat}
    (h : Linked top es fp bp) : globalEnd es bp ≤ bp := by
  induction es generalizing fp bp with
  | nil => exact Nat.le_refl _
  | cons e es ih =>
      by_cases hkind : e.kind = .frame
      · cases e with
        | frame f b => exact Nat.le_trans (ih h.2.2) h.2.1
        | _ => cases hkind
      · rw [globalEnd_cons hkind]
        exact ih ((Linked.cons_iff hkind).mp h)

/-- Without an open block the innermost frame is the top. -/
theorem Linked.fp_eq_iff {top : Nat} {es : List Entry} {fp bp : Nat} (h : Linked top es fp bp) :
    fp = top ↔ blocks es = [] := by
  induction es generalizing fp bp with
  | nil => exact ⟨fun _ => rfl, fun _ => h⟩
  | cons e es ih =>
      by_cases hkind : e.kind = .frame
      · cases e with
        | frame f b =>
            have hfp := h.1
            rw [stackBytes_length_cons] at hfp
            have hfour : (Entry.frame f b).kind.size = 4 := rfl
            exact ⟨fun heq => by lia, fun heq => by cases heq⟩
        | _ => cases hkind
      · rw [blocks_cons hkind]
        exact ih ((Linked.cons_iff hkind).mp h)

theorem globalEnd_of_blocks {es : List Entry} (h : blocks es = []) (bp : Nat) :
    globalEnd es bp = bp := by
  induction es with
  | nil => rfl
  | cons e es ih =>
      by_cases hkind : e.kind = .frame
      · cases e with
        | frame f b => cases h
        | _ => cases hkind
      · rw [globalEnd_cons hkind]
        rw [blocks_cons hkind] at h
        exact ih h

/-- With an open block a new end of the objects does not matter. -/
theorem globalEnd_of_ne {es : List Entry} (h : blocks es ≠ []) (bp bp' : Nat) :
    globalEnd es bp = globalEnd es bp' := by
  induction es with
  | nil => exact (h rfl).elim
  | cons e es ih =>
      by_cases hkind : e.kind = .frame
      · cases e with
        | frame f b => rfl
        | _ => cases hkind
      · rw [globalEnd_cons hkind, globalEnd_cons hkind]
        rw [blocks_cons hkind] at h
        exact ih h

/-! ## Popping all frames -/

/-- The table after the loop of `symtab_state_rollback`. -/
structure Popped (tab tab' : Symtab) (stop : Nat) : Prop where
  fp : tab'.fp = tab.top
  top : tab'.top = tab.top
  size : tab'.dataSz = tab.dataSz
  term : tab'.buf (stop + 1) = 0
  kept : ∀ i, i ≤ stop ∨ tab.bp + 2 ≤ i → tab'.buf i = tab.buf i

theorem popFrames_popped {es : List Entry} : ∀ {fuel sp : Nat} {tab : Symtab},
    Stacked { tab with sp } es → tab.buf (tab.bp + 1) = 0 → (blocks es).length < fuel →
      Popped tab (popFrames fuel tab) (globalEnd es tab.bp) := by
  induction es with
  | nil =>
      intro fuel sp tab h hterm hfuel
      obtain ⟨fuel, rfl⟩ : ∃ k, fuel = k + 1 := ⟨fuel - 1, by lia⟩
      have hfp : tab.fp = tab.top := h.linked
      rw [popFrames, if_pos hfp]
      exact ⟨hfp, rfl, rfl, hterm, fun _ _ => rfl⟩
  | cons e es ih =>
      intro fuel sp tab h hterm hfuel
      by_cases hkind : e.kind = .frame
      · cases e with
        | frame f b =>
            have hlen : (blocks (.frame f b :: es)).length = (blocks es).length + 1 := rfl
            obtain ⟨fuel, rfl⟩ : ∃ k, fuel = k + 1 := ⟨fuel - 1, by lia⟩
            obtain ⟨hfp, htop, ⟨hf, hload₁⟩, hb, hload₂⟩ := h.frame_bytes
            obtain ⟨hpop, hst, hle⟩ := h.unframe
            have hroom := h.room
            dsimp only at hfp htop hload₁ hload₂ hle hroom
            have hstep : symSfPop tab = { tab with
                sp := sp + 4, fp := f, bp := b, buf := store tab.buf (b + 1) [0] } := by
              rw [symSfPop, if_neg (by lia), hload₁, hload₂, ofBytes_le16 hf,
                ofBytes_le16 hb, hfp]
            have hfuel' : (blocks es).length < fuel := by lia
            have hlow (i : Nat) (hi : i ≤ b) : store tab.buf (b + 1) [0] i = tab.buf i :=
              store_lt _ _ (Nat.lt_succ_of_le hi)
            have hhigh (i : Nat) (hi : b + 2 ≤ i) : store tab.buf (b + 1) [0] i = tab.buf i :=
              store_ge _ _ (by
                rw [List.length_singleton]
                lia)
            have hend : globalEnd es b ≤ b := h.linked.2.2.globalEnd_le
            rw [popFrames, if_neg (by lia), hstep]
            rw [hpop] at hst
            have hzero : store tab.buf (b + 1) [0] (b + 1) = 0 :=
              store_at tab.buf [0] (i := 0) Nat.one_pos
            obtain ⟨hfp', htop', hsize, hterm', hkept⟩ := @ih fuel (sp + 4) { tab with
              sp := sp + 4, fp := f, bp := b, buf := store tab.buf (b + 1) [0] } hst hzero hfuel'
            refine ⟨hfp', htop', hsize, hterm', fun i hi => ?_⟩
            rcases hi with hi | hi
            · exact (hkept i (Or.inl hi)).trans (hlow i (Nat.le_trans hi hend))
            · have hi' : b + 2 ≤ i := by lia
              exact (hkept i (Or.inr hi')).trans (hhigh i hi')
        | _ => cases hkind
      · rw [globalEnd_cons hkind]
        rw [blocks_cons hkind] at hfuel
        have hst : Stacked { tab with sp := sp + e.bytes.length } es := (h.pop hkind).2
        exact ih hst hterm hfuel

/-! ## What a compilation keeps -/

/-- The names of the objects that a run has created in the global scope, the last one
first. -/
def globals (E : Env) : Trace → List (List Nat)
  | [] => []
  | (a, m) :: tr =>
      if a = .opVarDecl ∧ m.tab.fp = m.tab.top ∧
          symObjScopeLookup m.tab (E.name m.tok.s m.tok.qlf) = none ∧
          m.tab.bp + (sizeofSymObj + m.tok.qlf + 1) + 2 ≤ m.tab.sp then
        E.name m.tok.s m.tok.qlf :: globals E tr
      else globals E tr

/-- What a compilation that has created `made` in the global scope keeps of the table `tab₀`
while it does not touch the entries `es₀`: the objects and the entries, and the links of the
first new object. -/
structure Kept (tab₀ : Symtab) (es₀ : List Entry) (made : List (List Nat)) (m : Sdt)
    (es : List Entry) : Prop where
  stacked : Stacked m.tab (es ++ es₀)
  term : m.tab.buf (m.tab.bp + 1) = 0
  top : m.tab.top = tab₀.top
  size : tab₀.dataSz ≤ m.tab.dataSz
  high : ∀ i, tab₀.sp ≤ i → m.tab.buf i = tab₀.buf i
  low : ∀ i ≤ tab₀.bp, m.tab.buf i = tab₀.buf i
  le : tab₀.bp ≤ globalEnd (es ++ es₀) m.tab.bp
  same : made = [] → globalEnd (es ++ es₀) m.tab.bp = tab₀.bp
  first : ∀ nm, made.getLast? = some nm → tab₀.bp + 5 ≤ globalEnd (es ++ es₀) m.tab.bp ∧
    m.tab.buf (tab₀.bp + 1) = (7 + nm.length) % 256 ∧ m.tab.buf (tab₀.bp + 3) = 4

/-- The entries reach down at least as far as those of the table. -/
def Base (tab₀ : Symtab) (es₀ : List Entry) : Prop :=
  tab₀.top ≤ tab₀.sp + (stackBytes es₀).length

namespace Kept

variable {E : Env} {tab₀ : Symtab} {es₀ es es' : List Entry} {made : List (List Nat)}
  {m m' : Sdt}

/-- A step that leaves the global objects alone. -/
theorem carry (h : Kept tab₀ es₀ made m es) (hbase : Base tab₀ es₀)
    (hst : Stacked m'.tab (es' ++ es₀)) (hterm : m'.tab.buf (m'.tab.bp + 1) = 0)
    (htop : m'.tab.top = m.tab.top) (hsize : m.tab.dataSz ≤ m'.tab.dataSz)
    (hend : globalEnd (es' ++ es₀) m'.tab.bp = globalEnd (es ++ es₀) m.tab.bp)
    (hlow : ∀ i ≤ globalEnd (es ++ es₀) m.tab.bp, m'.tab.buf i = m.tab.buf i)
    (hhigh : ∀ i, m.tab.top ≤ i + (stackBytes es₀).length → m'.tab.buf i = m.tab.buf i) :
    Kept tab₀ es₀ made m' es' := by
  have hsp : tab₀.top ≤ tab₀.sp + (stackBytes es₀).length := hbase
  have htop₀ := h.top
  have hle := h.le
  refine ⟨hst, hterm, htop.trans h.top, Nat.le_trans h.size hsize, fun i hi => ?_,
    fun i hi => ?_, hend ▸ h.le, fun hmade => hend.trans (h.same hmade), fun nm hnm => ?_⟩
  · exact (hhigh i (by lia)).trans (h.high i hi)
  · exact (hlow i (Nat.le_trans hi hle)).trans (h.low i hi)
  · obtain ⟨hfive, hnext, hfour⟩ := h.first nm hnm
    exact ⟨hend ▸ hfive, (hlow _ (by lia)).trans hnext, (hlow _ (by lia)).trans hfour⟩

theorem globalEnd_le (h : Kept tab₀ es₀ made m es) :
    globalEnd (es ++ es₀) m.tab.bp ≤ m.tab.bp := h.stacked.linked.globalEnd_le

/-- The table alone counts. -/
theorem congr (h : Kept tab₀ es₀ made m es) (htab : m'.tab = m.tab) :
    Kept tab₀ es₀ made m' es := by
  obtain ⟨hst, hterm, htop, hsize, hhigh, hlow, hle, hsame, hfirst⟩ := h
  constructor
  all_goals rw [htab]; assumption

theorem untouched {r : List Entry} (h : Kept tab₀ es₀ made m (es ++ r)) (hbase : Base tab₀ es₀)
    (hu : Untouched (r ++ es₀) m m') (hfl : Frameless es)
    (hst : Stacked m'.tab (es' ++ (r ++ es₀))) (hfl' : Frameless es') :
    Kept tab₀ es₀ made m' (es' ++ r) := by
  rw [← List.append_assoc] at hst
  have hle := h.globalEnd_le
  refine h.carry hbase hst ?_ hu.top (Nat.le_of_eq hu.size.symm) ?_ (fun i hi => ?_) fun i hi => ?_
  · rw [hu.bp, hu.buf _ (Or.inl (Nat.le_refl _)), h.term]
  · rw [hu.bp, List.append_assoc, List.append_assoc, globalEnd_append hfl', globalEnd_append hfl]
  · exact hu.buf i (Or.inl (by lia))
  · refine hu.buf i (Or.inr ?_)
    rw [stackBytes_append, List.length_append]
    lia

theorem blkOpen (h : Kept tab₀ es₀ made m es) (hbase : Base tab₀ es₀) :
    ∃ es', Kept tab₀ es₀ made (opBlkOpen m).2 es' ∧ ((opBlkOpen m).1 = .ok () →
      es' = .frame m.tab.fp m.tab.bp :: .addr (m.dataPos % 65536) :: es) := by
  obtain ⟨hu, hcases⟩ := h.stacked.blkOpen
  have hle := h.globalEnd_le
  have hterm : (opBlkOpen m).2.tab.buf ((opBlkOpen m).2.tab.bp + 1) = 0 := by
    rw [hu.bp, hu.buf _ (Or.inl (Nat.le_refl _)), h.term]
  have hlow (i : Nat) (hi : i ≤ globalEnd (es ++ es₀) m.tab.bp) :
      (opBlkOpen m).2.tab.buf i = m.tab.buf i := hu.buf i (Or.inl (by lia))
  have hhigh (i : Nat) (hi : m.tab.top ≤ i + (stackBytes es₀).length) :
      (opBlkOpen m).2.tab.buf i = m.tab.buf i := by
    refine hu.buf i (Or.inr ?_)
    rw [stackBytes_append, List.length_append]
    lia
  rcases hcases with ⟨-, hst⟩ | ⟨hfail, es', hfl, hst⟩
  · exact ⟨_, h.carry hbase hst hterm hu.top (Nat.le_of_eq hu.size.symm) rfl hlow hhigh,
      fun _ => rfl⟩
  · refine ⟨es' ++ es, h.carry hbase (List.append_assoc .. ▸ hst) hterm hu.top
      (Nat.le_of_eq hu.size.symm) ?_ hlow hhigh, fun hok => (hfail () hok).elim⟩
    rw [hu.bp, List.append_assoc, globalEnd_append hfl]

theorem blkClose {f b n : Nat} (h : Kept tab₀ es₀ made m (.frame f b :: .addr n :: es))
    (hbase : Base tab₀ es₀) : Kept tab₀ es₀ made (opBlkClose m).2 es := by
  obtain ⟨hrun, hst, hle⟩ := h.stacked.blkClose
  have hroom := h.stacked.room
  have hsp := h.stacked.sp_add
  have hend : globalEnd (es ++ es₀) b ≤ b := h.stacked.linked.2.2.globalEnd_le
  have hlen : (stackBytes (.frame f b :: .addr n :: es ++ es₀)).length =
      6 + (stackBytes es).length + (stackBytes es₀).length := by
    rw [List.cons_append, List.cons_append, stackBytes_length_cons, stackBytes_length_cons,
      stackBytes_append, List.length_append]
    simp only [Entry.kind, Kind.size]
    lia
  rw [hrun] at hst ⊢
  have hlow (i : Nat) (hi : i ≤ b) : store m.tab.buf (b + 1) [0] i = m.tab.buf i :=
    store_lt _ _ (Nat.lt_succ_of_le hi)
  have hhigh (i : Nat) (hi : b + 2 ≤ i) : store m.tab.buf (b + 1) [0] i = m.tab.buf i :=
    store_ge _ _ (by
      rw [List.length_singleton]
      lia)
  have hterm : store m.tab.buf (b + 1) [0] (b + 1) = 0 :=
    store_at m.tab.buf [0] (i := 0) Nat.one_pos
  exact h.carry hbase hst hterm rfl (Nat.le_refl _) rfl
    (fun i hi => hlow i (Nat.le_trans hi hend)) fun i hi => hhigh i (by lia)

/-- A declaration creates an object in the innermost scope, or nothing. -/
theorem varDecl {tr : Trace} (h : Kept tab₀ es₀ (globals E tr) m es) (hbase : Base tab₀ es₀) :
    Kept tab₀ es₀ (globals E ((.opVarDecl, m) :: tr)) (opVarDecl E m).2 es := by
  have hlen : (E.name m.tok.s m.tok.qlf).length = m.tok.qlf := load_length _ _ _
  have hsp := h.stacked.sp_add
  have hsp₀ : tab₀.top ≤ tab₀.sp + (stackBytes es₀).length := hbase
  have htop₀ := h.top
  rw [stackBytes_append, List.length_append] at hsp
  rw [globals, run_opVarDecl, hlen]
  by_cases hknown : symObjScopeLookup m.tab (E.name m.tok.s m.tok.qlf) = none
  · by_cases hroom : m.tab.bp + (sizeofSymObj + m.tok.qlf + 1) + 2 ≤ m.tab.sp
    · have hroom' : ¬ m.tab.sp < m.tab.bp + (sizeofSymObj + m.tok.qlf + 1) + 2 := by lia
      have hfree : ¬ (symObjScopeLookup m.tab (E.name m.tok.s m.tok.qlf)).isSome = true := by
        rw [hknown]
        exact Bool.false_ne_true
      rw [if_neg hfree, if_neg hroom']
      have hsix : sizeofSymObj = 6 := rfl
      obtain ⟨hnext, hfour, hterm⟩ := @declared_links m.tab.buf m.tab.bp
        (if m.tab.fp = m.tab.top then symObjGlobal else 0) ((m.dataPos + 3) / 4 * 4)
        (E.name m.tok.s m.tok.qlf)
      have hlow (i : Nat) (hi : i ≤ m.tab.bp) :
          (declaredSdt m (E.name m.tok.s m.tok.qlf)).tab.buf i = m.tab.buf i :=
        declared_le _ _ _ _ hi
      have hhigh (i : Nat) (hi : m.tab.sp ≤ i) :
          (declaredSdt m (E.name m.tok.s m.tok.qlf)).tab.buf i = m.tab.buf i :=
        declared_ge _ _ _ _ (by
          rw [hlen]
          lia)
      have hst : Stacked (declaredSdt m (E.name m.tok.s m.tok.qlf)).tab (es ++ es₀) :=
        h.stacked.declare (by
          rw [hlen]
          exact hroom)
      by_cases hfp : m.tab.fp = m.tab.top
      · have hblocks := h.stacked.linked.fp_eq_iff.mp hfp
        have hend := globalEnd_of_blocks hblocks
        have hle := h.le
        rw [hend] at hle
        have hbp : (declaredSdt m (E.name m.tok.s m.tok.qlf)).tab.bp =
            m.tab.bp + (sizeofSymObj + m.tok.qlf + 1) :=
          congrArg (fun n => m.tab.bp + (sizeofSymObj + n + 1)) hlen
        rw [if_pos ⟨rfl, hfp, hknown, hroom⟩]
        refine ⟨hst, hterm, h.top, Nat.le_trans h.size (Nat.le_max_left _ _), fun i hi => ?_,
          fun i hi => ?_, ?_, fun hmade => (by cases hmade), fun nm hnm => ?_⟩
        · exact (hhigh i (by lia)).trans (h.high i hi)
        · exact (hlow i (Nat.le_trans hi hle)).trans (h.low i hi)
        · rw [hend, hbp]
          lia
        · rw [hend, hbp]
          by_cases hmade : globals E tr = []
          · have hsame := h.same hmade
            rw [hend] at hsame
            rw [hmade, List.getLast?_singleton] at hnm
            obtain rfl := Option.some.inj hnm
            rw [← hsame]
            exact ⟨by lia, hnext, hfour⟩
          · rw [List.getLast?_cons_of_ne_nil hmade] at hnm
            obtain ⟨hfive, hnext', hfour'⟩ := h.first nm hnm
            rw [hend] at hfive
            exact ⟨by lia, (hlow _ (by lia)).trans hnext', (hlow _ (by lia)).trans hfour'⟩
      · have hblocks : blocks (es ++ es₀) ≠ [] :=
          fun hb => hfp (h.stacked.linked.fp_eq_iff.mpr hb)
        rw [if_neg fun hc => hfp hc.2.1]
        exact h.carry hbase hst hterm rfl (Nat.le_max_left _ _) (globalEnd_of_ne hblocks _ _)
          (fun i hi => hlow i (Nat.le_trans hi h.globalEnd_le)) fun i hi => hhigh i (by lia)
    · have hroom' : m.tab.sp < m.tab.bp + (sizeofSymObj + m.tok.qlf + 1) + 2 := by lia
      have hfree : ¬ (symObjScopeLookup m.tab (E.name m.tok.s m.tok.qlf)).isSome = true := by
        rw [hknown]
        exact Bool.false_ne_true
      rw [if_neg hfree, if_pos hroom', if_neg fun hc => hroom hc.2.2.2]
      exact h
  · rw [if_neg fun hc => hknown hc.2.2.1, if_pos (Option.isSome_iff_ne_none.mpr hknown)]
    exact h

end Kept

/-! ## Wherever it stops -/

section Stops

variable {E : Env} {tab₀ : Symtab} {es₀ es : List Entry} {tr : Trace} {t : Text}
  {p p' : Parse}

/-- The parser's stack will take off just what is above `es₀`. -/
def Typed (m : Sdt) (es : List Entry) : Prop :=
  Effect.applyAll Sym.effect m.ll (es.map Entry.kind) = some []

/-- An action, whether it fails or not. -/
theorem kept_action {m : Sdt} {a : Action} {ll : List Sym}
    (h : Kept tab₀ es₀ (globals E tr) m es) (ht : Typed m es) (hbase : Base tab₀ es₀)
    (hll : m.ll = .a a :: ll) :
    ∃ es', Kept tab₀ es₀ (globals E ((a, { m with ll }) :: tr)) (op E a { m with ll }).2 es' ∧
      ((op E a { m with ll }).1 = .ok () → Typed (op E a { m with ll }).2 es') ∧
      (op E a { m with ll }).1 ≠ .error .unexpectedEof := by
  rw [Typed, hll] at ht
  obtain ⟨r, hks, hrest⟩ := Effect.applyAll_cons.mp ht
  obtain ⟨es₁, es₂, rfl, hk₁, hk₂⟩ := split_entries hks
  have hkept : Kept tab₀ es₀ (globals E tr) { m with ll } (es₁ ++ es₂) := h.congr rfl
  by_cases ha : a.scoping = false
  · have hfl : Frameless es₁ := frameless_of_kinds (hk₁ ▸ pops_frameless ha)
    have hst := hkept.stacked
    rw [List.append_assoc] at hst
    obtain ⟨hu, heof, es', hst', hfl', -, hk'⟩ :=
      op_shifts E ha { m with ll } es₁ (es₂ ++ es₀) hst hfl hk₁
    have hglobals : globals E ((a, { m with ll }) :: tr) = globals E tr := by
      rw [globals, if_neg]
      rintro ⟨rfl, -⟩
      cases ha
    rw [hglobals]
    refine ⟨es' ++ es₂, hkept.untouched hbase hu hfl hst' hfl', fun hok => ?_, heof⟩
    rw [Typed, hu.ll, List.map_append, hk' () hok, hk₂]
    exact hrest
  · cases a with
    | opVarDecl =>
        refine ⟨es₁ ++ es₂, hkept.varDecl hbase, fun _ => ?_, ?_⟩
        · have hsame : (opVarDecl E { m with ll }).2.ll = ll := by
            rcases opVarDecl_cases (E := E) hkept.stacked with heq | ⟨-, heq, -⟩
            · rw [heq]
            · rw [heq]
              rfl
          change Effect.applyAll Sym.effect (opVarDecl E { m with ll }).2.ll _ = _
          rw [hsame, hks]
          exact hrest
        · change (opVarDecl E { m with ll }).1 ≠ _
          rw [run_opVarDecl]
          split_ifs <;> exact fun h => by cases h
    | opBlkOpen =>
        obtain ⟨es', hkept', hentries⟩ := hkept.blkOpen hbase
        have hglobals : globals E ((.opBlkOpen, { m with ll }) :: tr) = globals E tr := by
          rw [globals, if_neg]
          rintro ⟨hcase, -⟩
          cases hcase
        rw [hglobals]
        refine ⟨es', hkept', fun hok => ?_, noEof_blkOpen _⟩
        have hu := hkept.stacked.blkOpen.1
        change Effect.applyAll Sym.effect (opBlkOpen { m with ll }).2.ll _ = _
        rw [hentries hok, hu.ll, List.map_cons, List.map_cons, hks]
        exact hrest
    | opBlkClose =>
        have hglobals : globals E ((.opBlkClose, { m with ll }) :: tr) = globals E tr := by
          rw [globals, if_neg]
          rintro ⟨hcase, -⟩
          cases hcase
        rw [hglobals]
        match es₁, hk₁ with
        | [.frame f b, .addr n], _ =>
            have hrun := hkept.stacked.blkClose.1
            refine ⟨es₂, hkept.blkClose hbase, fun _ => ?_, ?_⟩
            · change Effect.applyAll Sym.effect (opBlkClose { m with ll }).2.ll _ = _
              rw [hrun, hk₂]
              exact hrest
            · change (opBlkClose { m with ll }).1 ≠ _
              rw [hrun]
              exact fun h => by cases h
    | _ => exact (ha rfl).elim

/-- A round without an error. -/
theorem kept_round (h : Kept tab₀ es₀ (globals E tr) p.m es) (ht : Typed p.m es)
    (hbase : Base tab₀ es₀) (hround : Round E t p p') :
    ∃ es', Kept tab₀ es₀ (globals E (record p tr)) p'.m es' ∧ Typed p'.m es' := by
  cases hround with
  | idle hll =>
      rw [record, hll]
      exact ⟨es, h, ht⟩
  | terminal hll _ _ =>
      rw [record, hll]
      rw [Typed, hll] at ht
      obtain ⟨r, hks, hrest⟩ := Effect.applyAll_cons.mp ht
      refine ⟨es, h.congr rfl, ?_⟩
      rw [Typed, hks]
      exact hrest
  | @nonterminal a ll w hll hpush =>
      obtain ⟨r, hr, rfl⟩ := microjsLlPush_mem hpush
      have heffect : Effect.applyAll Sym.effect (ruleVec r) (Sym.effect (.n a)).pops =
          some (Sym.effect (.n a)).pushes := productions_effect a r hr
      rw [record, hll]
      rw [Typed, hll] at ht
      exact ⟨es, h.congr rfl, Effect.applyAll_replace heffect ht⟩
  | @action a ll hll hok =>
      obtain ⟨es', hkept, htyped, -⟩ := kept_action h ht hbase hll
      rw [record, hll]
      exact ⟨es', hkept, htyped hok⟩

/-- A round with an error. After an unexpected end of the text a new line may follow. -/
theorem kept_broken {e : Err} {m : Sdt} (h : Kept tab₀ es₀ (globals E tr) p.m es)
    (ht : Typed p.m es) (hbase : Base tab₀ es₀) (hbroken : Broken E p e m) :
    ∃ es', Kept tab₀ es₀ (globals E (record p tr)) m es' ∧
      (e = .unexpectedEof → Typed m es') := by
  cases hbroken with
  | terminal tok hll =>
      rw [record, hll]
      rw [Typed, hll] at ht
      obtain ⟨r, hks, hrest⟩ := Effect.applyAll_cons.mp ht
      refine ⟨es, h.congr rfl, fun _ => ?_⟩
      rw [Typed, hks]
      exact hrest
  | @action a ll hll herr =>
      obtain ⟨es', hkept, -, heof⟩ := kept_action h ht hbase hll
      rw [record, hll]
      refine ⟨es', hkept, fun he => ?_⟩
      subst he
      rcases herr with herr | ⟨-, herr⟩
      · exact (heof herr).elim
      · cases herr
  | overflow hll hpush he =>
      rw [record, hll]
      exact ⟨es, h.congr rfl, fun heof => by rw [he] at heof; cases heof⟩
  | nonterminal hll =>
      rw [record, hll]
      exact ⟨es, h, fun _ => ht⟩

end Stops

/-! ## Whole compilations -/

/-- A compilation that starts from the table `tab₀`. -/
def Begins (E : Env) (tab₀ : Symtab) (m₀ : Sdt) : Prop :=
  ∃ strs code size m, microjsSdtInit tab₀ strs = some m ∧ m₀ = microjsSdtBegin E code size m

theorem runText_some {E : Env} {tab : Symtab} {code : Nat → Nat} {size n : Nat} {t : Text}
    {s : Trace × Parse} (ht : Source E t) (h : runText E tab code size t n = some s) :
    ∃ m₀, Begins E tab m₀ ∧ Compiling E m₀ s.1 (lexerOpen t) s.2 := by
  obtain ⟨m, hinit, hrun⟩ := Option.bind_eq_some_iff.mp h
  cases hadv : advance (lexerOpen t)
      ⟨microjsSdtBegin E code size m, Token.plain .eof, 0⟩ with
  | mk o p =>
      rw [hadv] at hrun
      cases o with
      | error e => cases hrun
      | ok u =>
          refine ⟨microjsSdtBegin E code size m, ⟨_, code, size, m, hinit, rfl⟩, ?_⟩
          have hline : Compiling E (microjsSdtBegin E code size m) [] (lexerOpen t) p :=
            .line (.start ht) ht hadv
          exact hline.rounds hrun

/-- Where a compilation can stop: in a state between two rounds, or in a round that fails. -/
inductive Stopped (E : Env) (m₀ : Sdt) : Trace → Sdt → Prop
  | between {tr : Trace} {t : Text} {p : Parse} : Compiling E m₀ tr t p → Stopped E m₀ tr p.m
  | failing {tr : Trace} {t : Text} {p p' : Parse} {e : Err} : Compiling E m₀ tr t p →
      compileStep E t p = (.error e, p') → Stopped E m₀ (record p tr) p'.m

theorem microjsSdtInit_some {tab : Symtab} {strs : Strbuf} {m : Sdt}
    (h : microjsSdtInit tab strs = some m) : m.tab = tab ∧ m.ll = [] ∧
      m.tok = Token.plain .eof ∧ symtabDataSize tab ≤ tab.dataSz := by
  simp only [microjsSdtInit] at h
  split_ifs at h with hfits
  obtain rfl := Option.some.inj h
  exact ⟨rfl, rfl, rfl, hfits⟩

/-- What a beginning leaves. -/
theorem begins_stacked {E : Env} {tab₀ : Symtab} {es₀ : List Entry} {m₀ : Sdt}
    (hst : Stacked tab₀ es₀) (h : Begins E tab₀ m₀) :
    ∃ es₁, (∀ e ∈ es₁, e.kind = .ref) ∧ Stacked m₀.tab (es₁ ++ es₀) ∧
      m₀.ll = microjsLlStart ∧ m₀.tok = Token.plain .eof ∧ m₀.tab.top = tab₀.top ∧
      m₀.tab.bp = tab₀.bp ∧ m₀.tab.dataSz = tab₀.dataSz ∧
      ∀ i, i ≤ tab₀.bp + 1 ∨ tab₀.sp ≤ i → m₀.tab.buf i = tab₀.buf i := by
  obtain ⟨strs, code, size, m, hinit, rfl⟩ := h
  obtain ⟨rfl, -, htok, -⟩ := microjsSdtInit_some hinit
  have hsp := hst.sp_add
  obtain ⟨hu, es₁, hrefs, hst₁⟩ := beginCode_stacked (E := E)
    (m := microjsSdtReset { m with pc := 0, cdsz := size % 65536, code }) hst
  refine ⟨es₁, hrefs, hst₁, hu.ll, hu.tok.trans htok, hu.top, hu.bp, hu.size, fun i hi => ?_⟩
  exact hu.buf i (hi.imp id fun hi => by
    have htop : m.tab.top ≤ i + (stackBytes es₀).length := by lia
    exact htop)

section Compilations

variable {E : Env} {tab₀ : Symtab} {es₀ : List Entry} {m₀ : Sdt}

theorem kept_start (hst : Stacked tab₀ es₀) (hfp : tab₀.fp = tab₀.top)
    (hterm : tab₀.buf (tab₀.bp + 1) = 0) (h : Begins E tab₀ m₀) :
    ∃ es₁, Base tab₀ (es₁ ++ es₀) ∧ Kept tab₀ (es₁ ++ es₀) [] m₀ [] ∧ Typed m₀ [] := by
  obtain ⟨es₁, hrefs, hst₁, hll, -, htop, hbp, hsize, hbuf⟩ := begins_stacked hst h
  have hsp := hst.sp_add
  have hblocks : blocks (es₁ ++ es₀) = [] :=
    (blocks_append (refs_frameless hrefs) _).trans (hst.linked.fp_eq_iff.mp hfp)
  have hend : globalEnd (es₁ ++ es₀) m₀.tab.bp = tab₀.bp := by
    rw [globalEnd_of_blocks hblocks, hbp]
  refine ⟨es₁, ?_, ⟨hst₁, ?_, htop, Nat.le_of_eq hsize.symm, fun i hi => hbuf i (Or.inr hi),
    fun i hi => hbuf i (Or.inl (Nat.le_succ_of_le hi)), Nat.le_of_eq hend.symm, fun _ => hend,
    fun nm hnm => (by cases hnm)⟩, ?_⟩
  · rw [Base, stackBytes_append, List.length_append]
    lia
  · rw [hbp, hbuf _ (Or.inl (Nat.le_refl _)), hterm]
  · rw [Typed, hll]
    rfl

theorem typed_nil {m : Sdt} {es : List Entry} (h : Typed m es) (hll : m.ll = []) : es = [] := by
  rw [Typed, hll] at h
  exact List.map_eq_nil_iff.mp (Option.some.inj h)

/-- In every state between two rounds. -/
theorem kept_compiling {tr : Trace} {t : Text} {p : Parse} (hbase : Base tab₀ es₀)
    (h₀ : Kept tab₀ es₀ [] m₀ []) (ht₀ : Typed m₀ []) (h : Compiling E m₀ tr t p) :
    ∃ es, Kept tab₀ es₀ (globals E tr) p.m es ∧ Typed p.m es := by
  induction h with
  | start _ => exact ⟨[], h₀, ht₀⟩
  | line _ _ hadv ih =>
      obtain ⟨tok, off, -, rfl⟩ := advance_ok hadv
      exact ih
  | reset _ hll ih =>
      obtain ⟨es, hkept, htyped⟩ := ih
      obtain rfl := typed_nil htyped hll
      exact ⟨[], hkept.congr rfl, rfl⟩
  | round _ hstep ih =>
      obtain ⟨es, hkept, htyped⟩ := ih
      exact kept_round hkept htyped hbase (round_of_ok hstep)

/-- Wherever a compilation stops. -/
theorem kept_stopped {tr : Trace} {m : Sdt} (hbase : Base tab₀ es₀)
    (h₀ : Kept tab₀ es₀ [] m₀ []) (ht₀ : Typed m₀ []) (h : Stopped E m₀ tr m) :
    ∃ es, Kept tab₀ es₀ (globals E tr) m es := by
  cases h with
  | between hcomp =>
      obtain ⟨es, hkept, -⟩ := kept_compiling hbase h₀ ht₀ hcomp
      exact ⟨es, hkept⟩
  | failing hcomp hstep =>
      obtain ⟨es, hkept, htyped⟩ := kept_compiling hbase h₀ ht₀ hcomp
      obtain ⟨es', hkept', -⟩ := kept_broken hkept htyped hbase (broken_of_error hstep)
      exact ⟨es', hkept'⟩

end Compilations

/-! ## The rollback -/

section Undo

variable {tab₀ : Symtab} {es₀ es : List Entry} {made : List (List Nat)} {m : Sdt}

theorem blocks_le {top : Nat} (es : List Entry) (h : (stackBytes es).length ≤ top) :
    (blocks es).length ≤ top := by
  induction es generalizing top with
  | nil => exact Nat.zero_le _
  | cons e es ih =>
      rw [stackBytes_length_cons] at h
      by_cases hkind : e.kind = .frame
      · cases e with
        | frame f b =>
            have hlen : (blocks (.frame f b :: es)).length = (blocks es).length + 1 := rfl
            have hfour : (Entry.frame f b).kind.size = 4 := rfl
            have hrec : (blocks es).length ≤ top - 4 := ih (by lia)
            lia
        | _ => cases hkind
      · rw [blocks_cons hkind]
        exact ih (by lia)

/-- What the rollback makes of the frames. -/
theorem Kept.popped (h : Kept tab₀ es₀ made m es) :
    Popped m.tab (popFrames (m.tab.top + 1) m.tab) (globalEnd (es ++ es₀) m.tab.bp) := by
  have hst : Stacked { m.tab with sp := m.tab.sp } (es ++ es₀) := h.stacked
  have hsp := h.stacked.sp_add
  exact popFrames_popped hst h.term (Nat.lt_succ_of_le (blocks_le _ (by lia)))

/-- The byte that decides: the link of the terminator behind the objects of `tab₀`. -/
theorem Kept.undo_term (h : Kept tab₀ es₀ made m es) :
    (m.undo tab₀).tab.buf (tab₀.bp + 1) =
      made.getLast?.elim 0 fun nm => (7 + nm.length) % 256 := by
  have hpop := h.popped
  change (popFrames (m.tab.top + 1) m.tab).buf (tab₀.bp + 1) = _
  cases hlast : made.getLast? with
  | none =>
      have hsame := h.same (List.getLast?_eq_none_iff.mp hlast)
      have hterm := hpop.term
      rw [hsame] at hterm
      exact hterm
  | some nm =>
      obtain ⟨hfive, hnext, -⟩ := h.first nm hlast
      rw [hpop.kept _ (Or.inl (by lia))]
      exact hnext

/-- If that byte is right, the rollback gives the table back. -/
theorem Kept.undo_alike (h : Kept tab₀ es₀ made m es) (hbase : Base tab₀ es₀)
    (hfp : tab₀.fp = tab₀.top) (hterm : tab₀.buf (tab₀.bp + 1) = 0)
    (hmade : made.getLast?.elim 0 (fun nm => (7 + nm.length) % 256) = 0) :
    tab₀.Alike (m.undo tab₀).tab := by
  have hpop := h.popped
  have hle := h.le
  have hsp : tab₀.top ≤ tab₀.sp + (stackBytes es₀).length := hbase
  have hsp' := h.stacked.sp_add
  have hroom := h.stacked.room
  have htop := h.top
  rw [stackBytes_append, List.length_append] at hsp'
  refine ⟨rfl, rfl, hpop.fp.trans (h.top.trans hfp.symm), hpop.top.trans h.top, fun i hi => ?_,
    fun i hi => ?_⟩
  · rcases Nat.lt_or_eq_of_le hi with hi | rfl
    · exact (hpop.kept i (Or.inl (by lia))).trans (h.low i (by lia))
    · rw [h.undo_term, hmade, hterm]
  · exact (hpop.kept i (Or.inr (by lia))).trans (h.high i hi)

end Undo

end YardIce.MicroJs
