import YardIce.MicroJs.Scoping

/-!
# Two tables that are alike

A compilation cannot tell two tables apart that differ at most in what they do not use: from
both it goes through the same states, but for the tables, and stops for the same reason, as
long as the names that it declares are short.
-/

namespace YardIce.MicroJs

open YardIce.Lib

/-! ## Agreement from two states -/

/-- The attempt has the same outcome from both states and ends in states that are alike. -/
def AgreesAt {α : Type} (x : Attempt Sdt Err α) (m m' : Sdt) : Prop :=
  (x m).1 = (x m').1 ∧ (x m).2.Alike (x m').2

section Agreement

variable {α β : Type} {x : Attempt Sdt Err α} {f : α → Attempt Sdt Err β} {m m' : Sdt}

theorem agreesAt_bind (hx : AgreesAt x m m')
    (hf : ∀ a, (x m).1 = .ok a → AgreesAt (f a) (x m).2 (x m').2) : AgreesAt (x >>= f) m m' := by
  obtain ⟨hout, hend⟩ := hx
  rw [AgreesAt, Attempt.run_bind, Attempt.run_bind]
  cases hm : x m with
  | mk o s =>
      cases hm' : x m' with
      | mk o' s' =>
          rw [hm, hm'] at hout hend hf
          obtain rfl : o = o' := hout
          cases o with
          | ok a => exact hf a rfl
          | error e => exact ⟨rfl, hend⟩

theorem agreesAt_of_agrees (h : Attempt.Agrees x Sdt.Alike) (halike : m.Alike m') :
    AgreesAt x m m' := h m m' halike

theorem agreesAt_read {v : Sdt → α} (h : v m = v m') (halike : m.Alike m') :
    AgreesAt (Attempt.read v) m m' := ⟨congrArg Except.ok h, halike⟩

end Agreement

section Tables

variable {E : Env} {m m' : Sdt} {es : List Entry} {g : Ghost}

theorem Held.alike (h : Held m es g) (halike : m.Alike m') : Held m' es g := by
  obtain ⟨tab', htab, rfl⟩ := halike
  refine ⟨h.stacked.congr htab.sp htab.fp htab.bp htab.top htab.high, ?_, ?_, h.data⟩
  · change Scopes tab'.buf tab'.top _ _ _ tab'.bp
    rw [htab.top, htab.bp]
    exact h.scopes.congr fun i hi => htab.low i (Nat.le_succ_of_le hi)
  · change tab'.buf (tab'.bp + 1) = 0
    rw [htab.bp, htab.low _ (Nat.le_refl _), h.term]

theorem alike_ll (halike : m.Alike m') (ll : List Sym) :
    Sdt.Alike { m with ll } { m' with ll } := by
  obtain ⟨tab', htab, rfl⟩ := halike
  exact ⟨tab', htab, rfl⟩

/-- An object that a lookup finds lies below the end of the objects. -/
theorem Chain.pos_lt {buf : Nat → Nat} {ds : List Decl} {p : Nat} (h : Chain buf ds p) :
    ∀ d ∈ ds, d.pos + 7 ≤ p := by
  induction h with
  | nil => exact fun d hd => (List.not_mem_nil hd).elim
  | @cons ds d _ _ _ _ ih =>
      intro e he
      have hlen : d.len = 7 + d.nm.length := by
        unfold Decl.len sizeofSymObj
        omega
      rcases List.mem_cons.mp he with rfl | he
      · omega
      · have hle := ih e he
        omega

/-- A variable is the same in both tables. -/
theorem varLookup_agrees {tmp : Tmp} (h : Held m es g) (halike : m.Alike m')
    (hnm : 0 ∉ E.name tmp.s tmp.len) : AgreesAt (varLookup E tmp) m m' ∧
      ∀ obj, (varLookup E tmp m).1 = .ok obj → obj + 7 ≤ m.tab.bp := by
  have hlookup := h.symObjLookup hnm
  have hlookup' := (h.alike halike).symObjLookup hnm
  constructor
  · exact agreesAt_bind (agreesAt_read (hlookup.trans hlookup'.symm) halike) fun obj _ =>
      agreesAt_of_agrees (Attempt.agrees_get obj _) halike
  · intro obj hobj
    simp only [varLookup, Attempt.run_bind, Attempt.run_read, Attempt.andThen_ok, hlookup] at hobj
    cases hfind : g.scopes.flatten.find? fun d => d.nm = E.name tmp.s tmp.len with
    | none =>
        rw [hfind] at hobj
        cases hobj
    | some d =>
        rw [hfind] at hobj
        have hpos : d.pos = obj := Except.ok.inj hobj
        exact hpos ▸ h.scopes.chain.pos_lt d (List.mem_of_find?_eq_some hfind)

theorem objAddr_alike {tab tab' : Symtab} (h : tab.Alike tab') {obj : Nat}
    (hobj : obj + 7 ≤ tab.bp) : tab.objAddr obj = tab'.objAddr obj := by
  have hload : load tab'.buf (obj + 4) 2 = load tab.buf (obj + 4) 2 :=
    load_congr fun i _ hi => h.low i (by omega)
  rw [Symtab.objAddr, Symtab.objAddr, hload]

theorem varCode_agrees {opc obj : Nat} {count : Op} (hcount : Silent count)
    (halike : m.Alike m') (hobj : obj + 7 ≤ m.tab.bp) :
    AgreesAt (varCode E opc obj count) m m' := by
  have hspc := (Silent.saveSpc E).agrees m m' halike
  have hkeep := (Silent.saveSpc E).keeps m
  refine agreesAt_bind hspc fun _ _ => ?_
  have haddr : (saveSpc E m).2.tab.objAddr obj = (saveSpc E m').2.tab.objAddr obj := by
    obtain ⟨tab', htab, heq⟩ := hspc.2
    rw [heq]
    exact objAddr_alike htab (by
      rw [hkeep.bp]
      exact hobj)
  refine agreesAt_bind (agreesAt_read haddr hspc.2) fun addr _ => ?_
  exact agreesAt_of_agrees ((Silent.emit (varBytes opc addr)).bind fun _ => hcount).agrees hspc.2

/-- A load or a store of a variable that the top descriptor names. -/
theorem varOp_agrees {opc : Nat} {d : Tmp} {count : Op} (hcount : Silent count)
    (h : Held m (.tmp d :: es) g) (hnm : 0 ∉ E.name d.s d.len) (halike : m.Alike m') :
    AgreesAt (symTmpPop >>= fun tmp => varLookup E tmp >>= fun obj => varCode E opc obj count)
      m m' := by
  have hkind : (Entry.tmp d).kind ≠ .frame := fun hk => by cases hk
  obtain ⟨hpop, hst⟩ := h.stacked.pop hkind
  have hlen : (Entry.tmp d).bytes.length = 8 := rfl
  obtain ⟨hs, hd⟩ : (Entry.tmp d).Fits := h.stacked.fits _ List.mem_cons_self
  have hbytes : Tmp.ofBytes (Entry.tmp d).bytes = d := Tmp.ofBytes_bytes hs hd
  rw [hlen] at hpop hst
  have hrun : symTmpPop m = (.ok d, { m with tab := { m.tab with sp := m.tab.sp + 8 } }) := by
    simp only [symTmpPop, Attempt.run_map, onTab, Attempt.on, hpop, Attempt.andThen_ok,
      Attempt.run_pure, hbytes]
  have hmoves : Moves True symTmpPop [.tmp] [] := moves_tmpPop []
  have hagrees := hmoves.agrees m m' halike
  refine agreesAt_bind hagrees fun tmp htmp => ?_
  rw [hrun] at htmp
  obtain rfl : d = tmp := Except.ok.inj htmp
  have hheld : Held (symTmpPop m).2 es g := by
    rw [hrun]
    exact ⟨hst, h.scopes, h.term, h.data⟩
  obtain ⟨hlookup, hbound⟩ := varLookup_agrees hheld hagrees.2 hnm
  have hsame : (varLookup E d (symTmpPop m).2).2 = (symTmpPop m).2 := by
    simp only [varLookup, Attempt.run_bind, Attempt.run_read, Attempt.andThen_ok, Attempt.get]
    cases symObjLookup (symTmpPop m).2.tab (E.name d.s d.len) <;> rfl
  refine agreesAt_bind hlookup fun obj hobj => varCode_agrees hcount hlookup.2 ?_
  rw [hsame]
  exact hbound obj hobj

/-! ## The actions -/

theorem varEval_agrees {d : Tmp} (h : Held m (.tmp d :: es) g) (hnm : 0 ∉ E.name d.s d.len)
    (halike : m.Alike m') : AgreesAt (opVarEval E) m m' :=
  varOp_agrees Silent.tgtStackPush h hnm halike

theorem varAssign_agrees {d : Tmp} (h : Held m (.tmp d :: es) g) (hnm : 0 ∉ E.name d.s d.len)
    (halike : m.Alike m') : AgreesAt (opVarAssign E) m m' :=
  varOp_agrees Silent.tgtStackPop h hnm halike

/-- A declaration is the same in both tables. -/
theorem varDecl_agrees (h : Held m es g) (hnm : 0 ∉ E.name m.tok.s m.tok.qlf)
    (halike : m.Alike m') : AgreesAt (opVarDecl E) m m' := by
  have h' := h.alike halike
  obtain ⟨ds, rest, hg, -⟩ := h.scopes.scope
  have hlookup := h.symObjScopeLookup hnm hg
  have hlookup' := h'.symObjScopeLookup hnm hg
  obtain ⟨tab', htab, rfl⟩ := halike
  rw [AgreesAt, run_opVarDecl, run_opVarDecl]
  dsimp only at hlookup' ⊢
  rw [hlookup', ← hlookup, htab.sp, htab.bp]
  generalize E.name m.tok.s m.tok.qlf = nm
  split_ifs with hknown hroom
  · exact ⟨rfl, tab', htab, rfl⟩
  · exact ⟨rfl, tab', htab, rfl⟩
  · refine ⟨rfl, (declaredSdt { m with tab := tab' } nm).tab,
      ⟨htab.sp, ?_, htab.fp, htab.top, fun i hi => ?_, fun i hi => ?_⟩, rfl⟩
    · simp only [declaredSdt, htab.bp]
    · have hi' : i < m.tab.bp + nm.length + 9 := by
        have hsix : sizeofSymObj = 6 := rfl
        have hle : i ≤ m.tab.bp + (sizeofSymObj + nm.length + 1) + 1 := hi
        omega
      simp only [declaredSdt, htab.bp, htab.fp, htab.top]
      exact declared_congr _ _ _ _ (fun j hj => htab.low j (Nat.le_succ_of_le hj)) hi'
    · have hsix : sizeofSymObj = 6 := rfl
      have hi' : m.tab.sp ≤ i := hi
      have hge : m.tab.bp + nm.length + 9 ≤ i := by omega
      simp only [declaredSdt, htab.bp, htab.fp, htab.top]
      rw [declared_ge _ _ _ _ hge, declared_ge _ _ _ _ hge]
      exact htab.high i hi'

/-- The closing of a block is the same in both tables. -/
theorem blkClose_agrees {f b n : Nat} (h : Held m (.frame f b :: .addr n :: es) g)
    (halike : m.Alike m') : AgreesAt opBlkClose m m' := by
  have h' := h.alike halike
  obtain ⟨hrun, -, hb⟩ := h.stacked.blkClose
  have hrun' := h'.stacked.blkClose.1
  have hroom := h.stacked.room
  obtain ⟨tab', htab, rfl⟩ := halike
  rw [AgreesAt, hrun, hrun']
  have hlow (i : Nat) (hi : i ≤ b + 1) :
      store tab'.buf (b + 1) [0] i = store m.tab.buf (b + 1) [0] i :=
    store_congr fun hout => htab.low i (by omega)
  have hhigh (i : Nat) (hi : m.tab.sp + 6 ≤ i) :
      store tab'.buf (b + 1) [0] i = store m.tab.buf (b + 1) [0] i :=
    store_congr fun hout => htab.high i (by omega)
  refine ⟨rfl, { tab' with sp := tab'.sp + 6, fp := f, bp := b, buf := store tab'.buf (b + 1) [0] },
    ⟨?_, rfl, rfl, htab.top, hlow, hhigh⟩, rfl⟩
  simp only [htab.sp]

/-- Every action that the parser runs. -/
theorem op_agrees {es₀ : List Entry} {a : Action} {ll : List Sym} (h : Sound E es₀ g m es)
    (hll : m.ll = .a a :: ll) (halike : m.Alike m') :
    AgreesAt (op E a) { m with ll } { m' with ll } := by
  have hafter := h.after
  have htyped := h.typed
  have hheld : Held { m with ll } (es ++ es₀) g := Sound.held_congr h.held rfl rfl
  have halike' := alike_ll halike ll
  rw [hll] at hafter htyped
  obtain ⟨r, hks, -⟩ := Effect.applyAll_cons.mp htyped
  obtain ⟨es₁, es₂, rfl, hk₁, -⟩ := split_entries hks
  by_cases ha : a.naming = false
  · exact (op_moves E ha).agrees _ _ halike'
  · cases a with
    | opVarDecl =>
        have hnm := (h.tok (beq_iff_eq.mp (typ_of_afterId rfl hafter))).1
        exact varDecl_agrees hheld hnm halike'
    | opBlkOpen => exact agrees_blkOpen _ _ halike'
    | opBlkClose =>
        match es₁, hk₁ with
        | [.frame f b, .addr n], _ => exact blkClose_agrees hheld halike'
    | opVarEval =>
        match es₁, hk₁ with
        | [.tmp d], _ => exact varEval_agrees hheld (h.named d List.mem_cons_self) halike'
    | opVarAssign =>
        match es₁, hk₁ with
        | [.tmp d], _ => exact varAssign_agrees hheld (h.named d List.mem_cons_self) halike'
    | _ => exact (ha rfl).elim

end Tables

/-! ## The compiler -/

/-- A round has the same outcome from both tables. -/
theorem compileStep_agrees {E : Env} {t : Text} {es₀ es : List Entry} {g : Ghost} {p : Parse}
    {m' : Sdt} (h : Sound E es₀ g p.m es) (halike : p.m.Alike m') :
    ∃ m'', compileStep E t { p with m := m' } =
        ((compileStep E t p).1, { (compileStep E t p).2 with m := m'' }) ∧
      (compileStep E t p).2.m.Alike m'' := by
  have hsame : m'.ll = p.m.ll := by
    obtain ⟨tab', -, rfl⟩ := halike
    rfl
  cases hll : p.m.ll with
  | nil =>
      have hnil : ∀ q : Parse, q.m.ll = [] → compileStep E t q = (.ok (), q) := fun q hq => by
        simp only [compileStep, Attempt.run_bind, Attempt.run_read, Attempt.andThen_ok, hq,
          Attempt.run_pure]
      rw [hnil p hll, hnil { p with m := m' } (hsame.trans hll)]
      exact ⟨m', rfl, halike⟩
  | cons sym ll =>
      have hll' : ({ p with m := m' } : Parse).m.ll = sym :: ll := hsame.trans hll
      have halike' := alike_ll halike ll
      cases sym with
      | t a =>
          rw [compileStep_terminal hll, compileStep_terminal hll', matchTerminal_run,
            matchTerminal_run]
          have htok : Sdt.Alike { p.m with ll, tok := p.ahead } { m' with ll, tok := p.ahead } := by
            obtain ⟨tab', htab, rfl⟩ := halike
            exact ⟨tab', htab, rfl⟩
          dsimp only
          split_ifs with ha
          · cases lexerScan t 65536 p.off with
            | ok r => exact ⟨_, rfl, htok⟩
            | error e => exact ⟨_, rfl, htok⟩
          · exact ⟨_, rfl, halike'⟩
      | a a =>
          obtain ⟨hout, hend⟩ := op_agrees h hll halike
          have hcall : AgreesAt (callAction E a) { p.m with ll } { m' with ll } := by
            refine agreesAt_bind ⟨hout, hend⟩ fun _ _ => agreesAt_of_agrees ?_ hend
            exact ((Silent.read fun _ _ => rfl).bind fun _ => Silent.guard _ (by decide)).agrees
          rw [compileStep_action hll, compileStep_action hll']
          exact ⟨_, by rw [hcall.1], hcall.2⟩
      | n a =>
          rw [compileStep_nonterminal hll, compileStep_nonterminal hll', expand_run, expand_run]
          dsimp only
          cases microjsLlPush a p.ahead.typ with
          | none => exact ⟨m', rfl, halike⟩
          | some w => exact ⟨_, rfl, alike_ll halike (w ++ ll)⟩

/-- Every compilation has a twin from a table that is alike. -/
theorem compiling_agrees {E : Env} {es₀ : List Entry} {g₀ : Ghost} {m₀ m₀' : Sdt} {tr : Trace}
    {t : Text} {p : Parse} (h₀ : Sound E es₀ g₀ m₀ []) (halike₀ : m₀.Alike m₀')
    (h : Compiling E m₀ tr t p) (hshort : ShortNames tr) :
    ∃ tr' m', Compiling E m₀' tr' t { p with m := m' } ∧ p.m.Alike m' := by
  induction h with
  | start ht => exact ⟨[], m₀', .start ht, halike₀⟩
  | line hcomp ht hadv ih =>
      obtain ⟨tr', m', hcomp', halike⟩ := ih hshort
      obtain ⟨tok, off, hscan, rfl⟩ := advance_ok hadv
      refine ⟨tr', m', .line hcomp' ht ?_, halike⟩
      simp only [advance, hscan]
  | @reset tr t p hcomp hll ih =>
      obtain ⟨tr', m', hcomp', halike⟩ := ih hshort
      have hll' : m'.ll = [] := by
        obtain ⟨tab', -, rfl⟩ := halike
        exact hll
      exact ⟨tr', microjsSdtReset m', .reset hcomp' hll', alike_ll halike microjsLlStart⟩
  | @round tr t p p' hcomp hstep ih =>
      obtain ⟨tr', m', hcomp', halike⟩ := ih hshort.of_record
      obtain ⟨⟨es, hsound⟩, -⟩ := sound_compiling h₀ hcomp hshort.of_record
      obtain ⟨m'', hstep', halike'⟩ := compileStep_agrees (t := t) hsound halike
      rw [hstep] at hstep' halike'
      exact ⟨_, m'', .round hcomp' hstep', halike'⟩

end YardIce.MicroJs
