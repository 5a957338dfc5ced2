import YardIce.Lib.Effects
import YardIce.MicroJs.Layout

/-!
# The discipline of the symbol table's stack

Every symbol of the grammar takes descriptors of certain kinds off the symbol table's stack
and leaves others there. The rules of a nonterminal have its effect, and each action has
the effect that is noted for it, so that an action always finds what it pops.

## Implementation notes

`Moves` speaks about the part of the stack that an action uses; the rest below it is
arbitrary and stays byte for byte. The opening and the closing of blocks and declarations,
which change more than the stack, are left to another module.
-/

namespace YardIce.MicroJs

open YardIce.Lib

/-! ## Effects -/

/-- What an action takes off the stack of the symbol table and what it leaves there. -/
def Action.effect : Action → Effect Kind
  | .opPushTmp => ⟨[], [.tmp]⟩
  | .opPopTmp | .opVarAssign | .opVarEval => ⟨[.tmp], []⟩
  | .opArrayXlat | .opObjectGet => ⟨[.tmp], [.cld]⟩
  | .opAttrAssign | .opArrayAssign | .opAttrEval | .opArrayEval => ⟨[.tmp, .cld], []⟩
  | .opMethodLookup => ⟨[.tmp, .cld], [.call]⟩
  | .opFunctionLookup => ⟨[.tmp], [.call]⟩
  | .opArg | .opCall => ⟨[.call], [.call]⟩
  | .opRetDiscard | .opCallRet => ⟨[.call], []⟩
  | .opBlkOpen => ⟨[], [.frame, .addr]⟩
  | .opBlkClose => ⟨[.frame, .addr], []⟩
  | .opForInit => ⟨[], [.fld]⟩
  | .opForCond | .opForAfter => ⟨[.fld], [.fld]⟩
  | .opForEnd => ⟨[.fld], []⟩
  | .opWhileBegin => ⟨[], [.wld]⟩
  | .opWhileCond => ⟨[.wld], [.wld]⟩
  | .opWhileEnd => ⟨[.wld], []⟩
  | .opIfCond | .opTryBegin => ⟨[], [.ref]⟩
  | .opIfElse | .opCatch => ⟨[.ref], [.ref]⟩
  | .opIfEnd | .opTryEnd | .opCatchEnd => ⟨[.ref], []⟩
  | _ => ⟨[], []⟩

/-- What the rules of a nonterminal take off and leave. -/
def NonTerminal.effect : NonTerminal → Effect Kind
  | .varAssignOpt | .assignOrCall1 | .idEval1 => ⟨[.tmp], []⟩
  | .functionCall => ⟨[.tmp], [.call]⟩
  | .attrAssign | .attrEval => ⟨[.cld], []⟩
  | .attrAssign2 | .attrEval1 => ⟨[.tmp, .cld], []⟩
  | .methodCall => ⟨[.tmp, .cld], [.call]⟩
  | .argListOpt | .argList | .argList1 => ⟨[.call], [.call]⟩
  | .elseOpt => ⟨[.ref], [.ref]⟩
  | .catchOpt => ⟨[.ref], []⟩
  | _ => ⟨[], []⟩

/-- The effect of a symbol. -/
def Sym.effect : Sym → Effect Kind
  | .t _ => ⟨[], []⟩
  | .n sym => sym.effect
  | .a act => act.effect

/-- Each rule has the effect of its nonterminal. -/
theorem productions_effect (a : NonTerminal) :
    ∀ r ∈ productions a, Effect.applyAll Sym.effect (ruleVec r) a.effect.pops =
      some a.effect.pushes := by
  cases a <;> decide

/-! ## Attempts that leave the table alone -/

/-- Two translators differ at most in what their tables do not use. -/
def Sdt.Alike (m m' : Sdt) : Prop := ∃ tab', m.tab.Alike tab' ∧ m' = { m with tab := tab' }

/-- The table, the token, the parser's stack and the position in the data memory stay. -/
structure Unmoved (m m' : Sdt) : Prop where
  tok : m'.tok = m.tok
  ll : m'.ll = m.ll
  pos : m'.dataPos = m.dataPos
  buf : m'.tab.buf = m.tab.buf
  sp : m'.tab.sp = m.tab.sp
  fp : m'.tab.fp = m.tab.fp
  bp : m'.tab.bp = m.tab.bp
  top : m'.tab.top = m.tab.top
  size : m'.tab.dataSz = m.tab.dataSz

theorem Unmoved.refl (m : Sdt) : Unmoved m m := ⟨rfl, rfl, rfl, rfl, rfl, rfl, rfl, rfl, rfl⟩

theorem Unmoved.trans (m m' m'' : Sdt) (h : Unmoved m m') (h' : Unmoved m' m'') :
    Unmoved m m'' :=
  ⟨h'.tok.trans h.tok, h'.ll.trans h.ll, h'.pos.trans h.pos, h'.buf.trans h.buf,
    h'.sp.trans h.sp, h'.fp.trans h.fp, h'.bp.trans h.bp, h'.top.trans h.top,
    h'.size.trans h.size⟩

/-- The attempt only writes code and counts words. It does not look at what the table does
not use, and no failure of it means that the text is at its end. -/
structure Silent {α : Type} (x : Attempt Sdt Err α) : Prop where
  keeps : Attempt.Keeps x Unmoved
  agrees : Attempt.Agrees x Sdt.Alike
  noEof : ∀ m, (x m).1 ≠ .error .unexpectedEof

namespace Silent

variable {α β : Type} {x : Attempt Sdt Err α} {f : α → Attempt Sdt Err β}

theorem pure (a : α) : Silent (pure a) :=
  ⟨Attempt.keeps_pure Unmoved.refl a, Attempt.agrees_pure a, fun _ h => by cases h⟩

theorem read {f : Sdt → α} (h : ∀ m tab', f { m with tab := tab' } = f m) :
    Silent (Attempt.read f) := by
  refine ⟨Attempt.keeps_read Unmoved.refl f, Attempt.agrees_read ?_, fun _ h => by cases h⟩
  rintro m m' ⟨tab', -, rfl⟩
  exact (h m tab').symm

theorem guard (c : Prop) [Decidable c] {e : Err} (he : e ≠ .unexpectedEof) :
    Silent (Attempt.guard c e) := by
  refine ⟨Attempt.keeps_guard Unmoved.refl c e, Attempt.agrees_guard c e, fun m h => ?_⟩
  unfold Attempt.guard at h
  by_cases hc : c
  · rw [if_pos hc] at h
    cases h
  · rw [if_neg hc] at h
    exact he (Except.error.inj h)

theorem get (o : Option α) {e : Err} (he : e ≠ .unexpectedEof) : Silent (Attempt.get o e) := by
  refine ⟨Attempt.keeps_get Unmoved.refl o e, Attempt.agrees_get o e, fun m h => ?_⟩
  cases o with
  | none => exact he (Except.error.inj h)
  | some a => cases h

theorem update {f : Sdt → Sdt} (h : ∀ m, Unmoved m (f m))
    (h' : ∀ m tab', m.tab.Alike tab' → (f m).Alike (f { m with tab := tab' })) :
    Silent (Attempt.update f) := by
  refine ⟨h, Attempt.agrees_update ?_, fun _ h => by cases h⟩
  rintro m m' ⟨tab', htab, rfl⟩
  exact h' m tab' htab

theorem bind (hx : Silent x) (hf : ∀ a, Silent (f a)) : Silent (x >>= f) := by
  refine ⟨Attempt.keeps_bind Unmoved.trans hx.keeps fun a => (hf a).keeps,
    Attempt.agrees_bind hx.agrees fun a => (hf a).agrees, fun m h => ?_⟩
  have hx' := hx.noEof m
  rw [Attempt.run_bind] at h
  cases hxm : x m with
  | mk o m' =>
      rw [hxm] at h hx'
      cases o with
      | ok a => exact (hf a).noEof m' h
      | error e => exact hx' (congrArg Except.error (Except.error.inj h))

/-- A change of the code alone. -/
theorem updateCode {f : Sdt → Sdt} (h : ∀ m, Unmoved m (f m))
    (h' : ∀ m tab', f { m with tab := tab' } = { f m with tab := tab' }) :
    Silent (Attempt.update f) := by
  refine update h fun m tab' htab => ⟨tab', ?_, h' m tab'⟩
  have hu := h m
  exact ⟨htab.sp.trans hu.sp.symm, htab.bp.trans hu.bp.symm, htab.fp.trans hu.fp.symm,
    htab.top.trans hu.top.symm,
    fun i hi => (htab.low i (hu.bp ▸ hi)).trans (congrFun hu.buf i).symm,
    fun i hi => (htab.high i (hu.sp ▸ hi)).trans (congrFun hu.buf i).symm⟩

theorem putByte (m : Sdt) (b : Nat) : Unmoved m (m.putByte b) :=
  ⟨rfl, rfl, rfl, rfl, rfl, rfl, rfl, rfl, rfl⟩

theorem emit (bs : List Nat) : Silent (emit bs) := by
  refine updateCode (fun m => ?_) fun m tab' => ?_
  · induction bs generalizing m with
    | nil => exact Unmoved.refl m
    | cons b bs ih => exact Unmoved.trans _ _ _ (putByte m b) (ih (m.putByte b))
  · induction bs generalizing m with
    | nil => rfl
    | cons b bs ih => exact ih (m.putByte b)

theorem reserve (opc : Nat) : Silent (reserve opc) :=
  updateCode (fun _ => ⟨rfl, rfl, rfl, rfl, rfl, rfl, rfl, rfl, rfl⟩) fun _ _ => rfl

theorem patch (addr : Nat) (offs : Int) : Silent (patch addr offs) :=
  updateCode (fun _ => ⟨rfl, rfl, rfl, rfl, rfl, rfl, rfl, rfl, rfl⟩) fun _ _ => rfl

theorem rollback : Silent rollback :=
  updateCode (fun _ => ⟨rfl, rfl, rfl, rfl, rfl, rfl, rfl, rfl, rfl⟩) fun _ _ => rfl

theorem saveSpc (E : Env) : Silent (saveSpc E) := by
  refine updateCode (fun m => ?_) fun m tab' => ?_
  · split_ifs
    · exact ⟨rfl, rfl, rfl, rfl, rfl, rfl, rfl, rfl, rfl⟩
    · exact Unmoved.refl m
  · by_cases hopt : E.opt = true
    · rw [if_pos hopt, if_pos hopt]
    · rw [if_neg hopt, if_neg hopt]

theorem tgtStackPush : Silent tgtStackPush := by
  refine update (fun _ => ⟨rfl, rfl, rfl, rfl, rfl, rfl, rfl, rfl, rfl⟩) fun m tab' htab => ?_
  exact ⟨{ tab' with stackSz := max tab'.stackSz ((m.stackPos + sizeofWord) % 65536) },
    ⟨htab.sp, htab.bp, htab.fp, htab.top, htab.low, htab.high⟩, rfl⟩

theorem tgtStackPop : Silent tgtStackPop :=
  (read fun _ _ => rfl).bind fun _ => (guard _ (by decide)).bind fun _ =>
    updateCode (fun _ => ⟨rfl, rfl, rfl, rfl, rfl, rfl, rfl, rfl, rfl⟩) fun _ _ => rfl

theorem tgtStackAdjust (cnt : Int) : Silent (tgtStackAdjust cnt) :=
  (read fun _ _ => rfl).bind fun _ => (guard _ (by decide)).bind fun _ =>
    updateCode (fun _ => ⟨rfl, rfl, rfl, rfl, rfl, rfl, rfl, rfl, rfl⟩) fun _ _ => rfl

theorem cstrAdd (s : List Nat) :
    Silent (Attempt.on (fun m => m.strs) (fun strs m => { m with strs }) (cstrAdd s)) := by
  refine ⟨fun _ => ⟨rfl, rfl, rfl, rfl, rfl, rfl, rfl, rfl, rfl⟩, ?_, fun m h => ?_⟩
  · rintro m m' ⟨tab', htab, rfl⟩
    exact ⟨rfl, tab', htab, rfl⟩
  · simp only [Attempt.on, MicroJs.cstrAdd] at h
    split at h
    · cases h
    · split_ifs at h
      cases h

variable (E : Env)

theorem encodeInt (x : Word) : Silent (encodeInt E x) := (saveSpc E).bind fun _ => emit _

theorem ite {c : Prop} [Decidable c] {x y : Attempt Sdt Err α} (hx : Silent x) (hy : Silent y) :
    Silent (if c then x else y) := by
  split_ifs
  · exact hx
  · exact hy

theorem externLookup (tmp : Tmp) : Silent (externLookup E tmp) :=
  (get _ (by decide)).bind fun _ => (get _ (by decide)).bind fun _ => pure _

theorem objectCode (x : Nat × ExtDef) : Silent (objectCode E x) := ite (encodeInt E _) (emit _)

theorem indexOp (c : Prop) [Decidable c] (x : Word) (opc : Nat) : Silent (indexOp E c x opc) :=
  ite ((encodeInt E x).bind fun _ => emit _) (pure ())

theorem xlatCode (x : Nat × ExtDef) : Silent (xlatCode E x) :=
  ite ((indexOp E _ _ _).bind fun _ => indexOp E _ _ _) (emit _)

theorem dropValues (n : Int) : Silent (dropValues E n) :=
  ite ((saveSpc E).bind fun _ => emit _) (pure ())

theorem binop (opc : Nat) : Silent (binop E opc) :=
  (saveSpc E).bind fun _ => (emit _).bind fun _ => tgtStackPop

theorem unop (opc : Nat) : Silent (unop E opc) := (saveSpc E).bind fun _ => emit _

theorem lastConstant : Silent (lastConstant E) := read fun _ _ => rfl

theorem opEqu : Silent (opEqu E) :=
  (lastConstant E).bind fun _ => ite (rollback.bind fun _ => emit _) (binop E _)

theorem stepop (step opc : Nat) : Silent (stepop E step opc) :=
  (lastConstant E).bind fun _ =>
    ite (rollback.bind fun _ => (emit _).bind fun _ => tgtStackPop) (binop E _)

theorem opMinus : Silent (opMinus E) :=
  (lastConstant E).bind fun val => match val with
    | some _ => rollback.bind fun _ => encodeInt E _
    | none => unop E _

theorem pushSmall (x : Nat) : Silent (pushSmall E x) :=
  (saveSpc E).bind fun _ => (emit _).bind fun _ => tgtStackPush

theorem opPushString : Silent (opPushString E) :=
  (read fun _ _ => rfl).bind fun _ => (cstrAdd _).bind fun _ => (saveSpc E).bind fun _ =>
    (emit _).bind fun _ => tgtStackPush

theorem opPushInt : Silent (opPushInt E) :=
  (read fun _ _ => rfl).bind fun _ => (encodeInt E _).bind fun _ => tgtStackPush

end Silent

/-! ## Attempts that move the stack -/

/-- No entry is a frame. -/
def Frameless (es : List Entry) : Prop := ∀ e ∈ es, e.kind ≠ .frame

/-- What stays when an action uses the stack above `r`. -/
structure Untouched (r : List Entry) (m m' : Sdt) : Prop where
  tok : m'.tok = m.tok
  ll : m'.ll = m.ll
  pos : m'.dataPos = m.dataPos
  top : m'.tab.top = m.tab.top
  bp : m'.tab.bp = m.tab.bp
  size : m'.tab.dataSz = m.tab.dataSz
  buf : ∀ i, i ≤ m.tab.bp + 1 ∨ m.tab.top ≤ i + (stackBytes r).length →
    m'.tab.buf i = m.tab.buf i

theorem Untouched.refl (r : List Entry) (m : Sdt) : Untouched r m m :=
  ⟨rfl, rfl, rfl, rfl, rfl, rfl, fun _ _ => rfl⟩

theorem Untouched.trans {r : List Entry} {m m' m'' : Sdt} (h : Untouched r m m')
    (h' : Untouched r m' m'') : Untouched r m m'' where
  tok := h'.tok.trans h.tok
  ll := h'.ll.trans h.ll
  pos := h'.pos.trans h.pos
  top := h'.top.trans h.top
  bp := h'.bp.trans h.bp
  size := h'.size.trans h.size
  buf i hi := (h'.buf i (by
    rw [h.bp, h.top]
    exact hi)).trans (h.buf i hi)

/-- The entry that designates the token. -/
def tokenEntry (m : Sdt) : Entry := .tmp ⟨m.tok.s % 4294967296, m.tok.qlf % 256⟩

/-- Every name that the entries `es'` designate is one of `es` or, when `named` holds, that
of the token. -/
def Names (named : Prop) (m : Sdt) (es es' : List Entry) : Prop :=
  ∀ e ∈ es', e.kind = .tmp → e ∈ es ∨ named ∧ e = tokenEntry m

/-- The attempt replaces entries of the kinds `ks` by entries of the kinds `ks'`; when it
fails it leaves some entries in their place. It makes up no name but that of the token. -/
def Shifts {α : Type} (named : Prop) (x : Attempt Sdt Err α) (ks ks' : List Kind) : Prop :=
  ∀ m es r, Stacked m.tab (es ++ r) → Frameless es → es.map Entry.kind = ks →
    Untouched r m (x m).2 ∧ (x m).1 ≠ .error .unexpectedEof ∧
      ∃ es', Stacked (x m).2.tab (es' ++ r) ∧ Frameless es' ∧ Names named m es es' ∧
        ∀ a, (x m).1 = .ok a → es'.map Entry.kind = ks'

/-- In addition it does not look at what the table does not use. -/
structure Moves {α : Type} (named : Prop) (x : Attempt Sdt Err α) (ks ks' : List Kind) :
    Prop where
  shifts : Shifts named x ks ks'
  agrees : Attempt.Agrees x Sdt.Alike

variable {named : Prop}

theorem Silent.moves {α : Type} {x : Attempt Sdt Err α} (h : Silent x) (ks : List Kind) :
    Moves named x ks ks := by
  refine ⟨fun m es r hst hfl hk => ?_, h.agrees⟩
  have hu := h.keeps m
  refine ⟨⟨hu.tok, hu.ll, hu.pos, hu.top, hu.bp, hu.size, fun i _ => congrFun hu.buf i⟩,
    h.noEof m, es, ?_, hfl, fun _ he _ => Or.inl he, fun _ _ => hk⟩
  exact hst.congr hu.sp hu.fp hu.bp hu.top fun i _ => congrFun hu.buf i

theorem Shifts.bind {α β : Type} {x : Attempt Sdt Err α} {f : α → Attempt Sdt Err β}
    {ks₁ ks₂ ks₃ : List Kind} (hx : Shifts named x ks₁ ks₂) (hf : ∀ a, Shifts named (f a) ks₂ ks₃) :
    Shifts named (x >>= f) ks₁ ks₃ := by
  intro m es r hst hfl hk
  obtain ⟨hu, heof, es', hst', hfl', hn, hk'⟩ := hx m es r hst hfl hk
  rw [Attempt.run_bind]
  cases hxm : x m with
  | mk o m' =>
      rw [hxm] at hu hst' hk' heof
      cases o with
      | error e => exact ⟨hu, fun h => heof (congrArg Except.error (Except.error.inj h)), es',
          hst', hfl', hn, fun a ha => by cases ha⟩
      | ok a =>
          obtain ⟨hu', heof', es'', hst'', hfl'', hn', hk''⟩ :=
            hf a m' es' r hst' hfl' (hk' a rfl)
          refine ⟨hu.trans hu', heof', es'', hst'', hfl'', fun e he ht => ?_, hk''⟩
          have htok : tokenEntry m' = tokenEntry m := by
            rw [tokenEntry, tokenEntry, hu.tok]
          rcases hn' e he ht with he | ⟨hnamed, rfl⟩
          · exact hn e he ht
          · exact Or.inr ⟨hnamed, htok⟩

theorem Moves.bind {α β : Type} {x : Attempt Sdt Err α} {f : α → Attempt Sdt Err β}
    {ks₁ ks₂ ks₃ : List Kind} (hx : Moves named x ks₁ ks₂) (hf : ∀ a, Moves named (f a) ks₂ ks₃) :
    Moves named (x >>= f) ks₁ ks₃ :=
  ⟨hx.shifts.bind fun a => (hf a).shifts, Attempt.agrees_bind hx.agrees fun a => (hf a).agrees⟩

theorem Silent.before {α β : Type} {x : Attempt Sdt Err α} {f : α → Attempt Sdt Err β}
    {ks ks' : List Kind} (hx : Silent x) (hf : ∀ a, Moves named (f a) ks ks') :
    Moves named (x >>= f) ks ks' :=
  (hx.moves ks).bind hf

theorem Moves.of_true {α : Type} {x : Attempt Sdt Err α} {ks ks' : List Kind}
    (h : Moves True x ks ks') (hnamed : named) : Moves named x ks ks' := by
  refine ⟨fun m es r hst hfl hk => ?_, h.agrees⟩
  obtain ⟨hu, heof, es', hst', hfl', hn, hk'⟩ := h.shifts m es r hst hfl hk
  exact ⟨hu, heof, es', hst', hfl', fun e he ht => (hn e he ht).imp id fun ht => ⟨hnamed, ht.2⟩,
    hk'⟩

/-- A push sees the same of two tables that are alike. -/
theorem agrees_push (bs : List Nat) : Attempt.Agrees (onTab (symPush bs)) Sdt.Alike := by
  rintro m m' ⟨tab', htab, rfl⟩
  simp only [onTab, Attempt.on, symPush, htab.bp, htab.sp]
  split_ifs with hroom
  · refine ⟨rfl, { tab' with
      buf := store tab'.buf (m.tab.sp - bs.length) bs, sp := m.tab.sp - bs.length },
      ⟨rfl, htab.bp, htab.fp, htab.top, fun i hi => ?_, fun i hi => ?_⟩, ?_⟩
    · have hi' : i ≤ m.tab.bp + 1 := hi
      have hlow : store m.tab.buf (m.tab.sp - bs.length) bs i = m.tab.buf i :=
        store_lt _ _ (by omega)
      have hlow' : store tab'.buf (m.tab.sp - bs.length) bs i = tab'.buf i :=
        store_lt _ _ (by omega)
      exact hlow'.trans ((htab.low i hi').trans hlow.symm)
    · have hi' : m.tab.sp - bs.length ≤ i := hi
      by_cases hin : i < m.tab.sp - bs.length + bs.length
      · obtain ⟨k, rfl⟩ : ∃ k, i = m.tab.sp - bs.length + k :=
          ⟨i - (m.tab.sp - bs.length), by omega⟩
        have hk : k < bs.length := by omega
        exact (store_at tab'.buf bs hk).trans (store_at m.tab.buf bs hk).symm
      · have hhigh : store m.tab.buf (m.tab.sp - bs.length) bs i = m.tab.buf i :=
          store_ge _ _ (by omega)
        have hhigh' : store tab'.buf (m.tab.sp - bs.length) bs i = tab'.buf i :=
          store_ge _ _ (by omega)
        exact hhigh'.trans ((htab.high i (by omega)).trans hhigh.symm)
    · simp only [htab.bp]
  · exact ⟨rfl, tab', htab, rfl⟩

/-- A push of the bytes of an entry that designates no name but that of the token. -/
theorem push_shifts {m : Sdt} {es r : List Entry} (e : Entry) (hst : Stacked m.tab (es ++ r))
    (hfl : Frameless es) (hkind : e.kind ≠ .frame) (hfits : e.Fits)
    (hname : e.kind = .tmp → named ∧ e = tokenEntry m) :
    Untouched r m (onTab (symPush e.bytes) m).2 ∧
      (onTab (symPush e.bytes) m).1 ≠ .error .unexpectedEof ∧
      ∃ es', Stacked (onTab (symPush e.bytes) m).2.tab (es' ++ r) ∧ Frameless es' ∧
        Names named m es es' ∧ ∀ a, (onTab (symPush e.bytes) m).1 = .ok a → es' = e :: es := by
  rcases hst.push hkind hfits with hfail | ⟨buf', hok, hst', hkept⟩
  · simp only [onTab, Attempt.on, hfail]
    exact ⟨Untouched.refl r m, fun h => (by cases h), es, hst, hfl, fun _ he _ => Or.inl he,
      fun a ha => by cases ha⟩
  · simp only [onTab, Attempt.on, hok]
    refine ⟨⟨rfl, rfl, rfl, rfl, rfl, rfl, fun i hi => hkept i (hi.imp id fun hi => ?_)⟩,
      fun h => (by cases h), e :: es, hst', List.forall_mem_cons.mpr ⟨hkind, hfl⟩, ?_,
      fun _ _ => rfl⟩
    · have hsp := hst.sp_add
      rw [stackBytes_append, List.length_append] at hsp
      omega
    · intro d hd ht
      rcases List.mem_cons.mp hd with rfl | hd
      · exact Or.inr (hname ht)
      · exact Or.inl hd

theorem shifts_push (e : Entry) {bs : List Nat} (hbytes : e.bytes = bs)
    (hkind : e.kind ≠ .frame) (hfits : e.Fits) (hname : e.kind ≠ .tmp) (ks : List Kind) :
    Shifts named (onTab (symPush bs)) ks (e.kind :: ks) := by
  subst hbytes
  intro m es r hst hfl hk
  obtain ⟨hu, heof, es', hst', hfl', hn, hk'⟩ :=
    push_shifts e hst hfl hkind hfits fun ht => (hname ht).elim
  exact ⟨hu, heof, es', hst', hfl', hn, fun a ha => by rw [hk' a ha, List.map_cons, hk]⟩

theorem moves_push (e : Entry) {bs : List Nat} (hbytes : e.bytes = bs) (hkind : e.kind ≠ .frame)
    (hfits : e.Fits) (hname : e.kind ≠ .tmp) (ks : List Kind) :
    Moves named (onTab (symPush bs)) ks (e.kind :: ks) :=
  ⟨shifts_push e hbytes hkind hfits hname ks, agrees_push bs⟩

/-- A pop of a descriptor. -/
theorem moves_pop {α : Type} (f : List Nat → α) (k : Kind) (ks : List Kind) :
    Moves named (f <$> onTab (symPop k.size)) (k :: ks) ks := by
  constructor
  · intro m es r hst hfl hk
    cases es with
    | nil => cases hk
    | cons e es =>
        obtain ⟨rfl, hk'⟩ := List.cons_eq_cons.mp hk
        obtain ⟨hkind, hfl⟩ := List.forall_mem_cons.mp hfl
        obtain ⟨hok, hst'⟩ := hst.pop hkind
        rw [Entry.bytes_length] at hok hst'
        simp only [Attempt.run_map, onTab, Attempt.on, hok]
        exact ⟨⟨rfl, rfl, rfl, rfl, rfl, rfl, fun _ _ => rfl⟩, fun h => (by cases h), es, hst',
          hfl, fun d hd _ => Or.inl (List.mem_cons_of_mem _ hd), fun _ _ => hk'⟩
  · rintro m m' ⟨tab', htab, rfl⟩
    simp only [Attempt.run_map, onTab, Attempt.on, symPop, htab.fp, htab.sp]
    split_ifs with hfp
    · exact ⟨rfl, tab', htab, rfl⟩
    · have hload : load tab'.buf m.tab.sp k.size = load m.tab.buf m.tab.sp k.size :=
        load_congr fun i hi _ => htab.high i hi
      rw [hload]
      refine ⟨rfl, { tab' with sp := m.tab.sp + k.size }, ⟨rfl, htab.bp, htab.fp, htab.top,
        htab.low, fun i hi => htab.high i (Nat.le_trans (Nat.le_add_right _ _) hi)⟩, ?_⟩
      simp only [Attempt.andThen_ok, Attempt.run_pure, htab.fp]

theorem le16_mod (n : Nat) : le16 (n % 65536) = le16 n := by
  simp only [le16, List.cons.injEq, and_true]
  omega

theorem le32_mod (n : Nat) : le32 (n % 4294967296) = le32 n := by
  simp only [le32, List.cons.injEq, and_true]
  omega

theorem mod_byte (n : Nat) : n % 256 < 256 := Nat.mod_lt n (Nat.succ_pos _)

theorem mod_half (n : Nat) : n % 65536 < 65536 := Nat.mod_lt n (Nat.succ_pos _)

theorem mod_word (n : Nat) : n % 4294967296 < 4294967296 := Nat.mod_lt n (Nat.succ_pos _)

section Descriptors

variable (ks : List Kind)

theorem moves_cldPush (c : Cld) : Moves named (symCldPush c) ks (.cld :: ks) :=
  moves_push (.cld ⟨c.cid % 256⟩) (by simp only [Entry.bytes, Cld.bytes, Nat.mod_mod])
    (fun h => by cases h) (mod_byte c.cid) (fun h => by cases h) ks

theorem moves_callPush (c : Call) : Moves named (symCallPush c) ks (.call :: ks) := by
  have hretcnt : -128 ≤ sext8 (c.retcnt % 256).toNat ∧ sext8 (c.retcnt % 256).toNat < 128 ∧
      (sext8 (c.retcnt % 256).toNat % 256).toNat = (c.retcnt % 256).toNat := by
    unfold sext8
    split_ifs <;> omega
  refine moves_push (.call ⟨c.xid % 256, c.argcnt % 256, c.argmin % 256, c.argmax % 256,
      sext8 (c.retcnt % 256).toNat⟩) ?_ (fun h => by cases h) ⟨mod_byte _, mod_byte _,
      mod_byte _, mod_byte _, hretcnt.1, hretcnt.2.1⟩ (fun h => by cases h) ks
  simp only [Entry.bytes, Call.bytes, Nat.mod_mod, hretcnt.2.2]

theorem moves_refPush (d : Ref) : Moves named (symRefPush d) ks (.ref :: ks) :=
  moves_push (.ref ⟨d.addr % 65536⟩) (le16_mod d.addr) (fun h => by cases h) (mod_half d.addr)
    (fun h => by cases h) ks

theorem moves_wldPush (d : Wld) : Moves named (symWldPush d) ks (.wld :: ks) :=
  moves_push (.wld ⟨d.loop % 65536, d.cond % 65536⟩)
    (by simp only [Entry.bytes, Wld.bytes, le16_mod]) (fun h => by cases h)
    ⟨mod_half d.loop, mod_half d.cond⟩ (fun h => by cases h) ks

theorem moves_fldPush (d : Fld) : Moves named (symFldPush d) ks (.fld :: ks) :=
  moves_push (.fld ⟨d.addr0 % 65536, d.addr1 % 65536, d.addr2 % 65536, d.addr3 % 65536⟩)
    (by simp only [Entry.bytes, Fld.bytes, le16_mod]) (fun h => by cases h)
    ⟨mod_half d.addr0, mod_half d.addr1, mod_half d.addr2, mod_half d.addr3⟩
    (fun h => by cases h) ks

theorem moves_tmpPop : Moves named symTmpPop (.tmp :: ks) ks := moves_pop Tmp.ofBytes .tmp ks

theorem moves_cldPop : Moves named symCldPop (.cld :: ks) ks := moves_pop Cld.ofBytes .cld ks

theorem moves_callPop : Moves named symCallPop (.call :: ks) ks := moves_pop Call.ofBytes .call ks

theorem moves_refPop : Moves named symRefPop (.ref :: ks) ks := moves_pop Ref.ofBytes .ref ks

theorem moves_wldPop : Moves named symWldPop (.wld :: ks) ks := moves_pop Wld.ofBytes .wld ks

theorem moves_fldPop : Moves named symFldPop (.fld :: ks) ks := moves_pop Fld.ofBytes .fld ks

end Descriptors

/-! ## The actions -/

section Actions

variable (E : Env)

theorem moves_pushTmp : Moves True opPushTmp [] [.tmp] := by
  constructor
  · intro m es r hst hfl hk
    have hbytes : (tokenEntry m).bytes = Tmp.bytes ⟨m.tok.s, m.tok.qlf⟩ := by
      simp only [tokenEntry, Entry.bytes, Tmp.bytes, le32_mod, Nat.mod_mod]
    have hpush := push_shifts (tokenEntry m) hst hfl (fun h => by cases h)
      ⟨mod_word m.tok.s, mod_byte m.tok.qlf⟩ fun _ => ⟨trivial, rfl⟩
    rw [hbytes] at hpush
    obtain ⟨hu, heof, es', hst', hfl', hn, hk'⟩ := hpush
    exact ⟨hu, heof, es', hst', hfl', hn, fun a ha => by
      rw [hk' a ha, List.map_cons, hk]
      rfl⟩
  · exact Attempt.agrees_bind (Silent.read fun _ _ => rfl).agrees fun _ => agrees_push _

theorem moves_classMemberPop : Moves named (classMemberPop E) [.tmp, .cld] [] :=
  (moves_tmpPop _).bind fun _ => (moves_cldPop _).bind fun _ => Silent.moves
    ((Silent.get _ (by decide)).bind fun _ => (Silent.get _ (by decide)).bind fun _ => (Silent.guard _ (by decide)).bind
      fun _ => Silent.pure _) _

theorem shifts_varLookup (tmp : Tmp) (ks : List Kind) : Shifts named (varLookup E tmp) ks ks :=
  fun m => ((Silent.get (symObjLookup m.tab (E.name tmp.s tmp.len)) (by decide)).moves ks).shifts m

/-- What follows the lookup of a variable. -/
def varCode (opc obj : Nat) (count : Op) : Op := do
  saveSpc E
  let addr ← Attempt.read fun m => m.tab.objAddr obj
  emit (varBytes opc addr)
  count

theorem shifts_varCode (opc obj : Nat) {count : Op} (h : Silent count) (ks : List Kind) :
    Shifts named (varCode E opc obj count) ks ks :=
  ((Silent.saveSpc E).moves ks).shifts.bind fun _ => fun m =>
    (((Silent.emit (varBytes opc (m.tab.objAddr obj))).bind fun _ => h).moves ks).shifts m

theorem shifts_varEval : Shifts named (opVarEval E) [.tmp] [] :=
  (moves_tmpPop _).shifts.bind fun _ => (shifts_varLookup E _ _).bind fun _ =>
    shifts_varCode E _ _ Silent.tgtStackPush _

theorem shifts_varAssign : Shifts named (opVarAssign E) [.tmp] [] :=
  (moves_tmpPop _).shifts.bind fun _ => (shifts_varLookup E _ _).bind fun _ =>
    shifts_varCode E _ _ Silent.tgtStackPop _

theorem moves_objectGet : Moves named (opObjectGet E) [.tmp] [.cld] :=
  (moves_tmpPop _).bind fun _ => (Silent.externLookup E _).before fun _ =>
    (Silent.guard _ (by decide)).before fun _ => (Silent.guard _ (by decide)).before fun _ =>
      (Silent.objectCode E _).before fun _ => Silent.tgtStackPush.before fun _ =>
        moves_cldPush _ _

theorem moves_arrayXlat : Moves named (opArrayXlat E) [.tmp] [.cld] :=
  (moves_tmpPop _).bind fun _ => (Silent.externLookup E _).before fun _ =>
    (Silent.guard _ (by decide)).before fun _ => (Silent.guard _ (by decide)).before fun _ =>
      (Silent.xlatCode E _).before fun _ => moves_cldPush _ _

theorem moves_attrEval : Moves named (opAttrEval E) [.tmp, .cld] [] :=
  (moves_classMemberPop E).bind fun _ => Silent.moves
    ((Silent.guard _ (by decide)).bind fun _ => (Silent.guard _ (by decide)).bind fun _ => Silent.emit _) _

theorem moves_arrayEval : Moves named (opArrayEval E) [.tmp, .cld] [] :=
  (moves_classMemberPop E).bind fun _ => Silent.moves
    ((Silent.guard _ (by decide)).bind fun _ => (Silent.guard _ (by decide)).bind fun _ => Silent.emit _) _

theorem moves_attrAssign : Moves named (opAttrAssign E) [.tmp, .cld] [] :=
  (moves_classMemberPop E).bind fun _ => Silent.moves
    ((Silent.guard _ (by decide)).bind fun _ => (Silent.guard _ (by decide)).bind fun _ => (Silent.guard _ (by decide)).bind
      fun _ => (Silent.emit _).bind fun _ => Silent.tgtStackAdjust _) _

theorem moves_arrayAssign : Moves named (opArrayAssign E) [.tmp, .cld] [] :=
  (moves_classMemberPop E).bind fun _ => Silent.moves
    ((Silent.guard _ (by decide)).bind fun _ => (Silent.guard _ (by decide)).bind fun _ => (Silent.guard _ (by decide)).bind
      fun _ => (Silent.emit _).bind fun _ => Silent.tgtStackAdjust _) _

theorem moves_methodLookup : Moves named (opMethodLookup E) [.tmp, .cld] [.call] :=
  (moves_classMemberPop E).bind fun _ => (Silent.guard _ (by decide)).before fun _ => moves_callPush _ _

theorem moves_functionLookup : Moves named (opFunctionLookup E) [.tmp] [.call] :=
  (moves_tmpPop _).bind fun _ => (Silent.externLookup E _).before fun _ =>
    (Silent.guard _ (by decide)).before fun _ => moves_callPush _ _

theorem moves_arg : Moves named opArg [.call] [.call] :=
  (moves_callPop _).bind fun _ => moves_callPush _ _

theorem moves_call : Moves named (opCall E) [.call] [.call] :=
  (moves_callPop _).bind fun _ => (Silent.guard _ (by decide)).before fun _ =>
    (Silent.guard _ (by decide)).before fun _ => (Silent.saveSpc E).before fun _ =>
      (Silent.emit _).before fun _ => (Silent.tgtStackAdjust _).before fun _ =>
        moves_callPush _ _

theorem moves_retDiscard : Moves named (opRetDiscard E) [.call] [] :=
  (moves_callPop _).bind fun _ => Silent.moves
    ((Silent.dropValues E _).bind fun _ => Silent.tgtStackAdjust _) _

theorem moves_callRet : Moves named (opCallRet E) [.call] [] :=
  (moves_callPop _).bind fun _ => Silent.moves
    ((Silent.guard _ (by decide)).bind fun _ => Silent.ite
      ((Silent.dropValues E _).bind fun _ => Silent.tgtStackAdjust _) (Silent.pure ())) _

theorem moves_patchRef : Moves named opPatchRef [.ref] [] :=
  (moves_refPop _).bind fun _ => Silent.moves
    ((Silent.read fun _ _ => rfl).bind fun _ => Silent.patch _ _) _

theorem moves_tryBegin : Moves named (opTryBegin E) [] [.ref] :=
  (Silent.saveSpc E).before fun _ => (Silent.read fun _ _ => rfl).before fun _ =>
    (Silent.reserve _).before fun _ => Silent.tgtStackPush.before fun _ => moves_refPush _ _

theorem moves_tryEnd : Moves named (opTryEnd E) [.ref] [] :=
  (moves_refPop _).bind fun _ => Silent.moves
    ((Silent.saveSpc E).bind fun _ => (Silent.emit _).bind fun _ => (Silent.read fun _ _ => rfl).bind fun _ =>
      (Silent.patch _ _).bind fun _ => (Silent.emit _).bind fun _ => Silent.tgtStackPop) _

theorem moves_catch : Moves named (opCatch E) [.ref] [.ref] :=
  (moves_refPop _).bind fun _ => (Silent.saveSpc E).before fun _ => (Silent.read fun _ _ => rfl).before fun _ =>
    (Silent.reserve _).before fun _ => (moves_refPush _ _).bind fun _ =>
      Silent.moves ((Silent.read fun _ _ => rfl).bind fun _ => Silent.patch _ _) _

theorem moves_ifCond : Moves named (opIfCond E) [] [.ref] :=
  (Silent.saveSpc E).before fun _ => (Silent.read fun _ _ => rfl).before fun _ =>
    (Silent.reserve _).before fun _ => moves_refPush _ _

theorem moves_ifElse : Moves named (opIfElse E) [.ref] [.ref] :=
  (moves_refPop _).bind fun _ => (Silent.saveSpc E).before fun _ => (Silent.read fun _ _ => rfl).before fun _ =>
    (Silent.patch _ _).before fun _ => (Silent.reserve _).before fun _ => moves_refPush _ _

theorem moves_whileBegin : Moves named opWhileBegin [] [.wld] :=
  (Silent.read fun _ _ => rfl).before fun _ => moves_wldPush _ _

theorem moves_whileCond : Moves named (opWhileCond E) [.wld] [.wld] :=
  (moves_wldPop _).bind fun _ => (Silent.saveSpc E).before fun _ => (Silent.read fun _ _ => rfl).before fun _ =>
    (Silent.reserve _).before fun _ => moves_wldPush _ _

theorem moves_whileEnd : Moves named (opWhileEnd E) [.wld] [] :=
  (moves_wldPop _).bind fun _ => Silent.moves
    ((Silent.read fun _ _ => rfl).bind fun _ => (Silent.patch _ _).bind fun _ => (Silent.saveSpc E).bind
      fun _ => Silent.emit _) _

theorem moves_forInit : Moves named opForInit [] [.fld] :=
  (Silent.read fun _ _ => rfl).before fun _ => moves_fldPush _ _

theorem moves_forCond : Moves named (opForCond E) [.fld] [.fld] :=
  (moves_fldPop _).bind fun _ => (Silent.read fun _ _ => rfl).before fun _ => (Silent.reserve _).before
    fun _ => (Silent.saveSpc E).before fun _ => (Silent.read fun _ _ => rfl).before fun _ =>
      (Silent.reserve _).before fun _ => (Silent.read fun _ _ => rfl).before fun _ => moves_fldPush _ _

theorem moves_forAfter : Moves named (opForAfter E) [.fld] [.fld] :=
  (moves_fldPop _).bind fun _ => (Silent.read fun _ _ => rfl).before fun _ => (Silent.patch _ _).before
    fun _ => (Silent.saveSpc E).before fun _ => (Silent.emit _).before fun _ =>
      moves_fldPush _ _

theorem moves_forEnd : Moves named (opForEnd E) [.fld] [] :=
  (moves_fldPop _).bind fun _ => Silent.moves
    ((Silent.saveSpc E).bind fun _ => (Silent.read fun _ _ => rfl).bind fun _ => (Silent.patch _ _).bind
      fun _ => Silent.emit _) _

/-- The actions that look at the objects or change the scopes. -/
def Action.naming : Action → Bool
  | .opVarEval | .opVarAssign | .opVarDecl | .opBlkOpen | .opBlkClose => true
  | _ => false

/-- Every other action has the effect that is noted for it. -/
theorem op_moves {a : Action} (ha : a.naming = false) :
    Moves (a = .opPushTmp) (op E a) a.effect.pops a.effect.pushes := by
  cases a with
  | opVarEval | opVarAssign | opVarDecl | opBlkOpen | opBlkClose => cases ha
  | opPushTmp => exact moves_pushTmp.of_true rfl
  | opPopTmp => exact (moves_tmpPop _).bind fun _ => (Silent.pure ()).moves _
  | opRetDiscard => exact moves_retDiscard E
  | opArrayXlat => exact moves_arrayXlat E
  | opObjectGet => exact moves_objectGet E
  | opAttrAssign => exact moves_attrAssign E
  | opArrayAssign => exact moves_arrayAssign E
  | opMethodLookup => exact moves_methodLookup E
  | opCall => exact moves_call E
  | opFunctionLookup => exact moves_functionLookup E
  | opArg => exact moves_arg
  | opEqu => exact (Silent.opEqu E).moves _
  | opAdd | opSub => exact (Silent.stepop E _ _).moves _
  | opInv | opNot | opThrow => exact (Silent.unop E _).moves _
  | opMinus => exact (Silent.opMinus E).moves _
  | opPushInt => exact (Silent.opPushInt E).moves _
  | opPushString => exact (Silent.opPushString E).moves _
  | opPushTrue | opPushFalse => exact (Silent.pushSmall E _).moves _
  | opCallRet => exact moves_callRet E
  | opAttrEval => exact moves_attrEval E
  | opArrayEval => exact moves_arrayEval E
  | opForInit => exact moves_forInit
  | opForCond => exact moves_forCond E
  | opForAfter => exact moves_forAfter E
  | opForEnd => exact moves_forEnd E
  | opWhileBegin => exact moves_whileBegin
  | opWhileCond => exact moves_whileCond E
  | opWhileEnd => exact moves_whileEnd E
  | opIfCond => exact moves_ifCond E
  | opIfEnd | opCatchEnd => exact moves_patchRef
  | opTryBegin => exact moves_tryBegin E
  | opIfElse => exact moves_ifElse E
  | opTryEnd => exact moves_tryEnd E
  | opCatch => exact moves_catch E
  | _ => exact (Silent.binop E _).moves _

/-- The actions that change the scopes. -/
def Action.scoping : Action → Bool
  | .opVarDecl | .opBlkOpen | .opBlkClose => true
  | _ => false

theorem op_shifts {a : Action} (ha : a.scoping = false) :
    Shifts (a = .opPushTmp) (op E a) a.effect.pops a.effect.pushes := by
  by_cases hn : a.naming = false
  · exact (op_moves E hn).shifts
  · cases a with
    | opVarEval => exact shifts_varEval E
    | opVarAssign => exact shifts_varAssign E
    | opVarDecl | opBlkOpen | opBlkClose => cases ha
    | _ => exact (hn rfl).elim

theorem pops_frameless {a : Action} (ha : a.scoping = false) : Kind.frame ∉ a.effect.pops := by
  cases a with
  | opVarDecl | opBlkOpen | opBlkClose => cases ha
  | _ => decide

end Actions

end YardIce.MicroJs
