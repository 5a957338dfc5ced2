import YardIce.MicroJs.Lockstep

/-!
# Failed compilations

After a compilation has failed and `symtab_state_rollback` has been called, the table answers
as before exactly if the failed compilation has created no global object, or a first one
whose length the link of 8 bits takes for zero: otherwise the rollback leaves the link of
that object behind the terminator of the list. `mcrojs_js_array_enc` calls the rollback
unless its array is closed behind an unfinished line.
-/

namespace YardIce.MicroJs

open YardIce.Lib

/-! ## What a table answers -/

/-- From the second state, every compilation whose declared names have at most 248 characters
goes through the same states as from the first, but for the tables, and ends likewise. -/
structure Twins (E : Env) (m₀ m₀' : Sdt) : Prop where
  step : ∀ {tr : Trace} {t : Text} {p : Parse}, Compiling E m₀ tr t p → ShortNames tr →
    ∃ tr' m', Compiling E m₀' tr' t { p with m := m' } ∧ p.m.Alike m' ∧
      ∃ m'', compileStep E t { p with m := m' } =
          ((compileStep E t p).1, { (compileStep E t p).2 with m := m'' }) ∧
        (compileStep E t p).2.m.Alike m''
  ending : ∀ {tr : Trace} {t : Text} {p : Parse}, Compiling E m₀ tr t p → ShortNames tr →
    p.m.ll = [] → p.m.tab.sp + 2 ≤ p.m.tab.fp →
      ∃ tr' m', Compiling E m₀' tr' t { p with m := m' } ∧ AgreesAt microjsSdtEnd p.m m'

/-- The second table answers as the first. -/
structure SameAnswers (tab tab' : Symtab) : Prop where
  lookup : ∀ nm, 0 ∉ nm → symObjLookup tab' nm = symObjLookup tab nm
  scopeLookup : ∀ nm, 0 ∉ nm → symObjScopeLookup tab' nm = symObjScopeLookup tab nm
  size : symtabDataSize tab' = symtabDataSize tab
  later : ∀ E strs code size m, microjsSdtInit tab strs = some m →
    ∃ m', microjsSdtInit tab' strs = some m' ∧
      Twins E (microjsSdtBegin E code size m) (microjsSdtBegin E code size m')

/-- What a failed compilation has created does not show: no global object, or a first one with
a length whose low byte is zero. -/
def Hidden (made : List (List Nat)) : Prop :=
  made.getLast?.elim 0 (fun nm => (7 + nm.length) % 256) = 0

instance (made : List (List Nat)) : Decidable (Hidden made) :=
  inferInstanceAs (Decidable (_ = _))

/-! ## Tables that are alike -/

section Alike

variable {E : Env} {m m' : Sdt}

/-- The states after an attempt that leaves the table alone. -/
theorem agreesAt_silent {α β : Type} {x : Attempt Sdt Err α} {f : α → Attempt Sdt Err β}
    (hx : Silent x) (halike : m.Alike m')
    (hf : ∀ a m₁ m₁', Unmoved m m₁ → m₁.Alike m₁' → AgreesAt (f a) m₁ m₁') :
    AgreesAt (x >>= f) m m' := by
  have hx' := hx.agrees m m' halike
  exact agreesAt_bind hx' fun a _ => hf a _ _ (hx.keeps m) hx'.2

/-- The end of a compilation, with the reference to the default exception handler. -/
theorem sdtEnd_agrees (halike : m.Alike m') (href : m.tab.sp + 2 ≤ m.tab.fp) :
    AgreesAt microjsSdtEnd m m' := by
  refine agreesAt_silent (Silent.read fun _ _ => rfl) halike fun fits m₁ m₁' hu₁ h₁ => ?_
  refine agreesAt_silent (Silent.guard _ (by decide)) h₁ fun _ m₂ m₂' hu₂ h₂ => ?_
  refine agreesAt_silent Silent.tgtStackPop h₂ fun _ m₃ m₃' hu₃ h₃ => ?_
  refine agreesAt_silent (Silent.emit _) h₃ fun _ m₄ m₄' hu₄ h₄ => ?_
  refine agreesAt_silent (Silent.emit _) h₄ fun _ m₅ m₅' hu₅ h₅ => ?_
  have hu : Unmoved m m₅ := (hu₁.trans _ _ _ (hu₂.trans _ _ _ (hu₃.trans _ _ _
    (hu₄.trans _ _ _ hu₅))))
  have hpick : Ref.ofBytes (symPick m₅.tab 2) = Ref.ofBytes (symPick m₅'.tab 2) := by
    obtain ⟨tab', htab, rfl⟩ := h₅
    have hsp := hu.sp
    have hfp := hu.fp
    have hload : load tab'.buf (m₅.tab.fp - 2) 2 = load m₅.tab.buf (m₅.tab.fp - 2) 2 :=
      load_congr fun i hi _ => htab.high i (by omega)
    simp only [symPick, htab.fp, hload]
  refine agreesAt_bind (agreesAt_read hpick h₅) fun ref _ => ?_
  have hrest : Silent (do
      let pc ← Attempt.read fun m : Sdt => m.pc
      patch ref.addr pc
      emit [opcRet]
      Attempt.read fun m : Sdt => m.pc) :=
    (Silent.read fun _ _ => rfl).bind fun _ => (Silent.patch _ _).bind fun _ =>
      (Silent.emit _).bind fun _ => Silent.read fun _ _ => rfl
  exact hrest.agrees _ _ h₅

theorem agrees_beginCode : Attempt.Agrees (beginCode E) Sdt.Alike := by
  intro m m' halike
  have hempty : m'.tab.isEmpty = m.tab.isEmpty := by
    obtain ⟨tab', htab, rfl⟩ := halike
    simp only [Symtab.isEmpty, htab.sp, htab.top]
  rw [beginCode_run, beginCode_run, hempty]
  refine (beginTail_silent E).agrees _ _ ?_
  split_ifs
  · exact (agrees_push (Ref.bytes ⟨0⟩) m m' halike).2
  · exact halike

theorem sdtBegin_alike (code : Nat → Nat) (size : Nat) (halike : m.Alike m') :
    (microjsSdtBegin E code size m).Alike (microjsSdtBegin E code size m') := by
  refine (agrees_beginCode _ _ ?_).2
  obtain ⟨tab', htab, rfl⟩ := halike
  exact ⟨tab', htab, rfl⟩

theorem twins_of_alike {tab : Symtab} {es : List Entry} {ds : List Decl} {m₀ m₀' : Sdt}
    (h : WellFormed tab es ds) (hbegin : Begins E tab m₀) (halike : m₀.Alike m₀') :
    Twins E m₀ m₀' := by
  obtain ⟨es₁, -, h₀⟩ := sound_start h hbegin
  constructor
  · intro tr t p hcomp hshort
    obtain ⟨tr', m', hcomp', halike'⟩ := compiling_agrees h₀ halike hcomp hshort
    obtain ⟨⟨es', hsound⟩, -⟩ := sound_compiling h₀ hcomp hshort
    exact ⟨tr', m', hcomp', halike', compileStep_agrees hsound halike'⟩
  · intro tr t p hcomp hshort _ href
    obtain ⟨tr', m', hcomp', halike'⟩ := compiling_agrees h₀ halike hcomp hshort
    exact ⟨tr', m', hcomp', sdtEnd_agrees halike' href⟩

/-- A table that is alike answers the same. -/
theorem sameAnswers_of_alike {tab tab' : Symtab} {es : List Entry} {ds : List Decl}
    (h : WellFormed tab es ds) (halike : tab.Alike tab') (hsize : tab.dataSz ≤ tab'.dataSz) :
    SameAnswers tab tab' := by
  have h' := wellFormed_congr h halike
  have hsame : symtabDataSize tab' = symtabDataSize tab := h'.dataSize.trans h.dataSize.symm
  refine ⟨fun nm hnm => ?_, fun nm hnm => ?_, hsame, fun E strs code size m hinit => ?_⟩
  · exact (h'.lookups hnm).1.trans (h.lookups hnm).1.symm
  · exact (h'.lookups hnm).2.trans (h.lookups hnm).2.symm
  · have hbegin : Begins E tab (microjsSdtBegin E code size m) := ⟨strs, code, size, m, hinit, rfl⟩
    simp only [microjsSdtInit] at hinit ⊢
    split_ifs at hinit with hfits
    obtain rfl := Option.some.inj hinit
    rw [hsame, if_pos (Nat.le_trans hfits hsize)]
    exact ⟨_, rfl, twins_of_alike h hbegin (sdtBegin_alike code size ⟨tab', halike, rfl⟩)⟩

end Alike

/-! ## What a rollback leaves -/

section Undone

variable {E : Env} {tab : Symtab} {es es' r : List Entry} {ds : List Decl}
  {made : List (List Nat)} {m : Sdt}

/-- A global object that is left behind counts as data. -/
theorem Kept.undo_dataSize (h : Kept tab r made m es') (hwf : WellFormed tab es ds)
    (hmade : ¬ Hidden made) : symtabDataSize tab < symtabDataSize (m.undo tab).tab := by
  have hterm := h.undo_term
  have hpop := h.popped
  have hle := h.le
  rw [Hidden] at hmade
  rw [← hterm] at hmade
  have hlast : ∃ nm, made.getLast? = some nm := by
    cases hlast : made.getLast? with
    | none =>
        rw [hterm, hlast] at hmade
        exact (hmade rfl).elim
    | some nm => exact ⟨nm, rfl⟩
  obtain ⟨nm, hlast⟩ := hlast
  obtain ⟨hfive, -, hfour⟩ := h.first nm hlast
  have hlow (i : Nat) (hi : i ≤ tab.bp) : (m.undo tab).tab.buf i = tab.buf i :=
    (hpop.kept i (Or.inl (by omega))).trans (h.low i hi)
  have hsize : (m.undo tab).tab.buf (tab.bp + 3) = 4 :=
    (hpop.kept _ (Or.inl (by omega))).trans hfour
  have hseg := hwf.seg.congr hlow
  have hcount := hwf.count_lt
  have hfuel : 65536 = ds.length + (65535 - ds.length + 1) := by omega
  rw [hwf.dataSize, symtabDataSize, hfuel, hseg.dataSizeUp, dataSizeUp, if_neg hmade, hsize]
  omega

/-- After a rollback the table answers as before exactly if what was created does not show. -/
theorem Kept.undo_answers (h : Kept tab r made m es') (hbase : Base tab r)
    (hwf : WellFormed tab es ds) : SameAnswers tab (m.undo tab).tab ↔ Hidden made := by
  constructor
  · intro hsame
    by_contra hmade
    exact absurd hsame.size (Nat.ne_of_gt (h.undo_dataSize hwf hmade))
  · intro hmade
    have hsize : tab.dataSz ≤ (m.undo tab).tab.dataSz :=
      Nat.le_trans h.size (Nat.le_of_eq h.popped.size.symm)
    exact sameAnswers_of_alike hwf (h.undo_alike hbase hwf.fp_eq hwf.term hmade) hsize

theorem stopped_undo (hwf : WellFormed tab es ds) {m₀ : Sdt} {tr : Trace}
    (hbegin : Begins E tab m₀) (hstop : Stopped E m₀ tr m) :
    SameAnswers tab (m.undo tab).tab ↔ Hidden (globals E tr) := by
  obtain ⟨es₁, hbase, h₀, ht₀⟩ := kept_start hwf.stacked hwf.fp_eq hwf.term hbegin
  obtain ⟨es', hkept⟩ := kept_stopped hbase h₀ ht₀ hstop
  exact hkept.undo_answers hbase hwf

end Undone

/-! ## Arrays of lines -/

theorem scanNumberEnd_noEof (t : Text) (r : Nat × Nat) :
    scanNumberEnd t r ≠ .error .unexpectedEof := by
  unfold scanNumberEnd
  split_ifs <;> exact fun h => by cases h

theorem scanNumber_noEof (t : Text) (off : Nat) : scanNumber t off ≠ .error .unexpectedEof := by
  unfold scanNumber
  split_ifs
  · exact fun h => by cases h
  · exact scanNumberEnd_noEof t _
  · exact fun h => by cases h
  · exact scanNumberEnd_noEof t _

theorem scanQuoted_noEof (t : Text) (off : Nat) : scanQuoted t off ≠ .error .unexpectedEof := by
  unfold scanQuoted
  cases quoteEnd t (t.at off) t.len (off + 1) with
  | none => exact fun h => by cases h
  | some stop =>
      dsimp only
      split_ifs <;> exact fun h => by cases h

theorem scanPunctuation_noEof (t : Text) (off : Nat) :
    scanPunctuation t off ≠ .error .unexpectedEof := by
  simp only [scanPunctuation]
  split_ifs
  all_goals try exact fun h => by cases h
  cases punctuation.find? fun p => decide (p.1 = t.at off) with
  | none => exact fun h => by cases h
  | some p => exact fun h => by cases h

/-- The lexer does not report the end of a text as an error. -/
theorem lexerScan_noEof (t : Text) (fuel : Nat) :
    ∀ off, lexerScan t fuel off ≠ .error .unexpectedEof := by
  induction fuel with
  | zero => exact fun off h => by cases h
  | succ fuel ih =>
      intro off
      simp only [lexerScan]
      split_ifs
      · exact ih _
      · exact scanQuoted_noEof t off
      · exact fun h => by cases h
      · exact scanNumber_noEof t off
      · exact ih _
      · cases commentEnd t t.len (off + 2) with
        | none => exact fun h => by cases h
        | some stop => exact ih stop
      · exact fun h => by cases h
      · exact fun h => by cases h
      · exact scanPunctuation_noEof t off
      · exact fun h => by cases h

section Lines

variable {E : Env} {tab : Symtab} {es es₀ : List Entry} {ds : List Decl} {m₀ m : Sdt}
  {tr : Trace} {t : Text} {p p' : Parse}

/-- At an unexpected end of the text a compilation stays where it is. -/
theorem compileStep_eof (h : Kept tab es₀ (globals E tr) p.m es) (ht : Typed p.m es)
    (hbase : Base tab es₀) (hstep : compileStep E t p = (.error .unexpectedEof, p')) : p' = p := by
  cases hll : p.m.ll with
  | nil =>
      simp only [compileStep, Attempt.run_bind, Attempt.run_read, Attempt.andThen_ok, hll,
        Attempt.run_pure, Prod.mk.injEq, reduceCtorEq, false_and] at hstep
  | cons sym ll =>
      cases sym with
      | t a =>
          have hscan := lexerScan_noEof t 65536 p.off
          rw [compileStep_terminal hll, matchTerminal_run] at hstep
          split_ifs at hstep with ha
          · cases hs : lexerScan t 65536 p.off with
            | ok r =>
                simp only [hs] at hstep
                cases hstep
            | error e =>
                simp only [hs] at hstep
                exact (hscan (hs.trans (congrArg _ (Except.error.inj (Prod.mk.inj hstep).1)))).elim
          · cases hstep
      | a a =>
          obtain ⟨es', -, -, heof⟩ := kept_action h ht hbase hll
          obtain ⟨-, -, herr⟩ := callAction_run (E := E) a { p.m with ll }
          rw [compileStep_action hll] at hstep
          rcases herr _ (Prod.mk.inj hstep).1 with herr | ⟨-, herr⟩
          · exact (heof herr).elim
          · cases herr
      | n a =>
          rw [compileStep_nonterminal hll, expand_run] at hstep
          cases hpush : microjsLlPush a p.ahead.typ with
          | none =>
              simp only [hpush] at hstep
              exact (Prod.mk.inj hstep).2.symm
          | some w =>
              simp only [hpush] at hstep
              split_ifs at hstep
              · cases hstep
              · cases hstep

/-- Where the loop of a compilation ends. -/
theorem compileLoop_ends {fuel : Nat} {r : Except Err Unit} (h : Compiling E m₀ tr t p)
    (hrun : compileLoop E t fuel p = some (r, p')) :
    (r = .ok () → p'.m.ll = [] ∧ ∃ tr', Compiling E m₀ tr' t p') ∧
      ∀ e, r = .error e → ∃ tr' q, Compiling E m₀ tr' t q ∧
        compileStep E t q = (.error e, p') := by
  induction fuel generalizing tr p with
  | zero => cases hrun
  | succ fuel ih =>
      rw [compileLoop] at hrun
      split_ifs at hrun with hll
      · obtain ⟨rfl, rfl⟩ := Prod.mk.inj (Option.some.inj hrun)
        exact ⟨fun _ => ⟨hll, tr, h⟩, fun e he => by cases he⟩
      · cases hstep : compileStep E t p with
        | mk o q =>
            rw [hstep] at hrun
            cases o with
            | ok u => exact ih (.round h hstep) hrun
            | error e =>
                obtain ⟨rfl, rfl⟩ := Prod.mk.inj (Option.some.inj hrun)
                refine ⟨fun hr => (by cases hr), fun e' he => ⟨tr, p, h, ?_⟩⟩
                rw [hstep, Except.error.inj he]

/-- A state in which a line ends that is no reason to stop. -/
def Resumes (E : Env) (m₀ m : Sdt) : Prop := ∃ tr t p, Compiling E m₀ tr t p ∧ p.m = m

theorem Resumes.stopped (h : Resumes E m₀ m) : ∃ tr, Stopped E m₀ tr m := by
  obtain ⟨tr, t, p, hcomp, rfl⟩ := h
  exact ⟨tr, .between hcomp⟩

/-- The translator after a line. -/
theorem microjsCompile_ends {m' : Sdt} {fuel : Nat} {r : Except Err Nat}
    (hbase : Base tab es₀) (h₀ : Kept tab es₀ [] m₀ []) (ht₀ : Typed m₀ [])
    (hresumes : Resumes E m₀ m) (ht : Source E t)
    (hrun : microjsCompile E fuel t m = some (r, m')) :
    (∃ tr', Stopped E m₀ tr' m') ∧
      (∀ pc, r = .ok pc → Resumes E m₀ m' ∧ (0 < pc → m'.ll = [])) ∧
      (r = .error .unexpectedEof → Resumes E m₀ m') := by
  unfold microjsCompile at hrun
  split_ifs at hrun with hlen
  · obtain ⟨rfl, rfl⟩ := Prod.mk.inj (Option.some.inj hrun)
    refine ⟨hresumes.stopped, fun pc hpc => ⟨hresumes, fun hpos => ?_⟩, fun hr => by cases hr⟩
    cases hpc
    exact absurd hpos (Nat.lt_irrefl 0)
  · have hscan := lexerScan_noEof (lexerOpen t) 65536 0
    cases hadv : advance (lexerOpen t) ⟨m, Token.plain .eof, 0⟩ with
    | mk o q =>
        rw [hadv] at hrun
        cases o with
        | error e =>
            obtain ⟨rfl, rfl⟩ := Prod.mk.inj (Option.some.inj hrun)
            have hq : q.m = m ∧ e ≠ .unexpectedEof := by
              simp only [advance] at hadv
              cases hs : lexerScan (lexerOpen t) 65536 0 with
              | ok r =>
                  rw [hs] at hadv
                  cases hadv
              | error e' =>
                  rw [hs] at hadv
                  obtain ⟨he, rfl⟩ := Prod.mk.inj hadv
                  refine ⟨rfl, fun heof => hscan (hs.trans ?_)⟩
                  rw [Except.error.inj he, heof]
            rw [hq.1]
            exact ⟨hresumes.stopped, fun pc hpc => (by cases hpc),
              fun hr => (hq.2 (Except.error.inj hr)).elim⟩
        | ok u =>
            obtain ⟨tr, t₀, p, hcomp, rfl⟩ := hresumes
            have hline := Compiling.line hcomp ht hadv
            obtain ⟨⟨r', q'⟩, hloop, hr⟩ := Option.map_eq_some_iff.mp hrun
            obtain ⟨rfl, rfl⟩ := Prod.mk.inj hr
            obtain ⟨hok, herr⟩ := compileLoop_ends hline hloop
            cases r' with
            | ok u =>
                obtain ⟨hll, tr', hcomp'⟩ := hok rfl
                have hresumes : Resumes E m₀ q'.m := ⟨tr', _, q', hcomp', rfl⟩
                exact ⟨hresumes.stopped, fun _ _ => ⟨hresumes, fun _ => hll⟩,
                  fun hr => by cases hr⟩
            | error e =>
                obtain ⟨tr', q, hcomp', hstep⟩ := herr e rfl
                refine ⟨⟨_, .failing hcomp' hstep⟩, fun pc hpc => (by cases hpc), fun hr => ?_⟩
                obtain ⟨es', hkept, htyped⟩ := kept_compiling hbase h₀ ht₀ hcomp'
                have he : e = .unexpectedEof := Except.error.inj hr
                rw [he] at hstep
                rw [compileStep_eof hkept htyped hbase hstep]
                exact ⟨tr', _, q, hcomp', rfl⟩

/-- The state in which the lines of an array end, and what the outcome says. -/
theorem encLines_ends {fuel : Nat} (hbase : Base tab es₀) (h₀ : Kept tab es₀ [] m₀ [])
    (ht₀ : Typed m₀ []) {vals : List JsonVal} (hsrc : ∀ t, .string t ∈ vals → Source E t) :
    ∀ {ret ret' : Except Err Nat} {m m' : Sdt} {stop : Option JsonVal}, Resumes E m₀ m →
      (∀ e, ret = .error e → e = .unexpectedEof) →
      encLines E fuel ret m vals = some ((ret', stop), m') →
        (∃ tr, Stopped E m₀ tr m') ∧ ∀ e, ret' = .error e →
          (e = .unexpectedEof ↔ ∀ t, stop ≠ some (.string t)) := by
  induction vals with
  | nil =>
      intro ret ret' m m' stop hresumes hret hrun
      rw [encLines] at hrun
      obtain ⟨hr, rfl⟩ := Prod.mk.inj (Option.some.inj hrun)
      obtain ⟨rfl, rfl⟩ := Prod.mk.inj hr
      exact ⟨hresumes.stopped, fun e he => ⟨fun _ t ht => (by cases ht), fun _ => hret e he⟩⟩
  | cons v vals ih =>
      intro ret ret' m m' stop hresumes hret hrun
      have hsrc' : ∀ t, .string t ∈ vals → Source E t :=
        fun t ht => hsrc t (List.mem_cons_of_mem _ ht)
      cases v with
      | string t =>
          rw [encLines] at hrun
          cases hcompile : microjsCompile E fuel t m with
          | none =>
              rw [hcompile] at hrun
              cases hrun
          | some r =>
              obtain ⟨r, m₁⟩ := r
              obtain ⟨hstopped, hok, heof⟩ := microjsCompile_ends hbase h₀ ht₀ hresumes
                (hsrc t List.mem_cons_self) hcompile
              rw [hcompile] at hrun
              cases r with
              | ok pc =>
                  obtain ⟨hresumes', hll⟩ := hok pc rfl
                  refine ih hsrc' ?_ (fun e he => (by cases he)) hrun
                  split_ifs with hpc
                  · obtain ⟨tr', t', p', hcomp, rfl⟩ := hresumes'
                    exact ⟨tr', t', _, .reset hcomp (hll hpc), rfl⟩
                  · exact hresumes'
              | error e =>
                  by_cases he : e = .unexpectedEof
                  · subst he
                    exact ih hsrc' (heof rfl) (fun e he => (Except.error.inj he).symm) hrun
                  · have hrun' : some ((Except.error e, some (JsonVal.string t)), m₁) =
                        some ((ret', stop), m') := by
                      rw [← hrun]
                      cases e with
                      | unexpectedEof => exact (he rfl).elim
                      | _ => rfl
                    obtain ⟨hr, rfl⟩ := Prod.mk.inj (Option.some.inj hrun')
                    obtain ⟨rfl, rfl⟩ := Prod.mk.inj hr
                    refine ⟨hstopped, fun e' he' => ?_⟩
                    rw [← Except.error.inj he']
                    exact ⟨fun heof => (he heof).elim, fun hstop => (hstop t rfl).elim⟩
      | endArray =>
          obtain ⟨hr, rfl⟩ := Prod.mk.inj (Option.some.inj hrun)
          obtain ⟨rfl, rfl⟩ := Prod.mk.inj hr
          exact ⟨hresumes.stopped, fun e he => ⟨fun _ t ht => (by cases ht), fun _ => hret e he⟩⟩
      | other =>
          obtain ⟨hr, rfl⟩ := Prod.mk.inj (Option.some.inj hrun)
          obtain ⟨rfl, rfl⟩ := Prod.mk.inj hr
          exact ⟨hresumes.stopped, fun e he => ⟨fun _ t ht => (by cases ht), fun _ => hret e he⟩⟩

/-- The array is closed behind a line that ends inside a statement. -/
def Unfinished (E : Env) (fuel : Nat) (m₀ : Sdt) (vals : List JsonVal) : Prop :=
  ∃ m, encLines E fuel (.ok 0) m₀ vals = some ((.error .unexpectedEof, some .endArray), m)

/-- The code at the end fails before it changes anything. -/
theorem sdtEnd_error {e : Err} {m' : Sdt} (h : microjsSdtEnd m = (.error e, m')) : m' = m := by
  have hpop : ((tgtStackPop m).1 = .ok ()) ∨ tgtStackPop m = (.error .stackUnderflow, m) := by
    simp only [tgtStackPop, Attempt.run_bind, Attempt.run_read, Attempt.andThen_ok, Attempt.guard]
    split_ifs
    · exact Or.inl rfl
    · exact Or.inr rfl
  simp only [microjsSdtEnd, Attempt.run_bind, Attempt.run_read, Attempt.andThen_ok,
    Attempt.guard] at h
  split_ifs at h with hfits
  · rw [Attempt.run_pure, Attempt.andThen_ok, Attempt.run_bind] at h
    cases hrun : tgtStackPop m with
    | mk o m₁ =>
        rw [hrun] at h hpop
        cases o with
        | ok u => cases h
        | error e' =>
            rcases hpop with hok | herr
            · cases hok
            · obtain ⟨-, rfl⟩ := Prod.mk.inj herr
              exact (Prod.mk.inj h).2.symm
  · exact (Prod.mk.inj h).2.symm

/-- A negative result: the rollback has been called unless the array is closed behind an
unfinished line. -/
theorem array_ends {fuel size : Nat} {code : Nat → Nat} {strs : Strbuf} {vals : List JsonVal}
    {mi : Sdt} {e : Err} (hwf : WellFormed tab es ds)
    (hsrc : ∀ t, .string t ∈ vals → Source E t) (hinit : microjsSdtInit tab strs = some mi)
    (hrun : mcrojsJsArrayEnc E fuel code size tab strs vals = some (.error e, m)) :
    ∃ tr m₁, Stopped E (microjsSdtBegin E code size mi) tr m₁ ∧
      (Unfinished E fuel (microjsSdtBegin E code size mi) vals → m = m₁) ∧
      (¬ Unfinished E fuel (microjsSdtBegin E code size mi) vals → m = m₁.undo tab) := by
  have hbegin : Begins E tab (microjsSdtBegin E code size mi) :=
    ⟨strs, code, size, mi, hinit, rfl⟩
  obtain ⟨es₁, hbase, h₀, ht₀⟩ := kept_start hwf.stacked hwf.fp_eq hwf.term hbegin
  have hresumes : Resumes E (microjsSdtBegin E code size mi) (microjsSdtBegin E code size mi) :=
    ⟨[], ⟨E.mem, 0, 0⟩, _, .start ⟨rfl, Nat.zero_le _⟩, rfl⟩
  simp only [mcrojsJsArrayEnc, hinit] at hrun
  unfold Unfinished
  cases hlines : encLines E fuel (.ok 0) (microjsSdtBegin E code size mi) vals with
  | none =>
      rw [hlines] at hrun
      cases hrun
  | some r =>
      obtain ⟨⟨ret, stop⟩, m₁⟩ := r
      obtain ⟨⟨tr, hstopped⟩, hret⟩ := encLines_ends hbase h₀ ht₀ hsrc hresumes
        (fun e he => by cases he) hlines
      rw [hlines] at hrun
      refine ⟨tr, m₁, hstopped, ?_⟩
      cases stop with
      | none => cases hrun
      | some v =>
          cases v with
          | other => cases hrun
          | string t =>
              cases ret with
              | ok pc => cases hrun
              | error e' =>
                  obtain ⟨-, rfl⟩ := Prod.mk.inj (Option.some.inj hrun)
                  exact ⟨fun hunf => (by
                    obtain ⟨_, hunf⟩ := hunf
                    cases hunf), fun _ => rfl⟩
          | endArray =>
              cases ret with
              | error e' =>
                  obtain ⟨-, rfl⟩ := Prod.mk.inj (Option.some.inj hrun)
                  have he : e' = .unexpectedEof :=
                    (hret e' rfl).mpr fun t ht => by cases ht
                  subst he
                  exact ⟨fun _ => rfl, fun hunf => (hunf ⟨_, rfl⟩).elim⟩
              | ok pc =>
                  cases pc with
                  | zero => cases hrun
                  | succ pc =>
                      dsimp only at hrun
                      cases hend : microjsSdtEnd m₁ with
                      | mk o m₂ =>
                          rw [hend] at hrun
                          cases o with
                          | ok n => cases hrun
                          | error e' =>
                              obtain ⟨-, rfl⟩ := Prod.mk.inj (Option.some.inj hrun)
                              rw [sdtEnd_error hend]
                              exact ⟨fun hunf => (by
                                obtain ⟨_, hunf⟩ := hunf
                                cases hunf), fun _ => rfl⟩

/-- A failed compilation leaves the table as it was exactly if it has created nothing global
that shows; an array performs the rollback unless it is closed behind an unfinished line that
has left something to undo. -/
theorem failedCompilation_undone (hwf : WellFormed tab es ds) :
    (∀ {E : Env} {m₀ m : Sdt} {tr : Trace}, Begins E tab m₀ → Stopped E m₀ tr m →
      (SameAnswers tab (m.undo tab).tab ↔ Hidden (globals E tr))) ∧
    ∀ {E : Env} {fuel size : Nat} {code : Nat → Nat} {strs : Strbuf} {vals : List JsonVal}
      {mi m : Sdt} {e : Err}, (∀ t, .string t ∈ vals → Source E t) →
      microjsSdtInit tab strs = some mi →
      mcrojsJsArrayEnc E fuel code size tab strs vals = some (.error e, m) →
        ∃ tr m₁, Stopped E (microjsSdtBegin E code size mi) tr m₁ ∧
          (Unfinished E fuel (microjsSdtBegin E code size mi) vals → m = m₁) ∧
          (m = m₁.undo tab ↔
            (Unfinished E fuel (microjsSdtBegin E code size mi) vals → m₁.undo tab = m₁)) := by
  refine ⟨fun hbegin hstop => stopped_undo hwf hbegin hstop, ?_⟩
  intro E fuel size code strs vals mi m e hsrc hinit hrun
  obtain ⟨tr, m₁, hstopped, hunf, hfin⟩ := array_ends hwf hsrc hinit hrun
  refine ⟨tr, m₁, hstopped, hunf, ⟨fun hm hu => ?_, fun hm => ?_⟩⟩
  · exact hm.symm.trans (hunf hu)
  · by_cases hu : Unfinished E fuel (microjsSdtBegin E code size mi) vals
    · exact (hunf hu).trans (hm hu).symm
    · exact hfin hu

end Lines

/-! ## Programs -/

/-- `{var x;y=;}`. -/
def localThenError : List Nat := [123, 118, 97, 114, 32, 120, 59, 121, 61, 59, 125]

/-- `var x;y=;`. -/
def globalThenError : List Nat := [118, 97, 114, 32, 120, 59, 121, 61, 59]

/-- Where the compilation of a program stops that fails after `n` rounds. -/
theorem stopped_plain {src : List Nat} {n : Nat} (hsrc : src.length ≤ 4294967296)
    {made : List (List Nat)}
    (h : (runPlain src n).map (fun s => (globals (plainEnv src) (record s.2 s.1),
      (compileStep (plainEnv src) (lexerOpen (plainText src)) s.2).1.isOk)) =
        some (made, false)) :
    ∃ m₀ tr m, Begins (plainEnv src) (symtabInit (fun _ => 0) 600) m₀ ∧
      Stopped (plainEnv src) m₀ tr m ∧ globals (plainEnv src) tr = made := by
  obtain ⟨s, hs, hvals⟩ := Option.map_eq_some_iff.mp h
  obtain ⟨hmade, hfail⟩ := Prod.mk.inj hvals
  obtain ⟨m₀, hbegin, hcomp⟩ := runText_some (plainText_source hsrc) hs
  cases hstep : compileStep (plainEnv src) (lexerOpen (plainText src)) s.2 with
  | mk o p' =>
      rw [hstep] at hfail
      cases o with
      | ok u => cases hfail
      | error e => exact ⟨m₀, _, p'.m, hbegin, .failing hcomp hstep, hmade⟩

theorem fresh_wellFormed : WellFormed (symtabInit (fun _ => 0) 600) [] [] :=
  symtabInit_wellFormed _ (by decide) (by decide)

/-- An error after a declaration in a block. -/
theorem failedCompilation_undone_local : ∃ m₀ tr m, Begins (plainEnv localThenError)
      (symtabInit (fun _ => 0) 600) m₀ ∧ Stopped (plainEnv localThenError) m₀ tr m ∧
    SameAnswers (symtabInit (fun _ => 0) 600) (m.undo (symtabInit (fun _ => 0) 600)).tab := by
  obtain ⟨m₀, tr, m, hbegin, hstop, hmade⟩ :=
    @stopped_plain localThenError 22 (by decide) [] (by decide)
  refine ⟨m₀, tr, m, hbegin, hstop,
    ((failedCompilation_undone fresh_wellFormed).1 hbegin hstop).mpr ?_⟩
  rw [hmade]
  rfl

/-- An error after a global declaration: the object stays behind the terminator. -/
theorem globalThenError_left : ¬ ∀ (E : Env) (tab : Symtab) (es : List Entry) (ds : List Decl)
    (m₀ : Sdt) (tr : Trace) (m : Sdt), WellFormed tab es ds → Begins E tab m₀ →
      Stopped E m₀ tr m → SameAnswers tab (m.undo tab).tab := by
  intro h
  obtain ⟨m₀, tr, m, hbegin, hstop, hmade⟩ :=
    @stopped_plain globalThenError 19 (by decide) [[120]] (by decide)
  have hsame := h _ _ _ _ m₀ tr m fresh_wellFormed hbegin hstop
  have hhidden := (stopped_undo fresh_wellFormed hbegin hstop).mp hsame
  rw [hmade] at hhidden
  exact absurd hhidden (by decide)

end YardIce.MicroJs
