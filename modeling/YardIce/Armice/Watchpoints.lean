import YardIce.Armice.Driver
import YardIce.Lib.Runs

/-!
# The watchpoint units and their flags

A unit serves as a breakpoint of the user, as the request to halt and as the comparator of single
steps. `ARMICE_WPn_EN` follows the enable bit of the unit in all methods but four: a breakpoint
that is set while the core runs, a step that finds unit 1 in use, a codelet and the release.
-/

namespace YardIce.Armice

namespace Ice

variable {s t u : Ice}

/-- The flags tell which units are enabled. -/
def FlagsMatch (s : Ice) : Prop := ∀ n, (s.unit n).enabled = s.wpEn n

/-- The entry of a breakpoint that is set is an enabled one. -/
def EntriesEnabled (s : Ice) : Prop := ∀ n, s.wpSet n = true → (s.wp n).enabled = true

/-- Unit `n` holds the breakpoint of the user, or is disabled. -/
def Programmed (s : Ice) (n : Fin 2) : Prop :=
  if s.wpSet n then s.unit n = s.wp n else (s.unit n).enabled = false

/-- The user's breakpoints are the same, and the flags match as before. -/
structure KeepsUnits (s t : Ice) : Prop where
  wpSet : t.wpSet = s.wpSet
  wp : t.wp = s.wp
  event : t.event = s.event
  flags : s.EntriesEnabled → s.FlagsMatch → t.FlagsMatch

/-! ## Units -/

theorem enabled_wpEnable {w : Wp} (hw : w.ctrlValue = wpEnable) : w.enabled = true := by
  rw [Wp.enabled, hw]
  decide

theorem enabled_zero {w : Wp} (hw : w.ctrlValue = 0) : w.enabled = false := by
  rw [Wp.enabled, hw]
  decide

theorem flagsMatch_congr (h : s.FlagsMatch) (hunit : t.unit = s.unit) (hen : t.wpEn = s.wpEn) :
    t.FlagsMatch := by
  intro n
  rw [hunit, hen]
  exact h n

/-- A unit and its flag are changed together. -/
theorem flagsMatch_update (h : s.FlagsMatch) {n : Fin 2} {w : Wp} {b : Bool} (hw : w.enabled = b)
    (hunit : t.unit = Function.update s.unit n w) (hen : t.wpEn = Function.update s.wpEn n b) :
    t.FlagsMatch := by
  intro m
  rw [hunit, hen]
  by_cases hm : m = n
  · subst hm
    rw [Function.update_self, Function.update_self]
    exact hw
  · rw [Function.update_of_ne hm, Function.update_of_ne hm]
    exact h m

/-- A unit is changed and is enabled as its flag says. -/
theorem flagsMatch_rewrite (h : s.FlagsMatch) {n : Fin 2} {w : Wp} (hw : w.enabled = s.wpEn n)
    (hunit : t.unit = Function.update s.unit n w) (hen : t.wpEn = s.wpEn) : t.FlagsMatch := by
  apply flagsMatch_update h hw hunit
  rw [hen, Function.update_eq_self]

/-! ## What keeps the units as the flags say -/

theorem KeepsUnits.refl (s : Ice) : KeepsUnits s s := ⟨rfl, rfl, rfl, fun _ h => h⟩

theorem KeepsUnits.entries (h : KeepsUnits s t) (hent : s.EntriesEnabled) : t.EntriesEnabled := by
  intro n hn
  rw [h.wp]
  rw [h.wpSet] at hn
  exact hent n hn

theorem KeepsUnits.trans (h : KeepsUnits s t) (h' : KeepsUnits t u) : KeepsUnits s u where
  wpSet := h'.wpSet.trans h.wpSet
  wp := h'.wp.trans h.wp
  event := h'.event.trans h.event
  flags hent hs := h'.flags (h.entries hent) (h.flags hent hs)

/-- Nothing of the units is changed. -/
theorem keepsUnits_frame (hunit : t.unit = s.unit) (hen : t.wpEn = s.wpEn)
    (hset : t.wpSet = s.wpSet) (hwp : t.wp = s.wp) (hevent : t.event = s.event) :
    KeepsUnits s t :=
  ⟨hset, hwp, hevent, fun _ h => flagsMatch_congr h hunit hen⟩

theorem keepsUnits_brkSet : KeepsUnits s s.brkSet := by
  refine ⟨rfl, rfl, rfl, fun _ h => ?_⟩
  have hen : (s.brkSet.unit 0).enabled = true := enabled_wpEnable rfl
  exact flagsMatch_update h hen rfl rfl

theorem keepsUnits_wpOff (n : Fin 2) : KeepsUnits s (s.wpOff n) := by
  unfold wpOff
  split
  · refine ⟨rfl, rfl, rfl, fun _ h => ?_⟩
    have hen : { s.unit n with ctrlValue := 0 }.enabled = false := enabled_zero rfl
    exact flagsMatch_update h hen rfl rfl
  · exact KeepsUnits.refl s

theorem wpOff_disabled (h : s.FlagsMatch) (n : Fin 2) :
    ((s.wpOff n).unit n).enabled = false := by
  unfold wpOff
  split
  · have hunit : (s.armWpClr n).unit n = { s.unit n with ctrlValue := 0 } :=
      Function.update_self _ _ _
    show ((s.armWpClr n).unit n).enabled = false
    rw [hunit]
    exact enabled_zero rfl
  next hen => exact (h n).trans (Bool.not_eq_true _ ▸ hen)

theorem wpOff_other {n m : Fin 2} (hm : m ≠ n) : (s.wpOff n).unit m = s.unit m := by
  unfold wpOff
  split
  · exact Function.update_of_ne hm _ _
  · rfl

theorem keepsUnits_wpRestore (n : Fin 2) : KeepsUnits s (s.wpRestore n) := by
  unfold wpRestore
  split
  next hset => exact ⟨rfl, rfl, rfl, fun hent h => flagsMatch_update h (hent n hset) rfl rfl⟩
  · exact keepsUnits_wpOff n

theorem wpRestore_other {n m : Fin 2} (hm : m ≠ n) : (s.wpRestore n).unit m = s.unit m := by
  unfold wpRestore
  split
  · exact Function.update_of_ne hm _ _
  · exact wpOff_other hm

theorem wpRestore_programmed (h : s.FlagsMatch) (n : Fin 2) : (s.wpRestore n).Programmed n := by
  have hkeep := keepsUnits_wpRestore (s := s) n
  unfold Programmed
  rw [hkeep.wpSet, hkeep.wp]
  unfold wpRestore
  split
  · exact Function.update_self _ _ _
  · exact wpOff_disabled h n

theorem keepsUnits_coreResumePrepare : KeepsUnits s s.coreResumePrepare := by
  apply KeepsUnits.trans (keepsUnits_wpRestore 1)
  apply KeepsUnits.trans (keepsUnits_wpRestore 0)
  exact keepsUnits_frame rfl rfl rfl rfl rfl

theorem programmed_congr {n : Fin 2} (h : s.Programmed n) (hunit : t.unit n = s.unit n)
    (hset : t.wpSet = s.wpSet) (hwp : t.wp = s.wp) : t.Programmed n := by
  unfold Programmed at h ⊢
  rw [hunit, hset, hwp]
  exact h

/-- Before the core is resumed, both units are programmed for the user's breakpoints. -/
theorem coreResumePrepare_programmed (h : s.FlagsMatch) (hent : s.EntriesEnabled) :
    ∀ n, s.coreResumePrepare.Programmed n := by
  have hone := keepsUnits_wpRestore (s := s) 1
  have hzero := keepsUnits_wpRestore (s := s.wpRestore 1) 0
  rw [Fin.forall_fin_two]
  constructor
  · exact wpRestore_programmed (hone.flags hent h) 0
  · exact programmed_congr (wpRestore_programmed h 1) (wpRestore_other (by decide))
      hzero.wpSet hzero.wp

/-! ## Internal functions -/

theorem keepsUnits_coreOnBreak (d : BitVec 32) : KeepsUnits s (s.coreOnBreak d) := by
  have hthumb : KeepsUnits s { s with thumb := d.getLsbD 4 } :=
    keepsUnits_frame rfl rfl rfl rfl rfl
  have hoff := hthumb.trans (keepsUnits_wpOff 1)
  unfold coreOnBreak
  dsimp only
  split
  · exact hoff.trans (keepsUnits_frame rfl rfl rfl rfl rfl)
  · exact (hoff.trans keepsUnits_brkSet).trans (keepsUnits_frame rfl rfl rfl rfl rfl)

theorem keepsUnits_coreStatusUpdate (d : BitVec 32) : KeepsUnits s (s.coreStatusUpdate d) := by
  unfold coreStatusUpdate
  dsimp only
  split
  · exact (keepsUnits_coreOnBreak d).trans (keepsUnits_frame rfl rfl rfl rfl rfl)
  · exact keepsUnits_frame rfl rfl rfl rfl rfl

theorem keepsUnits_stop : KeepsUnits s s.stop := keepsUnits_frame rfl rfl rfl rfl rfl

theorem keepsUnits_coreBreakReq (w : Option (BitVec 16)) : KeepsUnits s (s.coreBreakReq w) := by
  have hbrk : KeepsUnits s ((s.wpOff 1).wpOff 0).brkSet :=
    ((keepsUnits_wpOff 1).trans (keepsUnits_wpOff 0)).trans keepsUnits_brkSet
  unfold coreBreakReq
  cases w with
  | none => exact hbrk
  | some w =>
      have hstop := hbrk.trans keepsUnits_stop
      exact hstop.trans (keepsUnits_coreStatusUpdate (statusAck w))

theorem keepsUnits_coreStateSave : KeepsUnits s s.coreStateSave := by
  unfold coreStateSave
  split
  · exact KeepsUnits.refl s
  · exact keepsUnits_frame rfl rfl rfl rfl rfl

theorem keepsUnits_look : KeepsUnits s s.look := by
  unfold look
  split
  · exact keepsUnits_frame rfl rfl rfl rfl rfl
  · exact KeepsUnits.refl s

theorem keepsUnits_lockSaved : KeepsUnits s s.lockSaved :=
  keepsUnits_coreStateSave.trans (keepsUnits_frame rfl rfl rfl rfl rfl)

theorem keepsUnits_statusAfter (halts : Bool) (w : BitVec 16) :
    KeepsUnits s (s.statusAfter halts w) := by
  cases halts with
  | true => exact keepsUnits_stop.trans (keepsUnits_coreStatusUpdate (s.stop.status w))
  | false => exact keepsUnits_coreStatusUpdate (s.status w)
/-! ## Methods -/

/-- The control value of a unit is as it was. -/
theorem keepsUnits_rewrite {n : Fin 2} {w : Wp} (hunit : t.unit = Function.update s.unit n w)
    (hw : w.ctrlValue = (s.unit n).ctrlValue) (hen : t.wpEn = s.wpEn)
    (hset : t.wpSet = s.wpSet) (hwp : t.wp = s.wp) (hevent : t.event = s.event) :
    KeepsUnits s t := by
  refine ⟨hset, hwp, hevent, fun _ h => flagsMatch_rewrite h ?_ hunit hen⟩
  rw [← h n, Wp.enabled, hw, Wp.enabled]

/-- `arm_sstp_init` disables unit 1, whatever its flag says. -/
theorem keepsUnits_armSstpInit (hen : s.wpEn 1 = false) : KeepsUnits s s.armSstpInit := by
  have hzero : KeepsUnits s
      { s with unit := Function.update s.unit 0 { s.unit 0 with addrMask := 0xffffffff } } :=
    keepsUnits_rewrite rfl rfl rfl rfl rfl rfl
  apply hzero.trans
  refine ⟨rfl, rfl, rfl, fun _ h => flagsMatch_rewrite h ?_ rfl rfl⟩
  rw [hen]
  exact enabled_zero rfl

theorem keepsUnits_sstepReady (h : s.sstepInit = true ∨ s.wpEn 1 = false) :
    KeepsUnits s s.sstepReady := by
  unfold sstepReady
  split
  · exact KeepsUnits.refl s
  next hinit =>
    have hen : s.wpEn 1 = false := h.resolve_left hinit
    exact (keepsUnits_armSstpInit hen).trans (keepsUnits_frame rfl rfl rfl rfl rfl)

theorem keepsUnits_armSstpBpSet (addr : BitVec 32) : KeepsUnits s (s.armSstpBpSet addr) := by
  have hone : KeepsUnits s
      { s with unit := Function.update s.unit 1 { s.unit 1 with addrValue := addr } } :=
    keepsUnits_rewrite rfl rfl rfl rfl rfl rfl
  exact hone.trans (keepsUnits_rewrite rfl rfl rfl rfl rfl rfl)

theorem keepsUnits_armSstpDisable : KeepsUnits s s.armSstpDisable :=
  keepsUnits_rewrite rfl rfl rfl rfl rfl rfl

theorem keepsUnits_jtagArmRestart : KeepsUnits s s.jtagArmRestart :=
  keepsUnits_frame rfl rfl rfl rfl rfl

theorem keepsUnits_insnStep (addr : BitVec 32) (w : Option (BitVec 16)) :
    KeepsUnits s (s.insnStep addr w).1 := by
  have hgo : KeepsUnits s (s.armSstpBpSet addr).jtagArmRestart :=
    (keepsUnits_armSstpBpSet addr).trans keepsUnits_jtagArmRestart
  unfold insnStep
  dsimp only
  split
  · exact hgo
  · cases w with
    | none => exact hgo.trans keepsUnits_armSstpDisable
    | some w => exact (hgo.trans keepsUnits_stop).trans keepsUnits_armSstpDisable

theorem keepsUnits_step (h : s.sstepInit = true ∨ s.wpEn 1 = false) (addr : BitVec 32)
    (w w' : Option (BitVec 16)) : KeepsUnits s (s.step addr w w') := by
  have hsave : s.coreStateSave.sstepInit = true ∨ s.coreStateSave.wpEn 1 = false := by
    unfold coreStateSave
    split <;> exact h
  have hready := keepsUnits_coreStateSave.trans (keepsUnits_sstepReady hsave)
  have hstep := hready.trans (keepsUnits_insnStep addr w)
  unfold step
  dsimp only
  split
  · apply KeepsUnits.trans _ (keepsUnits_coreBreakReq w')
    exact hstep.trans (keepsUnits_frame rfl rfl rfl rfl rfl)
  · exact hstep.trans (keepsUnits_frame rfl rfl rfl rfl rfl)

theorem keepsUnits_connectWp (n : Fin 2) : KeepsUnits s (s.connectWp n) := by
  unfold connectWp
  split
  next hset => exact ⟨rfl, rfl, rfl, fun hent h => flagsMatch_update h (hent n hset) rfl rfl⟩
  · refine ⟨rfl, rfl, rfl, fun _ h => ?_⟩
    have hen : { s.unit n with ctrlValue := 0 }.enabled = false := enabled_zero rfl
    exact flagsMatch_update h hen rfl rfl

theorem keepsUnits_connect : KeepsUnits s s.connect :=
  ((keepsUnits_connectWp 0).trans (keepsUnits_connectWp 1)).trans
    (keepsUnits_frame rfl rfl rfl rfl rfl)

theorem keepsUnits_exec (halts : Bool) (w : BitVec 16) : KeepsUnits s (s.exec halts w) := by
  have hdrop : KeepsUnits s { s.ctxDrop with thumb := false } :=
    keepsUnits_frame rfl rfl rfl rfl rfl
  have hgo := (hdrop.trans keepsUnits_coreResumePrepare).trans keepsUnits_jtagArmRestart
  exact hgo.trans (keepsUnits_statusAfter halts w)

theorem keepsUnits_codeExec (h : s.wpEn 0 = false) : KeepsUnits s s.codeExec := by
  refine ⟨rfl, rfl, rfl, fun _ hs => flagsMatch_rewrite hs ?_ rfl rfl⟩
  rw [h]
  exact enabled_zero rfl

/-- `armice_code_stop` enables unit 0, which the codelet ran without. -/
theorem keepsUnits_codeStop (h : s.wpEn 0 = true) : KeepsUnits s s.codeExec.armWpBrkReq := by
  refine ⟨rfl, rfl, rfl, fun _ hs => flagsMatch_rewrite hs ?_ (Function.update_idem _ _ _) rfl⟩
  rw [h]
  exact enabled_wpEnable rfl

theorem keepsUnits_fifo {dcc : Bool} (h : s.wpEn 0 = dcc) (w : Option (BitVec 16)) :
    KeepsUnits s (s.fifo dcc w) := by
  have hsave : s.coreStateSave.wpEn 0 = dcc := by
    unfold coreStateSave
    split <;> exact h
  apply KeepsUnits.trans keepsUnits_coreStateSave
  unfold fifo
  generalize s.coreStateSave = t at hsave
  cases dcc with
  | false => exact keepsUnits_codeExec hsave
  | true =>
      cases w with
      | none => exact keepsUnits_codeStop hsave
      | some w => exact (keepsUnits_codeStop hsave).trans keepsUnits_stop

theorem keepsUnits_lock (w : Option (BitVec 16)) : KeepsUnits s (s.lock w) := by
  unfold lock
  dsimp only
  split
  · exact keepsUnits_frame rfl rfl rfl rfl rfl
  · apply KeepsUnits.trans keepsUnits_look
    split
    · cases w with
      | none => exact keepsUnits_coreBreakReq none
      | some w =>
          apply (keepsUnits_coreBreakReq (some w)).trans
          apply KeepsUnits.trans _ keepsUnits_lockSaved
          exact keepsUnits_frame rfl rfl rfl rfl rfl
    · split
      · apply keepsUnits_brkSet.trans
        apply KeepsUnits.trans _ keepsUnits_lockSaved
        exact keepsUnits_frame rfl rfl rfl rfl rfl
      · exact keepsUnits_lockSaved
/-- The units are as the flags say, also where the core was just resumed or released. -/
structure UnitsSound (s : Ice) : Prop where
  flags : s.FlagsMatch
  entries : s.EntriesEnabled
  resumed : s.event = .resumed → ∀ n, s.Programmed n
  released : s.event = .released → ∀ n, (s.unit n).enabled = false

theorem unitsSound_other (hflags : s.FlagsMatch) (hent : s.EntriesEnabled)
    (hevent : s.event = .other) : s.UnitsSound := by
  refine ⟨hflags, hent, ?_, ?_⟩
  · rw [hevent]
    intro h
    cases h
  · rw [hevent]
    intro h
    cases h

theorem unitsSound_keeps (h : KeepsUnits s t) (hs : s.UnitsSound) (hevent : s.event = .other) :
    t.UnitsSound :=
  unitsSound_other (h.flags hs.entries hs.flags) (h.entries hs.entries) (h.event.trans hevent)

theorem unitsSound_congr (h : s.UnitsSound) (hunit : t.unit = s.unit) (hen : t.wpEn = s.wpEn)
    (hset : t.wpSet = s.wpSet) (hwp : t.wp = s.wp) (hevent : t.event = s.event) :
    t.UnitsSound := by
  have hkeep := keepsUnits_frame hunit hen hset hwp hevent
  refine ⟨hkeep.flags h.entries h.flags, hkeep.entries h.entries, ?_, ?_⟩
  · rw [hevent]
    intro he n
    exact programmed_congr (h.resumed he n) (congrFun hunit n) hset hwp
  · rw [hevent, hunit]
    exact h.released

theorem unitsSound_resume (h : s.UnitsSound) :
    s.coreStateRestore.coreResumePrepare.coreResume.UnitsSound := by
  have hdrop : KeepsUnits s s.coreStateRestore := keepsUnits_frame rfl rfl rfl rfl rfl
  have hflags := hdrop.flags h.entries h.flags
  have hent := hdrop.entries h.entries
  have hprep := keepsUnits_coreResumePrepare (s := s.coreStateRestore)
  refine ⟨?_, ?_, fun _ => ?_, fun he => ?_⟩
  · exact flagsMatch_congr (hprep.flags hent hflags) rfl rfl
  · exact hprep.entries hent
  · exact coreResumePrepare_programmed hflags hent
  · cases he

theorem unitsSound_run (h : s.UnitsSound) : s.run.UnitsSound := by
  unfold run
  split
  · exact h
  · exact unitsSound_resume h

/-- The units stay as they are when the status is read for the second time. -/
theorem unitsSound_statusAfter (h : s.UnitsSound) (hack : s.dbgack = true) (halts : Bool)
    (w : BitVec 16) : (s.statusAfter halts w).UnitsSound := by
  have hupdate : ∀ {t : Ice} (d : BitVec 32), t.UnitsSound → t.dbgack = true →
      (t.coreStatusUpdate d).UnitsSound := by
    intro t d ht htack
    unfold coreStatusUpdate
    rw [if_neg (by simp [htack])]
    exact unitsSound_congr ht rfl rfl rfl rfl rfl
  cases halts with
  | true => exact hupdate _ (unitsSound_congr h rfl rfl rfl rfl rfl) hack
  | false => exact hupdate _ h hack

theorem dbgStatus_wpRestore (n : Fin 2) : (s.wpRestore n).dbgStatus = s.dbgStatus := by
  have hoff : (s.wpOff n).dbgStatus = s.dbgStatus := by
    unfold wpOff
    split <;> rfl
  unfold wpRestore
  split
  · rfl
  · exact hoff

theorem dbgStatus_coreResumePrepare : s.coreResumePrepare.dbgStatus = s.dbgStatus :=
  calc s.coreResumePrepare.dbgStatus = ((s.wpRestore 1).wpRestore 0).dbgStatus := rfl
    _ = s.dbgStatus := by rw [dbgStatus_wpRestore, dbgStatus_wpRestore]

theorem dbgack_resume :
    s.coreStateRestore.coreResumePrepare.coreResume.dbgack = s.dbgack := by
  have h := dbgStatus_coreResumePrepare (s := s.coreStateRestore)
  generalize s.coreStateRestore.coreResumePrepare = t at h
  exact congrArg (fun d : BitVec 32 => d.getLsbD 0) h

theorem unitsSound_unlock (h : s.UnitsSound) (halts : Bool) (w : BitVec 16) :
    (s.unlock halts w).UnitsSound := by
  have hlook : { s with memLock := s.memLock - 1 }.look.UnitsSound := by
    unfold look
    split <;> exact unitsSound_congr h rfl rfl rfl rfl rfl
  unfold unlock
  split
  · exact h
  · dsimp only
    split
    · exact unitsSound_congr h rfl rfl rfl rfl rfl
    · split
      · split
        · exact hlook
        · exact unitsSound_congr hlook rfl rfl rfl rfl rfl
      next hack =>
        split
        · exact hlook
        · have hresume : { { s with memLock := s.memLock - 1 }.look with
              resume := false }.UnitsSound := unitsSound_congr hlook rfl rfl rfl rfl rfl
          apply unitsSound_statusAfter (unitsSound_resume hresume)
          rw [dbgack_resume]
          exact Bool.not_eq_false _ ▸ hack

theorem entriesEnabled_bpSet (hent : s.EntriesEnabled) {id : Fin 2} {addr size : BitVec 32}
    (hset : t.wpSet = Function.update s.wpSet id true)
    (hwp : t.wp = Function.update s.wp id (bpWp addr size)) : t.EntriesEnabled := by
  intro n
  rw [hset, hwp]
  by_cases hn : n = id
  · subst hn
    rw [Function.update_self, Function.update_self]
    exact fun _ => enabled_wpEnable rfl
  · rw [Function.update_of_ne hn, Function.update_of_ne hn]
    exact hent n

/-- What `armice_bp_set` writes: the entry, and the unit of a core that runs. -/
structure BpTaken (s t : Ice) (id : Fin 2) (w : Wp) : Prop where
  wpSet : t.wpSet = Function.update s.wpSet id true
  wp : t.wp = Function.update s.wp id w
  wpEn : t.wpEn = s.wpEn
  event : t.event = s.event
  unit : t.unit = if s.dbgack then s.unit else Function.update s.unit id w

theorem look_units (s : Ice) : s.look.unit = s.unit ∧ s.look.dbgack = s.dbgack := by
  unfold look
  split <;> exact ⟨rfl, rfl⟩

theorem look_wpEn (s : Ice) : s.look.wpEn = s.wpEn := by
  unfold look
  split <;> rfl

theorem bpSet_taken {id : Fin 2} (hid : s.freeWp = some id) (addr size : BitVec 32) :
    BpTaken s (s.bpSet addr size) id (bpWp addr size) := by
  have hend : ∀ t : Ice, KeepsUnits { s with wp := Function.update s.wp id (bpWp addr size) } t →
      t.wpEn = s.wpEn → t.unit = s.unit ∧ t.dbgack = s.dbgack → BpTaken s
        (let t' := if t.dbgack = false then { t.armWpSet id (t.wp id) with sstepInit := false }
          else t
        { t' with wpSet := Function.update t'.wpSet id true }) id (bpWp addr size) := by
    rintro t ⟨hset, hwp, hevent, -⟩ hen ⟨hunit, hack⟩
    dsimp only at hset hwp hevent ⊢
    have hset' : Function.update t.wpSet id true = Function.update s.wpSet id true := by rw [hset]
    split
    next hrun =>
      refine ⟨hset', hwp, hen, hevent, ?_⟩
      rw [← hack, hrun]
      show Function.update t.unit id (t.wp id) = Function.update s.unit id (bpWp addr size)
      rw [hunit, hwp, Function.update_self]
    next hhalt =>
      refine ⟨hset', hwp, hen, hevent, ?_⟩
      rw [← hack, if_pos (Bool.not_eq_false _ ▸ hhalt)]
      exact hunit
  unfold bpSet
  rw [hid]
  exact hend _ keepsUnits_look (look_wpEn _) (look_units _)

/-- A breakpoint that is set on a running core enables its unit. -/
theorem unitsSound_bpSet (h : s.UnitsSound) (hevent : s.event = .other)
    (hok : ∀ id, s.freeWp = some id → s.dbgack = true ∨ s.wpEn id = true)
    (addr size : BitVec 32) : (s.bpSet addr size).UnitsSound := by
  cases hid : s.freeWp with
  | none =>
      rw [bpSet, hid]
      exact h
  | some id =>
      have ht := bpSet_taken hid addr size
      apply unitsSound_other _ (entriesEnabled_bpSet h.entries ht.wpSet ht.wp)
        (ht.event.trans hevent)
      have hunit := ht.unit
      split at hunit
      · exact flagsMatch_congr h.flags hunit ht.wpEn
      next hrun =>
        apply flagsMatch_rewrite h.flags _ hunit ht.wpEn
        rw [(hok id hid).resolve_left hrun]
        exact enabled_wpEnable rfl

theorem unitsSound_bpClr (h : s.UnitsSound) (hevent : s.event = .other) (id : Nat) :
    (s.bpClr id).UnitsSound := by
  unfold bpClr
  split
  next hid =>
    refine unitsSound_other (s := { s with wpSet := Function.update s.wpSet ⟨id, hid⟩ false })
      (flagsMatch_congr h.flags rfl rfl) (fun n hn => h.entries n ?_) hevent
    by_cases he : n = ⟨id, hid⟩
    · subst he
      exact absurd ((Function.update_self _ _ _).symm.trans hn) (by decide)
    · exact (Function.update_of_ne he _ _).symm.trans hn
  · exact h

/-- `armice_release` clears the flags before it looks at them. -/
theorem unitsSound_release (h : s.UnitsSound) (hoff : ∀ n, s.wpEn n = false) :
    s.release.UnitsSound := by
  have hdisabled : ∀ n, (s.unit n).enabled = false := fun n => (h.flags n).trans (hoff n)
  refine ⟨hdisabled, h.entries, fun he => ?_, fun _ => hdisabled⟩
  cases he

end Ice
/-! ## Runs -/

theorem units_next {s t : Ice} {a : Act} (h : s.UnitsSound) (hok : FlagsFollow s a)
    (hstep : s.next a = some t) : t.UnitsSound := by
  have h' : { s with event := .other }.UnitsSound :=
    Ice.unitsSound_other (Ice.flagsMatch_congr h.flags rfl rfl) h.entries rfl
  cases a with
  | coreHalts =>
      simp only [Ice.next, Option.ite_none_left_eq_some, Option.some.injEq] at hstep
      exact hstep.2 ▸ Ice.unitsSound_congr h rfl rfl rfl rfl rfl
  | connect =>
      cases hstep
      exact Ice.unitsSound_keeps Ice.keepsUnits_connect h' rfl
  | release =>
      cases hstep
      exact Ice.unitsSound_release h hok
  | status w =>
      cases hstep
      exact Ice.unitsSound_keeps (Ice.keepsUnits_coreStatusUpdate _) h' rfl
  | halt w =>
      simp only [Ice.next, Option.ite_none_left_eq_some, Option.some.injEq] at hstep
      exact hstep.2 ▸ Ice.unitsSound_keeps (Ice.keepsUnits_coreBreakReq w) h' rfl
  | run =>
      cases hstep
      exact Ice.unitsSound_run h'
  | step addr w w' =>
      cases hstep
      have hkeep := Ice.keepsUnits_step (s := { s with event := .other }) hok addr w w'
      exact Ice.unitsSound_keeps hkeep h' rfl
  | access =>
      cases hstep
      exact Ice.unitsSound_keeps Ice.keepsUnits_coreStateSave h' rfl
  | exec halts w =>
      cases hstep
      exact Ice.unitsSound_keeps (Ice.keepsUnits_exec halts w) h' rfl
  | fifo dcc w =>
      cases hstep
      have hkeep := Ice.keepsUnits_fifo (s := { s with event := .other }) hok w
      exact Ice.unitsSound_keeps hkeep h' rfl
  | lock w =>
      simp only [Ice.next, Option.ite_none_left_eq_some, Option.some.injEq] at hstep
      exact hstep.2 ▸ Ice.unitsSound_keeps (Ice.keepsUnits_lock w) h' rfl
  | unlock halts w =>
      cases hstep
      exact Ice.unitsSound_unlock h' halts w
  | bpSet addr size =>
      cases hstep
      exact Ice.unitsSound_bpSet h' rfl hok addr size
  | bpClr id =>
      cases hstep
      exact Ice.unitsSound_bpClr h' rfl id

/-- What the flags promise of the units: a unit is enabled as its flag says, a resumed core runs
with the user's breakpoints, and a released core with none. -/
def Ice.UnitsMatch (s : Ice) : Prop :=
  (∀ n, (s.unit n).enabled = s.wpEn n) ∧
    (s.event = .resumed → ∀ n, (s.wpSet n = true → s.unit n = s.wp n) ∧
      (s.wpSet n = false → (s.unit n).enabled = false)) ∧
    (s.event = .released → ∀ n, (s.unit n).enabled = false)

theorem Ice.Programmed.cases {s : Ice} {n : Fin 2} (h : s.Programmed n) :
    (s.wpSet n = true → s.unit n = s.wp n) ∧
      (s.wpSet n = false → (s.unit n).enabled = false) := by
  unfold Programmed at h
  split at h
  next hset => exact ⟨fun _ => h, fun hoff => absurd (hset.symm.trans hoff) (by decide)⟩
  next hset => exact ⟨fun hon => absurd hon hset, fun _ => h⟩

/-- The units match their flags in every run whose methods switch a unit together with its flag. -/
theorem units_match_flags (arm9 : Bool) (dbgStatus : BitVec 32) (halted : Bool) (as : List Act)
    (s : Ice) (hok : Lib.Along Ice.next FlagsFollow (Ice.opened arm9 dbgStatus halted) as)
    (hrun : Lib.exec Ice.next (Ice.opened arm9 dbgStatus halted) as = some s) : s.UnitsMatch := by
  have hstart : (Ice.opened arm9 dbgStatus halted).UnitsSound :=
    Ice.unitsSound_other (fun _ => Ice.enabled_zero rfl) (fun _ h => by cases h) rfl
  have h := Lib.exec_invariant (I := Ice.UnitsSound)
    (fun _ _ _ h hok hstep => units_next h hok hstep) hstart hok hrun
  exact ⟨h.flags, fun he n => (h.resumed he n).cases, h.released⟩

/-- A session with a breakpoint, steps and a release of the running core. -/
def unitSession : List Act :=
  [.connect, .status 0, .halt (some 0), .step 0x100 (some 0) none, .bpSet 0x200 4, .run,
    .coreHalts, .status 0, .lock (some 0), .access, .unlock false 0, .halt (some 0), .bpClr 0, .run,
    .release]

theorem units_match_flags_session :
    ∃ s, Lib.exec Ice.next (Ice.opened false 0 false) unitSession = some s ∧ s.UnitsMatch := by
  have hsome : (Lib.exec Ice.next (Ice.opened false 0 false) unitSession).isSome = true := by decide
  obtain ⟨s, hs⟩ := Option.isSome_iff_exists.mp hsome
  exact ⟨s, hs, units_match_flags false 0 false unitSession s (by decide) hs⟩

/-- The core is released with unit 0 as the request to halt. -/
theorem release_leaves_breakpoint :
    ¬ ∀ (as : List Act) (s : Ice), Lib.exec Ice.next (Ice.opened false 0 false) as = some s →
      s.UnitsMatch := by
  intro h
  have hbad : ((Lib.exec Ice.next (Ice.opened false 0 false)
      [.connect, .status 0, .halt (some 0), .release]).any
        fun s => (s.unit 0).enabled && !s.wpEn 0) = true := by decide
  obtain ⟨s, hs, hb⟩ := (Option.any_eq_true _ _).mp hbad
  rw [(h _ s hs).1 0] at hb
  cases hen : s.wpEn 0 <;> rw [hen] at hb <;> cases hb

end YardIce.Armice
