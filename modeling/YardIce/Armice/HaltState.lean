import YardIce.Armice.Driver
import YardIce.Lib.Runs

/-!
# The cached halt state

`mem_lock` and `mem_unlock` go by the cached debug status, and many methods save the context
without a look at it. The cached status is right again when the status is read or the core halts.
-/

namespace YardIce.Armice

namespace Ice

/-- What the watchpoint units do not touch. -/
structure HaltView where
  ctxSaved : Bool
  dbgStatus : BitVec 32
  halted : Bool
  misread : Bool
  savedRunning : Bool
  unseen : Bool

variable {s t : Ice}

def haltView (s : Ice) : HaltView :=
  ⟨s.ctxSaved, s.dbgStatus, s.halted, s.misread, s.savedRunning, s.unseen⟩

@[simp] theorem haltView_armWpBrkReq : s.armWpBrkReq.haltView = s.haltView := rfl

@[simp] theorem haltView_brkSet : s.brkSet.haltView = s.haltView := rfl

theorem haltView_stop : s.stop.haltView = { s.haltView with halted := true, unseen := false } := rfl

theorem haltView_codeExec :
    s.codeExec.haltView = { s.haltView with halted := false, unseen := true } := rfl

@[simp] theorem haltView_wpOff (n : Fin 2) : (s.wpOff n).haltView = s.haltView := by
  unfold wpOff
  split <;> rfl

@[simp] theorem haltView_wpRestore (n : Fin 2) : (s.wpRestore n).haltView = s.haltView := by
  unfold wpRestore
  split
  · rfl
  · rw [haltView_wpOff]

@[simp] theorem haltView_coreResumePrepare : s.coreResumePrepare.haltView = s.haltView :=
  calc s.coreResumePrepare.haltView = ((s.wpRestore 1).wpRestore 0).haltView := rfl
    _ = s.haltView := by rw [haltView_wpRestore, haltView_wpRestore]

@[simp] theorem haltView_connectWp (n : Fin 2) : (s.connectWp n).haltView = s.haltView := by
  unfold connectWp
  split <;> rfl

@[simp] theorem haltView_coreOnBreak (d : BitVec 32) : (s.coreOnBreak d).haltView = s.haltView := by
  have hoff : ({ s with thumb := d.getLsbD 4 }.wpOff 1).haltView = s.haltView :=
    haltView_wpOff 1
  unfold coreOnBreak
  dsimp only
  split
  · exact hoff
  · exact Eq.trans haltView_brkSet hoff

theorem haltView_coreStatusUpdate (d : BitVec 32) :
    (s.coreStatusUpdate d).haltView = { s.haltView with dbgStatus := d, unseen := false } := by
  unfold coreStatusUpdate
  dsimp only
  split
  · have h := haltView_coreOnBreak (s := s) d
    simp only [haltView, HaltView.mk.injEq] at h ⊢
    simp [h]
  · rfl

theorem haltView_coreBreakReq_none : (s.coreBreakReq none).haltView = s.haltView :=
  calc (s.coreBreakReq none).haltView = ((s.wpOff 1).wpOff 0).brkSet.haltView := rfl
    _ = s.haltView := by rw [haltView_brkSet, haltView_wpOff, haltView_wpOff]

theorem haltView_coreBreakReq_some (w : BitVec 16) :
    (s.coreBreakReq (some w)).haltView =
      { s.haltView with dbgStatus := statusAck w, halted := true, unseen := false } := by
  have hoff : ((s.wpOff 1).wpOff 0).brkSet.haltView = s.haltView := by
    rw [haltView_brkSet, haltView_wpOff, haltView_wpOff]
  unfold coreBreakReq
  dsimp only
  rw [haltView_coreStatusUpdate, ← hoff]
  rfl

/-- The status register tells whether the core is halted. -/
theorem status_dbgack (w : BitVec 16) : (s.status w).getLsbD 0 = s.halted := by
  cases h : s.halted <;> simp [status, h]

/-- The saved context and the cached status are those of a halted core, unless something happened
that the driver did not see. -/
structure HaltView.Sound (v : HaltView) : Prop where
  misread : v.misread = false
  savedRunning : v.savedRunning = false
  ctxSaved : v.ctxSaved = true → v.halted = true
  seen : v.unseen = false → v.dbgStatus.getLsbD 0 = true → v.halted = true

/-! ## Internal functions -/

theorem sound_save (h : s.haltView.Sound) (hhalt : s.halted = true) :
    s.coreStateSave.haltView.Sound := by
  unfold coreStateSave
  split
  · exact h
  · constructor
    · exact h.misread
    · show (s.savedRunning || !s.halted) = false
      rw [hhalt, Bool.not_true, Bool.or_false]
      exact h.savedRunning
    · exact fun _ => hhalt
    · exact h.seen

@[simp] theorem coreStateSave_halted : s.coreStateSave.halted = s.halted := by
  unfold coreStateSave
  split <;> rfl

/-- Nothing is read wrong from a cached status that is up to date. -/
theorem look_eq (h : s.haltView.Sound) (hseen : s.unseen = false) : s.look = s := by
  apply if_neg
  rintro ⟨hack, hrun⟩
  have hhalt : s.halted = true := h.seen hseen hack
  rw [hhalt] at hrun
  cases hrun

/-- The status that was just read is right. -/
theorem sound_statusUpdate (h : s.haltView.Sound) (w : BitVec 16) :
    (s.coreStatusUpdate (s.status w)).haltView.Sound := by
  rw [haltView_coreStatusUpdate]
  constructor
  · exact h.misread
  · exact h.savedRunning
  · exact h.ctxSaved
  · intro _ hack
    exact (status_dbgack w).symm.trans hack

theorem sound_stop (h : s.haltView.Sound) : s.stop.haltView.Sound where
  misread := h.misread
  savedRunning := h.savedRunning
  ctxSaved _ := rfl
  seen _ _ := rfl

theorem sound_breakReq (h : s.haltView.Sound) (w : Option (BitVec 16)) :
    (s.coreBreakReq w).haltView.Sound := by
  cases w with
  | none =>
      rw [haltView_coreBreakReq_none]
      exact h
  | some w =>
      rw [haltView_coreBreakReq_some]
      exact ⟨h.misread, h.savedRunning, fun _ => rfl, fun _ _ => rfl⟩

/-- A core that is restarted has no saved context. -/
theorem sound_restart (h : s.haltView.Sound) (hctx : s.ctxSaved = false) :
    s.jtagArmRestart.haltView.Sound where
  misread := h.misread
  savedRunning := h.savedRunning
  ctxSaved hs := by
    rw [show s.jtagArmRestart.haltView.ctxSaved = s.ctxSaved from rfl, hctx] at hs
    cases hs
  seen hu := by cases hu

theorem sound_drop (h : s.haltView.Sound) : s.ctxDrop.haltView.Sound where
  misread := h.misread
  savedRunning := h.savedRunning
  ctxSaved hs := by cases hs
  seen := h.seen

theorem sound_congr (h : s.haltView.Sound) (hv : t.haltView = s.haltView) : t.haltView.Sound := by
  rw [hv]
  exact h

theorem sound_statusAfter (h : s.haltView.Sound) (halts : Bool) (w : BitVec 16) :
    (s.statusAfter halts w).haltView.Sound := by
  cases halts with
  | true => exact sound_statusUpdate (sound_stop h) w
  | false => exact sound_statusUpdate h w

/-- The core is restarted without a saved context. -/
theorem sound_prepare (h : s.haltView.Sound) (hctx : s.ctxSaved = false) :
    s.coreResumePrepare.jtagArmRestart.haltView.Sound := by
  apply sound_restart
  · rw [haltView_coreResumePrepare]
    exact h
  · exact (congrArg HaltView.ctxSaved haltView_coreResumePrepare).trans hctx

theorem sound_resume (h : s.haltView.Sound) :
    s.coreStateRestore.coreResumePrepare.coreResume.haltView.Sound :=
  sound_congr (sound_prepare (sound_drop h) rfl) rfl

/-! ## Methods -/

theorem sound_connect (h : s.haltView.Sound) : s.connect.haltView.Sound := by
  have hv : ((s.connectWp 0).connectWp 1).haltView = s.haltView := by
    rw [haltView_connectWp, haltView_connectWp]
  constructor
  · exact (congrArg HaltView.misread hv).trans h.misread
  · exact (congrArg HaltView.savedRunning hv).trans h.savedRunning
  · intro hs
    cases hs
  · intro hu _
    have hhalt : ((s.connectWp 0).connectWp 1).halted = s.halted := congrArg HaltView.halted hv
    exact hhalt.trans (by simpa [connect, haltView] using hu)

theorem sound_release (h : s.haltView.Sound) : s.release.haltView.Sound := by
  have hv : s.release.haltView = s.coreStateRestore.haltView := by
    simp [release, haltView]
  exact sound_congr (sound_drop h) hv

theorem sound_run (h : s.haltView.Sound) : s.run.haltView.Sound := by
  unfold run
  split
  · exact h
  · exact sound_resume h

theorem haltView_sstepReady : s.sstepReady.haltView = s.haltView := by
  unfold sstepReady
  split <;> rfl

/-- A single step leaves the core halted, or running without a status that was seen. -/
theorem sound_insnStep (h : s.haltView.Sound) (addr : BitVec 32) (w : Option (BitVec 16)) :
    (s.insnStep addr w).1.ctxDrop.haltView.Sound := by
  have hrun : s.jtagArmRestart.ctxDrop.haltView.Sound :=
    ⟨h.misread, h.savedRunning, (by intro hs; cases hs), (by intro hu; cases hu)⟩
  unfold insnStep
  dsimp only
  split
  · exact sound_congr hrun rfl
  · cases w with
    | none => exact sound_congr hrun rfl
    | some w => exact sound_congr (sound_stop hrun) rfl

theorem insnStep_unseen {addr : BitVec 32} {w : Option (BitVec 16)}
    (hw : (s.insnStep addr w).2 = none) : (s.insnStep addr w).1.unseen = true := by
  unfold insnStep at hw ⊢
  dsimp only at hw ⊢
  split
  · rfl
  · cases w with
    | none => rfl
    | some w => split at hw <;> cases hw

theorem sound_step (h : s.haltView.Sound) (hhalt : s.halted = true) (addr : BitVec 32)
    (w w' : Option (BitVec 16)) : (s.step addr w w').haltView.Sound := by
  have hready := sound_congr (sound_save h hhalt) haltView_sstepReady
  have hstep := sound_insnStep hready addr w
  unfold step
  dsimp only
  split
  next hnone =>
    have hunseen := insnStep_unseen hnone
    apply sound_breakReq
    refine ⟨hstep.misread, hstep.savedRunning, hstep.ctxSaved, fun hu => ?_⟩
    exact absurd (hunseen.symm.trans hu) (by decide)
  · exact sound_congr hstep rfl

theorem sound_exec (h : s.haltView.Sound) (halts : Bool) (w : BitVec 16) :
    (s.exec halts w).haltView.Sound := by
  apply sound_statusAfter
  apply sound_prepare
  · exact sound_congr (sound_drop h) rfl
  · rfl

theorem sound_fifo (h : s.haltView.Sound) (hhalt : s.halted = true) (w : BitVec 16) :
    (s.fifo true (some w)).haltView.Sound := by
  have hsave := sound_save h hhalt
  have hv : (s.fifo true (some w)).haltView =
      { s.coreStateSave.haltView with halted := true, unseen := false } :=
    calc (s.fifo true (some w)).haltView = s.coreStateSave.codeExec.armWpBrkReq.stop.haltView := rfl
      _ = _ := by rw [haltView_stop, haltView_armWpBrkReq, haltView_codeExec]
  rw [hv]
  exact ⟨hsave.misread, hsave.savedRunning, fun _ => rfl, fun _ _ => rfl⟩

theorem sound_lockSaved (h : s.haltView.Sound) (hhalt : s.halted = true) :
    s.lockSaved.haltView.Sound := sound_congr (sound_save h hhalt) rfl

theorem sound_lock (h : s.haltView.Sound) (hseen : s.memLock = 0 → s.unseen = false)
    (w : Option (BitVec 16)) : (s.lock w).haltView.Sound := by
  unfold lock
  dsimp only
  split
  · exact h
  next hfree =>
    have hseen' := hseen (not_not.mp hfree)
    rw [look_eq h hseen']
    split
    · cases w with
      | none => exact sound_breakReq h none
      | some w =>
          apply sound_lockSaved
          · exact sound_breakReq h (some w)
          · exact congrArg HaltView.halted (haltView_coreBreakReq_some (s := s) w)
    next hack =>
      have hhalt : s.halted = true := h.seen hseen' (by simpa [dbgack, haltView] using hack)
      split
      · exact sound_lockSaved (sound_congr h rfl) hhalt
      · exact sound_lockSaved h hhalt

theorem sound_unlock (h : s.haltView.Sound) (hseen : s.memLock = 1 → s.unseen = false)
    (halts : Bool) (w : BitVec 16) : (s.unlock halts w).haltView.Sound := by
  have hdec : { s with memLock := s.memLock - 1 }.haltView.Sound := sound_congr h rfl
  unfold unlock
  split
  · exact h
  · dsimp only
    split
    · exact hdec
    next hlast =>
      have hone : s.memLock = 1 := by
        have := not_not.mp hlast
        bv_omega
      rw [look_eq hdec (hseen hone)]
      split
      · split
        · exact hdec
        · exact sound_congr (sound_drop h) rfl
      · split
        · exact hdec
        · apply sound_statusAfter
          exact sound_resume (sound_congr h rfl)

theorem sound_bpSet (h : s.haltView.Sound) (hseen : s.freeWp.isSome = true → s.unseen = false)
    (addr size : BitVec 32) : (s.bpSet addr size).haltView.Sound := by
  unfold bpSet
  split
  · exact h
  next id hid =>
    have hwp : { s with wp := Function.update s.wp id (bpWp addr size) }.haltView.Sound :=
      sound_congr h rfl
    dsimp only
    rw [look_eq hwp (hseen (by rw [hid]; rfl))]
    split <;> exact sound_congr h rfl

theorem sound_bpClr (h : s.haltView.Sound) (id : Nat) : (s.bpClr id).haltView.Sound := by
  unfold bpClr
  split <;> exact h

end Ice

/-! ## Runs -/

/-- Methods that use the saved context. -/
def Act.saves : Act → Bool
  | .step _ _ _ => true
  | .access => true
  | .fifo _ _ => true
  | _ => false

/-- Methods that go by the cached status. -/
def Ice.looks (s : Ice) : Act → Bool
  | .lock _ => s.memLock = 0
  | .unlock _ _ => s.memLock = 1
  | .bpSet _ _ => s.freeWp.isSome
  | _ => false

/-- A codelet that is started is also stopped. -/
def Act.comesBack : Act → Bool
  | .fifo dcc w => dcc && w.isSome
  | _ => true

/-- The context is used on a halted core only, and the cached status after it was read. -/
def HaltKnown (s : Ice) (a : Act) : Prop :=
  (a.saves = true → s.halted = true) ∧ (s.looks a = true → s.unseen = false) ∧
    a.comesBack = true

instance (s : Ice) (a : Act) : Decidable (HaltKnown s a) :=
  inferInstanceAs (Decidable ((a.saves = true → s.halted = true) ∧
    (s.looks a = true → s.unseen = false) ∧ a.comesBack = true))

theorem sound_next {s t : Ice} {a : Act} (h : s.haltView.Sound) (hok : HaltKnown s a)
    (hstep : s.next a = some t) : t.haltView.Sound := by
  obtain ⟨hsaves, hlooks, hback⟩ := hok
  have h' : { s with event := .other }.haltView.Sound := h
  cases a with
  | coreHalts =>
      simp only [Ice.next, Option.ite_none_left_eq_some, Option.some.injEq] at hstep
      exact hstep.2 ▸ Ice.sound_stop h
  | connect =>
      cases hstep
      exact Ice.sound_connect h'
  | release =>
      cases hstep
      exact Ice.sound_release h
  | status w =>
      cases hstep
      exact Ice.sound_statusUpdate h' w
  | halt w =>
      simp only [Ice.next, Option.ite_none_left_eq_some, Option.some.injEq] at hstep
      exact hstep.2 ▸ Ice.sound_breakReq h' w
  | run =>
      cases hstep
      exact Ice.sound_run h'
  | step addr w w' =>
      cases hstep
      exact Ice.sound_step h' (hsaves rfl) addr w w'
  | access =>
      cases hstep
      exact Ice.sound_save h' (hsaves rfl)
  | exec halts w =>
      cases hstep
      exact Ice.sound_exec h' halts w
  | fifo dcc w =>
      simp only [Act.comesBack, Bool.and_eq_true, Option.isSome_iff_exists] at hback
      obtain ⟨rfl, w, rfl⟩ := hback
      cases hstep
      exact Ice.sound_fifo h' (hsaves rfl) w
  | lock w =>
      simp only [Ice.next, Option.ite_none_left_eq_some, Option.some.injEq] at hstep
      exact hstep.2 ▸ Ice.sound_lock h' (fun e => hlooks (decide_eq_true e)) w
  | unlock halts w =>
      cases hstep
      exact Ice.sound_unlock h' (fun e => hlooks (decide_eq_true e)) halts w
  | bpSet addr size =>
      cases hstep
      exact Ice.sound_bpSet h' hlooks addr size
  | bpClr id =>
      cases hstep
      exact Ice.sound_bpClr h' id

/-- No method took a running core for a halted one, and a saved context is that of a halted core. -/
def Ice.HaltSound (s : Ice) : Prop :=
  s.misread = false ∧ s.savedRunning = false ∧ (s.ctxSaved = true → s.halted = true)

/-- The cached halt state is sound in every run whose methods know the state of the core. -/
theorem halt_state_sound (arm9 : Bool) (dbgStatus : BitVec 32) (halted : Bool) (as : List Act)
    (s : Ice) (hok : Lib.Along Ice.next HaltKnown (Ice.opened arm9 dbgStatus halted) as)
    (hrun : Lib.exec Ice.next (Ice.opened arm9 dbgStatus halted) as = some s) : s.HaltSound := by
  have hstart : (Ice.opened arm9 dbgStatus halted).haltView.Sound :=
    ⟨rfl, rfl, (by intro hs; cases hs), (by intro hu; cases hu)⟩
  have h := Lib.exec_invariant (I := fun s => s.haltView.Sound)
    (fun _ _ _ h hok hstep => sound_next h hok hstep) hstart hok hrun
  exact ⟨h.misread, h.savedRunning, h.ctxSaved⟩

/-- A session with a breakpoint, a step and an access to memory. -/
def session : List Act :=
  [.connect, .status 0, .halt (some 0), .access, .step 0x100 (some 0) none, .bpSet 0x200 4, .run,
    .coreHalts, .status 0, .lock (some 0), .access, .unlock false 0, .run, .status 0, .lock (some 0),
    .access, .unlock false 0]

theorem halt_state_sound_session :
    ∃ s, Lib.exec Ice.next (Ice.opened false 0 false) session = some s ∧ s.HaltSound := by
  have hsome : (Lib.exec Ice.next (Ice.opened false 0 false) session).isSome = true := by decide
  obtain ⟨s, hs⟩ := Option.isSome_iff_exists.mp hsome
  exact ⟨s, hs, halt_state_sound false 0 false session s (by decide) hs⟩

/-- After `armice_connect` the cached status of a running core reads as halted. -/
theorem connect_then_lock_saves_running :
    ¬ ∀ (as : List Act) (s : Ice), Lib.exec Ice.next (Ice.opened false 0 false) as = some s →
      s.HaltSound := by
  intro h
  have hbad : ((Lib.exec Ice.next (Ice.opened false 0 false) [.connect, .lock none]).any
      fun s => s.misread && s.savedRunning) = true := by decide
  obtain ⟨s, hs, hb⟩ := (Option.any_eq_true _ _).mp hbad
  rw [(h _ s hs).1] at hb
  cases hb

end YardIce.Armice
