import YardIce.Debugger.Breakpoints
import YardIce.Debugger.PollHandshake

/-!
# Polling and the run state

The `target_*` functions of `debugger.c` as far as they stop and start polling and
read or write the state of the debugger, interleaved with the poll thread.

## Implementation notes

A function is the sequence of its accesses between taking and releasing `dbg->busy`.
The answers of the target and of the tables that the functions branch on are their
arguments; an answer that is tested for failure only is a flag. Where
`target_halt_wait` waits, it releases the lock: what follows its wait is a call of
its own. Functions that take the lock and access neither are one function here.
-/

namespace YardIce.Polling

open YardIce.Lib
open YardIce.Breakpoints (DbgState)

/-- What a function still has to do before it releases the lock. -/
inductive Prog
  | ret
  | pollStop (k : Prog)
  | pollStart (k : Prog)
  | getState (k : DbgState → Prog)
  | setState (s : DbgState) (k : Prog)
  /-- Writes `cfg.enable_ice_polling`. -/
  | setPolling (flag : Bool) (k : Prog)
  /-- Reads `poll_enabled`. -/
  | getEnabled (k : Bool → Prog)

/-! ## The functions -/

/-- `ICE_ST_HALT`. -/
def iceStHalt : BitVec 32 := 1

/-- The halt bit of the value of `ice_status`. -/
def halts (st : BitVec 32) : Bool := st &&& iceStHalt ≠ 0

/-- The modes of `target_reset`; any other number does nothing. -/
inductive ResetMode
  | auto
  | hard
  | soft
  | core
  | dbg
  | sys
  | other
  deriving DecidableEq

/-- `dbg_status`, with the value of `ice_status`. -/
def dbgStatus (st : BitVec 32) (k : Prog) : Prog :=
  .getState fun s =>
    if DbgState.unconnected.num < s.num then
      if st.msb then k
      else if halts st then
        if s ≠ .halted then .setState .halted k else k
      else if s ≠ .running then .setState .running (.pollStart k)
      else k
    else k

/-- The test for a connected target at the start of most functions. -/
def whenConnected (k : Prog) : Prog :=
  .getState fun s => if s.num < DbgState.connected.num then .ret else k

/-- The state after `ice_release`. -/
def released (fails : Bool) : DbgState := if fails then .outOfSync else .unconnected

/-- Polling is stopped around an access to the target. -/
def polledAccess : Prog := .pollStop (.pollStart .ret)

def targetStatus (st : BitVec 32) : Prog := dbgStatus st .ret

/-- The loop of `target_halt_wait`. -/
def haltWaitLoop (st : BitVec 32) : Prog :=
  .getEnabled fun enabled => if enabled then .ret else dbgStatus st .ret

def targetHaltWait (st : BitVec 32) : Prog := whenConnected (haltWaitLoop st)

/-- `target_halt_wait` after its wait. -/
def targetHaltWaitResume (timeout : Bool) (st : BitVec 32) : Prog :=
  if timeout then .ret else haltWaitLoop st

def targetConnect (force connectFails activateFails : Bool) (st : BitVec 32) : Prog :=
  .getState fun s =>
    if s.num < DbgState.unconnected.num then .ret
    else if (s = .running ∨ s = .halted) ∧ !force then .ret
    else if connectFails then .ret
    else .setState .connected (if activateFails then .ret else dbgStatus st .ret)

def targetRelease (fails : Bool) : Prog :=
  whenConnected (.pollStop (.setState (released fails) .ret))

def targetHalt (reqFails : Bool) (st : BitVec 32) : Prog :=
  .getState fun s =>
    if s ≠ .running then .ret
    else .pollStop (if reqFails then .setState .outOfSync .ret else dbgStatus st .ret)

def targetRun (activateFails runFails : Bool) (st : BitVec 32) : Prog :=
  .getState fun s =>
    if s.num < DbgState.connected.num then .ret
    else if s = .running then .ret
    else if activateFails then .ret
    else if runFails then .setState .outOfSync .ret
    else .setState .connected (dbgStatus st .ret)

def targetPrintInsn (lockFails : Bool) : Prog :=
  whenConnected (.pollStop (if lockFails then .setState .outOfSync .ret else .pollStart .ret))

/-- `target_mem_read`, `target_mem_write`, `target_mem_erase`, `target_nand_bb_check`,
`target_nand_block_erase`, `target_breakpoint_delete`, `target_breakpoint_all_disable`
and `target_breakpoint_all_enable`. -/
def targetMemRead : Prog := whenConnected polledAccess

def targetBreakpointSet (allocFails active : Bool) : Prog :=
  whenConnected (if allocFails then .ret else if active then .ret else polledAccess)

/-- `target_breakpoint_clear`, `target_breakpoint_enable` and `target_breakpoint_disable`. -/
def targetBreakpointClear (found : Bool) : Prog :=
  whenConnected (if found then polledAccess else .ret)

/-- The end of `target_reset`: polling is started before the state is set. -/
def resetStatus (st : BitVec 32) : Prog :=
  .getState fun s =>
    if DbgState.connected.num < s.num then
      if halts st then .setState .halted .ret else .pollStart (.setState .running .ret)
    else .ret

/-- `target_reset`; `deflt` is the mode of the target. -/
def targetReset (mode deflt : ResetMode) (releaseFails : Bool) (st : BitVec 32) : Prog :=
  let mode := if mode = .auto then deflt else mode
  .pollStop <|
    if mode = .hard then
      .getState fun s =>
        if DbgState.connected.num ≤ s.num then
          .setState (released releaseFails) (resetStatus st)
        else resetStatus st
    else if mode = .soft then whenConnected (resetStatus st)
    else resetStatus st

def targetInit (st : BitVec 32) : Prog :=
  whenConnected <| .pollStop <|
    if halts st then .setState .halted .ret else .pollStart (.setState .running .ret)

def targetProbe : Prog := .pollStop .ret

def targetTapTrst (releaseFails : Bool) : Prog :=
  .pollStop (.setState (released releaseFails) .ret)

def targetNrst (releaseFails : Bool) : Prog :=
  .pollStop (.setState (released releaseFails) .ret)

def targetPowerCtl (on releaseFails : Bool) : Prog :=
  if on then .ret else .pollStop (.setState (released releaseFails) .ret)

/-- `target_ice_configure`: the target is kept, or polling is stopped and the driver
changed if the new target has another one. It `completes` when none of the steps that
follow makes it return. -/
def targetIceConfigure (keep driverChange openFails completes : Bool) : Prog :=
  let rest : Prog := if completes then .setState .unconnected .ret else .ret
  if keep then .ret
  else
    .pollStop <|
      if driverChange then .setState .undef (if openFails then .ret else rest) else rest

def targetConfig (releaseFails : Bool) : Prog :=
  .getState fun s =>
    if s.num < DbgState.unconnected.num then .ret
    else if DbgState.connected.num ≤ s.num then
      .pollStop (.setState (released releaseFails) .ret)
    else .ret

def targetIceTest : Prog :=
  .pollStop <| .getState fun s =>
    if DbgState.connected.num < s.num then .setState .connected (.pollStart .ret)
    else .pollStart .ret

def targetIceInfo : Prog := polledAccess

def targetTest : Prog := .pollStop .ret

def targetEnableIcePoll (flag : Bool) : Prog :=
  .pollStop (.setPolling flag (.pollStart .ret))

/-- A call with what it finds. -/
inductive Op
  | status (st : BitVec 32)
  | haltWait (st : BitVec 32)
  | haltWaitResume (timeout : Bool) (st : BitVec 32)
  | connect (force connectFails activateFails : Bool) (st : BitVec 32)
  | release (fails : Bool)
  | halt (reqFails : Bool) (st : BitVec 32)
  | run (activateFails runFails : Bool) (st : BitVec 32)
  | printInsn (lockFails : Bool)
  | memRead
  | breakpointSet (allocFails active : Bool)
  | breakpointClear (found : Bool)
  | reset (mode deflt : ResetMode) (releaseFails : Bool) (st : BitVec 32)
  | init (st : BitVec 32)
  | probe
  | tapTrst (releaseFails : Bool)
  | nrst (releaseFails : Bool)
  | powerCtl (on releaseFails : Bool)
  | iceConfigure (keep driverChange openFails completes : Bool)
  | config (releaseFails : Bool)
  | iceTest
  | iceInfo
  | test
  | enableIcePoll (flag : Bool)
  /-- A function that takes the lock and accesses neither the state nor polling. -/
  | other

def Op.code : Op → Prog
  | .status st => targetStatus st
  | .haltWait st => targetHaltWait st
  | .haltWaitResume timeout st => targetHaltWaitResume timeout st
  | .connect force connectFails activateFails st =>
      targetConnect force connectFails activateFails st
  | .release fails => targetRelease fails
  | .halt reqFails st => targetHalt reqFails st
  | .run activateFails runFails st => targetRun activateFails runFails st
  | .printInsn lockFails => targetPrintInsn lockFails
  | .memRead => targetMemRead
  | .breakpointSet allocFails active => targetBreakpointSet allocFails active
  | .breakpointClear found => targetBreakpointClear found
  | .reset mode deflt releaseFails st => targetReset mode deflt releaseFails st
  | .init st => targetInit st
  | .probe => targetProbe
  | .tapTrst releaseFails => targetTapTrst releaseFails
  | .nrst releaseFails => targetNrst releaseFails
  | .powerCtl on releaseFails => targetPowerCtl on releaseFails
  | .iceConfigure keep driverChange openFails completes =>
      targetIceConfigure keep driverChange openFails completes
  | .config releaseFails => targetConfig releaseFails
  | .iceTest => targetIceTest
  | .iceInfo => targetIceInfo
  | .test => targetTest
  | .enableIcePoll flag => targetEnableIcePoll flag
  | .other => .ret

/-! ## Runs -/

/-- The debugger: the handshake, the state and what the holder of the lock still does. -/
structure Debugger (ι : Type) where
  hs : Handshake ι
  state : DbgState
  enableIcePolling : Bool
  prog : Prog

/-- The state left by `debugger_init`. -/
def debuggerInit {ι : Type} : Debugger ι := ⟨init, .undef, true, .ret⟩

/-- A step that is not an access of the holder of the lock: one of the poll thread, or
the end of a wait. -/
def Action.isWait {ι : Type} : Action ι → Bool
  | .lock _ => false
  | .unlock _ => false
  | .start _ _ => false
  | .stop _ => false
  | _ => true

/-- A step of the debugger. -/
inductive Event (ι : Type)
  /-- A thread takes the lock for a call. -/
  | call (i : ι) (op : Op)
  /-- The holder of the lock performs its next access, or releases the lock. -/
  | access (i : ι)
  | wait (a : Action ι)

variable {ι : Type} [DecidableEq ι]

/-- An access other than to the handshake. -/
def Debugger.own (d : Debugger ι) (i : ι) (next : Debugger ι) : Option (Debugger ι) :=
  if d.hs.busy = some i ∧ d.hs.caller = .away then some next else none

/-- The next access of the holder of the lock. -/
def Debugger.access (d : Debugger ι) (i : ι) : Option (Debugger ι) :=
  match d.prog with
  | .ret => (Polling.step d.hs (.unlock i)).map fun h => { d with hs := h }
  | .pollStop k => (Polling.step d.hs (.stop i)).map fun h => { d with hs := h, prog := k }
  | .pollStart k =>
      (Polling.step d.hs (.start i (d.state = .running && d.enableIcePolling))).map fun h =>
        { d with hs := h, prog := k }
  | .getState k => d.own i { d with prog := k d.state }
  | .setState s k => d.own i { d with state := s, prog := k }
  | .setPolling flag k => d.own i { d with enableIcePolling := flag, prog := k }
  | .getEnabled k => d.own i { d with prog := k d.hs.enabled }

def Debugger.step (d : Debugger ι) : Event ι → Option (Debugger ι)
  | .call i op =>
      (Polling.step d.hs (.lock i)).map fun h => { d with hs := h, prog := op.code }
  | .access i => d.access i
  | .wait a =>
      if a.isWait then (Polling.step d.hs a).map fun h => { d with hs := h } else none

/-! ## Where polling is lost -/

/-- The run state is followed by polling. -/
def Debugger.Watched (d : Debugger ι) : Prop :=
  d.enableIcePolling = true → d.state = .running →
    d.hs.enabled = true ∨ d.hs.observed = true

/-- The calls that leave a running target unwatched: a halt request after which the target
is not seen halted, a reset or initialisation that sets a target running which was not,
and `target_probe`, `target_test` or an unfinished `target_ice_configure` while it runs.
None of them matters after the poll thread has observed a halt or a fault. -/
def Keeps (s : DbgState) : Op → Prop
  | .halt reqFails st => s = .running → reqFails = true ∨ (st.msb = false ∧ halts st = true)
  | .reset mode deflt _ st =>
      s = .halted → (if mode = .auto then deflt else mode) ≠ .hard → halts st = true
  | .init st => s = .connected ∨ s = .halted → halts st = true
  | .probe => s ≠ .running
  | .test => s ≠ .running
  | .iceConfigure keep driverChange _ completes =>
      s = .running → keep = true ∨ driverChange = true ∨ completes = true
  | _ => True

instance (s : DbgState) : (op : Op) → Decidable (Keeps s op)
  | .halt _ _ => inferInstanceAs (Decidable (_ → _ ∨ (_ ∧ _)))
  | .reset _ _ _ _ => inferInstanceAs (Decidable (_ → _ → _))
  | .init _ => inferInstanceAs (Decidable (_ ∨ _ → _))
  | .probe => inferInstanceAs (Decidable (_ ≠ _))
  | .test => inferInstanceAs (Decidable (_ ≠ _))
  | .iceConfigure _ _ _ _ => inferInstanceAs (Decidable (_ → _ ∨ _ ∨ _))
  | .status _ | .haltWait _ | .haltWaitResume _ _ | .connect _ _ _ _ | .release _
  | .run _ _ _ | .printInsn _ | .memRead | .breakpointSet _ _ | .breakpointClear _
  | .tapTrst _ | .nrst _ | .powerCtl _ _ | .config _ | .iceTest | .iceInfo
  | .enableIcePoll _ | .other => inferInstanceAs (Decidable True)

/-- The condition on the calls of a run. -/
def Careful (d : Debugger ι) : Event ι → Prop
  | .call _ op => d.enableIcePolling = true → d.hs.observed = false → Keeps d.state op
  | _ => True

instance (d : Debugger ι) : (ev : Event ι) → Decidable (Careful d ev)
  | .call _ _ => inferInstanceAs (Decidable (_ → _ → _))
  | .access _ | .wait _ => inferInstanceAs (Decidable True)

/-! ## What a call ends with -/

/-- The lock is released with the target watched, from a state `s` with polling allowed or
not (`e`), where polling is known to be on or to have ended by itself (`w`), or to have
ended by itself (`o`). -/
def Ends : Prog → DbgState → Bool → Bool → Bool → Prop
  | .ret, s, e, w, _ => e = true → s = .running → w = true
  | .pollStop k, s, e, _, o => Ends k s e o o
  | .pollStart k, s, e, w, o =>
      if s = .running ∧ e = true then Ends k s e true false else Ends k s e w o
  | .getState k, s, e, w, o => Ends (k s) s e w o
  | .setState s k, _, e, w, o => Ends k s e w o
  | .setPolling flag k, s, _, w, o => Ends k s flag w o
  | .getEnabled k, s, e, w, o => Ends (k true) s e true false ∧ Ends (k false) s e w o

attribute [local simp] Ends

theorem Ends.mono {p : Prog} {s : DbgState} {e w w' o o' : Bool} (h : Ends p s e w o)
    (hw : w = true → w' = true) (ho : o = true → o' = true) : Ends p s e w' o' := by
  induction p generalizing s e w w' o o' with
  | ret => exact fun he hs => hw (h he hs)
  | pollStop k ih => exact ih h ho ho
  | pollStart k ih =>
      simp only [Ends] at h ⊢
      split
      · next hc =>
          rw [if_pos hc] at h
          exact h
      · next hc =>
          rw [if_neg hc] at h
          exact ih h hw ho
  | getState k ih => exact ih s h hw ho
  | setState s' k ih => exact ih h hw ho
  | setPolling flag k ih => exact ih h hw ho
  | getEnabled k ih => exact ⟨h.1, ih false h.2 hw ho⟩

section Calls

variable {s : DbgState} {e w o : Bool} {k : Prog}

theorem setState_ends {s' : DbgState} (hs : s' ≠ .running) : Ends (.setState s' .ret) s e w o :=
  fun _ h => absurd h hs

theorem released_ne_running (fails : Bool) : released fails ≠ .running := by
  cases fails <;> decide

theorem stopReleased_ends (fails : Bool) :
    Ends (.pollStop (.setState (released fails) .ret)) s e w o :=
  fun _ h => absurd h (released_ne_running fails)

theorem stopOnly_ends (h : e = true → o = false → s ≠ .running) :
    Ends (.pollStop .ret) s e w o := by
  intro he hs
  cases ho : o with
  | true => rfl
  | false => exact absurd hs (h he ho)

/-- A stopped target is watched again after a start, and need not be unless it runs. -/
theorem pollStart_ends : Ends (.pollStart .ret) s e w o := by
  simp only [Ends]
  split
  · simp
  · next hc => exact fun he hs => absurd ⟨hs, he⟩ hc

theorem polledAccess_ends : Ends polledAccess s e w o := pollStart_ends

/-- A target that runs is connected. -/
theorem whenConnected_ends (h : DbgState.connected.num ≤ s.num → Ends k s e w o) :
    Ends (whenConnected k) s e w o := by
  simp only [whenConnected, Ends]
  split
  · next hc =>
      rintro - rfl
      exact absurd hc (by decide)
  · next hc => exact h (Int.not_lt.mp hc)

/-- The state is set before polling is started, so that only a target that was already
taken to run can be left as it was. -/
theorem dbgStatus_ends {st : BitVec 32}
    (hw : e = true → s = .running → w = true ∨ (st.msb = false ∧ halts st = true)) :
    Ends (dbgStatus st .ret) s e w o := by
  simp only [dbgStatus, Ends]
  split
  · split
    · next hm =>
        intro he hs
        exact (hw he hs).resolve_right (by simp [hm])
    · split
      · split
        · exact setState_ends (by decide)
        · next hs =>
            intro _ hr
            simp [hr] at hs
      · next hh =>
          split
          · exact pollStart_ends
          · intro he hs
            exact (hw he hs).resolve_right (by simp [hh])
  · next hc =>
      rintro - rfl
      exact absurd (by decide) hc

/-- Polling is started before the state is set: it is on only if the target ran before. -/
theorem lateStart_ends {st : BitVec 32}
    (h : e = true → halts st = true ∨ s = .running ∨ w = true) :
    Ends (if halts st then .setState .halted .ret else .pollStart (.setState .running .ret))
      s e w o := by
  split
  · exact setState_ends (by decide)
  · next hh =>
      simp only [Ends]
      split
      · simp
      · next hc =>
          intro he _
          obtain hst | hs | hw := h he
          · exact absurd hst hh
          · exact absurd ⟨hs, he⟩ hc
          · exact hw

theorem resetStatus_ends {st : BitVec 32}
    (h : e = true → s = .halted → halts st = true ∨ w = true) :
    Ends (resetStatus st) s e w o := by
  simp only [resetStatus, Ends]
  split
  · next hc =>
      apply lateStart_ends
      intro he
      cases s with
      | halted => exact (h he rfl).imp_right Or.inr
      | running => exact Or.inr (Or.inl rfl)
      | _ => exact absurd hc (by decide)
  · next hc =>
      rintro - rfl
      exact absurd (by decide) hc

theorem targetReset_ends {mode deflt : ResetMode} {releaseFails : Bool} {st : BitVec 32}
    (h : e = true → o = false → s = .halted →
      (if mode = .auto then deflt else mode) ≠ .hard → halts st = true) :
    Ends (targetReset mode deflt releaseFails st) s e w o := by
  simp only [targetReset, Ends]
  generalize (if mode = .auto then deflt else mode) = m at h ⊢
  split
  · simp only [Ends]
    split
    · exact resetStatus_ends fun _ hs => absurd hs (by cases releaseFails <;> decide)
    · next hc =>
        apply resetStatus_ends
        rintro - rfl
        exact absurd (by decide) hc
  · next hm =>
      have hrest : Ends (resetStatus st) s e o o := by
        apply resetStatus_ends
        intro he hs
        cases ho : o with
        | true => exact Or.inr rfl
        | false => exact Or.inl (h he ho hs hm)
      split
      · exact whenConnected_ends fun _ => hrest
      · exact hrest

theorem targetInit_ends {st : BitVec 32}
    (h : e = true → o = false → s = .connected ∨ s = .halted → halts st = true) :
    Ends (targetInit st) s e w o := by
  apply whenConnected_ends
  intro hc
  apply lateStart_ends
  intro he
  cases ho : o with
  | true => exact Or.inr (Or.inr rfl)
  | false =>
      cases s with
      | connected => exact Or.inl (h he ho (Or.inl rfl))
      | running => exact Or.inr (Or.inl rfl)
      | halted => exact Or.inl (h he ho (Or.inr rfl))
      | _ => exact absurd hc (by decide)

theorem targetHalt_ends {reqFails : Bool} {st : BitVec 32}
    (h : e = true → o = false → s = .running →
      reqFails = true ∨ (st.msb = false ∧ halts st = true)) :
    Ends (targetHalt reqFails st) s e w o := by
  simp only [targetHalt, Ends]
  split
  · next hs => exact fun _ hr => absurd hr hs
  · simp only [Ends]
    split
    · exact setState_ends (by decide)
    · next hreq =>
        apply dbgStatus_ends
        intro he hs
        cases ho : o with
        | true => exact Or.inl rfl
        | false => exact Or.inr ((h he ho hs).resolve_left hreq)

theorem targetConnect_ends {force connectFails activateFails : Bool} {st : BitVec 32}
    (hw : e = true → s = .running → w = true) :
    Ends (targetConnect force connectFails activateFails st) s e w o := by
  simp only [targetConnect, Ends]
  split
  · exact hw
  · split
    · exact hw
    · split
      · exact hw
      · simp only [Ends]
        split
        · simp [Ends]
        · exact dbgStatus_ends (by simp)

theorem targetRun_ends {activateFails runFails : Bool} {st : BitVec 32}
    (hw : e = true → s = .running → w = true) :
    Ends (targetRun activateFails runFails st) s e w o := by
  simp only [targetRun, Ends]
  split
  · exact hw
  · split
    · exact hw
    · split
      · exact hw
      · split
        · exact setState_ends (by decide)
        · exact dbgStatus_ends (by simp)

theorem targetIceConfigure_ends {keep driverChange openFails completes : Bool}
    (hw : e = true → s = .running → w = true)
    (h : e = true → o = false → s = .running →
      keep = true ∨ driverChange = true ∨ completes = true) :
    Ends (targetIceConfigure keep driverChange openFails completes) s e w o := by
  simp only [targetIceConfigure]
  split
  · exact hw
  · next hkeep =>
      simp only [Ends]
      split
      · simp only [Ends]
        split
        · simp [Ends]
        · split
          · exact setState_ends (by decide)
          · simp [Ends]
      · next hdrv =>
          split
          · exact setState_ends (by decide)
          · next hcompl =>
              intro he hs
              cases ho : o with
              | true => rfl
              | false =>
                  obtain hk | hd | hc := h he ho hs
                  · exact absurd hk hkeep
                  · exact absurd hd hdrv
                  · exact absurd hc hcompl

theorem haltWaitLoop_ends {st : BitVec 32} (hw : e = true → s = .running → w = true) :
    Ends (haltWaitLoop st) s e w o :=
  ⟨fun _ _ => rfl, dbgStatus_ends fun he hs => Or.inl (hw he hs)⟩

/-- Every call from a watched state ends in one, but for the calls that lose polling. -/
theorem Op.ends (op : Op) (hk : e = true → o = false → Keeps s op)
    (hw : e = true → s = .running → w = true) : Ends op.code s e w o := by
  cases op with
  | status st => exact dbgStatus_ends fun he hs => Or.inl (hw he hs)
  | haltWait st => exact whenConnected_ends fun _ => haltWaitLoop_ends hw
  | haltWaitResume timeout st =>
      cases timeout with
      | true => exact hw
      | false => exact haltWaitLoop_ends hw
  | connect force connectFails activateFails st => exact targetConnect_ends hw
  | release fails => exact whenConnected_ends fun _ => stopReleased_ends fails
  | halt reqFails st => exact targetHalt_ends hk
  | run activateFails runFails st => exact targetRun_ends hw
  | printInsn lockFails =>
      apply whenConnected_ends
      intro _
      cases lockFails with
      | true => exact setState_ends (s := s) (w := o) (o := o) (by decide)
      | false => exact pollStart_ends
  | memRead => exact whenConnected_ends fun _ => polledAccess_ends
  | breakpointSet allocFails active =>
      apply whenConnected_ends
      intro _
      cases allocFails <;> cases active
      all_goals first | exact polledAccess_ends | exact hw
  | breakpointClear found =>
      apply whenConnected_ends
      intro _
      cases found with
      | true => exact polledAccess_ends
      | false => exact hw
  | reset mode deflt releaseFails st => exact targetReset_ends hk
  | init st => exact targetInit_ends hk
  | probe => exact stopOnly_ends hk
  | tapTrst releaseFails => exact stopReleased_ends releaseFails
  | nrst releaseFails => exact stopReleased_ends releaseFails
  | powerCtl on releaseFails =>
      cases on with
      | true => exact hw
      | false => exact stopReleased_ends releaseFails
  | iceConfigure keep driverChange openFails completes => exact targetIceConfigure_ends hw hk
  | config releaseFails =>
      simp only [Op.code, targetConfig, Ends]
      split
      · exact hw
      · split
        · exact stopReleased_ends releaseFails
        · exact hw
  | iceTest =>
      simp only [Op.code, targetIceTest, Ends]
      split
      · exact pollStart_ends
      · exact pollStart_ends
  | iceInfo => exact polledAccess_ends
  | test => exact stopOnly_ends hk
  | enableIcePoll flag => exact pollStart_ends
  | other => exact hw

end Calls

/-! ## The invariant -/

namespace Handshake

/-- Polling is on or has ended by itself, as far as the holder of the lock knows: after a
wait of `poll_start` it is on. -/
def knownOn (h : Handshake ι) : Bool :=
  match h.caller with
  | .away => h.enabled || h.observed
  | .stopping _ => h.observed
  | .starting _ => true

/-- Polling has ended by itself. -/
def knownEnded (h : Handshake ι) : Bool :=
  match h.caller with
  | .starting _ => false
  | _ => h.observed

end Handshake

/-- What the holder of the lock still does leads to a watched state. -/
def Debugger.Leads (d : Debugger ι) : Prop :=
  Ends d.prog d.state d.enableIcePolling d.hs.knownOn d.hs.knownEnded

structure Debugger.Inv (d : Debugger ι) : Prop where
  hs : Polling.Inv d.hs
  /-- Polling that ended by itself is off. -/
  ended : d.hs.observed = true → d.hs.enabled = false
  free : d.hs.busy = none → d.hs.caller = .away ∧ d.Watched
  held : d.hs.busy ≠ none → d.Leads

section Waits

omit [DecidableEq ι]

variable {h g : Handshake ι}

/-- Without a request to start, the poll thread does not start polling. -/
theorem pollTop_quiet (hr : h.startReq = false) :
    (pollTop h).enabled = h.enabled ∧ (pollTop h).observed = h.observed ∧
      (pollTop h).caller = h.caller := by
  unfold pollTop waitStart
  split
  · exact ⟨rfl, rfl, rfl⟩
  · rw [if_neg (by simp [hr])]
    exact ⟨rfl, rfl, rfl⟩

theorem pollSection_quiet (hr : h.startReq = false) (halt fault : Bool) :
    (pollSection halt fault h).enabled = (h.enabled && !h.stopReq && !halt && !fault) ∧
      (pollSection halt fault h).observed = (h.observed || halt || fault) ∧
      (pollSection halt fault h).caller =
        if h.stopReq then h.caller.signalled else h.caller := by
  unfold pollSection
  cases hs : h.stopReq <;> cases halt <;> cases fault
  all_goals
    refine ⟨(pollTop_quiet ?_).1.trans ?_, (pollTop_quiet ?_).2.1.trans ?_,
      (pollTop_quiet ?_).2.2.trans ?_⟩
    all_goals simp [signalCaller, hr]

theorem pollTop_isStarting : (pollTop h).caller.isStarting = h.caller.isStarting := by
  unfold pollTop waitStart
  split
  · rfl
  · split
    · simp [signalCaller]
    · rfl

theorem pollSection_isStarting (halt fault : Bool) :
    (pollSection halt fault h).caller.isStarting = h.caller.isStarting := by
  unfold pollSection
  rw [pollTop_isStarting]
  cases h.stopReq <;> cases halt <;> cases fault <;> simp [signalCaller]

theorem pollTop_ended (he : h.observed = true → h.enabled = false) :
    (pollTop h).observed = true → (pollTop h).enabled = false := by
  unfold pollTop waitStart
  split
  · exact he
  · split
    · simp [signalCaller]
    · exact he

theorem pollSection_ended (he : h.observed = true → h.enabled = false) (halt fault : Bool) :
    (pollSection halt fault h).observed = true →
      (pollSection halt fault h).enabled = false := by
  unfold pollSection
  apply pollTop_ended
  cases h.stopReq <;> cases halt <;> cases fault
  all_goals first
    | exact he
    | simp [signalCaller]

/-- A step that keeps the lock and takes nothing from what its holder knows. -/
structure Waited (h g : Handshake ι) : Prop where
  busy : g.busy = h.busy
  away : h.caller = .away → g.caller = .away
  ended : g.observed = true → g.enabled = false
  on : h.knownOn = true → g.knownOn = true
  known : h.knownEnded = true → g.knownEnded = true

/-- In `poll_start` it is known that polling will be on, whatever the poll thread does. -/
theorem Waited.of_starting {b : Bool} (hh : h.caller = .starting b)
    (hg : g.caller.isStarting = true) (hb : g.busy = h.busy)
    (he : g.observed = true → g.enabled = false) : Waited h g := by
  refine ⟨hb, by simp [hh], he, ?_, ?_⟩
  · intro _
    unfold Handshake.knownOn
    cases hgc : g.caller with
    | starting _ => rfl
    | _ =>
        rw [hgc] at hg
        cases hg
  · intro hk
    rw [Handshake.knownEnded, hh] at hk
    cases hk

theorem pollTop_busy : (pollTop h).busy = h.busy := by
  unfold pollTop waitStart
  split
  · rfl
  · split <;> rfl

theorem pollSection_busy (halt fault : Bool) : (pollSection halt fault h).busy = h.busy := by
  unfold pollSection
  rw [pollTop_busy]
  cases h.stopReq <;> cases halt <;> cases fault <;> rfl

theorem pollTop_waited (hi : Inv h) (hend : h.observed = true → h.enabled = false) :
    Waited h (pollTop h) := by
  by_cases hc : ∃ b, h.caller = .starting b
  · obtain ⟨b, hb⟩ := hc
    apply Waited.of_starting hb _ pollTop_busy (pollTop_ended hend)
    rw [pollTop_isStarting, hb]
    rfl
  · have hr : h.startReq = false := by
      rw [hi.startReq]
      cases hcc : h.caller with
      | starting b => exact absurd ⟨b, hcc⟩ hc
      | _ => rfl
    obtain ⟨he, ho, hg⟩ := pollTop_quiet hr
    refine ⟨pollTop_busy, fun ha => hg.trans ha, pollTop_ended hend, ?_, ?_⟩
    · rw [Handshake.knownOn, Handshake.knownOn, hg, he, ho]
      exact id
    · rw [Handshake.knownEnded, Handshake.knownEnded, hg, ho]
      exact id

/-- The section after `ice_poll` ends polling on a request to stop or for a halt or fault,
which it records. -/
theorem pollSection_waited (hi : Inv h) (hend : h.observed = true → h.enabled = false)
    (halt fault : Bool) : Waited h (pollSection halt fault h) := by
  have hb := pollSection_busy (h := h) halt fault
  have hend' := pollSection_ended hend halt fault
  cases hc : h.caller with
  | starting b =>
      apply Waited.of_starting hc _ hb hend'
      rw [pollSection_isStarting, hc]
      rfl
  | stopping b =>
      have hs : h.stopReq = true := by rw [hi.stopReq, hc]; rfl
      have hr : h.startReq = false := by rw [hi.startReq, hc]; rfl
      obtain ⟨-, ho, hg⟩ := pollSection_quiet hr halt fault
      rw [hs, if_pos rfl, hc] at hg
      refine ⟨hb, by simp [hc], hend', ?_, ?_⟩
      · rw [Handshake.knownOn, Handshake.knownOn, hc, hg, ho]
        simp +contextual [Caller.signalled]
      · rw [Handshake.knownEnded, Handshake.knownEnded, hc, hg, ho]
        simp +contextual [Caller.signalled]
  | away =>
      have hs : h.stopReq = false := by rw [hi.stopReq, hc]; rfl
      have hr : h.startReq = false := by rw [hi.startReq, hc]; rfl
      obtain ⟨he, ho, hg⟩ := pollSection_quiet hr halt fault
      rw [hs, if_neg (by simp), hc] at hg
      refine ⟨hb, fun _ => hg, hend', ?_, ?_⟩
      · rw [Handshake.knownOn, Handshake.knownOn, hc, hg, ho, he, hs]
        cases halt <;> cases fault <;> simp +contextual
      · rw [Handshake.knownEnded, Handshake.knownEnded, hc, hg, ho]
        simp +contextual

theorem resume_waited (hend : h.observed = true → h.enabled = false)
    (hg : resume h = some g) : Waited h g := by
  unfold resume at hg
  split at hg
  · next hc =>
      split at hg <;> obtain rfl := Option.some.inj hg
      · next he =>
          refine ⟨rfl, by simp [hc], hend, ?_, ?_⟩
          · intro _
            simp [Handshake.knownOn, he]
          · simp [Handshake.knownEnded, hc]
      · exact Waited.of_starting hc rfl rfl hend
  · next hc =>
      split at hg <;> obtain rfl := Option.some.inj hg
      · refine ⟨rfl, by simp [hc], hend, ?_, ?_⟩
        · simp [Handshake.knownOn, hc]
        · simp [Handshake.knownEnded, hc]
      · refine ⟨rfl, by simp, hend, ?_, ?_⟩
        · simp +contextual [Handshake.knownOn, hc]
        · simp [Handshake.knownEnded, hc]
  · cases hg

theorem signalCaller_waited (hend : h.observed = true → h.enabled = false) :
    Waited h (signalCaller h) := by
  refine ⟨rfl, fun ha => (signalled_eq_away _).mpr ha, hend, ?_, ?_⟩
  · unfold Handshake.knownOn signalCaller
    cases h.caller <;> exact id
  · unfold Handshake.knownEnded signalCaller
    cases h.caller <;> exact id

theorem poller_waited (p : Poller) (hend : h.observed = true → h.enabled = false) :
    Waited h { h with poller := p } :=
  ⟨rfl, id, hend, id, id⟩

end Waits

/-- The steps of the poll thread and the ends of waits. -/
theorem wait_waited {h g : Handshake ι} {a : Action ι} (hi : Inv h)
    (hend : h.observed = true → h.enabled = false) (ha : a.isWait = true)
    (hg : step h a = some g) : Waited h g := by
  cases a with
  | enter =>
      obtain ⟨-, ⟨⟩⟩ := Option.ite_none_right_eq_some.mp hg
      exact pollTop_waited hi hend
  | pollerWakes =>
      obtain ⟨-, ⟨⟩⟩ := Option.ite_none_right_eq_some.mp hg
      exact poller_waited _ hend
  | pollerResumes =>
      obtain ⟨hp, ⟨⟩⟩ := Option.ite_none_right_eq_some.mp hg
      have he : h.enabled = false := by rw [hi.enabled, hp]; rfl
      have heq : pollTop h = waitStart h := by rw [pollTop, he]; rfl
      exact heq ▸ pollTop_waited hi hend
  | sleepEnds =>
      obtain ⟨-, ⟨⟩⟩ := Option.ite_none_right_eq_some.mp hg
      exact poller_waited _ hend
  | pollEnds halt fault =>
      obtain ⟨-, ⟨⟩⟩ := Option.ite_none_right_eq_some.mp hg
      exact poller_waited _ hend
  | afterPoll =>
      simp only [step] at hg
      split at hg
      · obtain rfl := Option.some.inj hg
        exact pollSection_waited hi hend _ _
      · cases hg
  | callerWakes =>
      obtain ⟨-, ⟨⟩⟩ := Option.ite_none_right_eq_some.mp hg
      exact signalCaller_waited hend
  | callerResumes => exact resume_waited hend hg
  | lock i => cases ha
  | unlock i => cases ha
  | start i go => cases ha
  | stop i => cases ha

section Steps

variable {d d' : Debugger ι}

omit [DecidableEq ι] in
theorem knownOn_away {h : Handshake ι} (ha : h.caller = .away) :
    h.knownOn = (h.enabled || h.observed) := by
  rw [Handshake.knownOn, ha]

omit [DecidableEq ι] in
theorem knownEnded_away {h : Handshake ι} (ha : h.caller = .away) :
    h.knownEnded = h.observed := by
  rw [Handshake.knownEnded, ha]

theorem Debugger.Inv.wait (hi : d.Inv) {a : Action ι} {g : Handshake ι} (ha : a.isWait = true)
    (hg : Polling.step d.hs a = some g) : { d with hs := g }.Inv := by
  have hw := wait_waited hi.hs hi.ended ha hg
  refine ⟨step_inv hi.hs hg, hw.ended, ?_, ?_⟩
  · intro hb
    obtain ⟨haway, hwatched⟩ := hi.free (hw.busy ▸ hb)
    have haway' := hw.away haway
    refine ⟨haway', ?_⟩
    intro he hs
    have hon := hw.on
    rw [knownOn_away haway, knownOn_away haway', Bool.or_eq_true, Bool.or_eq_true] at hon
    exact hon (hwatched he hs)
  · intro hb
    exact (hi.held (hw.busy ▸ hb)).mono hw.on hw.known

theorem Debugger.Inv.call (hi : d.Inv) {i : ι} {op : Op} {g : Handshake ι}
    (hk : d.enableIcePolling = true → d.hs.observed = false → Keeps d.state op)
    (hg : Polling.step d.hs (.lock i) = some g) :
    { d with hs := g, prog := op.code }.Inv := by
  have hinv := step_inv hi.hs hg
  obtain ⟨hb, ⟨⟩⟩ := Option.ite_none_right_eq_some.mp hg
  obtain ⟨haway, hwatched⟩ := hi.free hb
  refine ⟨hinv, hi.ended, by simp, ?_⟩
  intro _
  apply Op.ends op
  · intro he ho
    exact hk he ((knownEnded_away haway).symm.trans ho)
  · intro he hs
    exact (knownOn_away haway).trans (Bool.or_eq_true _ _ ▸ hwatched he hs)

omit [DecidableEq ι] in
/-- What the holder of the lock knows at an access. -/
theorem Debugger.Inv.holder (hi : d.Inv) {i : ι} (hb : d.hs.busy = some i)
    (ha : d.hs.caller = .away) :
    Ends d.prog d.state d.enableIcePolling (d.hs.enabled || d.hs.observed) d.hs.observed := by
  have hl := hi.held (by simp [hb])
  rwa [Leads, knownOn_away ha, knownEnded_away ha] at hl

omit [DecidableEq ι] in
theorem pollStop_away {h : Handshake ι} (ha : h.caller = .away) :
    (pollStop h).busy = h.busy ∧
      ((h.observed = true → h.enabled = false) →
        (pollStop h).observed = true → (pollStop h).enabled = false) ∧
      (h.observed = true → (pollStop h).knownOn = true) ∧
      (h.observed = true → (pollStop h).knownEnded = true) := by
  unfold pollStop
  split
  · exact ⟨rfl, id, id, id⟩
  · refine ⟨rfl, id, ?_, ?_⟩
    · simp +contextual [Handshake.knownOn, ha]
    · simp +contextual [Handshake.knownEnded, ha]

theorem Debugger.Inv.stop (hi : d.Inv) {i : ι} {k : Prog} {g : Handshake ι}
    (hp : d.prog = .pollStop k) (hg : Polling.step d.hs (.stop i) = some g) :
    { d with hs := g, prog := k }.Inv := by
  have hinv := step_inv hi.hs hg
  obtain ⟨⟨hb, ha⟩, ⟨⟩⟩ := Option.ite_none_right_eq_some.mp hg
  have hl := hi.holder hb ha
  rw [hp] at hl
  have hk : Ends k d.state d.enableIcePolling d.hs.observed d.hs.observed := hl
  obtain ⟨hbusy, hended, hon, hknown⟩ := pollStop_away ha
  exact ⟨hinv, hended hi.ended, fun hnone => by simp [hbusy, hb] at hnone,
    fun _ => hk.mono hon hknown⟩

omit [DecidableEq ι] in
theorem pollStart_go {h : Handshake ι} (ha : h.caller = .away) :
    (pollStart true h).busy = h.busy ∧
      ((h.observed = true → h.enabled = false) →
        (pollStart true h).observed = true → (pollStart true h).enabled = false) ∧
      (pollStart true h).knownOn = true := by
  unfold pollStart signalPoller Handshake.knownOn
  simp only [if_true]
  split
  · next he => simp [ha, he]
  · split <;> simp

theorem Debugger.Inv.start (hi : d.Inv) {i : ι} {k : Prog} {g : Handshake ι}
    (hp : d.prog = .pollStart k)
    (hg : Polling.step d.hs (.start i (d.state = .running && d.enableIcePolling)) = some g) :
    { d with hs := g, prog := k }.Inv := by
  have hinv := step_inv hi.hs hg
  obtain ⟨⟨hb, ha⟩, ⟨⟩⟩ := Option.ite_none_right_eq_some.mp hg
  have hl := hi.holder hb ha
  rw [hp] at hl
  simp only [Ends] at hl
  by_cases hgo : d.state = .running ∧ d.enableIcePolling = true
  · rw [if_pos hgo] at hl
    have htrue : (decide (d.state = .running) && d.enableIcePolling) = true := by
      simp [hgo.1, hgo.2]
    rw [htrue] at hinv ⊢
    obtain ⟨hbusy, hended, hon⟩ := pollStart_go (h := d.hs) ha
    exact ⟨hinv, hended hi.ended, fun hnone => by simp [hbusy, hb] at hnone,
      fun _ => hl.mono (fun _ => hon) (by simp)⟩
  · rw [if_neg hgo] at hl
    have hfalse : (decide (d.state = .running) && d.enableIcePolling) = false := by
      rw [Bool.and_eq_false_iff, decide_eq_false_iff_not]
      by_cases hs : d.state = .running
      · exact Or.inr (Bool.eq_false_iff.mpr fun he => hgo ⟨hs, he⟩)
      · exact Or.inl hs
    rw [hfalse] at hinv ⊢
    refine ⟨hinv, hi.ended, fun hnone => by simp [pollStart, hb] at hnone, fun _ => ?_⟩
    apply hl.mono
    · exact fun h => (knownOn_away ha).trans h
    · exact fun h => (knownEnded_away ha).trans h

theorem Debugger.Inv.unlock (hi : d.Inv) {i : ι} {g : Handshake ι} (hp : d.prog = .ret)
    (hg : Polling.step d.hs (.unlock i) = some g) : { d with hs := g }.Inv := by
  have hinv := step_inv hi.hs hg
  obtain ⟨⟨hb, ha⟩, ⟨⟩⟩ := Option.ite_none_right_eq_some.mp hg
  have hl := hi.holder hb ha
  rw [hp] at hl
  refine ⟨hinv, hi.ended, fun _ => ⟨ha, ?_⟩, by simp⟩
  intro he hs
  exact Bool.or_eq_true _ _ ▸ hl he hs

/-- An access that leaves the handshake alone. -/
theorem Debugger.Inv.own (hi : d.Inv) {i : ι} {next : Debugger ι}
    (hown : d.own i next = some d') (hh : next.hs = d.hs)
    (hl : Ends next.prog next.state next.enableIcePolling (d.hs.enabled || d.hs.observed)
      d.hs.observed) : d'.Inv := by
  obtain ⟨⟨hb, ha⟩, ⟨⟩⟩ := Option.ite_none_right_eq_some.mp hown
  have hb' : d'.hs.busy = some i := hh ▸ hb
  refine ⟨hh ▸ hi.hs, hh ▸ hi.ended, by simp [hb'], fun _ => ?_⟩
  rw [Leads, hh, knownOn_away ha, knownEnded_away ha]
  exact hl

theorem Debugger.Inv.access (hi : d.Inv) {i : ι} (hs : d.access i = some d') : d'.Inv := by
  have hown : ∀ {next : Debugger ι}, d.own i next = some d' →
      Ends d.prog d.state d.enableIcePolling (d.hs.enabled || d.hs.observed) d.hs.observed := by
    intro next h
    obtain ⟨⟨hb, ha⟩, -⟩ := Option.ite_none_right_eq_some.mp h
    exact hi.holder hb ha
  cases hp : d.prog with
  | ret =>
      simp only [Debugger.access, hp] at hs
      obtain ⟨g, hg, rfl⟩ := Option.map_eq_some_iff.mp hs
      exact hp ▸ hi.unlock hp hg
  | pollStop k =>
      simp only [Debugger.access, hp] at hs
      obtain ⟨g, hg, rfl⟩ := Option.map_eq_some_iff.mp hs
      exact hi.stop hp hg
  | pollStart k =>
      simp only [Debugger.access, hp] at hs
      obtain ⟨g, hg, rfl⟩ := Option.map_eq_some_iff.mp hs
      exact hi.start hp hg
  | getState k =>
      simp only [Debugger.access, hp] at hs
      have hl := hp ▸ hown hs
      exact hi.own hs rfl hl
  | setState s k =>
      simp only [Debugger.access, hp] at hs
      have hl := hp ▸ hown hs
      exact hi.own hs rfl hl
  | setPolling flag k =>
      simp only [Debugger.access, hp] at hs
      have hl := hp ▸ hown hs
      exact hi.own hs rfl hl
  | getEnabled k =>
      simp only [Debugger.access, hp] at hs
      have hl := hp ▸ hown hs
      apply hi.own hs rfl
      cases he : d.hs.enabled with
      | true => exact hl.1.mono (by simp) (by simp)
      | false => exact he ▸ hl.2

theorem Debugger.Inv.step (hi : d.Inv) {ev : Event ι} (hc : Careful d ev)
    (hs : d.step ev = some d') : d'.Inv := by
  cases ev with
  | call i op =>
      obtain ⟨g, hg, rfl⟩ := Option.map_eq_some_iff.mp hs
      exact hi.call hc hg
  | access i => exact hi.access hs
  | wait a =>
      obtain ⟨ha, hs⟩ := Option.ite_none_right_eq_some.mp hs
      obtain ⟨g, hg, rfl⟩ := Option.map_eq_some_iff.mp hs
      exact hi.wait ha hg

omit [DecidableEq ι] in
theorem debuggerInit_inv : (debuggerInit : Debugger ι).Inv where
  hs := init_inv
  ended := by simp [debuggerInit, init]
  free := fun _ => ⟨rfl, by simp [Debugger.Watched, debuggerInit]⟩
  held := by simp [debuggerInit, init]

end Steps

/-! ## Polling follows the run state -/

/-- In every run whose calls do not lose polling, whenever the lock is free a target that
is taken to run is polled, or the poll thread has observed its halt or fault. -/
theorem polling_follows_runState (evs : List (Event ι)) (d : Debugger ι)
    (hok : Along Debugger.step Careful debuggerInit evs)
    (hrun : exec Debugger.step debuggerInit evs = some d) :
    d.hs.busy = none → d.Watched := by
  have hi : d.Inv :=
    exec_invariant (fun _ _ _ hi hc hs => hi.step hc hs) debuggerInit_inv hok hrun
  exact fun hb => (hi.free hb).2

/-- A target is configured and connected while it runs; the poll thread starts. -/
def connectRun : List (Event Unit) :=
  [.wait .enter, .call () (.iceConfigure false false false true),
    .access (), .access (), .access (),
    .call () (.connect false false false 0),
    .access (), .access (), .access (), .access (), .access (),
    .wait .pollerResumes, .wait .callerResumes, .access ()]

theorem polling_follows_runState_connect :
    ∃ d, exec Debugger.step debuggerInit connectRun = some d ∧ d.hs.busy = none ∧
      d.state = .running ∧ d.enableIcePolling = true ∧
      (d.hs.enabled = true ∨ d.hs.observed = true) := by
  refine ⟨_, rfl, rfl, rfl, rfl, ?_⟩
  exact polling_follows_runState connectRun _ (by decide) rfl rfl rfl rfl

/-- The target is halted when it is connected, and runs after a reset of its core. -/
def resetRun : List (Event Unit) :=
  [.wait .enter, .call () (.iceConfigure false false false true),
    .access (), .access (), .access (),
    .call () (.connect false false false 1),
    .access (), .access (), .access (), .access (), .access (),
    .call () (.reset .core .core false 0),
    .access (), .access (), .access (), .access (), .access ()]

theorem polling_not_follows_runState :
    ¬ ∀ (evs : List (Event Unit)) (d : Debugger Unit),
      exec Debugger.step debuggerInit evs = some d → d.hs.busy = none → d.Watched := by
  intro h
  have hlost := h resetRun _ rfl rfl rfl rfl
  exact absurd hlost (by decide)

end YardIce.Polling
