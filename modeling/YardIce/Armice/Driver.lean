import Mathlib.Data.BitVec
import Mathlib.Logic.Function.Basic

/-!
# The ARM7 and ARM9 driver

The methods of `armice.c` over a core that runs or is halted and the two watchpoint units of its
EmbeddedICE macrocell.

## Implementation notes

Polling is stopped and every access over JTAG succeeds, so a method fails only where it waits for a
core that does not halt in time; what the target answers is a parameter of the step. `goto`,
`core_reset`, the register methods, `context_show` and the single memory accesses all save the
context and do nothing else to what is modelled here: they are one action. The block transfers do
not touch it at all. The debug control register, the saved registers and the code cache decide
nothing here and are left out.

`misread`, `savedRunning`, `unseen` and `event` are not fields of `armice_ctrl_t`: they record what
happened.
-/

namespace YardIce.Armice

/-- `jtag_arm_wp_t`, and the registers of a watchpoint unit. -/
structure Wp where
  addrValue : BitVec 32
  addrMask : BitVec 32
  dataValue : BitVec 32
  dataMask : BitVec 32
  ctrlValue : BitVec 16
  ctrlMask : BitVec 16
  deriving DecidableEq

/-- `memset(&ctrl->wp[n], 0, sizeof(jtag_arm_wp_t))` -/
def Wp.zero : Wp := ⟨0, 0, 0, 0, 0, 0⟩

/-- `ARMICE_WP_ENABLE` -/
def wpEnable : BitVec 16 := 0x100

/-- `~ARMICE_WP_NOPC & 0xff` -/
def maskNopc : BitVec 16 := 0xf7

/-- `~(ARMICE_WP_RANGE | ARMICE_WP_NOPC) & 0xff` -/
def maskRangeNopc : BitVec 16 := 0x77

/-- The unit compares. -/
def Wp.enabled (u : Wp) : Bool := u.ctrlValue.getLsbD 8

/-- What the last method did to the core. -/
inductive Event where
  | other
  | resumed
  | released
  deriving DecidableEq

/-- `armice_ctrl_t` with its flags, the core and its watchpoint units. -/
structure Ice where
  arm9 : Bool
  ctxSaved : Bool
  resume : Bool
  thumb : Bool
  sstepInit : Bool
  sstepEn : Bool
  brkEn : Bool
  wpEn : Fin 2 → Bool
  wpSet : Fin 2 → Bool
  memLock : BitVec 8
  dbgStatus : BitVec 32
  wp : Fin 2 → Wp
  unit : Fin 2 → Wp
  halted : Bool
  misread : Bool
  savedRunning : Bool
  unseen : Bool
  event : Event

namespace Ice

variable (s : Ice)

/-! ## `arm-wp.c` -/

/-- `arm_wp_brk_req` -/
def armWpBrkReq : Ice :=
  let u := s.unit 0
  { s with
    unit := Function.update s.unit 0
      { u with addrMask := 0xffffffff, dataMask := 0xffffffff, ctrlMask := maskNopc,
               ctrlValue := wpEnable } }

/-- `arm_wp_clr` -/
def armWpClr (n : Fin 2) : Ice :=
  { s with unit := Function.update s.unit n { s.unit n with ctrlValue := 0 } }

/-- `arm_wp_set` -/
def armWpSet (n : Fin 2) (wp : Wp) : Ice := { s with unit := Function.update s.unit n wp }

/-- `arm_sstp_init` -/
def armSstpInit : Ice :=
  { s with
    unit := Function.update
      (Function.update s.unit 0 { s.unit 0 with addrMask := 0xffffffff }) 1
      { s.unit 1 with addrMask := 0, dataMask := 0xffffffff, ctrlValue := 0,
                      ctrlMask := maskNopc } }

/-- `arm_sstp_bp_set` -/
def armSstpBpSet (addr : BitVec 32) : Ice :=
  { s with
    unit := Function.update (Function.update s.unit 1 { s.unit 1 with addrValue := addr }) 0
      { s.unit 0 with ctrlMask := maskRangeNopc } }

/-- `arm_sstp_disable` -/
def armSstpDisable : Ice :=
  { s with unit := Function.update s.unit 0 { s.unit 0 with ctrlMask := maskNopc } }

/-! ## The core -/

/-- `jtag_arm_restart` -/
def jtagArmRestart : Ice := { s with halted := false, unseen := true }

/-- The core stops. -/
def stop : Ice := { s with halted := true, unseen := false }

/-- The debug status register, with the other bits as the target gives them. -/
def status (w : BitVec 16) : BitVec 32 :=
  ((w &&& 0xfffe) ||| if s.halted then 1 else 0).setWidth 32

/-- The status that `jtag_arm_dbgack_wait` returns, with `ARMICE_ST_DBGACK` and
`ARMICE_ST_NMREQ`. -/
def statusAck (w : BitVec 16) : BitVec 32 := (w ||| 0x9).setWidth 32

/-- `ctrl->dbg_status & ARMICE_ST_DBGACK` -/
def dbgack : Bool := s.dbgStatus.getLsbD 0

/-- The cached status decides how a method goes on. -/
def look : Ice := if s.dbgack = true ∧ s.halted = false then { s with misread := true } else s

/-! ## Internal functions of `armice.c` -/

/-- A unit is disabled if its flag says that it is enabled. -/
def wpOff (n : Fin 2) : Ice :=
  if s.wpEn n then { s.armWpClr n with wpEn := Function.update s.wpEn n false } else s

/-- `arm_wp_brk_req`, and `ctrl->flags |= (ARMICE_BRK_EN | ARMICE_WP0_EN)` -/
def brkSet : Ice :=
  { s.armWpBrkReq with brkEn := true, wpEn := Function.update s.wpEn 0 true }

/-- `core_on_break` -/
def coreOnBreak (dbgStatus : BitVec 32) : Ice :=
  let s := { s with thumb := dbgStatus.getLsbD 4 }
  let s := s.wpOff 1
  let s := if s.brkEn then s else s.brkSet
  { s with sstepEn := false }

/-- `core_status_update`. `dbg_status` is unsigned, so `ctrl->dbg_status < 0` is never true. -/
def coreStatusUpdate (dbgStatus : BitVec 32) : Ice :=
  let s := if dbgStatus.getLsbD 0 ∧ s.dbgack = false then s.coreOnBreak dbgStatus else s
  { s with dbgStatus := dbgStatus, unseen := false }

/-- `core_break_req`; the core halts with the status bits `w`, or not in time. -/
def coreBreakReq (w : Option (BitVec 16)) : Ice :=
  let s := ((s.wpOff 1).wpOff 0).brkSet
  match w with
  | none => s
  | some w => s.stop.coreStatusUpdate (statusAck w)

/-- A unit is set for the user's breakpoint, or disabled. -/
def wpRestore (n : Fin 2) : Ice :=
  if s.wpSet n then
    { s.armWpSet n (s.wp n) with
      sstepInit := false, wpEn := Function.update s.wpEn n true }
  else s.wpOff n

/-- `core_resume_prepare` -/
def coreResumePrepare : Ice := { (s.wpRestore 1).wpRestore 0 with brkEn := false }

/-- `core_resume` -/
def coreResume : Ice := { s.jtagArmRestart with event := .resumed }

/-- `core_state_save` -/
def coreStateSave : Ice :=
  if s.ctxSaved then s
  else { s with ctxSaved := true, savedRunning := s.savedRunning || !s.halted }

/-- `ctrl->flags &= ~ARMICE_CTX_SAVED` -/
def ctxDrop : Ice := { s with ctxSaved := false }

/-- `core_state_restore` -/
def coreStateRestore : Ice := s.ctxDrop

/-! ## Methods -/

/-- `armice_connect`, for one unit -/
def connectWp (n : Fin 2) : Ice :=
  if s.wpSet n then
    { s.armWpSet n (s.wp n) with wpEn := Function.update s.wpEn n true }
  else { s.armWpClr n with wpEn := Function.update s.wpEn n false }

/-- `armice_connect` -/
def connect : Ice :=
  { (s.connectWp 0).connectWp 1 with
    sstepEn := false, ctxSaved := false, dbgStatus := 0xffffffff, unseen := !s.halted }

/-- `armice_release` -/
def release : Ice :=
  let s := s.coreStateRestore
  let s := { s with sstepEn := false, wpEn := fun _ => false }
  let s := if s.wpEn 1 then s.armWpClr 1 else s
  let s := if s.wpEn 0 then s.armWpClr 0 else s
  { s with event := .released }

/-- `armice_run` -/
def run : Ice :=
  if s.memLock ≠ 0 then s else s.coreStateRestore.coreResumePrepare.coreResume

/-- What a single step ends with: the bits of the status, no answer in time, or no wait at all. -/
def insnStep (addr : BitVec 32) (w : Option (BitVec 16)) : Ice × Option (BitVec 32) :=
  let s := s.armSstpBpSet addr
  let s := s.jtagArmRestart
  -- `arm9_thumb_insn_step` does not wait and leaves the unit as it is
  if s.arm9 ∧ s.thumb then (s, some 0)
  else
    match w with
    | none => (s.armSstpDisable, none)
    | some w => (s.stop.armSstpDisable, some (statusAck w))

/-- The comparators are prepared for single steps. -/
def sstepReady : Ice := if s.sstepInit then s else { s.armSstpInit with sstepInit := true }

/-- `armice_step`; `w` and `w'` are the answers to the step and to the break after it. -/
def step (addr : BitVec 32) (w w' : Option (BitVec 16)) : Ice :=
  let r := s.coreStateSave.sstepReady.insnStep addr w
  let s := r.1.ctxDrop
  match r.2 with
  | none => { s with dbgStatus := 0xffffffff }.coreBreakReq w'
  | some dbgStatus => { s with thumb := dbgStatus.getLsbD 4 }

/-- The core may have stopped again when its status is read. -/
def statusAfter (halts : Bool) (w : BitVec 16) : Ice :=
  let s := if halts then s.stop else s
  s.coreStatusUpdate (s.status w)

/-- `armice_exec`; `halts` tells whether the codelet is over when the status is read. -/
def exec (halts : Bool) (w : BitVec 16) : Ice :=
  let s := { s.ctxDrop with thumb := false }
  s.coreResumePrepare.jtagArmRestart.statusAfter halts w

/-- `armice_code_exec` -/
def codeExec : Ice := (s.armWpClr 0).jtagArmRestart

/-- `armice_code_stop` -/
def codeStop (w : Option (BitVec 16)) : Ice :=
  match w with
  | none => s.armWpBrkReq
  | some _ => s.armWpBrkReq.stop

/-- `armice_fifo_rd8` and `armice_fifo_wr8`; without an answer of the codelet it is not stopped. -/
def fifo (dcc : Bool) (w : Option (BitVec 16)) : Ice :=
  let s := s.coreStateSave.codeExec
  if dcc then s.codeStop w else s

/-- The end of `armice_mem_lock`, on a halted core -/
def lockSaved : Ice := { s.coreStateSave with memLock := s.memLock + 1 }

/-- `armice_mem_lock` -/
def lock (w : Option (BitVec 16)) : Ice :=
  if s.memLock ≠ 0 then { s with memLock := s.memLock + 1 }
  else
    let s := s.look
    if s.dbgack = false then
      match w with
      | none => s.coreBreakReq none
      | some w => { s.coreBreakReq (some w) with resume := true }.lockSaved
    else if s.sstepEn then
      { s.brkSet with sstepEn := false }.lockSaved
    else s.lockSaved

/-- `armice_mem_unlock` -/
def unlock (halts : Bool) (w : BitVec 16) : Ice :=
  if s.memLock = 0 then s
  else
    let s := { s with memLock := s.memLock - 1 }
    if s.memLock ≠ 0 then s
    else
      let s := s.look
      if s.dbgack = false then
        if s.resume = false ∧ s.ctxSaved = false then s
        else { s.ctxDrop with resume := false }
      else if s.resume = false then s
      else
        let s := { s with resume := false }
        s.coreStateRestore.coreResumePrepare.coreResume.statusAfter halts w

/-- `for (mask = 0; size > mask; mask = (mask << 1) + 1)` -/
def bpMask (size : BitVec 32) : Nat → BitVec 32 → BitVec 32
  | 0, mask => mask
  | turns + 1, mask => if size > mask then bpMask size turns ((mask <<< 1) + 1) else mask

/-- The unit that `armice_bp_set` takes. -/
def freeWp : Option (Fin 2) :=
  if s.wpSet 0 = false then some 0 else if s.wpSet 1 = false then some 1 else none

/-- The entry of a breakpoint. -/
def bpWp (addr size : BitVec 32) : Wp :=
  ⟨addr, bpMask (size >>> 1) 32 0, 0x00000000, 0xffffffff, wpEnable, maskNopc⟩

/-- `armice_bp_set` -/
def bpSet (addr size : BitVec 32) : Ice :=
  match s.freeWp with
  | none => s
  | some id =>
      let s := { s with wp := Function.update s.wp id (bpWp addr size) }
      let s := s.look
      let s := if s.dbgack = false then { s.armWpSet id (s.wp id) with sstepInit := false } else s
      { s with wpSet := Function.update s.wpSet id true }

/-- `armice_bp_clr` -/
def bpClr (id : Nat) : Ice :=
  if h : id < 2 then { s with wpSet := Function.update s.wpSet ⟨id, h⟩ false } else s

end Ice

/-! ## Runs -/

inductive Act where
  | coreHalts
  | connect
  | release
  | status (w : BitVec 16)
  | halt (w : Option (BitVec 16))
  | run
  | step (addr : BitVec 32) (w w' : Option (BitVec 16))
  | access
  | exec (halts : Bool) (w : BitVec 16)
  | fifo (dcc : Bool) (w : Option (BitVec 16))
  | lock (w : Option (BitVec 16))
  | unlock (halts : Bool) (w : BitVec 16)
  | bpSet (addr size : BitVec 32)
  | bpClr (id : Nat)

namespace Ice

/-- One method, or an event of the core. A core that is halted does answer in time. -/
def next (s : Ice) : Act → Option Ice
  | .coreHalts => if s.halted then none else some s.stop
  | .connect => some { s with event := .other }.connect
  | .release => some s.release
  | .status w => some ({ s with event := .other }.coreStatusUpdate (s.status w))
  | .halt w =>
      if s.halted ∧ w = none then none else some ({ s with event := .other }.coreBreakReq w)
  | .run => some { s with event := .other }.run
  | .step addr w w' => some ({ s with event := .other }.step addr w w')
  | .access => some { s with event := .other }.coreStateSave
  | .exec halts w => some ({ s with event := .other }.exec halts w)
  | .fifo dcc w => some ({ s with event := .other }.fifo dcc w)
  | .lock w => if s.halted ∧ w = none then none else some ({ s with event := .other }.lock w)
  | .unlock halts w => some ({ s with event := .other }.unlock halts w)
  | .bpSet addr size => some ({ s with event := .other }.bpSet addr size)
  | .bpClr id => some ({ s with event := .other }.bpClr id)

/-- After `armice_open` and `armice_configure`. The cached status is what was there before. -/
def opened (arm9 : Bool) (dbgStatus : BitVec 32) (halted : Bool) : Ice where
  arm9 := arm9
  ctxSaved := false
  resume := false
  thumb := false
  sstepInit := false
  sstepEn := false
  brkEn := false
  wpEn := fun _ => false
  wpSet := fun _ => false
  memLock := 0
  dbgStatus := dbgStatus
  wp := fun _ => .zero
  unit := fun _ => .zero
  halted := halted
  misread := false
  savedRunning := false
  unseen := true
  event := .other

end Ice

/-- The unit that a method switches is as its flag says afterwards: a breakpoint is set on a halted
core or on a unit in use, a step finds unit 1 free, a codelet that is stopped had unit 0 enabled,
and the core is released when no unit is. -/
def FlagsFollow (s : Ice) : Act → Prop
  | .bpSet _ _ => ∀ id, s.freeWp = some id → s.dbgack = true ∨ s.wpEn id = true
  | .step _ _ _ => s.sstepInit = true ∨ s.wpEn 1 = false
  | .fifo dcc _ => s.wpEn 0 = dcc
  | .release => ∀ n, s.wpEn n = false
  | _ => True

instance (s : Ice) : ∀ a, Decidable (FlagsFollow s a)
  | .bpSet _ _ => inferInstanceAs
      (Decidable (∀ id, s.freeWp = some id → s.dbgack = true ∨ s.wpEn id = true))
  | .step _ _ _ => inferInstanceAs (Decidable (s.sstepInit = true ∨ s.wpEn 1 = false))
  | .fifo dcc _ => inferInstanceAs (Decidable (s.wpEn 0 = dcc))
  | .release => inferInstanceAs (Decidable (∀ n, s.wpEn n = false))
  | .coreHalts | .connect | .status _ | .halt _ | .run | .access | .exec _ _ | .lock _
  | .unlock _ _ | .bpClr _ => isTrue trivial

end YardIce.Armice
