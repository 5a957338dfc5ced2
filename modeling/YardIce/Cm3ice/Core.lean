import Mathlib.Data.BitVec
import Mathlib.Logic.Function.Basic

/-!
# The core registers of a Cortex-M3 target

The functions of `cm3ice.c` that let the core run, halt or reset, or transfer its
registers, over a model of the core as the debug port sees it.

## Implementation notes

Every access to the target consumes an event: the answer of the debug port, and
what the core did since the last access if it was running. An access that is not
acknowledged is not performed. Only a halted core transfers registers, so the
loop that waits for a transfer on a running core ends with a failed access. A step
is a run that ends at an event of the core, like a run to a breakpoint. A call
whose events are used up has not returned and has no result.

Accesses to the comparators, to `DFSR` and to the communication block change
nothing that the register functions read. The sticky error flag of the port
decides only what `cm3ice_connect` returns and is left out.
-/

namespace YardIce.Cm3ice

/-- `CM3_SP`. -/
def cm3Sp : Nat := 13

/-- `CM3_PC`. -/
def cm3Pc : Nat := 15

/-- `CM3_MSP`. -/
def cm3Msp : Nat := 17

/-- `CM3_PSP`. -/
def cm3Psp : Nat := 18

/-- `CM3_CTRL`. -/
def cm3Ctrl : Nat := 19

/-- `cm3_dcrsr_lut`: the selector of a register in `DCRSR`. -/
def cm3DcrsrLut : Nat → Nat
  | 19 => 20
  | 20 => 33
  | id => id

/-! ## The target -/

/-- The answer of the debug port: `JTAG_ADI_ACK_OK_FAULT`, another one, or a failure
of the port. -/
inductive Ack
  | ok
  | wait
  | error
  deriving DecidableEq

/-- One access: its answer, the registers of the core if it runs or is reset, and
whether it halts by itself. -/
structure Event where
  ack : Ack
  bank : Nat → BitVec 32
  stop : Bool

/-- The core. Registers are numbered by their selector; the stack pointer is not
stored. -/
structure Core where
  bank : Nat → BitVec 32
  halted : Bool
  debugen : Bool
  vcCorereset : Bool
  dcrdr : BitVec 32
  regrdy : Bool

namespace Core

/-- `CONTROL.SPSEL`: the process stack is selected. -/
def spsel (c : Core) : Bool := (c.bank 20).getLsbD 25

/-- The stored register behind a selector. -/
def cell (c : Core) (sel : Nat) : Nat :=
  if sel = 13 then (if c.spsel then 18 else 17) else sel

/-- What a transfer of the register `sel` to `DCRDR` gives. -/
def read (c : Core) (sel : Nat) : BitVec 32 := c.bank (c.cell sel)

/-- A transfer from `DCRDR` to the register `sel`. -/
def write (c : Core) (sel : Nat) (v : BitVec 32) : Core :=
  { c with bank := Function.update c.bank (c.cell sel) v }

/-- The core up to the access `ev`. It halts by itself only with debug enabled. -/
def progress (c : Core) (ev : Event) : Core :=
  if c.halted then c else { c with bank := ev.bank, halted := c.debugen && ev.stop }

/-- A write to `DHCSR`. A running core that is asked to halt does so at a later event. -/
def wrDhcsr (c : Core) (cHalt cDebugen : Bool) : Core :=
  { c with debugen := cDebugen, halted := c.halted && cHalt && cDebugen }

/-- A write to `DCRDR`. -/
def wrDcrdr (c : Core) (v : BitVec 32) : Core := { c with dcrdr := v }

/-- A write to `DCRSR`: a halted core makes the transfer. -/
def wrDcrsr (c : Core) (sel : Nat) (regwnr : Bool) : Core :=
  if c.halted then
    if regwnr then { c.write sel c.dcrdr with regrdy := true }
    else { c with dcrdr := c.read sel, regrdy := true }
  else { c with regrdy := false }

/-- A write to `DEMCR`. -/
def wrDemcr (c : Core) (vcCorereset : Bool) : Core := { c with vcCorereset := vcCorereset }

/-- A reset request in `AIRCR`, local or of the system. -/
def reset (c : Core) (ev : Event) : Core :=
  { c with bank := ev.bank, halted := c.debugen && (c.vcCorereset || ev.stop) }

end Core

/-- The fields of `struct cm3ice_ctrl` that these functions use. -/
structure Ctrl where
  reg : Nat → BitVec 32
  cacheBmp : BitVec 32
  commAddr : BitVec 32
  codeMax : Nat
  litMax : Nat

/-- The driver and its target between two calls. -/
structure Target where
  core : Core
  ctrl : Ctrl

/-- The driver and its target during a call, with the events to come. -/
structure World extends Target where
  env : List Event

/-- The result of a call and what it leaves. -/
abbrev Res := Option (Int × World)

/-- `ICE_OK`. -/
def iceOk : Int := 0

/-- `ICE_ERR_ARG`. -/
def iceErrArg : Int := -102

/-- `ICE_ERR_JTAG`. -/
def iceErrJtag : Int := -108

/-- `ICE_ST_FAULT`. -/
def iceStFault : Int := 128

/-- The return that follows a failed access. -/
def jtagErr (_ : Ack) (w : World) : Res := some (iceErrJtag, w)

/-- One access with the effect `f`, and what follows its failure and its success. -/
def access (f : Core → Event → Core) (w : World) (fail : Ack → World → Res)
    (k : World → Res) : Res :=
  match w.env with
  | [] => none
  | ev :: env =>
    let core := w.core.progress ev
    if ev.ack = .ok then k { w with core := f core ev, env := env }
    else fail ev.ack { w with core := core, env := env }

/-- An access without effect on the core. -/
def touch (w : World) (fail : Ack → World → Res) (k : World → Res) : Res :=
  access (fun c _ => c) w fail k

/-- A write to `DHCSR`. -/
def wrDhcsr (cHalt cDebugen : Bool) (w : World) (fail : Ack → World → Res)
    (k : World → Res) : Res :=
  access (fun c _ => c.wrDhcsr cHalt cDebugen) w fail k

/-- Set the bitmap of cached registers. -/
def World.setBmp (w : World) (bmp : BitVec 32) : World :=
  { w with ctrl := { w.ctrl with cacheBmp := bmp } }

/-- A register enters the cache. -/
def World.cache (w : World) (id : Nat) (v : BitVec 32) : World :=
  { w with ctrl := { w.ctrl with
      reg := Function.update w.ctrl.reg id v
      cacheBmp := w.ctrl.cacheBmp ||| (1#32 <<< id) } }

/-- The register `id` is in the cache. -/
def Ctrl.cached (c : Ctrl) (id : Nat) : Bool := c.cacheBmp.getLsbD id

/-! ## Register transfers -/

/-- The loop that reads `DHCSR` until the transfer is done. -/
def pollRegrdy (k : World → Res) : List Event → World → Res
  | [], _ => none
  | ev :: env, w =>
    let w := { w with core := w.core.progress ev, env := env }
    if ev.ack ≠ .ok then some (iceErrJtag, w)
    else if w.core.regrdy then k w
    else pollRegrdy k env w

/-- `core_reg_get`; the value is left in the cache. -/
def coreRegGet (w : World) (id : Nat) : Res :=
  if w.ctrl.cached id then some (iceOk, w)
  else
    access (fun c _ => c.wrDcrsr (cm3DcrsrLut id) false) w jtagErr fun w =>
    pollRegrdy (fun w =>
      touch w jtagErr fun w => some (iceOk, w.cache id w.core.dcrdr)) w.env w

/-- `core_reg_set`. -/
def coreRegSet (w : World) (id : Nat) (data : BitVec 32) : Res :=
  if w.ctrl.cached id && data == w.ctrl.reg id then some (iceOk, w)
  else
    access (fun c _ => c.wrDcrdr data) w jtagErr fun w =>
    access (fun c _ => c.wrDcrsr (cm3DcrsrLut id) true) w jtagErr fun w =>
    pollRegrdy (fun w => some (iceOk, w.cache id data)) w.env w

/-- `cm3ice_reg_get`. -/
def cm3iceRegGet (w : World) (reg : Nat) : Res :=
  if reg > cm3Ctrl then some (iceErrArg, w) else coreRegGet w reg

/-- `cm3ice_reg_set`. -/
def cm3iceRegSet (w : World) (reg : Nat) (val : BitVec 32) : Res :=
  if reg > cm3Ctrl then some (iceErrArg, w) else coreRegSet w reg val

/-- `cm3ice_goto`. -/
def cm3iceGoto (w : World) (addr : BitVec 32) : Res := coreRegSet w cm3Pc addr

/-- `cm3ice_ifa_set`. -/
def cm3iceIfaSet (w : World) (val : BitVec 32) : Res := coreRegSet w cm3Pc val

/-! ## Run control -/

/-- The writes of `fpb_clear` to `n` comparators; a failure ends them. -/
def wrComparators (w : World) : Nat → (Bool → World → Res) → Res
  | 0, k => k true w
  | n + 1, k => touch w (fun _ w => k false w) fun w => wrComparators w n k

/-- `fpb_clear` with its result ignored. -/
def fpbClear (w : World) (k : World → Res) : Res :=
  wrComparators w w.ctrl.codeMax fun ok w =>
    if ok then wrComparators w w.ctrl.litMax fun _ w => k w else k w

/-- `cm3ice_connect`. The cache survives if the core is found halted. -/
def cm3iceConnect (w : World) : Res :=
  touch w jtagErr fun w =>
  let sHalt := w.core.halted
  let enabled := fun w : World =>
    touch w jtagErr fun w =>
    let w := if sHalt then w else w.setBmp 0
    touch w jtagErr fun w => some (iceOk, w)
  if w.core.debugen then enabled w else wrDhcsr false true w jtagErr enabled

/-- The end of `cm3ice_release`: `DFSR` and the communication block. -/
def releaseEnd (w : World) : Res :=
  touch w jtagErr fun w =>
  if w.ctrl.commAddr ≠ 0 then
    touch w (fun _ w => some (iceStFault, w)) fun w => some (iceOk, w.setBmp 0)
  else some (iceOk, w.setBmp 0)

/-- `cm3ice_release` from the write that disables debug, whose failure is ignored. -/
def releaseDebug (w : World) : Res :=
  wrDhcsr false false w (fun _ w => releaseEnd w) releaseEnd

/-- `cm3ice_release`. The cache is dropped only if it does not return early. -/
def cm3iceRelease (w : World) : Res :=
  fpbClear w fun w => touch w (fun _ w => releaseDebug w) releaseDebug

/-- `cm3ice_halt`. -/
def cm3iceHalt (w : World) : Res :=
  wrDhcsr true true w jtagErr fun w => some (iceOk, w)

/-- `cm3ice_run`. -/
def cm3iceRun (w : World) : Res :=
  wrDhcsr false true (w.setBmp 0) jtagErr fun w => some (iceOk, w)

/-- `cm3ice_step`. An answer other than a failure of the port counts as success. -/
def cm3iceStep (w : World) : Res :=
  wrDhcsr false true w
    (fun ack w => if ack = .error then some (-1, w) else some (iceOk, w.setBmp 0))
    fun w => some (iceOk, w.setBmp 0)

/-! ## Resets -/

/-- The loop of `cm3ice_system_reset` that halts the core again. -/
def haltLoop : List Event → World → Res
  | [], _ => none
  | ev :: env, w =>
    let w := { w with core := w.core.progress ev, env := env }
    if ev.ack ≠ .ok then some (iceErrJtag, w)
    else
      let w := { w with core := w.core.wrDhcsr true true }
      match env with
      | [] => none
      | ev' :: env' =>
        let w := { w with core := w.core.progress ev', env := env' }
        if ev'.ack ≠ .ok then some (iceErrJtag, w)
        else if w.core.halted then some (iceOk, w)
        else haltLoop env' w

/-- `cm3ice_system_reset`. -/
def cm3iceSystemReset (w : World) : Res :=
  touch w jtagErr fun w =>
  let halt := w.core.halted
  access (fun c ev => c.reset ev) w jtagErr fun w =>
  if halt then haltLoop w.env w else some (iceOk, w)

/-- `cm3ice_core_reset`. What follows its first return is never reached. -/
def cm3iceCoreReset (w : World) : Res :=
  touch w jtagErr fun w =>
  let sHalt := w.core.halted
  let cDebugen := w.core.debugen
  touch w jtagErr fun w =>
  let demcr := w.core.vcCorereset
  let ready := fun w : World =>
    access (fun c ev => c.reset ev) w jtagErr fun w => some (iceOk, w)
  if sHalt then
    let caught := fun w : World =>
      if cDebugen then ready w else wrDhcsr sHalt true w jtagErr ready
    if demcr then caught w else access (fun c _ => c.wrDemcr true) w jtagErr caught
  else
    wrDhcsr true true w jtagErr fun w =>
    if demcr then access (fun c _ => c.wrDemcr false) w jtagErr ready else ready w

/-! ## Runs -/

/-- The calls of the driver. -/
inductive Op
  | connect
  | release
  | halt
  | run
  | step
  | goto (addr : BitVec 32)
  | regGet (reg : Nat)
  | regSet (reg : Nat) (val : BitVec 32)
  | ifaSet (val : BitVec 32)
  | coreReset
  | systemReset

/-- One call. -/
def World.call (w : World) : Op → Res
  | .connect => cm3iceConnect w
  | .release => cm3iceRelease w
  | .halt => cm3iceHalt w
  | .run => cm3iceRun w
  | .step => cm3iceStep w
  | .goto addr => cm3iceGoto w addr
  | .regGet reg => cm3iceRegGet w reg
  | .regSet reg val => cm3iceRegSet w reg val
  | .ifaSet val => cm3iceIfaSet w val
  | .coreReset => cm3iceCoreReset w
  | .systemReset => cm3iceSystemReset w

/-- A call with the events of its accesses, or the core going on between two calls. -/
inductive Action
  | call (op : Op) (env : List Event)
  | idle (ev : Event)

/-- One action. -/
def Target.step (t : Target) : Action → Option Target
  | .call op env => (World.call { t with env := env } op).map fun r => r.2.toTarget
  | .idle ev => some { t with core := t.core.progress ev }

end YardIce.Cm3ice
