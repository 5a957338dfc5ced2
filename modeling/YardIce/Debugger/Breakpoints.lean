import Mathlib.Algebra.GroupWithZero.Nat
import Mathlib.Data.List.Basic
import Mathlib.Data.List.FinRange
import Mathlib.Logic.Function.Basic

/-!
# Hardware breakpoints of a Cortex-M3 target

The breakpoint functions of `debugger.c` over the comparators of the FlashPatch
unit that `cm3ice.c` drives. The list of breakpoints is ordered from the most to
the least recently used; the comparators hold at most `code_max` of them.

## Implementation notes

All register writes succeed. Results of the target that the code reads (the
connect, run and halt requests, the status word) are arguments. The word that a
free breakpoint uses for its link is written again before it is read, so the
free list is a list here. A call that writes through a null pointer, aborts or
reads outside the list has no next state. Starting and stopping the poll thread
changes nothing that these functions read.
-/

namespace YardIce.Breakpoints

/-- `DBG_BREAKPOINT_MAX`. -/
def dbgBreakpointMax : Nat := 16

instance : NeZero dbgBreakpointMax := ⟨by decide⟩

/-- An entry of `dbg_bp_poll`. -/
abbrev BpId := Fin dbgBreakpointMax

instance : LawfulBEq BpId := inferInstance

/-- `struct dbg_bp`. -/
structure DbgBp where
  hwId : Int
  active : Bool
  enabled : Bool
  addr : BitVec 32
  size : BitVec 32
  deriving DecidableEq

/-- `struct dbg_bp_ctrl` with the entries it points to. -/
structure DbgBpCtrl where
  poll : BpId → DbgBp
  lst : List BpId
  free : List BpId

/-- The code part of `struct armv7m_fpb_ctrl`, and the comparator registers. -/
structure Fpb where
  codeMax : Nat
  codeBmp : BitVec 32
  comp : Nat → BitVec 32

/-- `dbg_state_t`. -/
inductive DbgState
  | fault
  | error
  | outOfSync
  | busy
  | undef
  | unconnected
  | connected
  | running
  | halted
  deriving DecidableEq

/-- The numbers that the comparisons of states use. -/
def DbgState.num : DbgState → Int
  | .fault => -4
  | .error => -3
  | .outOfSync => -2
  | .busy => -1
  | .undef => 0
  | .unconnected => 1
  | .connected => 2
  | .running => 3
  | .halted => 4

/-- The fields of `struct debugger` that breakpoints depend on. -/
structure Debugger where
  state : DbgState
  bpCtrl : DbgBpCtrl
  fpb : Fpb

/-! ## The comparators -/

/-- `ffs`: one plus the number of the lowest bit set, or zero. -/
def ffs (x : BitVec 32) : Nat :=
  match (List.range 32).find? fun i => x.getLsbD i with
  | some i => i + 1
  | none => 0

/-- `fpb_clear`, as far as the code comparators go. -/
def fpbClear (f : Fpb) : Fpb :=
  { f with codeBmp := 0, comp := fun i => if i < f.codeMax then 0 else f.comp i }

/-- `fpb_code_comp_set`: no result when all comparators are taken. -/
def fpbCodeCompSet (f : Fpb) (comp : BitVec 32) : Option (Nat × Fpb) :=
  let id : Int := (ffs (~~~f.codeBmp) : Int) - 1
  if id < 0 ∨ id ≥ f.codeMax then none
  else
    let i := id.toNat
    some (i, { f with
      comp := Function.update f.comp i comp
      codeBmp := f.codeBmp ||| (1#32 <<< i) })

/-- `fpb_code_comp_clr`: no result for a number that is no comparator. A shift by a
negative count leaves no bit. -/
def fpbCodeCompClr (f : Fpb) : Int → Option Fpb
  | .ofNat i =>
    if i ≥ f.codeMax then none
    else if f.codeBmp &&& (1#32 <<< i) = 0 then some f
    else some { f with
      codeBmp := f.codeBmp &&& ~~~(1#32 <<< i)
      comp := Function.update f.comp i 0 }
  | .negSucc _ => some f

/-- The register value that `cm3ice_bp_set` computes, if the size is valid. -/
def compValue (addr size : BitVec 32) : Option (BitVec 32) :=
  let comp := (addr &&& 0x3ffffffc#32) ||| 1#32
  if size = 2 then
    if addr &&& 2#32 ≠ 0 then some (comp ||| 0x80000000#32) else some (comp ||| 0x40000000#32)
  else if size = 4 then some (comp ||| 0xc0000000#32)
  else none

/-- `cm3ice_bp_set`. -/
def cm3iceBpSet (f : Fpb) (addr size : BitVec 32) : Option (Nat × Fpb) :=
  (compValue addr size).bind (fpbCodeCompSet f)

/-- `cm3ice_bp_clr`. -/
def cm3iceBpClr (f : Fpb) (id : Int) : Option Fpb := fpbCodeCompClr f id

/-! ## The breakpoint list -/

/-- `ice->opt.bp_max`, which `cm3ice_configure` takes from `code_max`. -/
def Debugger.bpMax (d : Debugger) : Nat := d.fpb.codeMax

/-- `ice->opt.bp_defsz`. -/
def bpDefsz : BitVec 32 := 2

/-- The entry `b`. -/
def Debugger.bp (d : Debugger) (b : BpId) : DbgBp := d.bpCtrl.poll b

/-- `bpctl->lst[0 .. cnt)`. -/
def Debugger.lst (d : Debugger) : List BpId := d.bpCtrl.lst

/-- Write fields of the entry `b`. -/
def Debugger.setBp (d : Debugger) (b : BpId) (x : DbgBp) : Debugger :=
  { d with bpCtrl := { d.bpCtrl with poll := Function.update d.bpCtrl.poll b x } }

/-- Replace the list. -/
def Debugger.setLst (d : Debugger) (lst : List BpId) : Debugger :=
  { d with bpCtrl := { d.bpCtrl with lst := lst } }

/-- `dbg_bp_init`. -/
def dbgBpInit (poll : BpId → DbgBp) : DbgBpCtrl where
  poll := poll
  lst := []
  free := List.finRange dbgBreakpointMax

/-- `dbg_bp_new`. An empty free list is not checked before the entry is written. -/
def dbgBpNew (d : Debugger) (addr size : BitVec 32) : Option (BpId × Debugger) :=
  match d.bpCtrl.free with
  | [] => none
  | b :: free =>
    let lst := if d.lst.length < dbgBreakpointMax then d.lst ++ [b] else d.lst.dropLast ++ [b]
    let d := { d with bpCtrl := { d.bpCtrl with lst := lst, free := free } }
    some (b, d.setBp b { d.bp b with addr := addr, size := size, active := false })

/-- The shift of `dbg_bp_move_to_head`. -/
def shiftTo (b : BpId) : BpId → List BpId → List BpId
  | _, [] => []
  | prev, tmp :: rest => prev :: if tmp = b then rest else shiftTo b tmp rest

/-- `dbg_bp_move_to_head`. -/
def dbgBpMoveToHead (d : Debugger) (b : BpId) : Debugger := d.setLst (shiftTo b b d.lst)

/-- The entry `b` takes the comparator `id`. -/
def Debugger.markActive (d : Debugger) (b : BpId) (id : Int) : Debugger :=
  d.setBp b { d.bp b with active := true, hwId := id }

/-- `ice_bp_set` for the entry `b`, and on success the two writes that follow. -/
def Debugger.bpSet (d : Debugger) (b : BpId) : Option Debugger :=
  match cm3iceBpSet d.fpb (d.bp b).addr (d.bp b).size with
  | none => none
  | some (id, fpb) => some (({ d with fpb := fpb } : Debugger).markActive b id)

/-- `ice_bp_clr` with its result ignored. -/
def Debugger.bpClr (d : Debugger) (id : Int) : Debugger :=
  { d with fpb := (cm3iceBpClr d.fpb id).getD d.fpb }

/-- The promotion in `dbg_bp_delete`: the last entry that fits gets the comparator.
A failed `ice_bp_set` leaves the value `stale` of an unset variable as its number. -/
def promote (d : Debugger) (stale : Int) : Option Debugger :=
  if d.lst.length ≥ d.bpMax then
    match d.bpMax with
    | 0 => none
    | k + 1 =>
      match d.lst[k]? with
      | none => none
      | some nxt =>
        if (d.bp nxt).enabled then some ((d.bpSet nxt).getD (d.markActive nxt stale)) else some d
  else some d

/-- `dbg_bp_delete`. -/
def dbgBpDelete (d : Debugger) (b : BpId) (stale : Int) : Option Debugger :=
  if b ∈ d.lst then do
    let d := d.setLst (d.lst.erase b)
    let d ← if (d.bp b).active then promote (d.bpClr (d.bp b).hwId) stale else some d
    return { d with bpCtrl := { d.bpCtrl with free := b :: d.bpCtrl.free } }
  else none

/-- The entries that the target has comparators for. -/
def Debugger.top (d : Debugger) : List BpId := d.lst.take d.bpMax

/-- The first loop of `dbg_bp_enable_all`, with its success. -/
def enableLoop : Debugger → List BpId → Bool × Debugger
  | d, [] => (true, d)
  | d, b :: bs =>
    if (d.bp b).active then enableLoop (d.setBp b { d.bp b with enabled := true }) bs
    else
      match d.bpSet b with
      | none => (false, d)
      | some d => enableLoop (d.setBp b { d.bp b with enabled := true }) bs

/-- Write `enabled` of every entry of a list. -/
def setEnabled (d : Debugger) (enabled : Bool) (bs : List BpId) : Debugger :=
  bs.foldl (fun d b => d.setBp b { d.bp b with enabled := enabled }) d

/-- `dbg_bp_enable_all`. -/
def dbgBpEnableAll (d : Debugger) : Debugger :=
  match enableLoop d d.top with
  | (true, d') => setEnabled d' true (d.lst.drop d.bpMax)
  | (false, d') => d'

/-- One round of the loops that clear: `ice_bp_clr` and the two writes that follow. -/
def Debugger.bpRelease (d : Debugger) (b : BpId) : Option Debugger :=
  match cm3iceBpClr d.fpb (d.bp b).hwId with
  | none => none
  | some fpb =>
    some (({ d with fpb := fpb } : Debugger).setBp b { d.bp b with active := false, hwId := -1 })

/-- `dbg_bp_disable_all`. -/
def disableLoop : Debugger → List BpId → Debugger
  | d, [] => d
  | d, b :: bs =>
    if (d.bp b).active then
      match d.bpRelease b with
      | none => d
      | some d => disableLoop (d.setBp b { d.bp b with enabled := false }) bs
    else disableLoop (d.setBp b { d.bp b with enabled := false }) bs

/-- The entry `b` is marked inactive before its comparator is cleared. -/
def Debugger.drop (d : Debugger) (b : BpId) : Debugger :=
  (d.setBp b { d.bp b with active := false }).bpClr (d.bp b).hwId

/-- `dbg_bp_activate`. -/
def dbgBpActivate (d : Debugger) (b : BpId) : Debugger :=
  if (d.bp b).active then d
  else
    let d :=
      match d.lst[d.bpMax]? with
      | some nxt => if (d.bp nxt).active then d.drop nxt else d
      | none => d
    (d.bpSet b).getD (d.setBp b { d.bp b with active := false, hwId := -1 })

/-- `dbg_bp_deactivate`. -/
def dbgBpDeactivate (d : Debugger) (b : BpId) : Debugger :=
  if (d.bp b).active then d.drop b else d

/-- The loop of `dbg_bp_activate_all`, with its success. -/
def activateLoop : Debugger → List BpId → Bool × Debugger
  | d, [] => (true, d)
  | d, b :: bs =>
    if (d.bp b).enabled && !(d.bp b).active then
      match d.bpSet b with
      | none => (false, d)
      | some d => activateLoop d bs
    else activateLoop d bs

/-- `dbg_bp_activate_all`. -/
def dbgBpActivateAll (d : Debugger) : Bool × Debugger := activateLoop d d.top

/-- The loop of `dbg_bp_deactivate_all`. -/
def deactivateLoop : Debugger → List BpId → Debugger
  | d, [] => d
  | d, b :: bs =>
    if (d.bp b).active then
      match d.bpRelease b with
      | none => d
      | some d => deactivateLoop d bs
    else deactivateLoop d bs

/-- `dbg_bp_deactivate_all`. -/
def dbgBpDeactivateAll (d : Debugger) : Debugger := deactivateLoop d d.top

/-- `dbg_bp_lookup`. -/
def dbgBpLookup (d : Debugger) (addr size : BitVec 32) : Option BpId :=
  d.lst.find? fun b => (d.bp b).addr = addr && (d.bp b).size = size

/-! ## The target functions -/

/-- `ice_status`: an error, or whether the core is halted. -/
abbrev IceStatus := Option Bool

/-- `dbg_status`. -/
def dbgStatus (d : Debugger) (st : IceStatus) : Debugger :=
  if d.state.num > DbgState.unconnected.num then
    match st with
    | none => d
    | some true =>
      if d.state ≠ .halted then { dbgBpDeactivateAll d with state := .halted } else d
    | some false => { d with state := .running }
  else d

/-- `target_connect`; `ok` is whether `ice_connect` succeeds. -/
def targetConnect (d : Debugger) (force ok : Bool) (st : IceStatus) : Debugger :=
  if d.state.num < DbgState.unconnected.num then d
  else if (d.state = .running ∨ d.state = .halted) ∧ !force then d
  else if !ok then d
  else
    match dbgBpActivateAll { d with state := .connected } with
    | (false, d) => d
    | (true, d) => dbgStatus d st

/-- `target_release`: the comparators are cleared whether or not the rest succeeds. -/
def targetRelease (d : Debugger) (ok : Bool) : Debugger :=
  if d.state.num < DbgState.connected.num then d
  else { d with fpb := fpbClear d.fpb, state := if ok then .unconnected else .outOfSync }

/-- `target_halt`; `ok` is whether `ice_halt_req` succeeds. -/
def targetHalt (d : Debugger) (ok : Bool) (st : IceStatus) : Debugger :=
  if d.state ≠ .running then d
  else if !ok then { d with state := .outOfSync }
  else dbgStatus d st

/-- `target_run`; `ok` is whether `ice_run` succeeds. -/
def targetRun (d : Debugger) (ok : Bool) (st : IceStatus) : Debugger :=
  if d.state.num < DbgState.connected.num then d
  else if d.state = .running then d
  else
    match dbgBpActivateAll d with
    | (false, d) => d
    | (true, d) =>
      if !ok then { d with state := .outOfSync }
      else dbgStatus { d with state := .connected } st

/-- The default for a size of zero. -/
def bpSize (size : BitVec 32) : BitVec 32 := if size = 0 then bpDefsz else size

/-- The end of `target_breakpoint_set`: the entry becomes the most recently used
one, is enabled and, unless it has one, gets a comparator. -/
def useBp (d : Debugger) (b : BpId) : Debugger :=
  let d := dbgBpMoveToHead d b
  let d := d.setBp b { d.bp b with enabled := true }
  if (d.bp b).active then d else dbgBpActivate d b

/-- `target_breakpoint_set`. -/
def targetBreakpointSet (d : Debugger) (addr size : BitVec 32) : Option Debugger :=
  if d.state.num < DbgState.connected.num then some d
  else
    match dbgBpLookup d addr (bpSize size) with
    | some b => some (useBp d b)
    | none => (dbgBpNew d addr (bpSize size)).map fun (b, d) => useBp d b

/-- `target_breakpoint_clear`. -/
def targetBreakpointClear (d : Debugger) (addr size : BitVec 32) (stale : Int) :
    Option Debugger :=
  if d.state.num < DbgState.connected.num then some d
  else
    match dbgBpLookup d addr (bpSize size) with
    | none => some d
    | some b => dbgBpDelete d b stale

/-- `target_breakpoint_enable`. -/
def targetBreakpointEnable (d : Debugger) (addr size : BitVec 32) : Debugger :=
  if d.state.num < DbgState.connected.num then d
  else
    match dbgBpLookup d addr (bpSize size) with
    | none => d
    | some b => dbgBpActivate (d.setBp b { d.bp b with enabled := true }) b

/-- `target_breakpoint_disable`. -/
def targetBreakpointDisable (d : Debugger) (addr size : BitVec 32) : Debugger :=
  if d.state.num < DbgState.connected.num then d
  else
    match dbgBpLookup d addr (bpSize size) with
    | none => d
    | some b =>
      let d := dbgBpDeactivate d b
      d.setBp b { d.bp b with enabled := false }

/-- `target_breakpoint_delete`. -/
def targetBreakpointDelete (d : Debugger) (b : BpId) (stale : Int) : Option Debugger :=
  if d.state.num < DbgState.connected.num then some d else dbgBpDelete d b stale

/-- `target_breakpoint_all_disable`. -/
def targetBreakpointAllDisable (d : Debugger) : Debugger :=
  if d.state.num < DbgState.connected.num then d else disableLoop d d.lst

/-- `target_breakpoint_all_enable`. -/
def targetBreakpointAllEnable (d : Debugger) : Debugger :=
  if d.state.num < DbgState.connected.num then d else dbgBpEnableAll d

/-- The calls of the target API that touch breakpoints. -/
inductive Action
  | connect (force ok : Bool) (st : IceStatus)
  | release (ok : Bool)
  | run (ok : Bool) (st : IceStatus)
  | halt (ok : Bool) (st : IceStatus)
  | status (st : IceStatus)
  | set (addr size : BitVec 32)
  | clear (addr size : BitVec 32) (stale : Int)
  | delete (b : BpId) (stale : Int)
  | enable (addr size : BitVec 32)
  | disable (addr size : BitVec 32)
  | allEnable
  | allDisable

/-- One call. -/
def Debugger.step (d : Debugger) : Action → Option Debugger
  | .connect force ok st => some (targetConnect d force ok st)
  | .release ok => some (targetRelease d ok)
  | .run ok st => some (targetRun d ok st)
  | .halt ok st => some (targetHalt d ok st)
  | .status st => some (dbgStatus d st)
  | .set addr size => targetBreakpointSet d addr size
  | .clear addr size stale => targetBreakpointClear d addr size stale
  | .delete b stale => targetBreakpointDelete d b stale
  | .enable addr size => some (targetBreakpointEnable d addr size)
  | .disable addr size => some (targetBreakpointDisable d addr size)
  | .allEnable => some (targetBreakpointAllEnable d)
  | .allDisable => some (targetBreakpointAllDisable d)

/-- The debugger after the target was configured: `fpb_probe` and `dbg_bp_init`. -/
def Debugger.init (codeMax : Nat) (poll : BpId → DbgBp) (comp : Nat → BitVec 32) : Debugger where
  state := .unconnected
  bpCtrl := dbgBpInit poll
  fpb := { codeMax := codeMax, codeBmp := 0, comp := comp }

end YardIce.Breakpoints
