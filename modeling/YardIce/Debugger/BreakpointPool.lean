import YardIce.Debugger.Breakpoints

/-!
# The storage of the breakpoint list

The functions of `debugger.c` that add and remove breakpoints, over the storage
they share: the first word of a pool entry is the link of the free chain while
the entry is free and holds the fields of the breakpoint while it is in use.

## Implementation notes

A pointer is as wide as the fields it overlaps, so `addr` and `size` lie behind
the link. Which fields the bits of a link read as is a parameter; a word of
fields is no link, and following it has no next state. The results of the target
are those of `Breakpoints`.
-/

namespace YardIce.Breakpoints.Pool

/-- The union at the start of `struct dbg_bp`. -/
inductive Word
  | link (next : Option BpId)
  | fields (hwId : Int) (active enabled : Bool)
  deriving DecidableEq

/-- An entry of `dbg_bp_poll`. -/
structure Entry where
  word : Word
  addr : BitVec 32
  size : BitVec 32
  deriving DecidableEq

/-- The fields of `struct debugger` that breakpoints depend on, with the pool. The
bits of a link read as the fields `bits`. -/
structure Table where
  state : DbgState
  fpb : Fpb
  entry : BpId → Entry
  lst : List BpId
  free : Option BpId
  bits : Option BpId → Int × Bool × Bool

/-- `ERR_STATE`. -/
def errState : Int := -4

namespace Table

/-- The fields of the entry `b`, whatever its first word holds. -/
def bp (t : Table) (b : BpId) : DbgBp :=
  match (t.entry b).word with
  | .fields hwId active enabled =>
    ⟨hwId, active, enabled, (t.entry b).addr, (t.entry b).size⟩
  | .link next =>
    ⟨(t.bits next).1, (t.bits next).2.1, (t.bits next).2.2, (t.entry b).addr, (t.entry b).size⟩

/-- Write fields of the entry `b`: its first word is no link any more. -/
def setBp (t : Table) (b : BpId) (x : DbgBp) : Table :=
  { t with
    entry := Function.update t.entry b ⟨.fields x.hwId x.active x.enabled, x.addr, x.size⟩ }

/-- `bp->next = next`. -/
def setNext (t : Table) (b : BpId) (next : Option BpId) : Table :=
  { t with entry := Function.update t.entry b { t.entry b with word := .link next } }

/-- `ice->opt.bp_max`. -/
def bpMax (t : Table) : Nat := t.fpb.codeMax

/-- The entry `b` takes the comparator `id`. -/
def markActive (t : Table) (b : BpId) (id : Int) : Table :=
  t.setBp b { t.bp b with active := true, hwId := id }

/-- `ice_bp_set` for the entry `b`, and on success the two writes that follow. -/
def bpSet (t : Table) (b : BpId) : Option Table :=
  match cm3iceBpSet t.fpb (t.bp b).addr (t.bp b).size with
  | none => none
  | some (id, fpb) => some (({ t with fpb := fpb } : Table).markActive b id)

/-- `ice_bp_clr` with its result ignored. -/
def bpClr (t : Table) (id : Int) : Table := { t with fpb := (cm3iceBpClr t.fpb id).getD t.fpb }

/-- The entry `b` is marked inactive before its comparator is cleared. -/
def drop (t : Table) (b : BpId) : Table :=
  (t.setBp b { t.bp b with active := false }).bpClr (t.bp b).hwId

end Table

/-- `dbg_bp_init`: the entries of the pool are chained in order. -/
def dbgBpInit (t : Table) : Table :=
  { t with
    free := some 0
    lst := []
    entry := fun b => { t.entry b with
      word := .link (if h : b.val + 1 < dbgBreakpointMax then some ⟨b.val + 1, h⟩ else none) } }

/-- `dbg_bp_new`. A null `free` is not followed, but the entry is written all the same. -/
def dbgBpNew (t : Table) (addr size : BitVec 32) : Option (BpId × Table) :=
  match t.free with
  | none => none
  | some b =>
    match (t.entry b).word with
    | .fields _ _ _ => none
    | .link next =>
      let t := { t with free := next }
      let t := t.setBp b { t.bp b with addr := addr, size := size, active := false }
      let lst := if t.lst.length < dbgBreakpointMax then t.lst ++ [b] else t.lst.dropLast ++ [b]
      some (b, { t with lst := lst })

/-- `dbg_bp_move_to_head`. -/
def dbgBpMoveToHead (t : Table) (b : BpId) : Table := { t with lst := shiftTo b b t.lst }

/-- The promotion in `dbg_bp_delete`. -/
def promote (t : Table) (stale : Int) : Option Table :=
  if t.lst.length ≥ t.bpMax then
    match t.bpMax with
    | 0 => none
    | k + 1 =>
      match t.lst[k]? with
      | none => none
      | some nxt =>
        if (t.bp nxt).enabled then some ((t.bpSet nxt).getD (t.markActive nxt stale)) else some t
  else some t

/-- `dbg_bp_delete`: the entries behind `bp` move one place to the front. -/
def dbgBpDelete (t : Table) (b : BpId) (stale : Int) : Option (Int × Table) :=
  match t.lst.findIdx? (· = b) with
  | none => none
  | some n => do
    let t := { t with lst := t.lst.eraseIdx n }
    let t ← if (t.bp b).active then promote (t.bpClr (t.bp b).hwId) stale else some t
    let t := t.setNext b t.free
    return (0, { t with free := some b })

/-- `dbg_bp_activate`. -/
def dbgBpActivate (t : Table) (b : BpId) : Table :=
  if (t.bp b).active then t
  else
    let t :=
      match t.lst[t.bpMax]? with
      | some nxt => if (t.bp nxt).active then t.drop nxt else t
      | none => t
    (t.bpSet b).getD (t.setBp b { t.bp b with active := false, hwId := -1 })

/-- `dbg_bp_lookup`. -/
def dbgBpLookup (t : Table) (addr size : BitVec 32) : Option BpId :=
  t.lst.find? fun b => (t.bp b).addr = addr && (t.bp b).size = size

/-- The end of `target_breakpoint_set`. -/
def useBp (t : Table) (b : BpId) : Table :=
  let t := dbgBpMoveToHead t b
  let t := t.setBp b { t.bp b with enabled := true }
  if (t.bp b).active then t else dbgBpActivate t b

/-- `target_breakpoint_set`. Its check of a null result stands behind the writes. -/
def targetBreakpointSet (t : Table) (addr size : BitVec 32) : Option (Int × Table) :=
  if t.state.num < DbgState.connected.num then some (errState, t)
  else
    match dbgBpLookup t addr (bpSize size) with
    | some b => some (0, useBp t b)
    | none => (dbgBpNew t addr (bpSize size)).map fun (b, t) => (0, useBp t b)

/-- `target_breakpoint_clear`. -/
def targetBreakpointClear (t : Table) (addr size : BitVec 32) (stale : Int) :
    Option (Int × Table) :=
  if t.state.num < DbgState.connected.num then some (errState, t)
  else
    match dbgBpLookup t addr (bpSize size) with
    | none => some (-1, t)
    | some b => dbgBpDelete t b stale

/-- `target_breakpoint_delete`. -/
def targetBreakpointDelete (t : Table) (b : BpId) (stale : Int) : Option (Int × Table) :=
  if t.state.num < DbgState.connected.num then some (errState, t) else dbgBpDelete t b stale

/-- The calls that add and remove breakpoints. -/
inductive Call
  | set (addr size : BitVec 32)
  | clear (addr size : BitVec 32) (stale : Int)
  | delete (b : BpId) (stale : Int)

/-- One call, with its result. -/
def Table.call (t : Table) : Call → Option (Int × Table)
  | .set addr size => targetBreakpointSet t addr size
  | .clear addr size stale => targetBreakpointClear t addr size stale
  | .delete b stale => targetBreakpointDelete t b stale

/-- The table after one call. -/
def Table.step (t : Table) (c : Call) : Option Table := (t.call c).map Prod.snd

end YardIce.Breakpoints.Pool
