import Mathlib.Data.BitVec

/-!
# Dispatch over the memory map

`ice_mem_read` and `ice_mem_write` of `ice_drv.c`. A request is cut at the regions
of the memory map and at the blocks of each region; each piece goes to the operation
of its region.

## Implementation notes

The map is the list of the entries before the terminating one. The state `σ` is
whatever the region operations act on, the buffer of the caller included; a position
in that buffer is its offset from `dst` or `src`. The value of an operation is an
`int`, kept as its 32-bit word. The list of the calls issued is a record of the run.
-/

namespace YardIce.IceDrv

abbrev Word := BitVec 32

/-- `MEM_RO`. -/
def memRo : BitVec 8 := 0x80

/-- `ice_mem_ref_t`. -/
structure MemRef where
  base : Word
  offs : Word
  deriving DecidableEq

/-- The target address of a reference. -/
def MemRef.addr (r : MemRef) : Word := r.base + r.offs

/-- An operation of a region: a reference, a position in the buffer and a size. -/
abbrev RegionOp (σ : Type) := MemRef → Nat → Word → σ → Word × σ

/-- `ice_mem_oper_t`. -/
structure MemOper (σ : Type) where
  read : RegionOp σ
  write : RegionOp σ

/-- `ice_mem_entry_t`: `count` blocks of `size` bytes at `addr`. -/
structure MemEntry (σ : Type) where
  flags : BitVec 8
  addr : MemRef
  count : Word
  size : Word
  op : MemOper σ

/-- One call of a region operation. -/
structure Call (σ : Type) where
  entry : MemEntry σ
  ref : MemRef
  ptr : Nat
  n : Word

/-- The variables of a transfer that live across regions. -/
structure Cursor (σ : Type) where
  addr : Word
  rem : Word
  ptr : Nat
  target : σ
  calls : List (Call σ)

/-- What the loop over the blocks of a region ends with. -/
inductive Outcome (σ : Type)
  | returned (ret : Word) (c : Cursor σ)
  | running (c : Cursor σ)

variable {σ : Type}

/-- The loop over the blocks of a region, with the number of blocks left, the bytes
up to the end of the block and `ref.offs`. -/
def blkLoop (op : RegionOp σ) (e : MemEntry σ) (len : Word) :
    Nat → Word → Word → Cursor σ → Outcome σ
  | 0, _, _, c => .running c
  | left + 1, n, offs, c =>
      let n := if c.rem < n then c.rem else n
      let ref : MemRef := ⟨e.addr.base, offs⟩
      let (ret, target) := op ref c.ptr n c.target
      let c := { c with target := target, calls := c.calls ++ [⟨e, ref, c.ptr, n⟩] }
      -- a negative value is an error, a call that moved nothing leaves the region
      if ret ≠ n ∧ ret.msb then .returned ret c
      else if ret ≠ n ∧ ret = 0 then .running c
      else if c.rem ≤ ret then .returned (len + (ret - c.rem)) c
      else
        blkLoop op e len left e.size (offs + ret)
          { c with rem := c.rem - ret, addr := c.addr + ret, ptr := c.ptr + ret.toNat }

/-- The loop over the entries. The operation is the one of `ice_mem_read` or
`ice_mem_write`; only the latter is guarded by `MEM_RO`. -/
def memLoop (op : MemOper σ → RegionOp σ) (guarded : Bool) (len : Word) :
    List (MemEntry σ) → Cursor σ → Word × Cursor σ
  | [], c => (len - c.rem, c)
  | e :: rest, c =>
      let size := e.count * e.size
      if size = 0 then memLoop op guarded len rest c
      else
        let memStart := e.addr.base + e.addr.offs
        let memEnd := memStart + size - 1
        if c.addr < memStart ∨ memEnd < c.addr then memLoop op guarded len rest c
        else if guarded ∧ e.flags &&& memRo ≠ 0 then (-1, c)
        else
          let blk := (c.addr - memStart) / e.size
          let blkStart := memStart + blk * e.size
          let n := e.size - (c.addr - blkStart)
          match blkLoop (op e.op) e len (e.count.toNat - blk.toNat) n
              (c.addr - e.addr.base) c with
          | .returned ret c => (ret, c)
          | .running c => memLoop op guarded len rest c

/-- `ice_mem_read`: the value returned and the state left. -/
def iceMemRead (map : List (MemEntry σ)) (addr len : Word) (s : σ) : Word × Cursor σ :=
  memLoop MemOper.read false len map ⟨addr, len, 0, s, []⟩

/-- `ice_mem_write`. -/
def iceMemWrite (map : List (MemEntry σ)) (addr len : Word) (s : σ) : Word × Cursor σ :=
  memLoop MemOper.write true len map ⟨addr, len, 0, s, []⟩

end YardIce.IceDrv
