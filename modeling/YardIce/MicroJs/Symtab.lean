import YardIce.Lib.Attempt
import Mathlib.Data.List.Basic

/-!
# The symbol table of the MicroJS compiler

One buffer of bytes holds the objects, which grow up from its start and are linked both
ways by lengths of 8 bits, and a stack of descriptors and frames, which grows down from
its end. The last object is followed by a terminator, of which only the links count.

## Implementation notes

Bytes are natural numbers, reduced modulo 256 where the source narrows a value. The
compiler is built without its trace, so that references carry no label. A name is the
list of the bytes that the source designates by an address and a length. The two walks
over the objects carry a bound on their steps, which a well formed table never reaches.
-/

namespace YardIce.MicroJs

open YardIce.Lib

/-- The error codes that the compiler returns negated. -/
inductive Err where
  | unexpectedEof
  | unexpectedChar
  | unexpectedSymbol
  | unclosedString
  | unclosedComment
  | invalidLiteral
  | strbufOverflow
  | syntaxError
  | varUnknown
  | externUnknown
  | argMissing
  | tooManyArgs
  | symPushFail
  | symPopFail
  | objNewFail
  | sdtStackOverflow
  | codeMemOverflow
  | retCountMismatch
  | stackUnderflow
  | externNotFunction
  | externNotArray
  | externNotObject
  | externNotInteger
  | externNotMember
  | externReadonly
  | externNotScalar
  deriving DecidableEq, Repr

/-! ## Bytes -/

/-- The bytes of a `uint16_t`. -/
def le16 (n : Nat) : List Nat := [n % 256, n / 256 % 256]

/-- The bytes of a pointer. -/
def le32 (n : Nat) : List Nat := [n % 256, n / 256 % 256, n / 65536 % 256, n / 16777216 % 256]

/-- The value of bytes, least significant first. -/
def ofBytes : List Nat → Nat
  | [] => 0
  | b :: bs => b + 256 * ofBytes bs

/-- The buffer with `bs` written from `pos`. -/
def store (buf : Nat → Nat) (pos : Nat) (bs : List Nat) : Nat → Nat := fun i =>
  if pos ≤ i then (bs[i - pos]?).getD (buf i) else buf i

/-- The bytes from `pos`. -/
def load (buf : Nat → Nat) (pos len : Nat) : List Nat :=
  (List.range len).map fun i => buf (pos + i)

/-! ## The table -/

/-- `struct symtab` with the run-time sizes of `struct microjs_rt`. -/
structure Symtab where
  buf : Nat → Nat
  sp : Nat
  bp : Nat
  fp : Nat
  top : Nat
  stackSz : Nat
  dataSz : Nat

/-- `struct symstat`. -/
structure Symstat where
  sp : Nat
  bp : Nat

/-- `symtab_init`, on a buffer with any contents. -/
def symtabInit (buf : Nat → Nat) (bufLen : Nat) : Symtab :=
  let top := (bufLen - 12) % 65536
  { buf := store buf 0 [0, 0], sp := top, bp := 0, fp := top, top, stackSz := 0, dataSz := 0 }

/-- `symtab_isempty`. -/
def Symtab.isEmpty (tab : Symtab) : Bool := tab.sp == tab.top

/-! ## The stack -/

/-- `sym_push`, which keeps two bytes for the terminator. -/
def symPush (bs : List Nat) : Attempt Symtab Err Unit := fun tab =>
  if tab.bp + 2 + bs.length ≤ tab.sp then
    (.ok (), { tab with buf := store tab.buf (tab.sp - bs.length) bs, sp := tab.sp - bs.length })
  else (.error .symPushFail, tab)

/-- `sym_pop`. -/
def symPop (len : Nat) : Attempt Symtab Err (List Nat) := fun tab =>
  if tab.fp ≤ tab.sp then (.error .symPopFail, tab)
  else (.ok (load tab.buf tab.sp len), { tab with sp := tab.sp + len })

/-- `sym_pick`. -/
def symPick (tab : Symtab) (len : Nat) : List Nat := load tab.buf (tab.fp - len) len

/-- `sym_sf_push`. -/
def symSfPush : Attempt Symtab Err Unit := do
  let sf ← Attempt.read fun tab => le16 tab.fp ++ le16 tab.bp
  symPush sf
  Attempt.update fun tab => { tab with fp := tab.sp }

/-- `sym_sf_pop`: without a frame it returns a positive code, which its callers take for
success. -/
def symSfPop (tab : Symtab) : Symtab :=
  if tab.top ≤ tab.fp then tab
  else
    let bp := ofBytes (load tab.buf (tab.fp + 2) 2)
    { tab with
      sp := tab.fp + 4
      fp := ofBytes (load tab.buf tab.fp 2)
      bp
      buf := store tab.buf (bp + 1) [0] }

/-- The `bp` that `sym_sf_get` gives. -/
def Symtab.scopeStart (tab : Symtab) : Nat :=
  if tab.top ≤ tab.fp then 0 else ofBytes (load tab.buf (tab.fp + 2) 2)

/-! ## Objects

An object has the links `prev` and `next`, flags, a size, a 16 bit address and its name
with a zero behind it. -/

/-- `sizeof(struct sym_obj)`. -/
def sizeofSymObj : Nat := 6

/-- The bytes that `strncpy` writes. -/
def strncpy (nm : List Nat) : List Nat :=
  let s := nm.takeWhile (· ≠ 0)
  s ++ List.replicate (nm.length - s.length) 0

/-- `strncmp(obj, nm, len) == 0`. -/
def strncmpEq (buf : Nat → Nat) : Nat → List Nat → Bool
  | _, [] => true
  | pos, c :: cs => buf pos == c && (c == 0 || strncmpEq buf (pos + 1) cs)

/-- The object at `pos` has the name `nm`. -/
def nameIs (buf : Nat → Nat) (pos : Nat) (nm : List Nat) : Bool :=
  strncmpEq buf (pos + sizeofSymObj) nm && buf (pos + sizeofSymObj + nm.length) == 0

/-- `SYM_OBJ_ALLOC`. -/
def symObjAlloc : Nat := 128

/-- `SYM_OBJ_GLOBAL`. -/
def symObjGlobal : Nat := 64

/-- `sym_obj_new`, with the place of the object. -/
def symObjNew (nm : List Nat) : Attempt Symtab Err Nat := fun tab =>
  let objLen := sizeofSymObj + nm.length + 1
  if tab.sp < tab.bp + objLen + 2 then (.error .objNewFail, tab)
  else
    let flags := if tab.fp = tab.top then symObjGlobal else 0
    let buf := store tab.buf (tab.bp + 1)
      ([objLen % 256, flags, 0, 0, 0] ++ strncpy nm ++ [0])
    (.ok tab.bp, { tab with
      buf := store buf (tab.bp + objLen) [objLen % 256, 0], bp := tab.bp + objLen })

/-- The search of `sym_obj_lookup` from `pos` down. -/
def lookupDown (buf : Nat → Nat) (nm : List Nat) : Nat → Nat → Option Nat
  | 0, _ => none
  | fuel + 1, pos =>
      if buf pos = 0 then none
      else if nameIs buf (pos - buf pos) nm then some (pos - buf pos)
      else lookupDown buf nm fuel (pos - buf pos)

/-- `sym_obj_lookup`. -/
def symObjLookup (tab : Symtab) (nm : List Nat) : Option Nat :=
  lookupDown tab.buf nm (tab.bp + 1) tab.bp

/-- The search of `sym_obj_scope_lookup` from `pos` up. -/
def lookupUp (buf : Nat → Nat) (nm : List Nat) : Nat → Nat → Option Nat
  | 0, _ => none
  | fuel + 1, pos =>
      if buf (pos + 1) = 0 then none
      else if nameIs buf pos nm then some pos
      else lookupUp buf nm fuel (pos + buf (pos + 1))

/-- `sym_obj_scope_lookup`. -/
def symObjScopeLookup (tab : Symtab) (nm : List Nat) : Option Nat :=
  lookupUp tab.buf nm 65536 tab.scopeStart

/-- The sum of `symtab_data_size` from `pos` up. -/
def dataSizeUp (buf : Nat → Nat) : Nat → Nat → Nat
  | 0, _ => 0
  | fuel + 1, pos =>
      if buf (pos + 1) = 0 then 0
      else buf (pos + 3) + dataSizeUp buf fuel (pos + buf (pos + 1))

/-- `symtab_data_size`. -/
def symtabDataSize (tab : Symtab) : Nat := dataSizeUp tab.buf 65536 0

/-- The address in the object at `pos`. -/
def Symtab.objAddr (tab : Symtab) (pos : Nat) : Nat := ofBytes (load tab.buf (pos + 4) 2)

/-- `op_var_decl` fills the object: its address, the size of an integer and the flag of
an allocated object. -/
def Symtab.objAlloc (tab : Symtab) (pos addr : Nat) : Symtab :=
  { tab with
    buf := store tab.buf (pos + 2) ([tab.buf (pos + 2) ||| symObjAlloc, 4] ++ le16 addr) }

/-! ## States -/

/-- `symtab_state_save`. -/
def symtabStateSave (tab : Symtab) : Symstat := ⟨tab.sp, tab.bp⟩

/-- Pops frames until only the global one is left. -/
def popFrames : Nat → Symtab → Symtab
  | 0, tab => tab
  | fuel + 1, tab => if tab.fp = tab.top then tab else popFrames fuel (symSfPop tab)

/-- `symtab_state_rollback`. -/
def symtabStateRollback (tab : Symtab) (st : Symstat) : Symtab :=
  { popFrames (tab.top + 1) tab with sp := st.sp, bp := st.bp }

/-! ## Descriptors -/

/-- `struct sym_tmp`: the address of a name in the source text and its length. -/
structure Tmp where
  s : Nat
  len : Nat

/-- `struct sym_cld`. -/
structure Cld where
  cid : Nat

/-- `struct sym_call`. -/
structure Call where
  xid : Nat
  argcnt : Nat
  argmin : Nat
  argmax : Nat
  retcnt : Int

/-- `struct sym_ref`. -/
structure Ref where
  addr : Nat

/-- `struct sym_wld`. -/
structure Wld where
  loop : Nat
  cond : Nat

/-- `struct sym_fld`. -/
structure Fld where
  addr0 : Nat
  addr1 : Nat
  addr2 : Nat
  addr3 : Nat

/-- A byte read as an `int8_t`. -/
def sext8 (b : Nat) : Int := if b < 128 then b else (b : Int) - 256

def Tmp.bytes (t : Tmp) : List Nat := le32 t.s ++ [t.len % 256, 0, 0, 0]

def Tmp.ofBytes (bs : List Nat) : Tmp := ⟨MicroJs.ofBytes (bs.take 4), bs.getD 4 0⟩

def Cld.bytes (c : Cld) : List Nat := [c.cid % 256]

def Cld.ofBytes (bs : List Nat) : Cld := ⟨bs.getD 0 0⟩

def Call.bytes (c : Call) : List Nat :=
  [c.xid % 256, c.argcnt % 256, c.argmin % 256, c.argmax % 256, (c.retcnt % 256).toNat]

def Call.ofBytes (bs : List Nat) : Call :=
  ⟨bs.getD 0 0, bs.getD 1 0, bs.getD 2 0, bs.getD 3 0, sext8 (bs.getD 4 0)⟩

def Ref.bytes (r : Ref) : List Nat := le16 r.addr

def Ref.ofBytes (bs : List Nat) : Ref := ⟨MicroJs.ofBytes (bs.take 2)⟩

def Wld.bytes (w : Wld) : List Nat := le16 w.loop ++ le16 w.cond

def Wld.ofBytes (bs : List Nat) : Wld :=
  ⟨MicroJs.ofBytes (bs.take 2), MicroJs.ofBytes ((bs.drop 2).take 2)⟩

def Fld.bytes (f : Fld) : List Nat := le16 f.addr0 ++ le16 f.addr1 ++ le16 f.addr2 ++ le16 f.addr3

def Fld.ofBytes (bs : List Nat) : Fld :=
  ⟨MicroJs.ofBytes (bs.take 2), MicroJs.ofBytes ((bs.drop 2).take 2),
    MicroJs.ofBytes ((bs.drop 4).take 2), MicroJs.ofBytes ((bs.drop 6).take 2)⟩

end YardIce.MicroJs
