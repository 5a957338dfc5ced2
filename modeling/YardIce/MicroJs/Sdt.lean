import YardIce.MicroJs.Lexer
import Mathlib.Data.BitVec
import Mathlib.Logic.Function.Basic

/-!
# The state of the MicroJS translator

The translator writes its code into a buffer, counts the words that the code will have on
the operand stack, and allocates the words of the variables.

## Implementation notes

`Env` holds what a compilation does not change: the external library, the switch
`MICROJS_OPTIMIZATION_ENABLED`, the room of the parser's stack and the memory with the
source texts. Without the optimisation nothing reads the saved code position. The members
of the union in an external definition are separate fields, of which the type and the flags
select the ones that count.
-/

namespace YardIce.MicroJs

open YardIce.Lib

abbrev Word := BitVec 32

/-! ## Opcodes -/

def opcAbt : Nat := 0
def opcRet : Nat := 1
def opcXpt : Nat := 2
def opcPop : Nat := 3
def opcInv : Nat := 4
def opcNeg : Nat := 5
def opcI8 : Nat := 6
def opcI16 : Nat := 7
def opcI32 : Nat := 8
def opcExt : Nat := 9
def opcInc : Nat := 10
def opcDec : Nat := 11
def opcNot : Nat := 12
def opcI4 : Nat := 16
def opcAdd : Nat := 32
def opcSub : Nat := 33
def opcMul : Nat := 34
def opcDiv : Nat := 35
def opcMod : Nat := 36
def opcAsr : Nat := 37
def opcShl : Nat := 38
def opcOr : Nat := 39
def opcAnd : Nat := 40
def opcXor : Nat := 41
def opcLt : Nat := 42
def opcGt : Nat := 43
def opcEq : Nat := 44
def opcNe : Nat := 45
def opcLe : Nat := 46
def opcGe : Nat := 47
def opcIsp : Nat := 48
def opcLd : Nat := 64
def opcSt : Nat := 80
def opcPushx : Nat := 96
def opcJmp : Nat := 112
def opcJeq : Nat := 128

/-! ## The external library -/

/-- `O_ARRAY`. -/
def oArray : Nat := 1

/-- `O_MEMBER`. -/
def oMember : Nat := 2

/-- `O_SIZEOFFS`. -/
def oSizeoffs : Nat := 4

/-- `O_READONLY`, which is also `O_SINGLETON`. -/
def oReadonly : Nat := 8

/-- `O_SINGLETON`. -/
def oSingleton : Nat := 8

/-- `O_FUNCTION`. -/
def oFunction : Nat := 0

/-- `O_INTEGER`. -/
def oInteger : Nat := 64

/-- `O_OBJECT`. -/
def oObject : Nat := 128

/-- `struct extdef`. -/
structure ExtDef where
  nm : List Nat
  opt : Nat
  argmin : Nat
  argmax : Nat
  ret : Int
  cdef : Nat
  inst : Int
  size : Nat
  offs : Int

/-- `EXTDEF_TYPE`. -/
def ExtDef.typ (x : ExtDef) : Nat := x.opt &&& 192

/-- `EXTDEF_FLAG`. -/
def ExtDef.flag (x : ExtDef) (o : Nat) : Bool := x.opt &&& o != 0

/-- `struct classdef`. -/
structure ClassDef where
  first : Nat
  last : Nat

/-- `struct ext_libdef`. -/
structure Libdef where
  xdef : List ExtDef
  classtab : List ClassDef

/-- `lib_lookup`: the first definition of that name. -/
def libLookup (lib : Libdef) (nm : List Nat) : Option Nat :=
  lib.xdef.findIdx? fun x => x.nm == nm

/-- `lib_member_lookup`: the first member of the class with that name. -/
def libMemberLookup (lib : Libdef) (cid : Nat) (nm : List Nat) : Option Nat :=
  let c := lib.classtab.getD cid ⟨1, 0⟩
  (List.range (c.last + 1)).find? fun i =>
    c.first ≤ i && (lib.xdef[i]?).any fun x => x.nm == nm

/-! ## Strings -/

/-- `cxlate`. -/
def cxlate (c : Nat) : Nat :=
  if c = 97 then 7 else if c = 98 then 8 else if c = 102 then 12 else if c = 110 then 10
  else if c = 114 then 13 else if c = 116 then 9 else if c = 118 then 11 else c

/-- The text that `cstrncpy` stores. -/
def cstrDecode : List Nat → List Nat
  | 92 :: c :: cs => cxlate c :: cstrDecode cs
  | [92] => []
  | c :: cs => c :: cstrDecode cs
  | [] => []

/-- `struct strbuf`: the decoded strings, and the offset of the last one. -/
structure Strbuf where
  strs : List (List Nat)
  pos : Nat

/-- `cstr_add`: the index of the string, which is added if it is not there. A string that
would begin before the buffer counts as one that does not fit. -/
def cstrAdd (s : List Nat) : Attempt Strbuf Err Nat := fun b =>
  match b.strs.findIdx? fun x => x == cstrDecode s with
  | some i => (.ok i, b)
  | none =>
      if b.pos < s.length + 1 + (b.strs.length + 1) * 2 then (.error .strbufOverflow, b)
      else (.ok b.strs.length, ⟨b.strs ++ [cstrDecode s], b.pos - (s.length + 1)⟩)

/-! ## The translator -/

/-- What stays the same while a program is compiled. -/
structure Env where
  lib : Libdef
  opt : Bool
  room : Nat
  mem : Nat → Nat

/-- `struct microjs_sdt`. The parser's stack is a list with its top first. -/
structure Sdt where
  tok : Token
  tab : Symtab
  strs : Strbuf
  code : Nat → Nat
  cdsz : Nat
  pc : Nat
  stackPos : Nat
  dataPos : Nat
  ll : List Sym
  spc : Nat

abbrev Op := Attempt Sdt Err Unit

/-- The name that a token or a descriptor designates. -/
def Env.name (E : Env) (s len : Nat) : List Nat := load E.mem s len

/-- A computation on the symbol table. -/
def onTab {α : Type} (x : Attempt Symtab Err α) : Attempt Sdt Err α :=
  Attempt.on (fun m => m.tab) (fun tab m => { m with tab }) x

/-! ## Target memory -/

/-- `SIZEOF_WORD`. -/
def sizeofWord : Nat := 4

/-- `tgt_alloc32`. -/
def tgtAlloc32 : Attempt Sdt Err Nat := do
  let addr ← Attempt.read fun m => (m.dataPos + 3) / 4 * 4
  Attempt.update fun m =>
    let pos := (addr + sizeofWord) % 65536
    { m with dataPos := pos, tab := { m.tab with dataSz := max m.tab.dataSz pos } }
  return addr

/-- `tgt_stack_push`. -/
def tgtStackPush : Op := Attempt.update fun m =>
  let pos := (m.stackPos + sizeofWord) % 65536
  { m with stackPos := pos, tab := { m.tab with stackSz := max m.tab.stackSz pos } }

/-- `tgt_stack_pop`. -/
def tgtStackPop : Op := do
  let pos ← Attempt.read fun m => m.stackPos
  Attempt.guard (pos ≠ 0) .stackUnderflow
  Attempt.update fun m => { m with stackPos := (m.stackPos + 65536 - sizeofWord) % 65536 }

/-- `tgt_stack_adjust`. -/
def tgtStackAdjust (cnt : Int) : Op := do
  let addr ← Attempt.read fun m => (m.stackPos : Int) + cnt * sizeofWord
  Attempt.guard (0 ≤ addr) .stackUnderflow
  Attempt.update fun m => { m with stackPos := (addr % 65536).toNat }

/-! ## Code -/

/-- `code[pc++] = b`. -/
def Sdt.putByte (m : Sdt) (b : Nat) : Sdt :=
  { m with code := Function.update m.code m.pc (b % 256), pc := (m.pc + 1) % 65536 }

/-- Writes an instruction. -/
def emit (bs : List Nat) : Op := Attempt.update fun m => bs.foldl Sdt.putByte m

/-- Writes an opcode and leaves room for the byte behind it, which is patched later. -/
def reserve (opc : Nat) : Op := Attempt.update fun m =>
  { m with code := Function.update m.code m.pc opc, pc := (m.pc + 2) % 65536 }

/-- Adds the low bits of an offset to the opcode at `addr` and stores the others behind. -/
def patch (addr : Nat) (offs : Int) : Op := Attempt.update fun m =>
  let code := Function.update m.code addr ((m.code addr + (offs % 16).toNat) % 256)
  { m with code := Function.update code (addr + 1) (offs / 16 % 256).toNat }

/-- A jump to an offset. -/
def jmpBytes (offs : Int) : List Nat := [opcJmp + (offs % 16).toNat, (offs / 16 % 256).toNat]

/-- `spc = pc`, with the optimisation. -/
def saveSpc (E : Env) : Op := Attempt.update fun m => if E.opt then { m with spc := m.pc } else m

/-- `pc = spc`. -/
def rollback : Op := Attempt.update fun m => { m with pc := m.spc }

/-- The bytes that `encode_int` writes. -/
def intBytes (x : Word) : List Nat :=
  if -8 ≤ x.toInt ∧ x.toInt < 8 then [opcI4 + x.toNat % 16]
  else if -128 ≤ x.toInt ∧ x.toInt < 128 then [opcI8, x.toNat]
  else if -32768 ≤ x.toInt ∧ x.toInt < 32768 then [opcI16, x.toNat, x.toNat / 256]
  else [opcI32, x.toNat, x.toNat / 256, x.toNat / 65536, x.toNat / 16777216]

/-- `encode_int`. -/
def encodeInt (E : Env) (x : Word) : Op := do
  saveSpc E
  emit (intBytes x)

/-- `is_constant`. -/
def isConstant (code : Nat → Nat) (spc : Nat) : Option Word :=
  let opc := code spc
  if opc / 16 = 1 then some ((BitVec.ofNat 4 opc).signExtend 32)
  else if opc = opcI8 then some ((BitVec.ofNat 8 (code (spc + 1))).signExtend 32)
  else if opc = opcI16 then
    some ((BitVec.ofNat 16 (code (spc + 1) + 256 * code (spc + 2))).signExtend 32)
  else if opc = opcI32 then
    some (BitVec.ofNat 32 (code (spc + 1) + 256 * code (spc + 2) + 65536 * code (spc + 3) +
      16777216 * code (spc + 4)))
  else none

/-- The constant at the saved position, which only the optimisation looks for. -/
def lastConstant (E : Env) : Attempt Sdt Err (Option Word) :=
  Attempt.read fun m => if E.opt then isConstant m.code m.spc else none

/-! ## Descriptors -/

def symTmpPush (t : Tmp) : Op := onTab (symPush t.bytes)

def symTmpPop : Attempt Sdt Err Tmp := Tmp.ofBytes <$> onTab (symPop 8)

def symCldPush (c : Cld) : Op := onTab (symPush c.bytes)

def symCldPop : Attempt Sdt Err Cld := Cld.ofBytes <$> onTab (symPop 1)

def symCallPush (c : Call) : Op := onTab (symPush c.bytes)

def symCallPop : Attempt Sdt Err Call := Call.ofBytes <$> onTab (symPop 5)

def symRefPush (r : Ref) : Op := onTab (symPush r.bytes)

def symRefPop : Attempt Sdt Err Ref := Ref.ofBytes <$> onTab (symPop 2)

def symWldPush (w : Wld) : Op := onTab (symPush w.bytes)

def symWldPop : Attempt Sdt Err Wld := Wld.ofBytes <$> onTab (symPop 4)

def symFldPush (f : Fld) : Op := onTab (symPush f.bytes)

def symFldPop : Attempt Sdt Err Fld := Fld.ofBytes <$> onTab (symPop 8)

def symAddrPush (addr : Nat) : Op := onTab (symPush (le16 addr))

def symAddrPop : Attempt Sdt Err Nat := ofBytes <$> onTab (symPop 2)

end YardIce.MicroJs
