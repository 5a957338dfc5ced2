import YardIce.MicroJs.Sdt

/-!
# The actions of the MicroJS translator

Each action of the grammar is a function that pops descriptors from the symbol table's
stack, emits or patches code, and pushes descriptors. The structure follows the sections
of the translator.
-/

namespace YardIce.MicroJs

open YardIce.Lib

variable (E : Env)

def opPushTmp : Op := do
  let tok ← Attempt.read fun m => m.tok
  symTmpPush ⟨tok.s, tok.qlf⟩

def opPopTmp : Op := do
  let _ ← symTmpPop
  return ()

/-! ## Scoping -/

/-- The result of the first push is not looked at. -/
def opBlkOpen : Op := do
  let pos ← Attempt.read fun m => m.dataPos
  Attempt.ignoring (symAddrPush pos)
  onTab symSfPush

def opBlkClose : Op := do
  Attempt.update fun m => { m with tab := symSfPop m.tab }
  let pos ← symAddrPop
  Attempt.update fun m => { m with dataPos := pos }

/-! ## Variables -/

/-- The name of the token, declared in the scope or not yet. -/
def opVarDecl : Op := do
  let nm ← Attempt.read fun m => E.name m.tok.s m.tok.qlf
  let known ← Attempt.read fun m => symObjScopeLookup m.tab nm
  match known with
  | some _ => return ()
  | none =>
      let obj ← onTab (symObjNew nm)
      let addr ← tgtAlloc32
      Attempt.update fun m => { m with tab := m.tab.objAlloc obj addr }

/-- The variable that a descriptor names. -/
def varLookup (tmp : Tmp) : Attempt Sdt Err Nat := do
  let obj ← Attempt.read fun m => symObjLookup m.tab (E.name tmp.s tmp.len)
  Attempt.get obj .varUnknown

/-- The bytes of a load or a store. -/
def varBytes (opc addr : Nat) : List Nat :=
  [opc + addr / 4 % 4096 % 16, addr / 4 % 4096 / 16]

def opVarEval : Op := do
  let tmp ← symTmpPop
  let obj ← varLookup E tmp
  saveSpc E
  let addr ← Attempt.read fun m => m.tab.objAddr obj
  emit (varBytes opcLd addr)
  tgtStackPush

def opVarAssign : Op := do
  let tmp ← symTmpPop
  let obj ← varLookup E tmp
  saveSpc E
  let addr ← Attempt.read fun m => m.tab.objAddr obj
  emit (varBytes opcSt addr)
  tgtStackPop

/-! ## External objects -/

/-- The external that a descriptor names, with its number. -/
def externLookup (tmp : Tmp) : Attempt Sdt Err (Nat × ExtDef) := do
  let xid ← Attempt.get (libLookup E.lib (E.name tmp.s tmp.len)) .externUnknown
  let xdef ← Attempt.get E.lib.xdef[xid]? .externUnknown
  return (xid, xdef)

/-- An instruction that calls an external. -/
def extBytes (xid argc : Nat) : List Nat := [opcExt, xid, argc]

/-- The instance of an object is a constant, or a call without arguments gives it. -/
def objectCode (x : Nat × ExtDef) : Op :=
  if x.2.flag oSingleton then encodeInt E (BitVec.ofInt 32 x.2.inst)
  else emit (extBytes x.1 0)

def opObjectGet : Op := do
  let tmp ← symTmpPop
  let x ← externLookup E tmp
  Attempt.guard (x.2.typ = oObject) .externNotObject
  Attempt.guard (x.2.flag oArray = false) .externNotScalar
  objectCode E x
  tgtStackPush
  symCldPush ⟨x.2.cdef⟩

/-- Combines the index with a constant. -/
def indexOp (c : Prop) [Decidable c] (x : Word) (opc : Nat) : Op :=
  if c then do
    encodeInt E x
    emit [opc]
  else pure ()

/-- The index becomes an instance by a multiplication and an addition. -/
def sizeoffsCode (x : ExtDef) : Op := do
  indexOp E (1 < x.size) (BitVec.ofNat 32 x.size) opcMul
  indexOp E (x.offs ≠ 0) (BitVec.ofInt 32 x.offs) opcAdd

/-- The index becomes an instance by arithmetic or by a call. -/
def xlatCode (x : Nat × ExtDef) : Op :=
  if x.2.flag oSizeoffs then sizeoffsCode E x.2 else emit (extBytes x.1 1)

def opArrayXlat : Op := do
  let tmp ← symTmpPop
  let x ← externLookup E tmp
  Attempt.guard (x.2.typ = oObject) .externNotObject
  Attempt.guard (x.2.flag oArray = true) .externNotArray
  xlatCode E x
  symCldPush ⟨x.2.cdef⟩

/-- `class_member_pop`. -/
def classMemberPop : Attempt Sdt Err (Nat × ExtDef) := do
  let tmp ← symTmpPop
  let cld ← symCldPop
  let xid ← Attempt.get (libMemberLookup E.lib cld.cid (E.name tmp.s tmp.len)) .externUnknown
  let xdef ← Attempt.get E.lib.xdef[xid]? .externUnknown
  Attempt.guard (xdef.flag oMember = true) .externNotMember
  return (xid, xdef)

def opAttrEval : Op := do
  let x ← classMemberPop E
  Attempt.guard (x.2.typ = oInteger) .externNotInteger
  Attempt.guard (x.2.flag oArray = false) .externNotScalar
  emit (extBytes x.1 1)

/-- Two values become one, but the counter of the stack stays. -/
def opArrayEval : Op := do
  let x ← classMemberPop E
  Attempt.guard (x.2.typ = oInteger) .externNotInteger
  Attempt.guard (x.2.flag oArray = true) .externNotArray
  emit (extBytes x.1 2)

def opAttrAssign : Op := do
  let x ← classMemberPop E
  Attempt.guard (x.2.typ = oInteger) .externNotInteger
  Attempt.guard (x.2.flag oReadonly = false) .externReadonly
  Attempt.guard (x.2.flag oArray = false) .externNotScalar
  emit (extBytes x.1 2)
  tgtStackAdjust (-2)

def opArrayAssign : Op := do
  let x ← classMemberPop E
  Attempt.guard (x.2.typ = oInteger) .externNotInteger
  Attempt.guard (x.2.flag oReadonly = false) .externReadonly
  Attempt.guard (x.2.flag oArray = true) .externNotArray
  emit (extBytes x.1 3)
  tgtStackAdjust (-3)

/-! ## Calls -/

def opMethodLookup : Op := do
  let x ← classMemberPop E
  Attempt.guard (x.2.typ = oFunction) .externNotFunction
  symCallPush ⟨x.1, 1, x.2.argmin, x.2.argmax, x.2.ret⟩

def opFunctionLookup : Op := do
  let tmp ← symTmpPop
  let x ← externLookup E tmp
  Attempt.guard (x.2.typ = oFunction) .externNotFunction
  symCallPush ⟨x.1, 0, x.2.argmin, x.2.argmax, x.2.ret⟩

/-- The counter of arguments has eight bits. -/
def opArg : Op := do
  let call ← symCallPop
  symCallPush { call with argcnt := (call.argcnt + 1) % 256 }

def opCall : Op := do
  let call ← symCallPop
  Attempt.guard (call.argmin ≤ call.argcnt) .argMissing
  Attempt.guard (call.argcnt ≤ call.argmax) .tooManyArgs
  saveSpc E
  emit (extBytes call.xid call.argcnt)
  tgtStackAdjust (call.retcnt - call.argcnt)
  symCallPush call

/-- The instruction that drops `n` values: the operand of `ISP` is the byte behind the
opcode. -/
def dropBytes (n : Int) : List Nat := if 1 < n then [opcIsp, n.toNat] else [opcPop]

/-- Drops `n` values. -/
def dropValues (n : Int) : Op :=
  if 0 < n then do
    saveSpc E
    emit (dropBytes n)
  else pure ()

def opRetDiscard : Op := do
  let call ← symCallPop
  dropValues E call.retcnt
  tgtStackAdjust (-call.retcnt)

def opCallRet : Op := do
  let call ← symCallPop
  Attempt.guard (1 ≤ call.retcnt) .retCountMismatch
  if 1 < call.retcnt then do
    dropValues E (call.retcnt - 1)
    tgtStackAdjust (-(call.retcnt - 1))
  else pure ()

/-! ## Operations -/

/-- A binary operation without a rewriting. -/
def binop (opc : Nat) : Op := do
  saveSpc E
  emit [opc]
  tgtStackPop

/-- A unary operation without a rewriting. -/
def unop (opc : Nat) : Op := do
  saveSpc E
  emit [opc]

/-- A comparison with zero becomes a negation; the counter of the stack is left as it is. -/
def opEqu : Op := do
  let val ← lastConstant E
  if val = some 0 then
    rollback
    emit [opcNot]
  else binop E opcEq

def opNeq : Op := binop E opcNe
def opGt : Op := binop E opcGt
def opLt : Op := binop E opcLt
def opGte : Op := binop E opcGe
def opLte : Op := binop E opcLe
def opLogicOr : Op := binop E opcOr
def opLogicAnd : Op := binop E opcAnd

/-- An operation with the constant one becomes an increment or a decrement. -/
def stepop (step opc : Nat) : Op := do
  let val ← lastConstant E
  if val = some 1 then
    rollback
    emit [step]
    tgtStackPop
  else binop E opc

def opAdd : Op := stepop E opcInc opcAdd
def opSub : Op := stepop E opcDec opcSub
def opOr : Op := binop E opcOr
def opXor : Op := binop E opcXor
def opMul : Op := binop E opcMul
def opDiv : Op := binop E opcDiv
def opMod : Op := binop E opcMod
def opAnd : Op := binop E opcAnd
def opShl : Op := binop E opcShl
def opAsr : Op := binop E opcAsr
def opInv : Op := unop E opcInv
def opNot : Op := unop E opcNot

/-- The negation of a constant becomes the constant. -/
def opMinus : Op := do
  let val ← lastConstant E
  match val with
  | some val =>
      rollback
      encodeInt E (-val)
  | none => unop E opcNeg

/-! ## Constants -/

/-- A small constant. -/
def pushSmall (x : Nat) : Op := do
  saveSpc E
  emit [opcI4 + x]
  tgtStackPush

def opPushFalse : Op := pushSmall E 0
def opPushTrue : Op := pushSmall E 1

/-- The bytes that push the index of a string. -/
def strBytes (isz : Nat) : List Nat := if isz < 4 then [opcI4 + isz] else [opcI8, isz]

def opPushString : Op := do
  let s ← Attempt.read fun m => E.name m.tok.s m.tok.qlf
  let isz ← Attempt.on (fun m => m.strs) (fun strs m => { m with strs }) (cstrAdd s)
  saveSpc E
  emit (strBytes isz)
  tgtStackPush

def opPushInt : Op := do
  let x ← Attempt.read fun m => BitVec.ofNat 32 m.tok.u32
  encodeInt E x
  tgtStackPush

/-! ## Exceptions -/

/-- `op_patch_ref`: a jump that was left open goes to the current position. -/
def opPatchRef : Op := do
  let ref ← symRefPop
  let pc ← Attempt.read fun m => m.pc
  patch ref.addr ((pc : Int) - 2 - ref.addr)

def opTryBegin : Op := do
  saveSpc E
  let addr ← Attempt.read fun m => m.pc
  reserve opcPushx
  tgtStackPush
  symRefPush ⟨addr⟩

def opTryEnd : Op := do
  let ref ← symRefPop
  saveSpc E
  emit (jmpBytes 1)
  let pc ← Attempt.read fun m => m.pc
  patch ref.addr pc
  emit [opcXpt]
  tgtStackPop

def opCatch : Op := do
  let ref ← symRefPop
  saveSpc E
  let addr ← Attempt.read fun m => m.pc
  reserve opcJmp
  symRefPush ⟨addr⟩
  let pc ← Attempt.read fun m => m.pc
  patch ref.addr pc

def opThrow : Op := unop E opcXpt

/-! ## Conditionals -/

def opIfCond : Op := do
  saveSpc E
  let addr ← Attempt.read fun m => m.pc
  reserve opcJeq
  symRefPush ⟨addr⟩

def opIfElse : Op := do
  let ref ← symRefPop
  saveSpc E
  let pc ← Attempt.read fun m => m.pc
  patch ref.addr ((pc : Int) - ref.addr)
  reserve opcJmp
  symRefPush ⟨pc⟩

/-! ## Loops -/

def opWhileBegin : Op := do
  let pc ← Attempt.read fun m => m.pc
  symWldPush ⟨pc, 0⟩

def opWhileCond : Op := do
  let wld ← symWldPop
  saveSpc E
  let pc ← Attempt.read fun m => m.pc
  reserve opcJeq
  symWldPush { wld with cond := pc }

def opWhileEnd : Op := do
  let wld ← symWldPop
  let pc ← Attempt.read fun m => m.pc
  patch wld.cond ((pc : Int) - wld.cond)
  saveSpc E
  emit (jmpBytes ((wld.loop : Int) - (pc + 2)))

def opForInit : Op := do
  let pc ← Attempt.read fun m => m.pc
  symFldPush ⟨pc, 0, 0, 0⟩

def opForCond : Op := do
  let fld ← symFldPop
  let addr1 ← Attempt.read fun m => m.pc
  reserve opcJeq
  saveSpc E
  let addr2 ← Attempt.read fun m => m.pc
  reserve opcJmp
  let addr3 ← Attempt.read fun m => m.pc
  symFldPush ⟨fld.addr0, addr1, addr2, addr3⟩

def opForAfter : Op := do
  let fld ← symFldPop
  let pc ← Attempt.read fun m => m.pc
  patch fld.addr2 ((pc : Int) - fld.addr2)
  saveSpc E
  emit (jmpBytes ((fld.addr0 : Int) - (pc + 2)))
  symFldPush fld

def opForEnd : Op := do
  let fld ← symFldPop
  saveSpc E
  let pc ← Attempt.read fun m => m.pc
  patch fld.addr1 ((pc : Int) - fld.addr1)
  emit (jmpBytes ((fld.addr3 : Int) - (pc + 2)))

/-! ## The table of actions -/

/-- `op`. -/
def op : Action → Op
  | .opVarDecl => opVarDecl E
  | .opPushTmp => opPushTmp
  | .opPopTmp => opPopTmp
  | .opVarAssign => opVarAssign E
  | .opRetDiscard => opRetDiscard E
  | .opArrayXlat => opArrayXlat E
  | .opObjectGet => opObjectGet E
  | .opAttrAssign => opAttrAssign E
  | .opArrayAssign => opArrayAssign E
  | .opMethodLookup => opMethodLookup E
  | .opCall => opCall E
  | .opFunctionLookup => opFunctionLookup E
  | .opArg => opArg
  | .opOr => opOr E
  | .opLogicOr => opLogicOr E
  | .opXor => opXor E
  | .opAnd => opAnd E
  | .opLogicAnd => opLogicAnd E
  | .opLt => opLt E
  | .opGt => opGt E
  | .opEqu => opEqu E
  | .opNeq => opNeq E
  | .opGte => opGte E
  | .opLte => opLte E
  | .opShl => opShl E
  | .opAsr => opAsr E
  | .opAdd => opAdd E
  | .opSub => opSub E
  | .opDiv => opDiv E
  | .opMod => opMod E
  | .opMul => opMul E
  | .opInv => opInv E
  | .opMinus => opMinus E
  | .opNot => opNot E
  | .opPushInt => opPushInt E
  | .opPushString => opPushString E
  | .opPushTrue => opPushTrue E
  | .opPushFalse => opPushFalse E
  | .opVarEval => opVarEval E
  | .opCallRet => opCallRet E
  | .opAttrEval => opAttrEval E
  | .opArrayEval => opArrayEval E
  | .opBlkOpen => opBlkOpen
  | .opBlkClose => opBlkClose
  | .opForInit => opForInit
  | .opForCond => opForCond E
  | .opForAfter => opForAfter E
  | .opForEnd => opForEnd E
  | .opWhileBegin => opWhileBegin
  | .opWhileCond => opWhileCond E
  | .opWhileEnd => opWhileEnd E
  | .opIfCond => opIfCond E
  | .opIfEnd => opPatchRef
  | .opTryBegin => opTryBegin E
  | .opThrow => opThrow E
  | .opIfElse => opIfElse E
  | .opTryEnd => opTryEnd E
  | .opCatch => opCatch E
  | .opCatchEnd => opPatchRef

end YardIce.MicroJs
