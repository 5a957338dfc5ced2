import YardIce.Tftp.Request
import Mathlib.Data.List.GetD
import Mathlib.Tactic.SplitIfs

/-!
# Expressions on the command line

`eval_uint32` reads operands and operators from an argument vector, one argument each, and
works them off from left to right.

## Implementation notes

An argument is a C string with the memory behind its terminating zero, which the function may
read. A number is read by `strtoul` of the C library of the repository. `var_get` is given by
the word that the module of a variable delivers. A division by zero and a shift by the width
of the word or more have no result in C, and the function has none then.
-/

namespace YardIce.Script

open IceDrv (Word)
open Tftp (Byte strtoul digits decDigit hexDigit)

/-! ## The source -/

/-- An argument: the text up to its terminating zero, and what lies behind it. -/
structure Arg where
  text : List Byte
  nonzero : ∀ c ∈ text, c ≠ 0
  past : Nat → Byte

/-- `cp[i]`. -/
def Arg.cp (a : Arg) (i : Nat) : Byte :=
  if i < a.text.length then a.text.getD i 0
  else if i = a.text.length then 0
  else a.past (i - a.text.length - 1)

def ch (c : Char) : Byte := BitVec.ofNat 8 c.toNat

/-- The types of values. -/
inductive ValType where
  | void | int32 | uint32 | bool | string | tag | range32 | int64 | uint64 | dblock32 | freq
deriving DecidableEq

/-- `struct var_def`, with the word that `var_get` puts first into the value. -/
structure VarDef where
  name : List Byte
  type : ValType
  value : Word

/-- `var_global_lookup`. -/
def varGlobalLookup (vars : List VarDef) (name : List Byte) : Option VarDef :=
  vars.find? fun v => v.name = name

/-- The operators of one character. -/
def IsOperChar (c : Byte) : Prop :=
  c = ch '+' ∨ c = ch '-' ∨ c = ch '*' ∨ c = ch '/' ∨ c = ch '%' ∨ c = ch '&' ∨ c = ch '|' ∨
    c = ch '^'

instance (c : Byte) : Decidable (IsOperChar c) := inferInstanceAs (Decidable (_ ∨ _))

def IsDigit (c : Byte) : Prop := ch '0' ≤ c ∧ c ≤ ch '9'

instance (c : Byte) : Decidable (IsDigit c) := inferInstanceAs (Decidable (_ ∧ _))

def IsLetter (c : Byte) : Prop := (ch 'a' ≤ c ∧ c ≤ ch 'z') ∨ (ch 'A' ≤ c ∧ c ≤ ch 'Z')

instance (c : Byte) : Decidable (IsLetter c) := inferInstanceAs (Decidable (_ ∨ _))

/-- The first two characters are those of a number. -/
def IsNumber (c1 c2 : Byte) : Prop := ((c1 = ch '-' ∨ c1 = ch '+') ∧ IsDigit c2) ∨ IsDigit c1

instance (c1 c2 : Byte) : Decidable (IsNumber c1 c2) := inferInstanceAs (Decidable (_ ∨ _))

/-- `strtoul(cp, NULL, 0)`. -/
def strtoulArg (text : List Byte) : Word := ((strtoul (text ++ [0]) 0).map Prod.fst).getD 0

/-- The value of an operand, or what the function returns for it. -/
def readOperand (vars : List VarDef) (a : Arg) : Except Int Word :=
  if IsNumber (a.cp 0) (a.cp 1) then .ok (strtoulArg a.text)
  else if IsLetter (a.cp 0) then
    match varGlobalLookup vars a.text with
    | none => .error (-1)
    | some var =>
        match var.type with
        | .int32 => .ok var.value
        | .uint32 => .ok var.value
        | .bool => .ok var.value
        | _ => .error (-2)
  else .error (-3)

/-- The `switch` over the operator. -/
def applyOper (oper : Byte) (op2 op1 : Word) : Option Word :=
  if oper = ch '|' then some (op2 ||| op1)
  else if oper = ch '^' then some (op2 ^^^ op1)
  else if oper = ch '&' then some (op2 &&& op1)
  else if oper = ch '+' then some (op2 + op1)
  else if oper = ch '-' then some (op2 - op1)
  else if oper = ch '*' then some (op2 * op1)
  else if oper = ch '/' then if op1 = 0 then none else some (op2 / op1)
  else if oper = ch '%' then if op1 = 0 then none else some (op2 % op1)
  else if oper = ch '>' then if 32 ≤ op1.toNat then none else some (op2 >>> op1.toNat)
  else if oper = ch '<' then if 32 ≤ op1.toNat then none else some (op2 <<< op1.toNat)
  else some op1

/-- The variables of the loop. -/
structure EvalState where
  op1 : Word
  oper : Byte
  args : Nat

/-- What a turn of the loop ends with. -/
inductive EvalTurn where
  | next (s : EvalState)
  | leave
  | fail (code : Int)
  | undefined

/-- A turn of the loop that takes an operand. -/
def operandTurn (vars : List VarDef) (s : EvalState) (a : Arg) : EvalTurn :=
  match readOperand vars a with
  | .error code => .fail code
  | .ok op1 =>
      if s.oper = 0 then .next ⟨op1, 0, s.args + 1⟩
      else
        match applyOper s.oper s.op1 op1 with
        | none => .undefined
        | some op1 => .next ⟨op1, 0, s.args⟩

/-- A turn of the loop. -/
def evalTurn (vars : List VarDef) (s : EvalState) (a : Arg) : EvalTurn :=
  let c1 := a.cp 0
  let c2 := a.cp 1
  if (c2 = 0 ∧ IsOperChar c1) ∨
      (a.cp 2 = 0 ∧ ((c1 = ch '>' ∧ c2 = ch '>') ∨ (c1 = ch '<' ∨ c2 = ch '<'))) then
    if s.oper ≠ 0 then .fail (-8) else .next { s with oper := c1 }
  else if s.args = 1 ∧ s.oper = 0 then .leave
  else operandTurn vars s a

/-- The places of an argument that a turn looks at before the operand. -/
def argReads (a : Arg) : List Nat :=
  [0, 1] ++ if a.cp 1 = 0 ∧ IsOperChar (a.cp 0) then [] else [2]

/-- The ends of the loop: behind it with `n` and `op1`, or a return from within. -/
inductive EvalEnd where
  | done (n : Nat) (op1 : Word)
  | failed (code : Int)
  | undefined

def evalLoop (vars : List VarDef) : List Arg → EvalState → Nat → EvalEnd
  | [], s, n => .done n s.op1
  | a :: rest, s, n =>
      match evalTurn vars s a with
      | .next s' => evalLoop vars rest s' (n + 1)
      | .leave => .done n s.op1
      | .fail code => .failed code
      | .undefined => .undefined

/-- The arguments that the loop looks at. -/
def evalVisits (vars : List VarDef) : List Arg → EvalState → List Arg
  | [], _ => []
  | a :: rest, s =>
      a ::
        match evalTurn vars s a with
        | .next s' => evalVisits vars rest s'
        | _ => []

/-- The result of a call, with `*val` and `eval_ans` behind it. -/
inductive EvalResult where
  | returns (code : Int) (val : Option Word) (ans : Word)
  | undefined

/-- `eval_uint32`; a `NULL` for `val` is `none`. -/
def evalUint32 (vars : List VarDef) (val : Option Word) (ans : Word) (argv : List Arg) :
    EvalResult :=
  if val = none then .returns (-1) val ans
  else if argv.length = 0 then .returns (-2) val ans
  else
    match evalLoop vars argv ⟨0, 0, 0⟩ 0 with
    | .done n op1 => .returns n (some op1) op1
    | .failed code => .returns code val ans
    | .undefined => .undefined

theorem evalLoop_cons {vars : List VarDef} {a : Arg} {rest : List Arg} {s : EvalState} {n : Nat} :
    evalLoop vars (a :: rest) s n =
      match evalTurn vars s a with
      | .next s' => evalLoop vars rest s' (n + 1)
      | .leave => .done n s.op1
      | .fail code => .failed code
      | .undefined => .undefined := rfl

theorem evalVisits_cons {vars : List VarDef} {a : Arg} {rest : List Arg} {s : EvalState} :
    evalVisits vars (a :: rest) s =
      a ::
        match evalTurn vars s a with
        | .next s' => evalVisits vars rest s'
        | _ => [] := rfl

theorem evalUint32_cons {vars : List VarDef} {a : Arg} {rest : List Arg} (val ans : Word) :
    evalUint32 vars (some val) ans (a :: rest) =
      match evalLoop vars (a :: rest) ⟨0, 0, 0⟩ 0 with
      | .done n op1 => .returns n (some op1) op1
      | .failed code => .returns code (some val) ans
      | .undefined => .undefined := rfl

/-! ## Expressions -/

/-- The operators. -/
inductive Oper where
  | add | sub | mul | div | mod | and | or | xor | shl | shr
deriving DecidableEq

/-- The operator that a text is. -/
def operOf : List Byte → Option Oper
  | [c] =>
      if c = ch '+' then some .add
      else if c = ch '-' then some .sub
      else if c = ch '*' then some .mul
      else if c = ch '/' then some .div
      else if c = ch '%' then some .mod
      else if c = ch '&' then some .and
      else if c = ch '|' then some .or
      else if c = ch '^' then some .xor
      else none
  | [c, d] =>
      if c = ch '<' ∧ d = ch '<' then some .shl
      else if c = ch '>' ∧ d = ch '>' then some .shr
      else none
  | _ => none

/-- The value of an operation in 32 bits; a division by zero has none. -/
def Oper.apply : Oper → Word → Word → Option Word
  | .add, v, w => some (v + w)
  | .sub, v, w => some (v - w)
  | .mul, v, w => some (v * w)
  | .div, v, w => if w = 0 then none else some (v / w)
  | .mod, v, w => if w = 0 then none else some (v % w)
  | .and, v, w => some (v &&& w)
  | .or, v, w => some (v ||| w)
  | .xor, v, w => some (v ^^^ w)
  | .shl, v, w => some (v <<< w.toNat)
  | .shr, v, w => some (v >>> w.toNat)

def octDigit (c : Byte) : Option Word := if ch '0' ≤ c ∧ c ≤ ch '7' then some (c - 0x30).toNat else none

/-- The digits that a text begins with, as a number. -/
def digitsValue (digit : Byte → Option Word) (base : Word) (text : List Byte) : Word :=
  ((digits digit base 0 (text ++ [0])).map Prod.fst).getD 0

/-- A number without sign: hexadecimal behind `0x`, octal behind `0`, else decimal. -/
def magnitude : List Byte → Word
  | c :: x :: rest =>
      if c = ch '0' then
        if x = ch 'x' ∨ x = ch 'X' then digitsValue hexDigit 16 rest
        else digitsValue octDigit 8 (x :: rest)
      else digitsValue decDigit 10 (c :: x :: rest)
  | text => digitsValue decDigit 10 text

/-- The number that a text begins with, in 32 bits. -/
def numeral : List Byte → Word
  | c :: rest =>
      if c = ch '-' then -magnitude rest
      else if c = ch '+' then magnitude rest
      else magnitude (c :: rest)
  | [] => 0

/-- What an argument is in an expression: an operand with its value, unless it is a name that
has none. -/
inductive Tok where
  | oper (o : Oper)
  | operand (w : Option Word)
  | other

/-- The word that a name stands for. -/
def nameValue (vars : List VarDef) (text : List Byte) : Option Word :=
  (varGlobalLookup vars text).bind fun var =>
    if var.type = .int32 ∨ var.type = .uint32 ∨ var.type = .bool then some var.value else none

def token (vars : List VarDef) (text : List Byte) : Tok :=
  match operOf text with
  | some o => .oper o
  | none =>
      if IsNumber (text.getD 0 0) (text.getD 1 0) then .operand (some (numeral text))
      else if IsLetter (text.getD 0 0) then .operand (nameValue vars text)
      else .other

/-- `(operator operand)*` -/
inductive OperTail : List Tok → Prop
  | nil : OperTail []
  | cons (o : Oper) (w : Option Word) {toks : List Tok} :
      OperTail toks → OperTail (.oper o :: .operand w :: toks)

/-- `operand (operator operand)*` -/
inductive IsExpr : List Tok → Prop
  | intro (w : Option Word) {toks : List Tok} : OperTail toks → IsExpr (.operand w :: toks)

/-- The longest expression that the tokens begin with has the length `n`. -/
def Longest (toks : List Tok) (n : Nat) : Prop :=
  n ≤ toks.length ∧ IsExpr (toks.take n) ∧ ∀ m ≤ toks.length, IsExpr (toks.take m) → m ≤ n

/-- The operators of an expression applied one after the other. -/
def valueFrom (v : Word) : List Tok → Option Word
  | .oper o :: .operand w :: toks => w.bind fun w => (o.apply v w).bind fun v => valueFrom v toks
  | _ => some v

/-- The value of an expression from left to right. -/
def exprValue : List Tok → Option Word
  | .operand w :: toks => w.bind fun v => valueFrom v toks
  | _ => none

/-- The arguments begin with an expression that has a value. -/
def HasValue (vars : List VarDef) (argv : List Arg) (n : Nat) (v : Word) : Prop :=
  Longest (argv.map fun a => token vars a.text) n ∧
    exprValue ((argv.map fun a => token vars a.text).take n) = some v

/-- The function does what it should: the longest expression and its value, or a negative code
and nothing else, and no argument is read past its end. -/
structure EvalRight (vars : List VarDef) (val ans : Word) (argv : List Arg) : Prop where
  value : ∀ n v, HasValue vars argv n v →
    evalUint32 vars (some val) ans argv = .returns n (some v) v
  fails : (∀ n v, ¬ HasValue vars argv n v) →
    ∃ code : Int, code < 0 ∧ evalUint32 vars (some val) ans argv = .returns code (some val) ans
  reads : ∀ a ∈ evalVisits vars argv ⟨0, 0, 0⟩, ∀ i ∈ argReads a, i ≤ a.text.length

/-! ## The arguments that are read right -/

/-- Empty, or one character that is no operator. -/
def Arg.Short (a : Arg) : Prop :=
  a.text.length = 0 ∨ (a.text.length = 1 ∧ ¬ IsOperChar (a.cp 0))

/-- What the loop takes for an operator. -/
def Arg.IsOper (a : Arg) : Prop :=
  (a.text.length = 1 ∧ IsOperChar (a.cp 0)) ∨
    (a.text.length = 2 ∧
      ((a.cp 0 = ch '>' ∧ a.cp 1 = ch '>') ∨ (a.cp 0 = ch '<' ∨ a.cp 1 = ch '<')))

/-- A number without sign that is not octal, or zero. -/
def Arg.Plain (a : Arg) : Prop :=
  IsNumber (a.cp 0) (a.cp 1) → numeral a.text = 0 ∨
    (a.cp 0 ≠ ch '-' ∧ a.cp 0 ≠ ch '+' ∧ (a.cp 0 = ch '0' → a.cp 1 = ch 'x' ∨ a.cp 1 = ch 'X'))

/-- An operation without result. -/
def Undefined (oper : Byte) (w : Word) : Prop :=
  ((oper = ch '/' ∨ oper = ch '%') ∧ w = 0) ∨ ((oper = ch '>' ∨ oper = ch '<') ∧ 32 ≤ w.toNat)

section Condition

variable (vars : List VarDef)

/-- An operand that the loop reads with the value it has. -/
def Arg.Sound (a : Arg) : Prop :=
  ¬ a.Short ∧ ¬ a.IsOper ∧ a.Plain ∧ ∃ w, token vars a.text = .operand (some w)

/-- Behind an operand: no short argument, each operator a real one and with a sound operand
behind it, and no shift by 32 or more. -/
def InOrder : List Arg → Prop
  | [] => True
  | [b] => ¬ b.Short ∧ ¬ b.IsOper
  | b :: c :: rest => ¬ b.Short ∧ (b.IsOper →
      (operOf b.text).isSome ∧ c.Sound vars ∧
        (∀ w, token vars c.text = .operand (some w) → ¬ Undefined (b.cp 0) w) ∧ InOrder rest)

/-- The scan comes to two operators in a row or to an argument that is no operand with a value,
before the end and before anything else goes wrong; an operator may come first. -/
def Broken : List Arg → Nat → Byte → Prop
  | [], _, _ => False
  | a :: rest, args, oper => ¬ a.Short ∧
      ((a.IsOper ∧ (oper ≠ 0 ∨ Broken rest args (a.cp 0))) ∨
        (¬ a.IsOper ∧ ¬ (args = 1 ∧ oper = 0) ∧ ∀ w, readOperand vars a = .ok w →
          ¬ Undefined oper w ∧ Broken rest (if oper = 0 then args + 1 else args) 0))

/-- The arguments that the function is right for. Of those that begin with an operand that is
taken for an operator only a single one with the value zero is among them. -/
def Meets (argv : List Arg) : Prop :=
  ((∃ n v, HasValue vars argv n v) ∧
      ((∃ a rest, argv = a :: rest ∧ a.Sound vars ∧ InOrder vars rest) ∨
        ∃ a, argv = [a] ∧ ¬ a.Short ∧ a.IsOper ∧ token vars a.text = .operand (some 0))) ∨
    ((∀ n v, ¬ HasValue vars argv n v) ∧ (argv = [] ∨ Broken vars argv 0 0))

end Condition

end YardIce.Script
