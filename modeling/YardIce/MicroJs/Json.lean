import YardIce.MicroJs.Lexer
import Mathlib.Data.BitVec
import Mathlib.Data.List.Infix
import Mathlib.Tactic.SplitIfs

/-!
# The JSON scanner

`microjs_json_scan` writes the tokens of a text to a buffer; `microjs_json_get_val` reads
them back. The brackets that are open are kept on a stack at the other end of the buffer.

## Implementation notes

A function gives `none` where it would access memory outside of a buffer. The buffer has `top`
bytes. The local variables have 32 bits, the fields of the parser 16. A text is given as the
list of its bytes; `vis` are those before the length in the parser.
-/

namespace YardIce.MicroJs.Json

/-- `JSON_LABEL_LST_MAX` and `JSON_STRING_LEN_MAX`, and the check of the preprocessor. -/
structure Limits where
  labelMax : Nat
  stringMax : Nat
  pos : 0 < labelMax
  fits : labelMax + stringMax + 15 ≤ 255

/-- The limits of a build that does not set them. -/
def Limits.default : Limits := ⟨40, 200, by decide, by decide⟩

/-! ## The codes of the tokens -/

def Limits.tokString (lim : Limits) : Nat := 256 - lim.stringMax - 1

def Limits.tokLabel (lim : Limits) : Nat := lim.tokString - lim.labelMax

def tokStop : Nat := 1

def tokNull : Nat := 2

def tokLeftbrace : Nat := 3

def tokLeftbracket : Nat := 4

def tokRightbrace : Nat := 5

def tokRightbracket : Nat := 6

def tokFalse : Nat := 7

def tokTrue : Nat := 8

def tokInt8 : Nat := 12

def tokInt16 : Nat := 13

def tokInt24 : Nat := 14

def tokInt32 : Nat := 15

/-! ## The results -/

def ok : Int := 0

def unexpectedChar : Int := -1

def tokenBufOvf : Int := -3

def unclosedString : Int := -4

def bracketMismatch : Int := -7

def stringTooLong : Int := -8

def emptyFile : Int := -9

def emptyStack : Int := -10

def invalidSymbol : Int := -12

def invalidLabel : Int := -13

def objectExpected : Int := -14

/-- `struct microjs_json_parser`. A label table ends behind its last name. -/
structure Parser where
  idx : Nat
  cnt : Nat
  sp : Nat
  tok : List Nat
  off : Nat
  stop : Nat
  len : Nat
  txt : List Nat
  lbl : List (List Nat)

/-- `microjs_json_init` of a buffer; its size is stored in `top` and `sp`. -/
def microjsJsonInit (size : Nat) (lbl : List (List Nat)) : Parser :=
  ⟨0, 0, size % 65536, List.replicate (size % 65536) 0, 0, 0, 0, [], lbl⟩

/-- A store to the buffer. -/
def poke (buf : List Nat) (k v : Nat) : Option (List Nat) :=
  if k < buf.length then some (buf.set k (v % 256)) else none

/-- Stores to the places from `k` on. -/
def pokes : List Nat → Nat → List Nat → Option (List Nat)
  | buf, _, [] => some buf
  | buf, k, v :: vs => (poke buf k v).bind fun buf => pokes buf (k + 1) vs

/-! ## Opening -/

/-- The loop of `microjs_json_open`: the place of the first byte that is no blank. -/
def openLoop : List Nat → Nat → Option (Nat × Nat)
  | [], _ => none
  | c :: rest, i => if isSpace c then openLoop rest (i + 1) else some (c, i)

/-- `microjs_json_open`. -/
def microjsJsonOpen (jsn : Parser) (txt : List Nat) : Option (Int × Parser) :=
  let jsn := { jsn with txt := txt, len := txt.length % 65536 }
  match openLoop txt 0 with
  | none => some (emptyFile, { jsn with stop := txt.length % 65536 })
  | some (c, i) =>
      if c ≠ 123 then some (objectExpected, { jsn with stop := i % 65536 })
      else
        (poke jsn.tok jsn.cnt tokLeftbrace).bind fun tok =>
          (poke tok ((jsn.sp + 65535) % 65536) tokRightbrace).map fun tok =>
            (ok, { jsn with
              tok := tok, cnt := (jsn.cnt + 1) % 65536, sp := (jsn.sp + 65535) % 65536,
              stop := (i + 1) % 65536 })

/-! ## Scanning -/

/-- The variables of `microjs_json_scan`. -/
structure Scan where
  tok : Nat
  cnt : Nat
  sp : Nat
  i : Nat
  buf : List Nat

/-- What comes after one turn of the loop. -/
inductive Next where
  | cont (s : Scan)
  | stop (err : Int) (s : Scan)

/-- `sp - cnt`. -/
def Scan.room (s : Scan) : Nat := (s.sp + 2 ^ 32 - s.cnt) % 2 ^ 32

/-- Stores of tokens at `cnt`. -/
def Scan.emit (s : Scan) (vs : List Nat) : Option Scan :=
  (pokes s.buf s.cnt vs).map fun buf => { s with buf := buf, cnt := s.cnt + vs.length }

/-- `push`: store the token. -/
def push (s : Scan) : Option Next :=
  if s.room < 1 then some (.stop tokenBufOvf s) else (s.emit [s.tok]).map .cont

/-- The loop over the bytes of a string: how many come before the quote. -/
def quoteLoop (qt : Nat) : List Nat → Nat → Option Nat
  | [], _ => none
  | c :: rest, j => if c = qt then some j else quoteLoop qt rest (j + 1)

/-- A string, with `rest` behind the quote. -/
def scanString (lim : Limits) (s : Scan) (qt : Nat) (rest : List Nat) : Option Next :=
  let offs := s.i + 1
  match quoteLoop qt rest 0 with
  | none => some (.stop unclosedString { s with i := s.i + 1 + rest.length })
  | some j =>
      let s := { s with i := s.i + 1 + j + 1 }
      if j > lim.stringMax then some (.stop stringTooLong s)
      else if s.room < 3 then some (.stop tokenBufOvf s)
      else ({ s with tok := lim.tokString }.emit [lim.tokString + j, offs, offs >>> 8]).map .cont

def wordTrue : List Nat := [116, 114, 117, 101]

def wordFalse : List Nat := [102, 97, 108, 115, 101]

def wordNull : List Nat := [110, 117, 108, 108]

/-- A symbol that begins with `c`; its bytes are copied behind the tokens. -/
def scanSymbol (s : Scan) (c : Nat) (rest : List Nat) : Option Next :=
  if s.room < 8 then some (.stop tokenBufOvf s)
  else
    let word := c :: rest.takeWhile isWord
    (pokes s.buf (s.cnt + 1) (word ++ [0])).bind fun buf =>
      let s := { s with buf := buf, i := s.i + word.length }
      if word = wordTrue then push { s with tok := tokTrue }
      else if word = wordFalse then push { s with tok := tokFalse }
      else if word = wordNull then push { s with tok := tokNull }
      else some (.stop invalidSymbol s)

/-- One more digit. -/
def decimalStep (val : BitVec 32) (c : Nat) : BitVec 32 :=
  (val <<< 2 + val) <<< 1 + (BitVec.ofNat 32 c - 48)

/-- The value of decimal digits. -/
def decimal (ds : List Nat) : BitVec 32 := ds.foldl decimalStep 0

/-- The token and the bytes of an integer. -/
def intToks (val : BitVec 32) : Nat × List Nat :=
  let x := val.toNat
  if val &&& 0xffffff00 = 0 then (tokInt8, [x])
  else if val &&& 0xffff0000 = 0 then (tokInt16, [x, x >>> 8])
  else if val &&& 0xffffff00 = 0 then (tokInt24, [x, x >>> 8, x >>> 16])
  else (tokInt32, [x, x >>> 8, x >>> 16, x >>> 24])

/-- The digits of a number, and the stores of its value. -/
def scanDigits (s : Scan) (neg : Bool) (c : Nat) (rest : List Nat) : Option Next :=
  let ds := c :: rest.takeWhile isDigit
  let val := if neg then -decimal ds else decimal ds
  let s := { s with i := s.i + ds.length }
  if s.room < 5 then some (.stop tokenBufOvf s)
  else
    ({ s with tok := (intToks val).1 }.emit ((intToks val).1 :: (intToks val).2)).map .cont

/-- A number that begins with `c`. -/
def scanNumber (s : Scan) (c : Nat) (rest : List Nat) : Option Next :=
  if c = 45 then
    match rest with
    | [] => some (.stop invalidSymbol { s with i := s.i + 1 })
    | c :: rest =>
        if isDigit c then scanDigits { s with i := s.i + 1 } true c rest
        else some (.stop unexpectedChar { s with i := s.i + 1 })
  else scanDigits s false c rest

/-- The index of a name in the label table, or that of its end. -/
def labelIdx (lbl : List (List Nat)) (name : List Nat) : Nat := lbl.findIdx (· = name)

/-- A colon: the last string becomes a label. -/
def scanColon (lim : Limits) (lbl : List (List Nat)) (txt : List Nat) (s : Scan) : Option Next :=
  if s.tok = lim.tokString then
    (s.buf[s.cnt - 3]?).bind fun t => (s.buf[s.cnt - 2]?).bind fun lo =>
      (s.buf[s.cnt - 1]?).bind fun hi =>
        let j := labelIdx lbl ((txt.drop (lo ||| hi <<< 8)).take (t - lim.tokString))
        (poke s.buf (s.cnt - 3) (lim.tokLabel + j)).map fun buf =>
          .cont { s with buf := buf, cnt := s.cnt - 2, tok := lim.tokLabel, i := s.i + 1 }
  else some (.stop invalidLabel s)

/-- An opening bracket, and the closing one for the stack. -/
def scanOpen (s : Scan) (tok close : Nat) : Option Next :=
  let sp := (s.sp + (2 ^ 32 - 1)) % 2 ^ 32
  (poke s.buf sp close).bind fun buf =>
    push { s with buf := buf, sp := sp, tok := tok, i := s.i + 1 }

/-- A closing bracket. -/
def scanClose (s : Scan) (tok : Nat) : Option Next :=
  let s := { s with tok := tok }
  if s.sp = s.buf.length then some (.stop emptyStack s)
  else
    (s.buf[s.sp]?).bind fun t =>
      let s := { s with sp := s.sp + 1 }
      if t ≠ tok then some (.stop bracketMismatch s)
      else
        let s := { s with i := s.i + 1 }
        if s.sp = s.buf.length then
          if s.room < 2 then some (.stop tokenBufOvf s)
          else (s.emit [tok, tokStop]).map (.stop ok)
        else push s

/-- One turn of the loop. -/
def scanStep (lim : Limits) (lbl : List (List Nat)) (txt vis : List Nat) (s : Scan) :
    Option Next :=
  match vis.drop s.i with
  | [] => some (.stop (if s.sp ≠ s.buf.length then bracketMismatch else ok) s)
  | c :: rest =>
      if isSpace c then some (.cont { s with i := s.i + 1 })
      else if c = 39 ∨ c = 34 then scanString lim s c rest
      else if isAlpha c ∨ c = 95 then scanSymbol s c rest
      else if isDigit c ∨ c = 45 then scanNumber s c rest
      else if c = 58 then scanColon lim lbl txt s
      else if c = 44 then some (.cont { s with i := s.i + 1 })
      else if c = 91 then scanOpen s tokLeftbracket tokRightbracket
      else if c = 123 then scanOpen s tokLeftbrace tokRightbrace
      else if c = 93 then scanClose s tokRightbracket
      else if c = 125 then scanClose s tokRightbrace
      else some (.stop unexpectedChar s)

/-- The loop; every turn takes a byte of the text. -/
def scanLoop (lim : Limits) (lbl : List (List Nat)) (txt vis : List Nat) :
    Nat → Scan → Option (Int × Scan)
  | 0, _ => none
  | fuel + 1, s =>
      (scanStep lim lbl txt vis s).bind fun
        | .cont s => scanLoop lim lbl txt vis fuel s
        | .stop err s => some (err, s)

/-- `microjs_json_scan`. -/
def microjsJsonScan (lim : Limits) (jsn : Parser) : Option (Int × Parser) :=
  (scanLoop lim jsn.lbl jsn.txt (jsn.txt.take jsn.len) (jsn.len + 1)
      ⟨tokNull, jsn.cnt, jsn.sp, jsn.stop, jsn.tok⟩).map fun (err, s) =>
    let jsn := { jsn with cnt := s.cnt % 65536, sp := s.sp % 65536, tok := s.buf }
    if err = ok then (err, { jsn with off := jsn.stop, stop := s.i % 65536 })
    else (err, { jsn with off := s.i % 65536 })

/-! ## Reading -/

/-- What `microjs_json_get_val` stores to the union. A label has the name it points to. -/
inductive Val where
  | none
  | str (dat len : Nat)
  | lbl (sz : Option (List Nat)) (id : Nat)
  | u32 (x : BitVec 32)
  | logic (b : Bool)
deriving DecidableEq

/-- The types that `microjs_json_get_val` gives back. -/
def typNull : Nat := 2

def typObject : Nat := 3

def typArray : Nat := 4

def typEndObject : Nat := 5

def typEndArray : Nat := 6

def typBoolean : Nat := 7

def typInteger : Nat := 8

def typLabel : Nat := 9

def typString : Nat := 10

/-- A byte of the buffer as an integer. -/
def byte (tok : List Nat) (k : Nat) : Option (BitVec 32) := (tok[k]?).map (BitVec.ofNat 32)

/-- The bytes of an integer with the token `t`, and the index behind them. -/
def getInt (tok : List Nat) (t idx : Nat) : Option (BitVec 32 × Nat) :=
  (byte tok idx).bind fun x =>
    if t ≥ tokInt16 then
      (byte tok (idx + 1)).bind fun b =>
        let x := x ||| b <<< 8
        if t = tokInt24 then
          (byte tok (idx + 2)).bind fun b =>
            let x := x ||| b <<< 16
            if t ≥ tokInt32 then
              (byte tok (idx + 3)).map fun b : BitVec 32 => ((x ||| b <<< 24 : BitVec 32), idx + 4)
            else some (x, idx + 3)
        else some (x, idx + 2)
    else some (x, idx + 1)

/-- `microjs_json_get_val`: the type, the value and the parser. -/
def microjsJsonGetVal (lim : Limits) (jsn : Parser) : Option ((Nat × Val) × Parser) :=
  let done (typ : Nat) (val : Val) (idx : Nat) := ((typ, val), { jsn with idx := idx % 65536 })
  (jsn.tok[jsn.idx]?).bind fun t =>
    let idx := jsn.idx + 1
    if t ≥ lim.tokString then
      (jsn.tok[idx]?).bind fun lo => (jsn.tok[idx + 1]?).map fun hi =>
        done typString (.str (lo ||| hi <<< 8) (t - lim.tokString)) (idx + 2)
    else if t ≥ lim.tokLabel then
      let j := t - lim.tokLabel
      if j ≤ jsn.lbl.length then some (done typLabel (.lbl jsn.lbl[j]? (j % 256)) idx) else none
    else if t ≥ tokInt8 then
      (getInt jsn.tok t idx).map fun (x, idx) => done typInteger (.u32 x) idx
    else if t ≥ tokTrue then some (done typBoolean (.logic true) idx)
    else if t ≥ tokFalse then some (done typBoolean (.logic false) idx)
    else some (done t .none idx)

/-- The results of `n` calls of `microjs_json_get_val`. -/
def getVals (lim : Limits) : Nat → Parser → Option (List (Nat × Val))
  | 0, _ => some []
  | n + 1, jsn =>
      (microjsJsonGetVal lim jsn).bind fun (r, jsn) => (getVals lim n jsn).map (r :: ·)

end YardIce.MicroJs.Json
