import YardIce.MicroJs.Grammar
import YardIce.MicroJs.Symtab

/-!
# The lexer of MicroJS

`lexer_scan` reads one token at an offset into the text. A token that is a name carries the
address of its first byte and its length, of which eight bits are kept.

## Implementation notes

The text is in a memory of bytes, and a scan carries a bound on its steps that exceeds the
longest text. An identifier may be read past the end of its text, as in the source: the
callers' texts end with a byte that belongs to no identifier. The search for a keyword
stops at the end of its table, where the source compares one entry more.
-/

namespace YardIce.MicroJs

/-- A source text: where it is, and how many bytes it has. -/
structure Text where
  mem : Nat → Nat
  txt : Nat
  len : Nat

/-- The byte at an offset. -/
def Text.at (t : Text) (off : Nat) : Nat := t.mem (t.txt + off)

/-- `struct token`. -/
structure Token where
  typ : Terminal
  qlf : Nat
  s : Nat
  u32 : Nat
  deriving DecidableEq

/-! ## Characters -/

def isSpace (c : Nat) : Bool := c == 32 || (9 ≤ c && c ≤ 13)

def isDigit (c : Nat) : Bool := 48 ≤ c && c ≤ 57

def isUpper (c : Nat) : Bool := 65 ≤ c && c ≤ 90

def isLower (c : Nat) : Bool := 97 ≤ c && c ≤ 122

def isAlpha (c : Nat) : Bool := isUpper c || isLower c

def isXdigit (c : Nat) : Bool := isDigit c || (65 ≤ c && c ≤ 70) || (97 ≤ c && c ≤ 102)

/-- The bytes that may follow the first one of an identifier. -/
def isWord (c : Nat) : Bool := isAlpha c || isDigit c || c == 95

/-- `lex_keyword`, with the bytes of the names. -/
def lexKeyword : List (List Nat × Terminal) :=
  [([99, 97, 116, 99, 104], .catch_), ([101, 108, 115, 101], .else_),
    ([102, 97, 108, 115, 101], .false_), ([102, 111, 114], .for_), ([105, 102], .if_),
    ([116, 104, 114, 111, 119], .throw_), ([116, 114, 117, 101], .true_),
    ([116, 114, 121], .try_), ([118, 97, 114], .var_), ([119, 104, 105, 108, 101], .while_)]

/-! ## Pieces of a token -/

/-- A token without a value. -/
def Token.plain (typ : Terminal) : Token := ⟨typ, 0, 0, 0⟩

/-- The first offset from `off` on whose byte is not of an identifier. -/
def wordEnd (t : Text) : Nat → Nat → Nat
  | 0, off => off
  | fuel + 1, off => if isWord (t.at off) then wordEnd t fuel (off + 1) else off

/-- The value of a hexadecimal digit. -/
def hexValue (c : Nat) : Nat := if 97 ≤ c then c - 87 else if 65 ≤ c then c - 55 else c - 48

/-- The digits from `off` on: the value and the offset behind them. -/
def digits (t : Text) (radix : Nat) (isDig : Nat → Bool) : Nat → Nat → Nat → Nat × Nat
  | 0, off, val => (val, off)
  | fuel + 1, off, val =>
      if off < t.len ∧ isDig (t.at off) = true then
        digits t radix isDig fuel (off + 1) ((val * radix + hexValue (t.at off)) % 4294967296)
      else (val, off)

/-- The offset of the closing quote, if there is one. -/
def quoteEnd (t : Text) (qt : Nat) : Nat → Nat → Option Nat
  | 0, _ => none
  | fuel + 1, off =>
      if off < t.len then if t.at off = qt then some off else quoteEnd t qt fuel (off + 1)
      else none

/-- The end of a comment of one line: the offset of the line's end. -/
def lineEnd (t : Text) : Nat → Nat → Nat
  | 0, off => off
  | fuel + 1, off => if off < t.len ∧ t.at off ≠ 10 then lineEnd t fuel (off + 1) else off

/-- The offset behind a comment that `/*` opened before `off`. The byte behind an asterisk
that closes nothing is skipped. -/
def commentEnd (t : Text) : Nat → Nat → Option Nat
  | 0, _ => none
  | fuel + 1, off =>
      if t.len ≤ off then none
      else if t.at off = 42 then
        if t.len ≤ off + 1 then none
        else if t.at (off + 1) = 47 then some (off + 2) else commentEnd t fuel (off + 2)
      else commentEnd t fuel (off + 1)

/-- What follows a first character that may be doubled or followed by `=`: the tokens of
the pair, and the token of the character alone. -/
def pair (t : Text) (off : Nat) (seconds : List (Nat × Terminal)) (alone : Terminal) :
    Token × Nat :=
  if off + 1 < t.len then
    match seconds.find? (fun p => p.1 = t.at (off + 1)) with
    | some p => (Token.plain p.2, off + 2)
    | none => (Token.plain alone, off + 1)
  else (Token.plain alone, off + 1)

/-- `|` and `&`: the second character is not read, the first is compared again, so that the
token is the doubled one wherever a character follows, and that character is skipped. -/
def doubled (t : Text) (off : Nat) (both alone : Terminal) : Token × Nat :=
  if off + 1 < t.len then (Token.plain both, off + 2) else (Token.plain alone, off + 1)

/-- The tokens of one character. -/
def punctuation : List (Nat × Terminal) :=
  [(46, .dot), (44, .comma), (59, .semicolon), (94, .caret), (126, .tilde), (42, .star),
    (37, .percent), (43, .plus), (45, .minus), (40, .lparen), (41, .rparen), (123, .lbrace),
    (125, .rbrace), (91, .lbracket), (93, .rbracket), (26, .eof)]

/-! ## The scan -/

/-- An identifier or a keyword. -/
def scanWord (t : Text) (off : Nat) : Token × Nat :=
  let stop := wordEnd t 65536 (off + 1)
  let name := load t.mem (t.txt + off) (stop - off)
  let typ := ((lexKeyword.find? fun k => k.1 = name).map Prod.snd).getD .id
  (⟨typ, (stop - off) % 256, t.txt + off, 0⟩, stop)

/-- The end of a number: a letter behind it is an error. -/
def scanNumberEnd (t : Text) (r : Nat × Nat) : Except Err (Token × Nat) :=
  if r.2 < t.len ∧ (isAlpha (t.at r.2) || t.at r.2 == 95) = true then
    .error .invalidLiteral
  else .ok (⟨.int, 0, 0, r.1⟩, r.2)

/-- A number. -/
def scanNumber (t : Text) (off : Nat) : Except Err (Token × Nat) :=
  if t.at off = 48 ∧ off + 1 < t.len ∧ (t.at (off + 1) = 120 ∨ t.at (off + 1) = 88) then
    if off + 2 = t.len then .error .invalidLiteral
    else if isXdigit (t.at (off + 2)) then
      scanNumberEnd t (digits t 16 isXdigit t.len (off + 2) 0)
    else .error .invalidLiteral
  else scanNumberEnd t (digits t 10 isDigit t.len off 0)

/-- A character or a string. -/
def scanQuoted (t : Text) (off : Nat) : Except Err (Token × Nat) :=
  match quoteEnd t (t.at off) t.len (off + 1) with
  | none => .error .unclosedString
  | some stop =>
      if stop - (off + 1) = 1 ∧ t.at off = 39 then
        .ok (⟨.char, 0, 0, t.at (off + 1)⟩, stop + 1)
      else .ok (⟨.string, (stop - (off + 1)) % 256, t.txt + off + 1, 0⟩, stop + 1)

/-- The other tokens, after blanks and comments. -/
def scanPunctuation (t : Text) (off : Nat) : Except Err (Token × Nat) :=
  let c := t.at off
  if c = 60 then .ok (pair t off [(60, .shl), (61, .lte)] .lessthen)
  else if c = 62 then .ok (pair t off [(62, .asr), (61, .gte)] .greatthen)
  else if c = 61 then .ok (pair t off [(61, .equ)] .equals)
  else if c = 33 then .ok (pair t off [(61, .neq)] .not_)
  else if c = 124 then .ok (doubled t off .logicor .bar)
  else if c = 38 then .ok (doubled t off .logicand .ampersand)
  else
    match punctuation.find? (fun p => p.1 = c) with
    | some p => .ok (Token.plain p.2, off + 1)
    | none => .error .unexpectedChar

/-- `lexer_scan`: the token at `off` and the offset behind it. -/
def lexerScan (t : Text) : Nat → Nat → Except Err (Token × Nat)
  | 0, off => .ok (Token.plain .eof, off)
  | fuel + 1, off =>
      if off < t.len then
        let c := t.at off
        if isSpace c then lexerScan t fuel (off + 1)
        else if c = 39 ∨ c = 34 then scanQuoted t off
        else if (isAlpha c || c == 95) = true then .ok (scanWord t off)
        else if isDigit c then scanNumber t off
        else if c = 47 then
          if off + 1 < t.len then
            if t.at (off + 1) = 47 then lexerScan t fuel (lineEnd t t.len (off + 1))
            else if t.at (off + 1) = 42 then
              match commentEnd t t.len (off + 2) with
              | some off => lexerScan t fuel off
              | none => .error .unclosedComment
            else .ok (Token.plain .slash, off + 1)
          else .error .unexpectedChar
        else scanPunctuation t off
      else .ok (Token.plain .eof, off)

/-- `lexer_open`, which keeps 16 bits of the length. -/
def lexerOpen (t : Text) : Text := { t with len := t.len % 65536 }

end YardIce.MicroJs
