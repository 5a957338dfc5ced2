import YardIce.MicroJs.Actions

/-!
# The MicroJS compiler

`microjs_compile` runs the predictive parser on a text: it matches terminals with tokens,
replaces nonterminals and calls actions until its stack is empty or something fails. What
is left on the stack after a failure is where a later call goes on.

## Implementation notes

One round of the loop is `compileStep`; the loop carries a bound on its rounds. A stack
that does not fit is reported after the source has written below its room, over fields
that the next initialisation sets.
-/

namespace YardIce.MicroJs

open YardIce.Lib

variable (E : Env)

/-! ## The parser -/

/-- The state in the loop: the translator, the lookahead and the offset behind it. -/
structure Parse where
  m : Sdt
  ahead : Token
  off : Nat

/-- Reads the next token. -/
def advance (t : Text) : Attempt Parse Err Unit := fun p =>
  match lexerScan t 65536 p.off with
  | .ok (tok, off) => (.ok (), { p with ahead := tok, off })
  | .error e => (.error e, p)

/-- A computation on the translator. -/
def onSdt {α : Type} (x : Attempt Sdt Err α) : Attempt Parse Err α :=
  Attempt.on (fun p => p.m) (fun m p => { p with m }) x

/-- Pops the parser's stack. -/
def popSym (ll : List Sym) : Attempt Parse Err Unit :=
  Attempt.update fun p => { p with m := { p.m with ll } }

/-- A terminal has to be the lookahead, which becomes the token of the actions. -/
def matchTerminal (t : Text) (a : Terminal) : Attempt Parse Err Unit := do
  let ahead ← Attempt.read fun p => p.ahead
  Attempt.guard (a = ahead.typ) .unexpectedSymbol
  Attempt.update fun p => { p with m := { p.m with tok := ahead } }
  advance t

/-- An action, after which the code must not have reached the end of its buffer. -/
def callAction (a : Action) : Op := do
  op E a
  let full ← Attempt.read fun m => decide (m.cdsz ≤ m.pc)
  Attempt.guard (full = false) .codeMemOverflow

/-- A nonterminal becomes the right hand side that the lookahead selects; without one it
stays on the stack. -/
def expand (a : NonTerminal) (ll : List Sym) : Attempt Parse Err Unit := do
  let ahead ← Attempt.read fun p => p.ahead
  match microjsLlPush a ahead.typ with
  | some w =>
      popSym (w ++ ll)
      Attempt.guard ((w ++ ll).length ≤ E.room) .sdtStackOverflow
  | none => Attempt.fail (if ahead.typ = .eof then .unexpectedEof else .syntaxError)

/-- One round of the loop of `microjs_compile`. -/
def compileStep (t : Text) : Attempt Parse Err Unit := do
  let ll ← Attempt.read fun p => p.m.ll
  match ll with
  | [] => return ()
  | .t a :: ll =>
      popSym ll
      matchTerminal t a
  | .a a :: ll =>
      popSym ll
      onSdt (callAction E a)
  | .n a :: ll => expand E a ll

/-- The loop of `microjs_compile`: the outcome, if the bound on the rounds is not reached. -/
def compileLoop (t : Text) : Nat → Parse → Option (Except Err Unit × Parse)
  | 0, _ => none
  | fuel + 1, p =>
      if p.m.ll = [] then some (.ok (), p)
      else
        match compileStep E t p with
        | (.ok (), p) => compileLoop t fuel p
        | (.error e, p) => some (.error e, p)

/-- `microjs_compile`: the position in the code, or an error, with the translator. -/
def microjsCompile (fuel : Nat) (t : Text) (m : Sdt) : Option (Except Err Nat × Sdt) :=
  if t.len = 0 then some (.ok 0, m)
  else
    match advance (lexerOpen t) ⟨m, Token.plain .eof, 0⟩ with
    | (.error e, p) => some (.error e, p.m)
    | (.ok (), p) =>
        (compileLoop E (lexerOpen t) fuel p).map fun r => (r.1.map fun _ => r.2.m.pc, r.2.m)

/-! ## Beginning and end -/

/-- `microjs_sdt_init` with a symbol table whose objects fit into the data memory. -/
def microjsSdtInit (tab : Symtab) (strs : Strbuf) : Option Sdt :=
  if symtabDataSize tab ≤ tab.dataSz then
    some { tok := Token.plain .eof, tab, strs, code := fun _ => 0, cdsz := 0, pc := 0,
           stackPos := 0, dataPos := symtabDataSize tab % 65536, ll := [], spc := 0 }
  else none

/-- `microjs_sdt_reset`. -/
def microjsSdtReset (m : Sdt) : Sdt := { m with ll := microjsLlStart }

/-- The code of `microjs_sdt_begin`: the reference to the default exception handler is at
the bottom of the symbol table's stack, and the code begins with its frame. -/
def beginCode : Op := do
  let new ← Attempt.read fun m => m.tab.isEmpty
  if new then Attempt.ignoring (symRefPush ⟨0⟩)
  saveSpc E
  reserve opcPushx
  tgtStackPush

/-- `microjs_sdt_begin`. -/
def microjsSdtBegin (code : Nat → Nat) (codeSize : Nat) (m : Sdt) : Sdt :=
  (beginCode E (microjsSdtReset { m with pc := 0, cdsz := codeSize % 65536, code })).2

/-- `microjs_sdt_end`. -/
def microjsSdtEnd : Attempt Sdt Err Nat := do
  let fits ← Attempt.read fun m => decide (m.pc + 3 ≤ m.cdsz)
  Attempt.guard (fits = true) .codeMemOverflow
  tgtStackPop
  emit [opcPop]
  emit [opcAbt]
  let ref ← Attempt.read fun m => Ref.ofBytes (symPick m.tab 2)
  let pc ← Attempt.read fun m => m.pc
  patch ref.addr pc
  emit [opcRet]
  Attempt.read fun m => m.pc

/-! ## Programs in JSON -/

/-- A value that the JSON parser delivers. -/
inductive JsonVal where
  | string (t : Text)
  | endArray
  | other

/-- The loop of `mcrojs_js_array_enc` over the lines: the last result and the value that
ended the loop, or the error that a line gave. An incomplete line is not an error. -/
def encLines (fuel : Nat) (ret : Except Err Nat) :
    Sdt → List JsonVal → Option ((Except Err Nat × Option JsonVal) × Sdt)
  | m, [] => some ((ret, none), m)
  | m, .string t :: vals =>
      match microjsCompile E fuel t m with
      | none => none
      | some (.ok pc, m) =>
          encLines fuel (.ok pc) (if 0 < pc then microjsSdtReset m else m) vals
      | some (.error .unexpectedEof, m) => encLines fuel (.error .unexpectedEof) m vals
      | some (.error e, m) => some ((.error e, some (.string t)), m)
  | m, v :: _ => some ((ret, some v), m)

/-- The translator after `symtab_state_rollback` to the state of `tab`. -/
def Sdt.undo (m : Sdt) (tab : Symtab) : Sdt :=
  { m with tab := symtabStateRollback m.tab (symtabStateSave tab) }

/-- `mcrojs_js_array_enc`, on the values that the parser delivers after the opening of the
array: the result and the translator, whose code and symbol table are the caller's. A
result that is not positive ends without the closing code. -/
def mcrojsJsArrayEnc (fuel : Nat) (code : Nat → Nat) (codeSz : Nat) (tab : Symtab)
    (strs : Strbuf) (vals : List JsonVal) : Option (Except Err Nat × Sdt) :=
  match microjsSdtInit tab strs with
  | none => none
  | some m =>
      match encLines E fuel (.ok 0) (microjsSdtBegin E code codeSz m) vals with
      | none => none
      | some ((ret, some .endArray), m) =>
          match ret with
          | .ok (_ + 1) =>
              match microjsSdtEnd m with
              | (.ok n, m) => some (.ok n, m)
              | (.error e, m) => some (.error e, m.undo tab)
          | ret => some (ret, m)
      | some ((.error e, some (.string _)), m) => some (.error e, m.undo tab)
      | some (_, m) => some (.ok 0, m.undo tab)

end YardIce.MicroJs
