import Mathlib.Tactic.SplitIfs
import Mathlib.Data.List.GetD

/-!
# The grammar of MicroJS

The tables of the predictive parser and the step that replaces a nonterminal by the right
hand side that the lookahead selects.

## Implementation notes

The symbols are three enumerations, in the order of their codes. `predict_vec` is given
nonterminal by nonterminal and `rule_vec` rule by rule, so that the index tables of the
source are the branches here.
-/

namespace YardIce.MicroJs

/-- The terminals, which are the types of the tokens. -/
inductive Terminal where
  | eof | dot | comma | semicolon | colon | plus | minus | star | slash | percent | ampersand
  | bar | caret | tilde | exclam | quest | equals | lessthen | greatthen | lbracket | rbracket
  | lparen | rparen | lbrace | rbrace | gte | lte | equ | neq | asr | shl | logicor | logicand
  | catch_ | else_ | false_ | for_ | if_ | throw_ | true_ | try_ | var_ | while_ | id | int
  | char | string | err | not_
  deriving DecidableEq, Repr

/-- The nonterminals. -/
inductive NonTerminal where
  | program | stat | semiStat | semiList | compoundStat | varList | var_ | varList1
  | varAssignOpt | exp | assignOrCall1 | functionCall | attrAssign | attrAssign2 | methodCall
  | argListOpt | argList | argList1 | expLstOpt | expLst | expLst1 | andExp | orExp
  | relationalExp | andExp1 | shiftExp | relationalExp1 | additiveExp | shiftExp1 | divExp
  | additiveExp1 | multExp | divExp1 | unaryExp | multExp1 | primaryExp | idEval | idEval1
  | attrEval | attrEval1 | statList | condition | elseOpt | catchOpt
  deriving DecidableEq, Repr

/-- The actions of the syntax directed translation. -/
inductive Action where
  | opVarDecl | opPushTmp | opPopTmp | opVarAssign | opRetDiscard | opArrayXlat | opObjectGet
  | opAttrAssign | opArrayAssign | opMethodLookup | opCall | opFunctionLookup | opArg | opOr
  | opLogicOr | opXor | opAnd | opLogicAnd | opLt | opGt | opEqu | opNeq | opGte | opLte | opShl
  | opAsr | opAdd | opSub | opDiv | opMod | opMul | opInv | opMinus | opNot | opPushInt
  | opPushString | opPushTrue | opPushFalse | opVarEval | opCallRet | opAttrEval | opArrayEval
  | opBlkOpen | opBlkClose | opForInit | opForCond | opForAfter | opForEnd | opWhileBegin
  | opWhileCond | opWhileEnd | opIfCond | opIfEnd | opTryBegin | opThrow | opIfElse | opTryEnd
  | opCatch | opCatchEnd
  deriving DecidableEq, Repr

/-- What stands on the stack of the parser. -/
inductive Sym where
  | t (a : Terminal)
  | n (a : NonTerminal)
  | a (a : Action)
  deriving DecidableEq, Repr

/-- `predict_vec`: the pairs of a lookahead and a rule of each nonterminal, in the order of the
codes of the lookaheads. -/
def predictVec : NonTerminal → List (Terminal × Nat)
  | .program =>
      [(.eof, 0), (.lbrace, 3), (.for_, 1), (.if_, 1), (.throw_, 2), (.try_, 1), (.var_, 2),
      (.while_, 1), (.id, 2)]
  | .stat => [(.for_, 88), (.if_, 90), (.try_, 91), (.while_, 89)]
  | .semiStat => [(.throw_, 93), (.var_, 94), (.id, 95)]
  | .semiList => [(.eof, 4), (.semicolon, 5)]
  | .compoundStat => [(.lbrace, 84)]
  | .varList => [(.id, 6)]
  | .var_ => [(.id, 9)]
  | .varList1 => [(.eof, 7), (.comma, 8), (.semicolon, 7)]
  | .varAssignOpt => [(.eof, 10), (.comma, 10), (.semicolon, 10), (.equals, 11)]
  | .exp =>
      [(.minus, 32), (.tilde, 32), (.lparen, 32), (.false_, 32), (.true_, 32), (.id, 32),
      (.int, 32), (.char, 32), (.string, 32), (.not_, 32)]
  | .assignOrCall1 => [(.dot, 15), (.equals, 12), (.lbracket, 14), (.lparen, 13)]
  | .functionCall => [(.lparen, 21)]
  | .attrAssign => [(.id, 16)]
  | .attrAssign2 => [(.equals, 17), (.lbracket, 18), (.lparen, 19)]
  | .methodCall => [(.lparen, 20)]
  | .argListOpt =>
      [(.minus, 23), (.tilde, 23), (.lparen, 23), (.rparen, 22), (.false_, 23), (.true_, 23),
      (.id, 23), (.int, 23), (.char, 23), (.string, 23), (.not_, 23)]
  | .argList =>
      [(.minus, 24), (.tilde, 24), (.lparen, 24), (.false_, 24), (.true_, 24), (.id, 24),
      (.int, 24), (.char, 24), (.string, 24), (.not_, 24)]
  | .argList1 => [(.comma, 26), (.rparen, 25)]
  | .expLstOpt => [(.semicolon, 27), (.rparen, 27), (.id, 28)]
  | .expLst => [(.id, 29)]
  | .expLst1 => [(.comma, 31), (.semicolon, 30), (.rparen, 30)]
  | .andExp =>
      [(.minus, 37), (.tilde, 37), (.lparen, 37), (.false_, 37), (.true_, 37), (.id, 37),
      (.int, 37), (.char, 37), (.string, 37), (.not_, 37)]
  | .orExp =>
      [(.eof, 33), (.comma, 33), (.semicolon, 33), (.bar, 34), (.caret, 36), (.rbracket, 33),
      (.rparen, 33), (.logicor, 35)]
  | .relationalExp =>
      [(.minus, 41), (.tilde, 41), (.lparen, 41), (.false_, 41), (.true_, 41), (.id, 41),
      (.int, 41), (.char, 41), (.string, 41), (.not_, 41)]
  | .andExp1 =>
      [(.eof, 38), (.comma, 38), (.semicolon, 38), (.ampersand, 39), (.bar, 38), (.caret, 38),
      (.rbracket, 38), (.rparen, 38), (.logicor, 38), (.logicand, 40)]
  | .shiftExp =>
      [(.minus, 49), (.tilde, 49), (.lparen, 49), (.false_, 49), (.true_, 49), (.id, 49),
      (.int, 49), (.char, 49), (.string, 49), (.not_, 49)]
  | .relationalExp1 =>
      [(.eof, 42), (.comma, 42), (.semicolon, 42), (.ampersand, 42), (.bar, 42), (.caret, 42),
      (.lessthen, 43), (.greatthen, 44), (.rbracket, 42), (.rparen, 42), (.gte, 47), (.lte, 48),
      (.equ, 45), (.neq, 46), (.logicor, 42), (.logicand, 42)]
  | .additiveExp =>
      [(.minus, 53), (.tilde, 53), (.lparen, 53), (.false_, 53), (.true_, 53), (.id, 53),
      (.int, 53), (.char, 53), (.string, 53), (.not_, 53)]
  | .shiftExp1 =>
      [(.eof, 50), (.comma, 50), (.semicolon, 50), (.ampersand, 50), (.bar, 50), (.caret, 50),
      (.lessthen, 50), (.greatthen, 50), (.rbracket, 50), (.rparen, 50), (.gte, 50), (.lte, 50),
      (.equ, 50), (.neq, 50), (.asr, 52), (.shl, 51), (.logicor, 50), (.logicand, 50)]
  | .divExp =>
      [(.minus, 57), (.tilde, 57), (.lparen, 57), (.false_, 57), (.true_, 57), (.id, 57),
      (.int, 57), (.char, 57), (.string, 57), (.not_, 57)]
  | .additiveExp1 =>
      [(.eof, 54), (.comma, 54), (.semicolon, 54), (.plus, 55), (.minus, 56), (.ampersand, 54),
      (.bar, 54), (.caret, 54), (.lessthen, 54), (.greatthen, 54), (.rbracket, 54),
      (.rparen, 54), (.gte, 54), (.lte, 54), (.equ, 54), (.neq, 54), (.asr, 54), (.shl, 54),
      (.logicor, 54), (.logicand, 54)]
  | .multExp =>
      [(.minus, 61), (.tilde, 61), (.lparen, 61), (.false_, 61), (.true_, 61), (.id, 61),
      (.int, 61), (.char, 61), (.string, 61), (.not_, 61)]
  | .divExp1 =>
      [(.eof, 58), (.comma, 58), (.semicolon, 58), (.plus, 58), (.minus, 58), (.slash, 59),
      (.percent, 60), (.ampersand, 58), (.bar, 58), (.caret, 58), (.lessthen, 58),
      (.greatthen, 58), (.rbracket, 58), (.rparen, 58), (.gte, 58), (.lte, 58), (.equ, 58),
      (.neq, 58), (.asr, 58), (.shl, 58), (.logicor, 58), (.logicand, 58)]
  | .unaryExp =>
      [(.minus, 66), (.tilde, 65), (.lparen, 64), (.false_, 64), (.true_, 64), (.id, 64),
      (.int, 64), (.char, 64), (.string, 64), (.not_, 67)]
  | .multExp1 =>
      [(.eof, 62), (.comma, 62), (.semicolon, 62), (.plus, 62), (.minus, 62), (.star, 63),
      (.slash, 62), (.percent, 62), (.ampersand, 62), (.bar, 62), (.caret, 62), (.lessthen, 62),
      (.greatthen, 62), (.rbracket, 62), (.rparen, 62), (.gte, 62), (.lte, 62), (.equ, 62),
      (.neq, 62), (.asr, 62), (.shl, 62), (.logicor, 62), (.logicand, 62)]
  | .primaryExp =>
      [(.lparen, 68), (.false_, 73), (.true_, 72), (.id, 74), (.int, 69), (.char, 70),
      (.string, 71)]
  | .idEval => [(.id, 75)]
  | .idEval1 =>
      [(.eof, 76), (.dot, 79), (.comma, 76), (.semicolon, 76), (.plus, 76), (.minus, 76),
      (.star, 76), (.slash, 76), (.percent, 76), (.ampersand, 76), (.bar, 76), (.caret, 76),
      (.lessthen, 76), (.greatthen, 76), (.lbracket, 78), (.rbracket, 76), (.lparen, 77),
      (.rparen, 76), (.gte, 76), (.lte, 76), (.equ, 76), (.neq, 76), (.asr, 76), (.shl, 76),
      (.logicor, 76), (.logicand, 76)]
  | .attrEval => [(.id, 80)]
  | .attrEval1 =>
      [(.eof, 81), (.comma, 81), (.semicolon, 81), (.plus, 81), (.minus, 81), (.star, 81),
      (.slash, 81), (.percent, 81), (.ampersand, 81), (.bar, 81), (.caret, 81), (.lessthen, 81),
      (.greatthen, 81), (.lbracket, 83), (.rbracket, 81), (.lparen, 82), (.rparen, 81),
      (.gte, 81), (.lte, 81), (.equ, 81), (.neq, 81), (.asr, 81), (.shl, 81), (.logicor, 81),
      (.logicand, 81)]
  | .statList =>
      [(.rbrace, 85), (.for_, 86), (.if_, 86), (.throw_, 87), (.try_, 86), (.var_, 87),
      (.while_, 86), (.id, 87)]
  | .condition => [(.lparen, 92)]
  | .elseOpt =>
      [(.eof, 96), (.lbrace, 96), (.rbrace, 96), (.else_, 97), (.for_, 96), (.if_, 96),
      (.throw_, 96), (.try_, 96), (.var_, 96), (.while_, 96), (.id, 96)]
  | .catchOpt =>
      [(.eof, 98), (.lbrace, 98), (.rbrace, 98), (.catch_, 99), (.for_, 98), (.if_, 98),
      (.throw_, 98), (.try_, 98), (.var_, 98), (.while_, 98), (.id, 98)]

/-- `rule_vec`: the right hand sides. -/
def ruleVec : Nat → List Sym
  | 0 => [.t .eof]
  | 1 => [.n .stat, .n .program]
  | 2 => [.n .semiStat, .n .semiList]
  | 3 => [.n .compoundStat, .n .program]
  | 4 => [.t .eof]
  | 5 => [.t .semicolon, .n .program]
  | 6 => [.n .var_, .n .varList1]
  | 7 => []
  | 8 => [.t .comma, .n .varList]
  | 9 => [.t .id, .a .opVarDecl, .a .opPushTmp, .n .varAssignOpt]
  | 10 => [.a .opPopTmp]
  | 11 => [.t .equals, .n .exp, .a .opVarAssign]
  | 12 => [.t .equals, .n .exp, .a .opVarAssign]
  | 13 => [.n .functionCall, .a .opRetDiscard]
  | 14 => [.t .lbracket, .n .exp, .t .rbracket, .a .opArrayXlat, .t .dot, .n .attrAssign]
  | 15 => [.t .dot, .a .opObjectGet, .n .attrAssign]
  | 16 => [.t .id, .a .opPushTmp, .n .attrAssign2]
  | 17 => [.t .equals, .n .exp, .a .opAttrAssign]
  | 18 => [.t .lbracket, .n .exp, .t .rbracket, .t .equals, .n .exp, .a .opArrayAssign]
  | 19 => [.n .methodCall, .a .opRetDiscard]
  | 20 => [.a .opMethodLookup, .t .lparen, .n .argListOpt, .t .rparen, .a .opCall]
  | 21 => [.a .opFunctionLookup, .t .lparen, .n .argListOpt, .t .rparen, .a .opCall]
  | 22 => []
  | 23 => [.n .argList]
  | 24 => [.n .exp, .a .opArg, .n .argList1]
  | 25 => []
  | 26 => [.t .comma, .n .argList]
  | 27 => []
  | 28 => [.n .expLst]
  | 29 => [.t .id, .a .opPushTmp, .n .assignOrCall1, .n .expLst1]
  | 30 => []
  | 31 => [.t .comma, .n .expLst]
  | 32 => [.n .andExp, .n .orExp]
  | 33 => []
  | 34 => [.t .bar, .n .exp, .a .opOr]
  | 35 => [.t .logicor, .n .exp, .a .opLogicOr]
  | 36 => [.t .caret, .n .exp, .a .opXor]
  | 37 => [.n .relationalExp, .n .andExp1]
  | 38 => []
  | 39 => [.t .ampersand, .n .andExp, .a .opAnd]
  | 40 => [.t .logicand, .n .andExp, .a .opLogicAnd]
  | 41 => [.n .shiftExp, .n .relationalExp1]
  | 42 => []
  | 43 => [.t .lessthen, .n .relationalExp, .a .opLt]
  | 44 => [.t .greatthen, .n .relationalExp, .a .opGt]
  | 45 => [.t .equ, .n .relationalExp, .a .opEqu]
  | 46 => [.t .neq, .n .relationalExp, .a .opNeq]
  | 47 => [.t .gte, .n .relationalExp, .a .opGte]
  | 48 => [.t .lte, .n .relationalExp, .a .opLte]
  | 49 => [.n .additiveExp, .n .shiftExp1]
  | 50 => []
  | 51 => [.t .shl, .n .shiftExp, .a .opShl]
  | 52 => [.t .asr, .n .shiftExp, .a .opAsr]
  | 53 => [.n .divExp, .n .additiveExp1]
  | 54 => []
  | 55 => [.t .plus, .n .additiveExp, .a .opAdd]
  | 56 => [.t .minus, .n .additiveExp, .a .opSub]
  | 57 => [.n .multExp, .n .divExp1]
  | 58 => []
  | 59 => [.t .slash, .n .divExp, .a .opDiv]
  | 60 => [.t .percent, .n .divExp, .a .opMod]
  | 61 => [.n .unaryExp, .n .multExp1]
  | 62 => []
  | 63 => [.t .star, .n .multExp, .a .opMul]
  | 64 => [.n .primaryExp]
  | 65 => [.t .tilde, .n .unaryExp, .a .opInv]
  | 66 => [.t .minus, .n .unaryExp, .a .opMinus]
  | 67 => [.t .not_, .n .unaryExp, .a .opNot]
  | 68 => [.t .lparen, .n .exp, .t .rparen]
  | 69 => [.t .int, .a .opPushInt]
  | 70 => [.t .char, .a .opPushInt]
  | 71 => [.t .string, .a .opPushString]
  | 72 => [.t .true_, .a .opPushTrue]
  | 73 => [.t .false_, .a .opPushFalse]
  | 74 => [.n .idEval]
  | 75 => [.t .id, .a .opPushTmp, .n .idEval1]
  | 76 => [.a .opVarEval]
  | 77 => [.n .functionCall, .a .opCallRet]
  | 78 => [.t .lbracket, .n .exp, .t .rbracket, .a .opArrayXlat, .t .dot, .n .attrEval]
  | 79 => [.t .dot, .a .opObjectGet, .n .attrEval]
  | 80 => [.t .id, .a .opPushTmp, .n .attrEval1]
  | 81 => [.a .opAttrEval]
  | 82 => [.n .methodCall, .a .opCallRet]
  | 83 => [.t .lbracket, .n .exp, .t .rbracket, .a .opArrayEval]
  | 84 => [.t .lbrace, .a .opBlkOpen, .n .statList, .t .rbrace, .a .opBlkClose]
  | 85 => []
  | 86 => [.n .stat, .n .statList]
  | 87 => [.n .semiStat, .t .semicolon, .n .statList]
  | 88 =>
      [.t .for_, .t .lparen, .n .expLstOpt, .t .semicolon, .a .opForInit, .n .exp, .a .opForCond,
      .t .semicolon, .n .expLstOpt, .a .opForAfter, .t .rparen, .n .compoundStat, .a .opForEnd]
  | 89 =>
      [.t .while_, .a .opWhileBegin, .n .condition, .a .opWhileCond, .n .compoundStat,
      .a .opWhileEnd]
  | 90 => [.t .if_, .n .condition, .a .opIfCond, .n .compoundStat, .n .elseOpt, .a .opIfEnd]
  | 91 => [.t .try_, .a .opTryBegin, .n .compoundStat, .n .catchOpt]
  | 92 => [.t .lparen, .n .exp, .t .rparen]
  | 93 => [.t .throw_, .n .exp, .a .opThrow]
  | 94 => [.t .var_, .n .varList]
  | 95 => [.t .id, .a .opPushTmp, .n .assignOrCall1]
  | 96 => []
  | 97 => [.t .else_, .a .opIfElse, .n .compoundStat]
  | 98 => [.a .opTryEnd]
  | 99 =>
      [.t .catch_, .a .opCatch, .a .opBlkOpen, .t .lparen, .t .id, .a .opVarDecl, .a .opPushTmp,
      .a .opVarAssign, .t .rparen, .t .lbrace, .n .statList, .t .rbrace, .a .opBlkClose,
      .a .opCatchEnd]
  | _ => []

/-- The rules of each nonterminal. -/
def productions : NonTerminal → List Nat
  | .program => [0, 1, 2, 3]
  | .stat => [88, 89, 90, 91]
  | .semiStat => [93, 94, 95]
  | .semiList => [4, 5]
  | .compoundStat => [84]
  | .varList => [6]
  | .var_ => [9]
  | .varList1 => [7, 8]
  | .varAssignOpt => [10, 11]
  | .exp => [32]
  | .assignOrCall1 => [12, 13, 14, 15]
  | .functionCall => [21]
  | .attrAssign => [16]
  | .attrAssign2 => [17, 18, 19]
  | .methodCall => [20]
  | .argListOpt => [22, 23]
  | .argList => [24]
  | .argList1 => [25, 26]
  | .expLstOpt => [27, 28]
  | .expLst => [29]
  | .expLst1 => [30, 31]
  | .andExp => [37]
  | .orExp => [33, 34, 35, 36]
  | .relationalExp => [41]
  | .andExp1 => [38, 39, 40]
  | .shiftExp => [49]
  | .relationalExp1 => [42, 43, 44, 45, 46, 47, 48]
  | .additiveExp => [53]
  | .shiftExp1 => [50, 51, 52]
  | .divExp => [57]
  | .additiveExp1 => [54, 55, 56]
  | .multExp => [61]
  | .divExp1 => [58, 59, 60]
  | .unaryExp => [64, 65, 66, 67]
  | .multExp1 => [62, 63]
  | .primaryExp => [68, 69, 70, 71, 72, 73, 74]
  | .idEval => [75]
  | .idEval1 => [76, 77, 78, 79]
  | .attrEval => [80]
  | .attrEval1 => [81, 82, 83]
  | .statList => [85, 86, 87]
  | .condition => [92]
  | .elseOpt => [96, 97]
  | .catchOpt => [98, 99]

/-! ## The step of the parser -/

/-- The binary search of `microjs_ll_push`, on positions that count from one. -/
def llSearch (vec : List (Terminal × Nat)) (tok : Terminal) : Nat → Nat → Nat → Nat
  | 0, imin, _ => imin
  | fuel + 1, imin, imax =>
      if imin < imax then
        let imid := (imin + imax) / 2
        if (vec.getD (imid - 1) (.eof, 0)).1.ctorIdx < tok.ctorIdx then
          llSearch vec tok fuel (imid + 1) imax
        else llSearch vec tok fuel imin imid
      else imin

/-- `microjs_ll_push`: the symbols that take the place of the nonterminal. -/
def microjsLlPush (sym : NonTerminal) (tok : Terminal) : Option (List Sym) :=
  let vec := predictVec sym
  let pair := vec.getD (llSearch vec tok vec.length 1 vec.length - 1) (.eof, 0)
  if pair.1 = tok then some (ruleVec pair.2) else none

/-- `microjs_ll_start`. -/
def microjsLlStart : List Sym := [.n .program, .t .eof]

theorem llSearch_bounds (vec : List (Terminal × Nat)) (tok : Terminal) (fuel : Nat) :
    ∀ imin imax : Nat, imin ≤ imax →
      imin ≤ llSearch vec tok fuel imin imax ∧ llSearch vec tok fuel imin imax ≤ imax := by
  induction fuel with
  | zero => exact fun imin imax h => ⟨Nat.le_refl _, h⟩
  | succ fuel ih =>
      intro imin imax h
      simp only [llSearch]
      split_ifs with hlt hcode
      · have hbounds := ih ((imin + imax) / 2 + 1) imax (by omega)
        omega
      · have hbounds := ih imin ((imin + imax) / 2) (by omega)
        omega
      · omega

theorem predictVec_productions (sym : NonTerminal) :
    ∀ p ∈ predictVec sym, p.2 ∈ productions sym := by
  cases sym <;> decide

theorem predictVec_ne_nil (sym : NonTerminal) : 0 < (predictVec sym).length := by
  cases sym <;> decide

/-- The lookahead selects a rule of the nonterminal. -/
theorem microjsLlPush_mem {sym : NonTerminal} {tok : Terminal} {w : List Sym}
    (h : microjsLlPush sym tok = some w) : ∃ r ∈ productions sym, w = ruleVec r := by
  have hpos := predictVec_ne_nil sym
  have hbounds := llSearch_bounds (predictVec sym) tok (predictVec sym).length 1
    (predictVec sym).length hpos
  simp only [microjsLlPush] at h
  rw [List.getD_eq_getElem _ _ (by omega)] at h
  split_ifs at h with htok
  · refine ⟨_, predictVec_productions sym _ (List.getElem_mem _), (Option.some.inj h).symm⟩

end YardIce.MicroJs
