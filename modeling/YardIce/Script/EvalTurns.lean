import YardIce.Script.Eval

/-!
# The turns of an evaluation

Which arguments are read past their end and which are taken for operators, what `strtoul` and
the `switch` make of operands, how long the longest expression is, and from these what a turn
of the loop does.
-/

namespace YardIce.Script

open IceDrv (Word)
open Tftp (Byte strtoul digits decDigit hexDigit)

/-! ## The arguments -/

section Arguments

variable {a : Arg}

theorem cp_length (a : Arg) : a.cp a.text.length = 0 := by
  rw [Arg.cp, if_neg (Nat.lt_irrefl _), if_pos rfl]

theorem cp_of_lt {i : Nat} (h : i < a.text.length) : a.cp i = a.text.getD i 0 := by
  rw [Arg.cp, if_pos h]

theorem cp_ne_zero {i : Nat} (h : i < a.text.length) : a.cp i ≠ 0 := by
  rw [cp_of_lt h, List.getD_eq_getElem _ _ h]
  exact a.nonzero _ (List.getElem_mem h)

theorem cp_getD {i : Nat} (h : i ≤ a.text.length) : a.cp i = a.text.getD i 0 := by
  rcases Nat.lt_or_eq_of_le h with hlt | rfl
  · exact cp_of_lt hlt
  · rw [cp_length, List.getD_eq_default _ _ le_rfl]

/-- The arguments that the loop reads past the end of. -/
theorem short_iff (a : Arg) : a.Short ↔ ¬ ∀ i ∈ argReads a, i ≤ a.text.length := by
  unfold Arg.Short argReads
  rcases Nat.lt_or_ge a.text.length 1 with hnil | hpos
  · refine iff_of_true (Or.inl (by omega)) fun hall => ?_
    have hone : 1 ≤ a.text.length := hall 1 (by simp)
    omega
  · rcases Nat.lt_or_ge a.text.length 2 with hone | htwo
    · have hlen : a.text.length = 1 := by omega
      have hzero : a.cp 1 = 0 := by
        rw [← hlen]
        exact cp_length a
      by_cases hop : IsOperChar (a.cp 0)
      · simp [hlen, hzero, hop]
      · simp [hlen, hzero, hop]
    · refine iff_of_false (by omega) (not_not_intro fun i hi => ?_)
      have hle : i ≤ 2 := by
        split at hi
        · simp at hi
          omega
        · simp at hi
          omega
      omega

/-- The test for an operator. -/
theorem isOper_iff (h : ¬ a.Short) : a.IsOper ↔ (a.cp 1 = 0 ∧ IsOperChar (a.cp 0)) ∨
    (a.cp 2 = 0 ∧ ((a.cp 0 = ch '>' ∧ a.cp 1 = ch '>') ∨ (a.cp 0 = ch '<' ∨ a.cp 1 = ch '<'))) := by
  have hpos : a.text.length ≠ 0 := fun h0 => h (Or.inl h0)
  unfold Arg.IsOper
  rcases Nat.lt_or_ge a.text.length 2 with hone | htwo
  · have hlen : a.text.length = 1 := by omega
    have hzero : a.cp 1 = 0 := by
      rw [← hlen]
      exact cp_length a
    have hop : IsOperChar (a.cp 0) := by
      by_contra hop
      exact h (Or.inr ⟨hlen, hop⟩)
    exact iff_of_true (Or.inl ⟨hlen, hop⟩) (Or.inl ⟨hzero, hop⟩)
  · have hone : a.cp 1 ≠ 0 := cp_ne_zero (by omega)
    have hlen : a.text.length = 2 ↔ a.cp 2 = 0 := by
      rcases Nat.lt_or_eq_of_le htwo with hlt | heq
      · exact iff_of_false (by omega) (cp_ne_zero hlt)
      · refine iff_of_true heq.symm ?_
        rw [heq]
        exact cp_length a
    rw [hlen]
    constructor
    · rintro (⟨hlen', -⟩ | h2)
      · omega
      · exact Or.inr h2
    · rintro (⟨h1, -⟩ | h2)
      · exact absurd h1 hone
      · exact Or.inr h2

/-- The texts of length at least one. -/
theorem text_cases (h : ¬ a.Short) : (∃ c, a.text = [c]) ∨ (∃ c d, a.text = [c, d]) ∨
    ∃ c d e t, a.text = c :: d :: e :: t := by
  have hpos : a.text.length ≠ 0 := fun h0 => h (Or.inl h0)
  rcases htext : a.text with - | ⟨c, - | ⟨d, - | ⟨e, t⟩⟩⟩
  · rw [htext] at hpos
    exact absurd rfl hpos
  · exact Or.inl ⟨c, rfl⟩
  · exact Or.inr (Or.inl ⟨c, d, rfl⟩)
  · exact Or.inr (Or.inr ⟨c, d, e, t, rfl⟩)

/-- The byte that stands for an operator in the `switch`. -/
def Oper.byte : Oper → Byte
  | .add => ch '+'
  | .sub => ch '-'
  | .mul => ch '*'
  | .div => ch '/'
  | .mod => ch '%'
  | .and => ch '&'
  | .or => ch '|'
  | .xor => ch '^'
  | .shl => ch '<'
  | .shr => ch '>'

theorem cp_zero (a : Arg) : a.cp 0 = a.text.getD 0 0 := cp_getD (Nat.zero_le _)

theorem operOf_single {c : Byte} : (operOf [c] = none ↔ ¬ IsOperChar c) ∧
    ∀ o, operOf [c] = some o → c = o.byte := by
  simp only [operOf, IsOperChar]
  constructor
  · split_ifs with h1 h2 h3 h4 h5 h6 h7 h8
    all_goals simp [*]
  · intro o ho
    split_ifs at ho with h1 h2 h3 h4 h5 h6 h7 h8
    all_goals
      obtain rfl := Option.some.inj ho
      assumption

theorem operOf_pair {c d : Byte} {o : Oper} (h : operOf [c, d] = some o) :
    (c = ch '<' ∧ d = ch '<' ∧ o = .shl) ∨ (c = ch '>' ∧ d = ch '>' ∧ o = .shr) := by
  simp only [operOf] at h
  split_ifs at h with hl hr
  · exact Or.inl ⟨hl.1, hl.2, (Option.some.inj h).symm⟩
  · exact Or.inr ⟨hr.1, hr.2, (Option.some.inj h).symm⟩

/-- A real operator is taken for the operator that it is. -/
theorem isOper_of_operOf {o : Oper} (h : operOf a.text = some o) :
    a.IsOper ∧ a.cp 0 = o.byte := by
  rcases htext : a.text with - | ⟨c, - | ⟨d, - | ⟨e, t⟩⟩⟩
  · rw [htext] at h
    cases h
  · rw [htext] at h
    have hc : a.cp 0 = c := by
      rw [cp_zero, htext]
      rfl
    have hop : IsOperChar c := by
      by_contra hop
      rw [operOf_single.1.mpr hop] at h
      cases h
    exact ⟨Or.inl ⟨by rw [htext]; rfl, by rw [hc]; exact hop⟩, hc.trans (operOf_single.2 o h)⟩
  · rw [htext] at h
    have hc : a.cp 0 = c := by
      rw [cp_zero, htext]
      rfl
    have hd : a.cp 1 = d := by
      rw [cp_getD (by rw [htext]; exact Nat.le_succ 1), htext]
      rfl
    have hlen : a.text.length = 2 := by
      rw [htext]
      rfl
    rcases operOf_pair h with ⟨rfl, rfl, rfl⟩ | ⟨rfl, rfl, rfl⟩
    · exact ⟨Or.inr ⟨hlen, Or.inr (Or.inl hc)⟩, hc⟩
    · exact ⟨Or.inr ⟨hlen, Or.inl ⟨hc, hd⟩⟩, hc⟩
  · rw [htext] at h
    cases h

theorem byte_ne_zero (o : Oper) : o.byte ≠ 0 := by
  cases o <;> decide

/-- What is taken for an operator is not empty. -/
theorem isOper_ne_zero (h : a.IsOper) : a.cp 0 ≠ 0 := by
  rcases h with ⟨hlen, -⟩ | ⟨hlen, -⟩
  · exact cp_ne_zero (by omega)
  · exact cp_ne_zero (by omega)

end Arguments

/-! ## Operations -/

section Operations

variable {oper : Byte} {v w : Word}

theorem not_undefined (hdiv : oper ≠ ch '/') (hmod : oper ≠ ch '%') (hshr : oper ≠ ch '>')
    (hshl : oper ≠ ch '<') : ¬ Undefined oper w := by
  rintro (⟨h | h, -⟩ | ⟨h | h, -⟩)
  · exact hdiv h
  · exact hmod h
  · exact hshr h
  · exact hshl h

theorem applyOper_eq_none : applyOper oper v w = none ↔ Undefined oper w := by
  have hdef : ∀ {x : Word}, (oper ≠ ch '/' ∧ oper ≠ ch '%' ∧ oper ≠ ch '>' ∧ oper ≠ ch '<') →
      (some x = none ↔ Undefined oper w) := fun h =>
    iff_of_false (by simp) (not_undefined h.1 h.2.1 h.2.2.1 h.2.2.2)
  have hdivision : ∀ {x : Word}, (oper = ch '/' ∨ oper = ch '%') →
      ((if w = 0 then none else some x) = none ↔ Undefined oper w) := fun h => by
    have hshift : ¬ (oper = ch '>' ∨ oper = ch '<') := by
      rcases h with rfl | rfl
      · decide
      · decide
    simp [Undefined, h, hshift]
  have hshift : ∀ {x : Word}, (oper = ch '>' ∨ oper = ch '<') →
      ((if 32 ≤ w.toNat then none else some x) = none ↔ Undefined oper w) := fun h => by
    have hdiv : ¬ (oper = ch '/' ∨ oper = ch '%') := by
      rcases h with rfl | rfl
      · decide
      · decide
    simp [Undefined, h, hdiv]
  rw [applyOper]
  by_cases h1 : oper = ch '|'
  · rw [if_pos h1]
    exact hdef (by rw [h1]; decide)
  rw [if_neg h1]
  by_cases h2 : oper = ch '^'
  · rw [if_pos h2]
    exact hdef (by rw [h2]; decide)
  rw [if_neg h2]
  by_cases h3 : oper = ch '&'
  · rw [if_pos h3]
    exact hdef (by rw [h3]; decide)
  rw [if_neg h3]
  by_cases h4 : oper = ch '+'
  · rw [if_pos h4]
    exact hdef (by rw [h4]; decide)
  rw [if_neg h4]
  by_cases h5 : oper = ch '-'
  · rw [if_pos h5]
    exact hdef (by rw [h5]; decide)
  rw [if_neg h5]
  by_cases h6 : oper = ch '*'
  · rw [if_pos h6]
    exact hdef (by rw [h6]; decide)
  rw [if_neg h6]
  by_cases h7 : oper = ch '/'
  · rw [if_pos h7]
    exact hdivision (Or.inl h7)
  rw [if_neg h7]
  by_cases h8 : oper = ch '%'
  · rw [if_pos h8]
    exact hdivision (Or.inr h8)
  rw [if_neg h8]
  by_cases h9 : oper = ch '>'
  · rw [if_pos h9]
    exact hshift (Or.inl h9)
  rw [if_neg h9]
  by_cases h10 : oper = ch '<'
  · rw [if_pos h10]
    exact hshift (Or.inr h10)
  rw [if_neg h10]
  exact hdef ⟨h7, h8, h9, h10⟩

/-- The `switch` does the operation that an operator stands for, where it is defined. -/
theorem applyOper_byte {o : Oper} (h : ¬ Undefined o.byte w) : applyOper o.byte v w = o.apply v w := by
  cases o with
  | add => rfl
  | sub => rfl
  | mul => rfl
  | and => rfl
  | or => rfl
  | xor => rfl
  | div => rfl
  | mod => rfl
  | shl =>
      have hlt : ¬ 32 ≤ w.toNat := fun hle => h (Or.inr ⟨Or.inr rfl, hle⟩)
      show (if 32 ≤ w.toNat then none else some (v <<< w.toNat)) = _
      rw [if_neg hlt]
      rfl
  | shr =>
      have hlt : ¬ 32 ≤ w.toNat := fun hle => h (Or.inr ⟨Or.inl rfl, hle⟩)
      show (if 32 ≤ w.toNat then none else some (v >>> w.toNat)) = _
      rw [if_neg hlt]
      rfl

end Operations

/-! ## The longest expression -/

section Expressions

variable {toks : List Tok} {n m : Nat} {v : Word}

/-- The length of the operators and operands that tokens begin with. -/
def tailLen : List Tok → Nat
  | .oper _ :: .operand _ :: toks => 2 + tailLen toks
  | _ => 0

theorem tailLen_le (toks : List Tok) : tailLen toks ≤ toks.length := by
  fun_induction tailLen toks with
  | case1 o w toks ih =>
      simp only [List.length_cons]
      omega
  | case2 => exact Nat.zero_le _

theorem operTail_take (toks : List Tok) : OperTail (toks.take (tailLen toks)) := by
  fun_induction tailLen toks with
  | case1 o w toks ih =>
      rw [Nat.add_comm, List.take_succ_cons, List.take_succ_cons]
      exact .cons o w ih
  | case2 => exact .nil

theorem le_tailLen (hm : m ≤ toks.length) (h : OperTail (toks.take m)) : m ≤ tailLen toks := by
  fun_induction tailLen toks generalizing m with
  | case1 o w toks ih =>
      rcases m with - | - | m
      · exact Nat.zero_le _
      · cases h
      · rw [List.take_succ_cons, List.take_succ_cons] at h
        cases h with
        | cons _ _ h =>
            have hle := ih (by simpa using hm) h
            omega
  | case2 toks hno =>
      rcases m with - | - | m
      · exact le_rfl
      · rcases toks with - | ⟨t, toks⟩
        · exact absurd hm (by simp)
        · rw [List.take_succ_cons, List.take_zero] at h
          cases h
      · rcases toks with - | ⟨t, - | ⟨u, toks⟩⟩
        · exact absurd hm (by simp)
        · exact absurd hm (by simp)
        · rw [List.take_succ_cons, List.take_succ_cons] at h
          cases h with
          | cons o w _ => exact absurd rfl (hno o w toks)

theorem valueFrom_take (toks : List Tok) (v : Word) :
    valueFrom v (toks.take (tailLen toks)) = valueFrom v toks := by
  fun_induction tailLen toks generalizing v with
  | case1 o w toks ih =>
      rw [Nat.add_comm, List.take_succ_cons, List.take_succ_cons, valueFrom, valueFrom]
      simp only [ih]
  | case2 toks hno =>
      rw [List.take_zero, valueFrom.eq_def, valueFrom.eq_def v toks]
      dsimp only
      split
      · next o w rest => exact absurd rfl (hno o w rest)
      · rfl

theorem longest_cons (w : Option Word) (toks : List Tok) :
    Longest (.operand w :: toks) n ↔ n = 1 + tailLen toks := by
  have htake : IsExpr ((Tok.operand w :: toks).take (1 + tailLen toks)) := by
    rw [Nat.add_comm, List.take_succ_cons]
    exact .intro w (operTail_take toks)
  have hmax : ∀ m ≤ (Tok.operand w :: toks).length, IsExpr ((Tok.operand w :: toks).take m) →
      m ≤ 1 + tailLen toks := by
    intro m hm h
    rcases m with - | m
    · exact Nat.zero_le _
    · rw [List.take_succ_cons] at h
      cases h with
      | intro _ h =>
          have hle := le_tailLen (by simpa using hm) h
          omega
  have hlen : 1 + tailLen toks ≤ (Tok.operand w :: toks).length := by
    have hle := tailLen_le toks
    rw [List.length_cons]
    omega
  constructor
  · rintro ⟨hn, hexpr, hlongest⟩
    exact Nat.le_antisymm (hmax n hn hexpr) (hlongest _ hlen htake)
  · rintro rfl
    exact ⟨hlen, htake, hmax⟩

/-- Only an operand can be the first token of an expression. -/
theorem longest_first (h : Longest toks n) : ∃ w rest, toks = .operand w :: rest := by
  obtain ⟨-, hexpr, -⟩ := h
  rcases toks with - | ⟨t, rest⟩
  · rw [List.take_nil] at hexpr
    cases hexpr
  · rcases n with - | n
    · cases hexpr
    · rw [List.take_succ_cons] at hexpr
      cases hexpr with
      | intro w _ => exact ⟨w, rest, rfl⟩

end Expressions

/-! ## The turns of the loop -/

section Turns

variable {vars : List VarDef} {a : Arg} {s : EvalState}

theorem turn_oper (hs : ¬ a.Short) (ho : a.IsOper) : evalTurn vars s a =
    if s.oper ≠ 0 then .fail (-8) else .next { s with oper := a.cp 0 } := by
  rw [evalTurn, if_pos ((isOper_iff hs).mp ho)]

theorem turn_other (hs : ¬ a.Short) (ho : ¬ a.IsOper) : evalTurn vars s a =
    if s.args = 1 ∧ s.oper = 0 then .leave else operandTurn vars s a := by
  rw [evalTurn, if_neg (mt (isOper_iff hs).mpr ho)]

theorem operandTurn_error {code : Int} (h : readOperand vars a = .error code) :
    operandTurn vars s a = .fail code := by
  rw [operandTurn, h]

theorem operandTurn_first {w : Word} (h : readOperand vars a = .ok w) (hoper : s.oper = 0) :
    operandTurn vars s a = .next ⟨w, 0, s.args + 1⟩ := by
  rw [operandTurn, h]
  exact if_pos hoper

theorem operandTurn_undefined {w : Word} (h : readOperand vars a = .ok w) (hoper : s.oper ≠ 0)
    (hw : applyOper s.oper s.op1 w = none) : operandTurn vars s a = .undefined := by
  rw [operandTurn, h]
  exact (if_neg hoper).trans (by rw [hw])

theorem operandTurn_apply {w x : Word} (h : readOperand vars a = .ok w) (hoper : s.oper ≠ 0)
    (hw : applyOper s.oper s.op1 w = some x) :
    operandTurn vars s a = .next ⟨x, 0, s.args⟩ := by
  rw [operandTurn, h]
  exact (if_neg hoper).trans (by rw [hw])

theorem token_oper {o : Oper} : token vars a.text = .oper o ↔ operOf a.text = some o := by
  unfold token
  constructor
  · intro h
    split at h
    · next o' ho =>
      rw [ho]
      exact congrArg some (Tok.oper.inj h)
    · split_ifs at h
  · intro h
    rw [h]

/-- What is taken for no operator is none. -/
theorem token_other (hs : ¬ a.Short) (ho : ¬ a.IsOper) : token vars a.text =
    if IsNumber (a.cp 0) (a.cp 1) then .operand (some (numeral a.text))
    else if IsLetter (a.cp 0) then .operand (nameValue vars a.text)
    else .other := by
  have hpos : 1 ≤ a.text.length := by
    by_contra h
    exact hs (Or.inl (by omega))
  have hnone : operOf a.text = none := by
    cases hop : operOf a.text with
    | none => rfl
    | some o => exact absurd (isOper_of_operOf hop).1 ho
  rw [token, hnone, cp_zero, cp_getD hpos]

/-- The letter behind the zero of a hexadecimal number. -/
theorem upper_x_iff (x : Byte) : x &&& ~~~0x20 = 0x58 ↔ x = ch 'x' ∨ x = ch 'X' := by
  revert x
  decide

/-- How `strtoul` reads a text that begins with neither a blank nor a zero. -/
theorem strtoulArg_dec {c : Byte} {t : List Byte} (hblank : c ≠ 0x20) (hzero : c ≠ ch '0') :
    strtoulArg (c :: t) = digitsValue decDigit 10 (c :: t) := by
  have hskip : Tftp.skipBlanks (c :: t ++ [0]) = c :: (t ++ [0]) := if_neg hblank
  rw [strtoulArg, strtoul, hskip]
  dsimp only
  rw [if_neg fun h => hzero h.2, if_pos (Or.inl rfl)]
  rfl

theorem strtoulArg_zero {x : Byte} {t : List Byte} : strtoulArg (ch '0' :: x :: t) =
    if x = ch 'x' ∨ x = ch 'X' then digitsValue hexDigit 16 t else 0 := by
  have hskip : Tftp.skipBlanks (ch '0' :: x :: t ++ [0]) = ch '0' :: x :: (t ++ [0]) :=
    if_neg (by decide)
  rw [strtoulArg, strtoul, hskip]
  dsimp only
  rw [if_pos ⟨Or.inl rfl, rfl⟩]
  by_cases hx : x = ch 'x' ∨ x = ch 'X'
  · rw [if_pos ((upper_x_iff x).mpr hx), if_pos hx]
    rfl
  · rw [if_neg (mt (upper_x_iff x).mp hx), if_neg hx, if_neg (by decide)]
    rfl

/-- `strtoul` reads a plain number as the number that it is. -/
theorem strtoul_plain (hs : ¬ a.Short) (ho : ¬ a.IsOper) (hnum : IsNumber (a.cp 0) (a.cp 1))
    (hplain : a.Plain) : strtoulArg a.text = numeral a.text := by
  obtain ⟨c, x, t, htext⟩ : ∃ c x t, a.text = c :: x :: t := by
    rcases text_cases hs with ⟨c, htext⟩ | ⟨c, d, htext⟩ | ⟨c, d, e, t, htext⟩
    · refine absurd (Or.inl ⟨by rw [htext]; rfl, ?_⟩) ho
      by_contra hop
      exact hs (Or.inr ⟨by rw [htext]; rfl, hop⟩)
    · exact ⟨c, d, [], htext⟩
    · exact ⟨c, d, e :: t, htext⟩
  have hc : a.cp 0 = c := by
    rw [cp_zero, htext]
    rfl
  have hx : a.cp 1 = x := by
    rw [cp_getD (by rw [htext, List.length_cons]; omega), htext]
    rfl
  have hplain := hplain hnum
  rw [htext] at hplain ⊢
  rw [hc, hx] at hnum hplain
  by_cases hsign : c = ch '-' ∨ c = ch '+'
  · -- a sign is no digit: the loop over the digits ends at once
    have hvalue : strtoulArg (c :: x :: t) = 0 := by
      rcases hsign with rfl | rfl
      · exact strtoulArg_dec (by decide) (by decide)
      · exact strtoulArg_dec (by decide) (by decide)
    rcases hplain with hzero | ⟨hminus, hplus, -⟩
    · rw [hvalue, hzero]
    · exact absurd hsign (not_or.mpr ⟨hminus, hplus⟩)
  · have hmagnitude : numeral (c :: x :: t) = magnitude (c :: x :: t) := by
      rw [numeral, if_neg fun h => hsign (Or.inl h), if_neg fun h => hsign (Or.inr h)]
    have hdigit : IsDigit c := hnum.resolve_left fun h => hsign h.1
    rw [hmagnitude] at hplain ⊢
    by_cases hzero : c = ch '0'
    · subst hzero
      rw [strtoulArg_zero, magnitude, if_pos rfl] at *
      split_ifs at hplain ⊢ with hhex
      · rfl
      · rcases hplain with hvalue | ⟨-, -, hoct⟩
        · exact hvalue.symm
        · exact absurd (hoct rfl) hhex
    · have hblank : c ≠ 0x20 := by
        rintro rfl
        exact absurd hdigit (by decide)
      rw [strtoulArg_dec hblank hzero, magnitude, if_neg hzero]

theorem read_number (hs : ¬ a.Short) (ho : ¬ a.IsOper) (hplain : a.Plain) {w : Word}
    (h : token vars a.text = .operand (some w)) : readOperand vars a = .ok w := by
  rw [token_other hs ho] at h
  rw [readOperand]
  split_ifs at h ⊢ with hnum hletter
  · rw [strtoul_plain hs ho hnum hplain, Option.some.inj (Tok.operand.inj h)]
  · have hvalue := Tok.operand.inj h
    unfold nameValue at hvalue
    cases hvar : varGlobalLookup vars a.text with
    | none =>
        rw [hvar] at hvalue
        cases hvalue
    | some var =>
        rw [hvar, Option.bind_some] at hvalue
        split_ifs at hvalue with htype
        rw [← Option.some.inj hvalue]
        dsimp only
        rcases htype with htype | htype | htype
        · rw [htype]
        · rw [htype]
        · rw [htype]

/-- An argument that is no operand, or a name without value, is answered by a negative code. -/
theorem read_error (hs : ¬ a.Short) (ho : ¬ a.IsOper)
    (h : token vars a.text = .operand none ∨ token vars a.text = .other) :
    ∃ code : Int, code < 0 ∧ readOperand vars a = .error code := by
  rw [token_other hs ho] at h
  rw [readOperand]
  split_ifs at h ⊢ with hnum hletter
  · rcases h with h | h
    · cases h
    · cases h
  · rcases h with h | h
    · have hvalue := Tok.operand.inj h
      unfold nameValue at hvalue
      cases hvar : varGlobalLookup vars a.text with
      | none => exact ⟨-1, by decide, rfl⟩
      | some var =>
          rw [hvar, Option.bind_some] at hvalue
          split_ifs at hvalue with htype
          simp only [not_or] at htype
          refine ⟨-2, by decide, ?_⟩
          dsimp only
          split
          · next h => exact absurd h htype.1
          · next h => exact absurd h htype.2.1
          · next h => exact absurd h htype.2.2
          · rfl
    · cases h
  · exact ⟨-3, by decide, rfl⟩

theorem read_error_neg {code : Int} (h : readOperand vars a = .error code) : code < 0 := by
  unfold readOperand at h
  split_ifs at h
  · split at h
    · cases h
      decide
    · split at h
      · cases h
      · cases h
      · cases h
      · cases h
        decide
  · cases h
    decide

end Turns

end YardIce.Script
