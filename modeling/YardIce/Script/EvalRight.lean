import YardIce.Script.EvalTurns

/-!
# The arguments that are evaluated rightly

The loop behind a first operand stays in step with the expression as long as the arguments are
in order; from the start it returns a negative code exactly on the arguments that are broken.
-/

namespace YardIce.Script

open IceDrv (Word)
open Tftp (Byte strtoul digits decDigit hexDigit)

/-! ## The loop behind an operand -/

section Loop

variable {vars : List VarDef} {argv rest : List Arg} {a b c : Arg} {s : EvalState} {n : Nat}
  {v w x : Word}

/-- The tokens of an argument vector. -/
def tokens (vars : List VarDef) (argv : List Arg) : List Tok := argv.map fun a => token vars a.text

/-- No argument that the loop looks at is read past its end. -/
def Clean (vars : List VarDef) (argv : List Arg) (s : EvalState) : Prop :=
  ∀ a ∈ evalVisits vars argv s, ¬ a.Short

/-- The loop goes on behind an argument. -/
theorem loop_next {s' : EvalState} (h : evalTurn vars s a = .next s') :
    evalLoop vars (a :: rest) s n = evalLoop vars rest s' (n + 1) ∧
      (Clean vars (a :: rest) s ↔ ¬ a.Short ∧ Clean vars rest s') := by
  rw [evalLoop_cons, Clean, evalVisits_cons, h]
  exact ⟨rfl, List.forall_mem_cons⟩

/-- The loop ends at an argument. -/
theorem loop_ends (h : ∀ s', evalTurn vars s a ≠ .next s') :
    evalVisits vars (a :: rest) s = [a] := by
  rw [evalVisits_cons]
  cases hturn : evalTurn vars s a with
  | next s' => exact absurd hturn (h s')
  | leave => rfl
  | fail code => rfl
  | undefined => rfl

theorem clean_ends (h : ∀ s', evalTurn vars s a ≠ .next s') :
    Clean vars (a :: rest) s ↔ ¬ a.Short := by
  rw [Clean, loop_ends h, List.forall_mem_singleton]

/-- Behind an operand the loop ends at what it takes for no operator. -/
theorem turn_leave (hs : ¬ a.Short) (ho : ¬ a.IsOper) :
    evalTurn vars ⟨v, 0, 1⟩ a = .leave := by
  rw [turn_other hs ho, if_pos ⟨rfl, rfl⟩]

/-- An operator behind an operand. -/
theorem turn_take (hs : ¬ a.Short) (ho : a.IsOper) :
    evalTurn vars ⟨v, 0, 1⟩ a = .next ⟨v, a.cp 0, 1⟩ := by
  rw [turn_oper hs ho, if_neg (not_not_intro rfl)]

/-- An operand behind an operator. -/
theorem turn_apply {oper : Byte} (hs : ¬ c.Short) (ho : ¬ c.IsOper) (hoper : oper ≠ 0)
    (hw : readOperand vars c = .ok w) (hx : applyOper oper v w = some x) :
    evalTurn vars ⟨v, oper, 1⟩ c = .next ⟨x, 0, 1⟩ := by
  rw [turn_other hs ho, if_neg fun h => hoper h.2]
  exact operandTurn_apply hw hoper hx

/-- What the tokens behind an operand are worth where the first is no operator with an operand
behind it. -/
theorem value_stop {toks : List Tok} (h : tailLen toks = 0) : valueFrom v toks = some v := by
  rw [← valueFrom_take, h, List.take_zero, valueFrom.eq_def]

theorem tailLen_eq_zero {t : Tok} {toks : List Tok} (h : ∀ o, t ≠ .oper o) :
    tailLen (t :: toks) = 0 := by
  rw [tailLen.eq_def]
  split
  · next o w rest heq => exact absurd (List.cons.inj heq).1 (h o)
  · rfl

/-- Arguments in order are worked off to the end of the expression. -/
theorem loop_inOrder (argv : List Arg) (v : Word) (n : Nat)
    (hv : valueFrom v (tokens vars argv) = some x) (h : InOrder vars argv) :
    evalLoop vars argv ⟨v, 0, 1⟩ n = .done (n + tailLen (tokens vars argv)) x ∧
      Clean vars argv ⟨v, 0, 1⟩ := by
  have hstop : ∀ (b : Arg) (rest : List Arg) (n : Nat) (v : Word), ¬ b.Short → ¬ b.IsOper →
      valueFrom v (tokens vars (b :: rest)) = some x →
      evalLoop vars (b :: rest) ⟨v, 0, 1⟩ n = .done (n + tailLen (tokens vars (b :: rest))) x ∧
        Clean vars (b :: rest) ⟨v, 0, 1⟩ := by
    intro b rest n v hs ho hv
    have hturn : evalTurn vars ⟨v, 0, 1⟩ b = .leave := turn_leave hs ho
    have hlen : tailLen (tokens vars (b :: rest)) = 0 :=
      tailLen_eq_zero fun o h => ho (isOper_of_operOf (token_oper.mp h)).1
    rw [value_stop hlen] at hv
    refine ⟨?_, (clean_ends fun s' h => ?_).mpr hs⟩
    · rw [evalLoop_cons, hturn, hlen, ← Option.some.inj hv]
      rfl
    · rw [hturn] at h
      cases h
  induction argv using InOrder.induct generalizing v n with
  | case1 =>
      refine ⟨?_, fun a ha => absurd ha List.not_mem_nil⟩
      rw [evalLoop, ← Option.some.inj hv]
      rfl
  | case2 b => exact hstop b [] n v h.1 h.2 hv
  | case3 b c rest ih =>
      obtain ⟨hs, hoper⟩ := h
      by_cases ho : b.IsOper
      · obtain ⟨hop, ⟨hcs, hco, hplain, w, hw⟩, hdef, hrest⟩ := hoper ho
        obtain ⟨o, hop⟩ := Option.isSome_iff_exists.mp hop
        have hbyte := (isOper_of_operOf hop).2
        have htoks : tokens vars (b :: c :: rest) =
            .oper o :: .operand (some w) :: tokens vars rest := by
          show token vars b.text :: token vars c.text :: _ = _
          rw [token_oper.mpr hop, hw]
          rfl
        have hundef : ¬ Undefined o.byte w := by
          rw [← hbyte]
          exact hdef w hw
        rw [htoks, valueFrom, Option.bind_some, ← applyOper_byte hundef] at hv
        obtain ⟨y, hy, hv⟩ := Option.bind_eq_some_iff.mp hv
        obtain ⟨hrun, hclean⟩ := ih y (n + 1 + 1) hv hrest
        have hnext := @loop_next vars (c :: rest) b ⟨v, 0, 1⟩ n _ (turn_take hs ho)
        have hnext' := @loop_next vars rest c ⟨v, b.cp 0, 1⟩ (n + 1) _
          (turn_apply hcs hco (isOper_ne_zero ho) (read_number hcs hco hplain hw)
            (by rw [hbyte]; exact hy))
        refine ⟨?_, hnext.2.mpr ⟨hs, hnext'.2.mpr ⟨hcs, hclean⟩⟩⟩
        rw [hnext.1, hnext'.1, hrun, htoks, tailLen]
        exact congrArg (EvalEnd.done · x) (by omega)
      · exact hstop b (c :: rest) n v hs ho hv

/-- The count of the loop does not go back. -/
theorem le_of_done {m : Nat} (h : evalLoop vars argv s n = .done m x) : n ≤ m := by
  induction argv generalizing s n with
  | nil =>
      rw [evalLoop] at h
      injection h with hn
      exact hn.le
  | cons a rest ih =>
      rw [evalLoop_cons] at h
      cases hturn : evalTurn vars s a with
      | next s' =>
          rw [hturn] at h
          exact (Nat.le_succ n).trans (ih h)
      | leave =>
          rw [hturn] at h
          injection h with hn
          exact hn.le
      | fail code =>
          rw [hturn] at h
          cases h
      | undefined =>
          rw [hturn] at h
          cases h

/-- Where the loop goes on behind an operator, there is an operand with a value. -/
theorem operand_of_done {oper : Byte} {m : Nat} (hs : ¬ c.Short) (hplain : c.Plain)
    (hoper : oper ≠ 0) (h : evalLoop vars (c :: rest) ⟨v, oper, 1⟩ n = .done m x) :
    ¬ c.IsOper ∧ ∃ w y, token vars c.text = .operand (some w) ∧ applyOper oper v w = some y ∧
      evalTurn vars ⟨v, oper, 1⟩ c = .next ⟨y, 0, 1⟩ := by
  have ho : ¬ c.IsOper := by
    intro ho
    rw [evalLoop_cons, turn_oper hs ho, if_pos hoper] at h
    cases h
  have hno : ¬ (token vars c.text = .operand none ∨ token vars c.text = .other) := by
    intro htok
    obtain ⟨code, -, hread⟩ := read_error hs ho htok
    rw [evalLoop_cons, turn_other hs ho, if_neg fun h => hoper h.2, operandTurn_error hread] at h
    cases h
  refine ⟨ho, ?_⟩
  rcases htok : token vars c.text with o | (- | w) | -
  · exact absurd (isOper_of_operOf (token_oper.mp htok)).1 ho
  · exact absurd (Or.inl htok) hno
  · have hread := read_number hs ho hplain htok
    cases hy : applyOper oper v w with
    | none =>
        have hturn : evalTurn vars ⟨v, oper, 1⟩ c = .undefined := by
          rw [turn_other hs ho, if_neg fun h => hoper h.2]
          exact operandTurn_undefined hread hoper hy
        rw [evalLoop_cons, hturn] at h
        cases h
    | some y => exact ⟨w, y, rfl, hy, turn_apply hs ho hoper hread hy⟩
  · exact absurd (Or.inr htok) hno

/-- An expression with a value that is worked off to its end was in order. -/
theorem inOrder_of_loop (argv : List Arg) (v : Word) (n : Nat)
    (hplain : ∀ a ∈ argv, a.Plain) (hv : valueFrom v (tokens vars argv) = some x)
    (hrun : evalLoop vars argv ⟨v, 0, 1⟩ n = .done (n + tailLen (tokens vars argv)) x)
    (hclean : Clean vars argv ⟨v, 0, 1⟩) : InOrder vars argv := by
  induction argv using InOrder.induct generalizing v n with
  | case1 => exact trivial
  | case2 b =>
      have hs : ¬ b.Short := hclean b (by rw [evalVisits_cons]; exact List.mem_cons_self)
      refine ⟨hs, fun ho => ?_⟩
      rw [(loop_next (turn_take hs ho)).1, evalLoop] at hrun
      have hlen : tailLen (tokens vars [b]) = 0 := by
        show tailLen [token vars b.text] = 0
        cases token vars b.text with
        | oper o => rfl
        | operand w => rfl
        | other => rfl
      rw [hlen] at hrun
      injection hrun with hn
      omega
  | case3 b c rest ih =>
      have hs : ¬ b.Short := hclean b (by rw [evalVisits_cons]; exact List.mem_cons_self)
      refine ⟨hs, fun ho => ?_⟩
      have hnext := @loop_next vars (c :: rest) b ⟨v, 0, 1⟩ n _ (turn_take hs ho)
      rw [hnext.1] at hrun
      have hclean := (hnext.2.mp hclean).2
      have hcs : ¬ c.Short := hclean c (by rw [evalVisits_cons]; exact List.mem_cons_self)
      have hcplain : c.Plain := hplain c (List.mem_cons_of_mem _ List.mem_cons_self)
      obtain ⟨hco, w, y, hw, hy, hturn⟩ := operand_of_done hcs hcplain (isOper_ne_zero ho) hrun
      have hdef : ¬ Undefined (b.cp 0) w := by
        intro hundef
        rw [applyOper_eq_none.mpr hundef] at hy
        cases hy
      have hnext' := @loop_next vars rest c ⟨v, b.cp 0, 1⟩ (n + 1) _ hturn
      rw [hnext'.1] at hrun
      have hclean := (hnext'.2.mp hclean).2
      cases hop : operOf b.text with
      | none =>
          -- the expression ended before what was taken for an operator
          have hlen : tailLen (tokens vars (b :: c :: rest)) = 0 :=
            tailLen_eq_zero fun o h => by
              rw [token_oper.mp h] at hop
              cases hop
          have hge := le_of_done hrun
          rw [hlen] at hge
          omega
      | some o =>
          have hbyte := (isOper_of_operOf hop).2
          have htoks : tokens vars (b :: c :: rest) =
              .oper o :: .operand (some w) :: tokens vars rest := by
            show token vars b.text :: token vars c.text :: _ = _
            rw [token_oper.mpr hop, hw]
            rfl
          rw [hbyte] at hy hdef
          rw [applyOper_byte hdef] at hy
          rw [htoks, valueFrom, Option.bind_some, hy, Option.bind_some] at hv
          rw [htoks, tailLen, show n + (2 + tailLen (tokens vars rest)) =
            n + 1 + 1 + tailLen (tokens vars rest) by omega] at hrun
          have hall : ∀ a ∈ rest, a.Plain := fun a ha =>
            hplain a (List.mem_cons_of_mem _ (List.mem_cons_of_mem _ ha))
          refine ⟨rfl, ⟨hcs, hco, hcplain, w, hw⟩, fun w' hw' => ?_, ih y _ hall hv hrun hclean⟩
          rw [hw] at hw'
          rw [hbyte, ← Option.some.inj (Tok.operand.inj hw')]
          exact hdef

end Loop

/-! ## The whole vector -/

section Vector

variable {vars : List VarDef} {argv rest : List Arg} {a : Arg} {n : Nat} {v w x : Word}

/-- The arguments on which the loop returns from within. -/
theorem broken_iff (argv : List Arg) (v : Word) (oper : Byte) (args n : Nat) :
    Broken vars argv args oper ↔
      (∃ code : Int, code < 0 ∧ evalLoop vars argv ⟨v, oper, args⟩ n = .failed code) ∧
        Clean vars argv ⟨v, oper, args⟩ := by
  induction argv generalizing v oper args n with
  | nil =>
      refine iff_of_false id ?_
      rintro ⟨⟨code, -, hrun⟩, -⟩
      cases hrun
  | cons a rest ih =>
      rw [Broken]
      by_cases hs : a.Short
      · refine iff_of_false (fun h => h.1 hs) fun h => ?_
        exact h.2 a (by rw [evalVisits_cons]; exact List.mem_cons_self) hs
      rw [and_iff_right hs]
      have hfail : ∀ {code : Int}, code < 0 → evalTurn vars ⟨v, oper, args⟩ a = .fail code →
          (∃ code : Int, code < 0 ∧
            evalLoop vars (a :: rest) ⟨v, oper, args⟩ n = .failed code) ∧
              Clean vars (a :: rest) ⟨v, oper, args⟩ := by
        intro code hneg hturn
        refine ⟨⟨code, hneg, ?_⟩, (clean_ends fun s' h => ?_).mpr hs⟩
        · rw [evalLoop_cons, hturn]
        · rw [hturn] at h
          cases h
      have hnext : ∀ {v' : Word} {oper' : Byte} {args' : Nat},
          evalTurn vars ⟨v, oper, args⟩ a = .next ⟨v', oper', args'⟩ →
          ((∃ code : Int, code < 0 ∧
            evalLoop vars (a :: rest) ⟨v, oper, args⟩ n = .failed code) ∧
              Clean vars (a :: rest) ⟨v, oper, args⟩ ↔ Broken vars rest args' oper') := by
        intro v' oper' args' hturn
        have hstep := @loop_next vars rest a ⟨v, oper, args⟩ n _ hturn
        rw [hstep.1, hstep.2, and_iff_right hs, ih v' oper' args' (n + 1)]
      by_cases ho : a.IsOper
      · simp only [ho, true_and, not_true_eq_false, false_and, or_false]
        by_cases hoper : oper = 0
        · have hturn : evalTurn vars ⟨v, oper, args⟩ a = .next ⟨v, a.cp 0, args⟩ := by
            rw [turn_oper hs ho, if_neg (not_not_intro hoper)]
          rw [hnext hturn]
          exact or_iff_right (not_not_intro hoper)
        · have hturn : evalTurn vars ⟨v, oper, args⟩ a = .fail (-8) := by
            rw [turn_oper hs ho, if_pos hoper]
          exact iff_of_true (Or.inl hoper) (hfail (by decide) hturn)
      · simp only [ho, false_and, not_false_eq_true, true_and, false_or]
        have hturn := @turn_other vars a ⟨v, oper, args⟩ hs ho
        by_cases hleave : args = 1 ∧ oper = 0
        · rw [if_pos hleave] at hturn
          refine iff_of_false (fun h => h.1 hleave) ?_
          rintro ⟨⟨code, -, hrun⟩, -⟩
          rw [evalLoop_cons, hturn] at hrun
          cases hrun
        rw [if_neg hleave] at hturn
        rw [and_iff_right hleave]
        cases hread : readOperand vars a with
        | error code =>
            rw [operandTurn_error hread] at hturn
            refine iff_of_true (fun w hw => ?_) (hfail (read_error_neg hread) hturn)
            cases hw
        | ok w =>
            have hall : (∀ w', Except.ok w = (Except.ok w' : Except Int Word) →
                ¬ Undefined oper w' ∧ Broken vars rest (if oper = 0 then args + 1 else args) 0) ↔
                ¬ Undefined oper w ∧ Broken vars rest (if oper = 0 then args + 1 else args) 0 := by
              refine ⟨fun h => h w rfl, fun h w' hw => ?_⟩
              rw [← Except.ok.inj hw]
              exact h
            rw [hall]
            by_cases hoper : oper = 0
            · have hundef : ¬ Undefined oper w := by
                rw [hoper]
                exact not_undefined (by decide) (by decide) (by decide) (by decide)
              rw [hnext (hturn.trans (operandTurn_first hread hoper)), if_pos hoper, and_iff_right hundef]
            · rw [if_neg hoper]
              cases hy : applyOper oper v w with
              | none =>
                  have hswitch := hturn.trans (operandTurn_undefined hread hoper hy)
                  refine iff_of_false (fun h => h.1 (applyOper_eq_none.mp hy)) ?_
                  rintro ⟨⟨code, -, hrun⟩, -⟩
                  rw [evalLoop_cons, hswitch] at hrun
                  cases hrun
              | some y =>
                  have hswitch := hturn.trans (operandTurn_apply hread hoper hy)
                  have hundef : ¬ Undefined oper w := by
                    intro hundef
                    rw [applyOper_eq_none.mpr hundef] at hy
                    cases hy
                  rw [hnext hswitch, and_iff_right hundef]

/-- The value of an argument vector that begins with an operand. -/
theorem hasValue_cons {o : Option Word} (ha : token vars a.text = .operand o) :
    HasValue vars (a :: rest) n x ↔ n = 1 + tailLen (tokens vars rest) ∧
      (o.bind fun v => valueFrom v (tokens vars rest)) = some x := by
  have htoks : ((a :: rest).map fun a => token vars a.text) = .operand o :: tokens vars rest := by
    rw [List.map_cons, ha]
    rfl
  rw [HasValue, htoks, longest_cons]
  refine and_congr_right fun hn => ?_
  rw [hn, Nat.add_comm, List.take_succ_cons, exprValue]
  simp only [valueFrom_take]

theorem hasValue_first (h : HasValue vars argv n x) :
    ∃ a rest w, argv = a :: rest ∧ token vars a.text = .operand (some w) := by
  obtain ⟨hlong, hvalue⟩ := h
  obtain ⟨o, toks, htoks⟩ := longest_first hlong
  rcases argv with - | ⟨a, rest⟩
  · cases htoks
  · have ha : token vars a.text = .operand o := (List.cons.inj htoks).1
    obtain ⟨-, hbind⟩ := (@hasValue_cons vars rest a n x o ha).mp ⟨hlong, hvalue⟩
    obtain ⟨w, rfl, -⟩ := Option.bind_eq_some_iff.mp hbind
    exact ⟨a, rest, w, rfl, ha⟩

/-- The first operand. -/
theorem turn_first (hs : ¬ a.Short) (ho : ¬ a.IsOper) (hplain : a.Plain)
    (hw : token vars a.text = .operand (some w)) :
    evalTurn vars ⟨0, 0, 0⟩ a = .next ⟨w, 0, 1⟩ := by
  rw [turn_other hs ho, if_neg fun h => absurd h.1 (by decide)]
  exact operandTurn_first (read_number hs ho hplain hw) rfl

/-- Every return from within the loop has a negative code. -/
theorem fail_neg {s : EvalState} {code : Int} (h : evalTurn vars s a = .fail code) : code < 0 := by
  simp only [evalTurn] at h
  split at h
  · split at h
    · exact EvalTurn.fail.inj h ▸ (by decide)
    · cases h
  · split at h
    · cases h
    · rw [operandTurn] at h
      split at h
      · next hread =>
        obtain rfl := EvalTurn.fail.inj h
        exact read_error_neg hread
      · split at h
        · cases h
        · split at h
          · cases h
          · cases h

theorem failed_neg {s : EvalState} {code : Int} (h : evalLoop vars argv s n = .failed code) :
    code < 0 := by
  induction argv generalizing s n with
  | nil => cases h
  | cons a rest ih =>
      rw [evalLoop_cons] at h
      cases hturn : evalTurn vars s a with
      | next s' =>
          rw [hturn] at h
          exact ih h
      | leave =>
          rw [hturn] at h
          cases h
      | undefined =>
          rw [hturn] at h
          cases h
      | fail code' =>
          rw [hturn] at h
          obtain rfl := EvalEnd.failed.inj h
          exact fail_neg hturn

/-- Where a length is returned the loop came to its end. -/
theorem returns_done {val ans : Word} (h : evalUint32 vars (some val) ans (a :: rest) =
    .returns n (some x) x) : evalLoop vars (a :: rest) ⟨0, 0, 0⟩ 0 = .done n x := by
  rw [evalUint32_cons] at h
  cases hrun : evalLoop vars (a :: rest) ⟨0, 0, 0⟩ 0 with
  | done m y =>
      rw [hrun] at h
      injection h with hm hy
      rw [Int.ofNat_inj.mp hm, Option.some.inj hy]
  | failed code =>
      rw [hrun] at h
      injection h with hm
      have hlt := failed_neg hrun
      omega
  | undefined =>
      rw [hrun] at h
      cases h

end Vector

/-! ## What is right -/

section Right

variable {vars : List VarDef} {argv rest : List Arg} {a : Arg} {val ans w : Word}

theorem reads_of_clean (h : Clean vars argv ⟨0, 0, 0⟩) :
    ∀ a ∈ evalVisits vars argv ⟨0, 0, 0⟩, ∀ i ∈ argReads a, i ≤ a.text.length := fun a ha =>
  not_not.mp fun hshort => h a ha ((short_iff a).mpr hshort)

theorem clean_of_reads (h : EvalRight vars val ans argv) : Clean vars argv ⟨0, 0, 0⟩ := fun a ha =>
  fun hshort => (short_iff a).mp hshort (h.reads a ha)

/-- A vector that begins with a sound operand and goes on in order. -/
theorem right_of_inOrder (hsound : a.Sound vars) (horder : InOrder vars rest)
    (hvalue : ∃ n x, HasValue vars (a :: rest) n x) : EvalRight vars val ans (a :: rest) := by
  obtain ⟨hs, ho, hplain, w, hw⟩ := hsound
  obtain ⟨n, x, hnx⟩ := hvalue
  have hx := ((hasValue_cons hw).mp hnx).2
  rw [Option.bind_some] at hx
  obtain ⟨hrun, hclean⟩ := loop_inOrder rest w (0 + 1) hx horder
  have hstep := @loop_next vars rest a ⟨0, 0, 0⟩ 0 _ (turn_first hs ho hplain hw)
  refine ⟨fun m y hmy => ?_, fun hnone => absurd hnx (hnone n x),
    reads_of_clean (hstep.2.mpr ⟨hs, hclean⟩)⟩
  obtain ⟨rfl, hy⟩ := (hasValue_cons hw).mp hmy
  rw [Option.bind_some, hx] at hy
  rw [evalUint32_cons, hstep.1, hrun, ← Option.some.inj hy, Nat.zero_add]

/-- A single operand that is taken for an operator leaves the zero of the start. -/
theorem loop_single (hs : ¬ a.Short) (ho : a.IsOper) :
    evalLoop vars [a] ⟨0, 0, 0⟩ 0 = .done 1 0 ∧ Clean vars [a] ⟨0, 0, 0⟩ := by
  have hturn : evalTurn vars ⟨0, 0, 0⟩ a = .next ⟨0, a.cp 0, 0⟩ := by
    rw [turn_oper hs ho, if_neg (not_not_intro rfl)]
  have hstep := @loop_next vars [] a ⟨0, 0, 0⟩ 0 _ hturn
  exact ⟨hstep.1, hstep.2.mpr ⟨hs, fun b hb => absurd hb List.not_mem_nil⟩⟩

theorem right_of_single (hs : ¬ a.Short) (ho : a.IsOper)
    (hzero : token vars a.text = .operand (some 0)) : EvalRight vars val ans [a] := by
  obtain ⟨hrun, hclean⟩ := @loop_single vars a hs ho
  have hvalue : ∀ n x, HasValue vars [a] n x ↔ n = 1 ∧ some 0 = some x := fun n x =>
    hasValue_cons hzero
  refine ⟨fun n x hnx => ?_, fun hnone => absurd ((hvalue 1 0).mpr ⟨rfl, rfl⟩) (hnone 1 0),
    reads_of_clean hclean⟩
  obtain ⟨rfl, hx⟩ := (hvalue n x).mp hnx
  rw [evalUint32_cons, hrun, ← Option.some.inj hx]

theorem right_of_broken (hnone : ∀ n x, ¬ HasValue vars argv n x)
    (h : argv = [] ∨ Broken vars argv 0 0) : EvalRight vars val ans argv := by
  rcases h with rfl | hbroken
  · refine ⟨fun n x hnx => absurd hnx (hnone n x), fun _ => ⟨-2, by decide, rfl⟩, ?_⟩
    exact fun a ha => absurd ha List.not_mem_nil
  · obtain ⟨⟨code, hneg, hrun⟩, hclean⟩ := (broken_iff argv 0 0 0 0).mp hbroken
    refine ⟨fun n x hnx => absurd hnx (hnone n x), fun _ => ⟨code, hneg, ?_⟩,
      reads_of_clean hclean⟩
    rcases argv with - | ⟨a, rest⟩
    · cases hrun
    · rw [evalUint32_cons, hrun]

/-- With an operand that is taken for an operator at its head a vector is worked off rightly only
if nothing follows and the value is zero. -/
theorem single_of_right (hs : ¬ a.Short) (ho : a.IsOper) {x : Word}
    (hx : valueFrom w (tokens vars rest) = some x)
    (hrun : evalLoop vars (a :: rest) ⟨0, 0, 0⟩ 0 = .done (1 + tailLen (tokens vars rest)) x)
    (hclean : Clean vars (a :: rest) ⟨0, 0, 0⟩) : rest = [] ∧ w = 0 := by
  have hturn : evalTurn vars ⟨0, 0, 0⟩ a = .next ⟨0, a.cp 0, 0⟩ := by
    rw [turn_oper hs ho, if_neg (not_not_intro rfl)]
  have hstep := @loop_next vars rest a ⟨0, 0, 0⟩ 0 _ hturn
  rw [hstep.1] at hrun
  have hclean := (hstep.2.mp hclean).2
  rcases rest with - | ⟨c, rest⟩
  · rw [evalLoop] at hrun
    rw [valueFrom.eq_def] at hx
    injection hrun with hn hzero
    exact ⟨rfl, (Option.some.inj hx).trans hzero.symm⟩
  · have hcs : ¬ c.Short := hclean c (by rw [evalVisits_cons]; exact List.mem_cons_self)
    have hoper : a.cp 0 ≠ 0 := isOper_ne_zero ho
    by_cases hco : c.IsOper
    · rw [evalLoop_cons, turn_oper hcs hco, if_pos hoper] at hrun
      cases hrun
    · -- the expression ends before `c`, and the loop takes it in
      have hlen : tailLen (tokens vars (c :: rest)) = 0 :=
        tailLen_eq_zero fun o h => hco (isOper_of_operOf (token_oper.mp h)).1
      have hturn' := @turn_other vars c ⟨0, a.cp 0, 0⟩ hcs hco
      rw [if_neg fun h => hoper h.2] at hturn'
      rw [evalLoop_cons, hlen] at hrun
      cases hread : readOperand vars c with
      | error code =>
          rw [hturn', operandTurn_error hread] at hrun
          cases hrun
      | ok u =>
          cases hy : applyOper (a.cp 0) 0 u with
          | none =>
              rw [hturn', operandTurn_undefined hread hoper hy] at hrun
              cases hrun
          | some y =>
              rw [hturn', operandTurn_apply hread hoper hy] at hrun
              have hge := le_of_done hrun
              omega

/-- `eval_uint32` does what it should on arguments of the kind `Meets`; where the numbers are
plain, on no others. -/
theorem evalUint32_right (vars : List VarDef) (val ans : Word) (argv : List Arg) :
    (Meets vars argv → EvalRight vars val ans argv) ∧
      ((∀ a ∈ argv, a.Plain) → EvalRight vars val ans argv → Meets vars argv) := by
  constructor
  · rintro (⟨hvalue, ⟨a, rest, rfl, hsound, horder⟩ | ⟨a, rfl, hs, ho, hzero⟩⟩ | ⟨hnone, hbroken⟩)
    · exact right_of_inOrder hsound horder hvalue
    · exact right_of_single hs ho hzero
    · exact right_of_broken hnone hbroken
  · intro hplain hright
    have hclean := clean_of_reads hright
    by_cases hvalue : ∃ n x, HasValue vars argv n x
    · refine Or.inl ⟨hvalue, ?_⟩
      obtain ⟨n, x, hnx⟩ := hvalue
      obtain ⟨a, rest, w, rfl, hw⟩ := hasValue_first hnx
      have hrun := returns_done (hright.value n x hnx)
      obtain ⟨rfl, hx⟩ := (hasValue_cons hw).mp hnx
      rw [Option.bind_some] at hx
      have hs : ¬ a.Short := hclean a (by rw [evalVisits_cons]; exact List.mem_cons_self)
      by_cases ho : a.IsOper
      · obtain ⟨rfl, rfl⟩ := single_of_right hs ho hx hrun hclean
        exact Or.inr ⟨a, rfl, hs, ho, hw⟩
      · have hap : a.Plain := hplain a List.mem_cons_self
        have hstep := @loop_next vars rest a ⟨0, 0, 0⟩ 0 _ (turn_first hs ho hap hw)
        rw [hstep.1, Nat.add_comm 1] at hrun
        refine Or.inl ⟨a, rest, rfl, ⟨hs, ho, hap, w, hw⟩, ?_⟩
        refine inOrder_of_loop rest w 1 (fun b hb => hplain b (List.mem_cons_of_mem _ hb)) hx ?_
          (hstep.2.mp hclean).2
        rw [Nat.add_comm 1]
        exact hrun
    · have hnone : ∀ n x, ¬ HasValue vars argv n x := fun n x h => hvalue ⟨n, x, h⟩
      refine Or.inr ⟨hnone, ?_⟩
      rcases argv with - | ⟨a, rest⟩
      · exact Or.inl rfl
      · refine Or.inr ((broken_iff (a :: rest) 0 0 0 0).mpr ⟨?_, hclean⟩)
        obtain ⟨code, hneg, hcall⟩ := hright.fails hnone
        refine ⟨code, hneg, ?_⟩
        rw [evalUint32_cons] at hcall
        cases hrun : evalLoop vars (a :: rest) ⟨0, 0, 0⟩ 0 with
        | done n x =>
            rw [hrun] at hcall
            injection hcall with hn
            omega
        | failed code' =>
            rw [hrun] at hcall
            injection hcall with hcode
            rw [hcode]
        | undefined =>
            rw [hrun] at hcall
            cases hcall

end Right

/-- The arguments `10` and `+`. -/
def tenPlus : List Arg :=
  [⟨[ch '1', ch '0'], by decide, fun _ => 0⟩, ⟨[ch '+'], by decide, fun _ => 0⟩]

/-- A last operator is counted as part of the expression. -/
theorem tenPlus_not_right :
    ¬ ∀ (vars : List VarDef) (val ans : Word) (argv : List Arg), EvalRight vars val ans argv := by
  intro hall
  have hvalue : HasValue [] tenPlus 1 10 :=
    (hasValue_cons (show token [] [ch '1', ch '0'] = .operand (some 10) from rfl)).mpr ⟨rfl, rfl⟩
  have hone := (hall [] 0 0 tenPlus).value 1 10 hvalue
  have htwo : evalUint32 [] (some 0) 0 tenPlus = .returns 2 (some 10) 10 := rfl
  rw [htwo] at hone
  injection hone with hn
  exact absurd hn (by decide)

end YardIce.Script
