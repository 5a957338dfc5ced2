import YardIce.MicroJs.Json

/-!
# What the JSON scanner writes

While a scan goes well the buffer holds the tokens, then free room, then the stack of closing
brackets. A scan that puts a bracket on the stack without room never ends well.
-/

namespace YardIce.MicroJs.Json

/-! ## The buffer -/

/-- The buffer holds the tokens `toks` and the stack `stack`. -/
structure Scan.Holds (s : Scan) (toks stack : List Nat) : Prop where
  split : ∃ mid, s.buf = toks ++ mid ++ stack ∧ s.cnt = toks.length ∧
    s.sp = toks.length + mid.length
  small : s.buf.length < 65536

theorem poke_mid (toks mid stack : List Nat) (k : Nat) (hk : k < mid.length) (v : Nat) :
    poke (toks ++ mid ++ stack) (toks.length + k) v =
      some (toks ++ mid.set k (v % 256) ++ stack) := by
  have hlt : toks.length + k < (toks ++ mid ++ stack).length := by
    rw [List.length_append, List.length_append]
    lia
  have hleft : toks.length + k < (toks ++ mid).length := by
    rw [List.length_append]
    lia
  rw [poke, if_pos hlt, List.set_append_left _ _ hleft,
    List.set_append_right _ _ (Nat.le_add_right _ _), Nat.add_sub_cancel_left]

/-- Stores to the free room leave the tokens and the stack. -/
theorem pokes_mid (toks stack vs : List Nat) : ∀ (mid : List Nat) (k : Nat),
    k + vs.length ≤ mid.length → ∃ mid', mid'.length = mid.length ∧
      pokes (toks ++ mid ++ stack) (toks.length + k) vs = some (toks ++ mid' ++ stack) := by
  induction vs with
  | nil => exact fun mid k _ => ⟨mid, rfl, rfl⟩
  | cons v vs ih =>
      intro mid k hk
      rw [List.length_cons] at hk
      obtain ⟨mid', hlen, hrun⟩ := ih (mid.set k (v % 256)) (k + 1)
        (by rw [List.length_set]; lia)
      refine ⟨mid', hlen.trans List.length_set, ?_⟩
      rw [pokes, poke_mid toks mid stack k (by lia), Option.bind_some, Nat.add_assoc, hrun]

/-- Stores at the end of the tokens add tokens. -/
theorem pokes_append (stack vs : List Nat) : ∀ (toks mid : List Nat), vs.length ≤ mid.length →
    pokes (toks ++ mid ++ stack) toks.length vs =
      some (toks ++ vs.map (· % 256) ++ mid.drop vs.length ++ stack) := by
  induction vs with
  | nil =>
      intro toks mid _
      rw [pokes, List.map_nil, List.append_nil]
      rfl
  | cons v vs ih =>
      intro toks mid hlen
      cases mid with
      | nil => exact absurd hlen (Nat.not_succ_le_zero _)
      | cons m mid =>
          have hpoke := poke_mid toks (m :: mid) stack 0 (Nat.succ_pos _) v
          have hrest := ih (toks ++ [v % 256]) mid (Nat.le_of_succ_le_succ hlen)
          rw [List.length_append, List.length_singleton] at hrest
          rw [Nat.add_zero, List.set_cons_zero] at hpoke
          rw [pokes, hpoke, Option.bind_some, List.map_cons, List.length_cons, List.drop_succ_cons,
            List.append_cons toks, hrest, List.append_cons toks (v % 256) (vs.map _)]

variable {s : Scan} {toks stack : List Nat}

theorem room_eq {mid : List Nat} (hcnt : s.cnt = toks.length)
    (hsp : s.sp = toks.length + mid.length) (hsmall : s.sp < 2 ^ 32) : s.room = mid.length := by
  unfold Scan.room
  lia

/-- There is room for some tokens, or the test for it fails. -/
theorem Scan.Holds.emit (h : s.Holds toks stack) (vs : List Nat) (hroom : ¬ s.room < vs.length) :
    ∃ s', s.emit vs = some s' ∧ s'.Holds (toks ++ vs.map (· % 256)) stack ∧ s'.i = s.i ∧
      s'.tok = s.tok := by
  obtain ⟨mid, hbuf, hcnt, hsp⟩ := h.split
  have hsmall := h.small
  have hlen : s.buf.length = toks.length + mid.length + stack.length := by
    rw [hbuf, List.length_append, List.length_append]
  have hfits : vs.length ≤ mid.length := by
    unfold Scan.room at hroom
    lia
  have hrun := pokes_append stack vs toks mid hfits
  refine ⟨{ s with buf := toks ++ vs.map (· % 256) ++ mid.drop vs.length ++ stack,
                   cnt := s.cnt + vs.length }, ?_, ⟨⟨mid.drop vs.length, rfl, ?_, ?_⟩, ?_⟩, rfl, rfl⟩
  · unfold Scan.emit
    rw [hbuf, hcnt, hrun]
    rfl
  · rw [List.length_append, List.length_map, hcnt]
  · rw [List.length_append, List.length_map, List.length_drop]
    show s.sp = _
    lia
  · show (toks ++ vs.map (· % 256) ++ mid.drop vs.length ++ stack).length < 65536
    rw [List.length_append, List.length_append, List.length_append, List.length_map,
      List.length_drop]
    lia

/-- A token is pushed, or there is no room. -/
theorem Scan.Holds.push (h : s.Holds toks stack) :
    push s = some (.stop tokenBufOvf s) ∨
      ∃ s', push s = some (.cont s') ∧ s'.Holds (toks ++ [s.tok % 256]) stack ∧ s'.i = s.i := by
  unfold Json.push
  by_cases hroom : s.room < 1
  · exact Or.inl (if_pos hroom)
  · obtain ⟨s', hrun, hs', hi, -⟩ := h.emit [s.tok] hroom
    rw [if_neg hroom, hrun]
    exact Or.inr ⟨s', rfl, hs', hi⟩

/-! ## Runs that end well -/

section Runs

variable (lim : Limits) (lbl : List (List Nat)) (txt vis : List Nat)

/-- The loop ends well. -/
def Runs (s r : Scan) : Prop := ∃ fuel, scanLoop lim lbl txt vis fuel s = some (ok, r)

variable {lim lbl txt vis} {s' r : Scan}

theorem Runs.cases (h : Runs lim lbl txt vis s r) :
    (∃ s', scanStep lim lbl txt vis s = some (.cont s') ∧ Runs lim lbl txt vis s' r) ∨
      scanStep lim lbl txt vis s = some (.stop ok r) := by
  obtain ⟨fuel, hrun⟩ := h
  cases fuel with
  | zero => cases hrun
  | succ fuel =>
      obtain ⟨next, hstep, hnext⟩ := Option.bind_eq_some_iff.mp hrun
      cases next with
      | cont s' => exact Or.inl ⟨s', hstep, fuel, hnext⟩
      | stop err s' =>
          obtain ⟨rfl, rfl⟩ := Prod.mk.inj (Option.some.inj hnext)
          exact Or.inr hstep

theorem Runs.cont (h : Runs lim lbl txt vis s r)
    (hstep : scanStep lim lbl txt vis s = some (.cont s')) : Runs lim lbl txt vis s' r := by
  rcases h.cases with ⟨s₁, hstep', hrun⟩ | hstep'
  · obtain rfl := Next.cont.inj (Option.some.inj (hstep.symm.trans hstep'))
    exact hrun
  · cases hstep.symm.trans hstep'

/-- No error stops a run that ends well. -/
theorem Runs.stop (h : Runs lim lbl txt vis s r) {err : Int}
    (hstep : scanStep lim lbl txt vis s = some (.stop err s')) : err = ok ∧ s' = r := by
  rcases h.cases with ⟨s₁, hstep', hrun⟩ | hstep'
  · cases hstep.symm.trans hstep'
  · exact Next.stop.inj (Option.some.inj (hstep.symm.trans hstep'))

/-- A step that pushes goes on to push. -/
theorem Runs.push (h : Runs lim lbl txt vis s r) (hs' : s'.Holds toks stack)
    (hstep : scanStep lim lbl txt vis s = Json.push s') :
    ∃ s'', Runs lim lbl txt vis s'' r ∧ s''.Holds (toks ++ [s'.tok % 256]) stack ∧
      s''.i = s'.i := by
  rcases hs'.push with hpush | ⟨s'', hpush, hs'', hi⟩
  · cases (h.stop (hstep.trans hpush)).1
  · exact ⟨s'', h.cont (hstep.trans hpush), hs'', hi⟩

theorem drop_length_append (xs : List Nat) {rest : List Nat} {i : Nat} (h : vis.drop i = xs ++ rest) :
    vis.drop (i + xs.length) = rest := by
  rw [← List.drop_drop, h, List.drop_left]

theorem Runs.blank (h : Runs lim lbl txt vis s r) {c : Nat} {rest : List Nat}
    (hat : vis.drop s.i = c :: rest) (hc : isSpace c = true) :
    Runs lim lbl txt vis { s with i := s.i + 1 } r := by
  refine h.cont ?_
  unfold scanStep
  rw [hat]
  exact if_pos hc

/-- Blanks are skipped. -/
theorem Runs.blanks {blanks : List Nat} (hblanks : ∀ c ∈ blanks, isSpace c = true) :
    ∀ {s : Scan} {rest : List Nat}, Runs lim lbl txt vis s r → vis.drop s.i = blanks ++ rest →
      Runs lim lbl txt vis { s with i := s.i + blanks.length } r := by
  induction blanks with
  | nil => exact fun h _ => h
  | cons c blanks ih =>
      intro s rest h hat
      have hone := h.blank hat (hblanks c List.mem_cons_self)
      have hmore := ih (fun d hd => hblanks d (List.mem_cons_of_mem _ hd)) hone
        (drop_length_append [c] hat)
      rw [List.length_cons, Nat.add_comm blanks.length, ← Nat.add_assoc]
      exact hmore

variable (lim lbl txt) in
theorem scanStep_at {c : Nat} {rest : List Nat} (hat : vis.drop s.i = c :: rest) :
    scanStep lim lbl txt vis s =
      if isSpace c then some (.cont { s with i := s.i + 1 })
      else if c = 39 ∨ c = 34 then scanString lim s c rest
      else if isAlpha c ∨ c = 95 then scanSymbol s c rest
      else if isDigit c ∨ c = 45 then scanNumber s c rest
      else if c = 58 then scanColon lim lbl txt s
      else if c = 44 then some (.cont { s with i := s.i + 1 })
      else if c = 91 then scanOpen s tokLeftbracket tokRightbracket
      else if c = 123 then scanOpen s tokLeftbrace tokRightbrace
      else if c = 93 then scanClose s tokRightbracket
      else if c = 125 then scanClose s tokRightbrace
      else some (.stop unexpectedChar s) := by
  unfold scanStep
  rw [hat]

/-- What holds of all the turns on a byte holds of the turn that is taken. -/
theorem scanStep_turns {P : Option Next → Prop} {c : Nat} {rest : List Nat}
    (hat : vis.drop s.i = c :: rest) (hcont : P (some (.cont { s with i := s.i + 1 })))
    (hstring : P (scanString lim s c rest)) (hsymbol : P (scanSymbol s c rest))
    (hnumber : P (scanNumber s c rest)) (hcolon : P (scanColon lim lbl txt s))
    (hopen : ∀ tok close, tok = tokLeftbrace ∨ tok = tokLeftbracket → P (scanOpen s tok close))
    (hclose : ∀ tok, tok = tokRightbrace ∨ tok = tokRightbracket → P (scanClose s tok))
    (herror : P (some (.stop unexpectedChar s))) : P (scanStep lim lbl txt vis s) := by
  rw [scanStep_at lim lbl txt hat]
  by_cases hspace : isSpace c = true
  · rw [if_pos hspace]
    exact hcont
  rw [if_neg hspace]
  by_cases hquote : c = 39 ∨ c = 34
  · rw [if_pos hquote]
    exact hstring
  rw [if_neg hquote]
  by_cases halpha : isAlpha c = true ∨ c = 95
  · rw [if_pos halpha]
    exact hsymbol
  rw [if_neg halpha]
  by_cases hdigit : isDigit c = true ∨ c = 45
  · rw [if_pos hdigit]
    exact hnumber
  rw [if_neg hdigit]
  by_cases hc : c = 58
  · rw [if_pos hc]
    exact hcolon
  rw [if_neg hc]
  by_cases hcomma : c = 44
  · rw [if_pos hcomma]
    exact hcont
  rw [if_neg hcomma]
  by_cases hleft : c = 91
  · rw [if_pos hleft]
    exact hopen _ _ (Or.inr rfl)
  rw [if_neg hleft]
  by_cases hbrace : c = 123
  · rw [if_pos hbrace]
    exact hopen _ _ (Or.inl rfl)
  rw [if_neg hbrace]
  by_cases hright : c = 93
  · rw [if_pos hright]
    exact hclose _ (Or.inr rfl)
  rw [if_neg hright]
  by_cases hrbrace : c = 125
  · rw [if_pos hrbrace]
    exact hclose _ (Or.inl rfl)
  rw [if_neg hrbrace]
  exact herror

/-! ## One lexeme -/

theorem quoteLoop_append {qt : Nat} {cs : List Nat} (hcs : qt ∉ cs) (rest : List Nat) :
    ∀ j, quoteLoop qt (cs ++ qt :: rest) j = some (j + cs.length) := by
  induction cs with
  | nil => exact fun j => if_pos rfl
  | cons c cs ih =>
      intro j
      have hc : c ≠ qt := fun heq => hcs (heq ▸ List.mem_cons_self)
      rw [List.cons_append, quoteLoop, if_neg hc, ih (fun h => hcs (List.mem_cons_of_mem _ h)),
        List.length_cons]
      congr 1
      lia

/-- The tokens of a string. -/
def strToks (lim : Limits) (offs len : Nat) : List Nat :=
  [lim.tokString + len, offs, offs >>> 8].map (· % 256)

theorem Runs.string (h : Runs lim lbl txt vis s r) (hs : s.Holds toks stack) {qt : Nat}
    (hqt : qt = 39 ∨ qt = 34) {cs rest : List Nat} (hcs : qt ∉ cs)
    (hat : vis.drop s.i = qt :: (cs ++ qt :: rest)) :
    ∃ s', Runs lim lbl txt vis s' r ∧ s'.Holds (toks ++ strToks lim (s.i + 1) cs.length) stack ∧
      s'.i = s.i + (cs.length + 2) ∧ s'.tok = lim.tokString ∧ cs.length ≤ lim.stringMax := by
  have hspace : ¬ isSpace qt = true := by
    rcases hqt with rfl | rfl
    · decide
    · decide
  have hstep := scanStep_at lim lbl txt hat
  rw [if_neg hspace, if_pos hqt] at hstep
  unfold scanString at hstep
  rw [quoteLoop_append hcs] at hstep
  dsimp only at hstep
  rw [Nat.zero_add] at hstep
  by_cases hlong : cs.length > lim.stringMax
  · rw [if_pos hlong] at hstep
    cases (h.stop hstep).1
  · rw [if_neg hlong] at hstep
    by_cases hroom : Scan.room { s with i := s.i + 1 + cs.length + 1 } < 3
    · rw [if_pos hroom] at hstep
      cases (h.stop hstep).1
    · rw [if_neg hroom] at hstep
      have hs₁ : Scan.Holds { s with tok := lim.tokString, i := s.i + 1 + cs.length + 1 }
          toks stack := ⟨hs.split, hs.small⟩
      obtain ⟨s', hemit, hs', hi, htok⟩ :=
        hs₁.emit [lim.tokString + cs.length, s.i + 1, (s.i + 1) >>> 8] hroom
      rw [hemit] at hstep
      refine ⟨s', h.cont hstep, hs', hi.trans ?_, htok, not_lt.mp hlong⟩
      show s.i + 1 + cs.length + 1 = _
      lia

/-- The text behind a word or a number. -/
def Ends (rest : List Nat) : Prop := ∀ c ∈ rest.head?, isWord c = false

theorem takeWhile_append_ends {p : Nat → Bool} {xs rest : List Nat} (hxs : ∀ c ∈ xs, p c = true)
    (hrest : ∀ c ∈ rest.head?, p c = false) : (xs ++ rest).takeWhile p = xs := by
  induction xs with
  | nil =>
      cases rest with
      | nil => rfl
      | cons c rest => exact List.takeWhile_cons_of_neg (by simp [hrest c rfl])
  | cons c xs ih =>
      rw [List.cons_append, List.takeWhile_cons_of_pos (hxs c List.mem_cons_self),
        ih fun d hd => hxs d (List.mem_cons_of_mem _ hd)]

/-- The words and their tokens. -/
def IsKeyword (word : List Nat) (tok : Nat) : Prop :=
  (word = wordTrue ∧ tok = tokTrue) ∨ (word = wordFalse ∧ tok = tokFalse) ∨
    word = wordNull ∧ tok = tokNull

theorem Runs.keyword (h : Runs lim lbl txt vis s r) (hs : s.Holds toks stack)
    {word rest : List Nat} {tok : Nat} (hword : IsKeyword word tok)
    (hat : vis.drop s.i = word ++ rest) (hrest : Ends rest) :
    ∃ s', Runs lim lbl txt vis s' r ∧ s'.Holds (toks ++ [tok]) stack ∧
      s'.i = s.i + word.length := by
  obtain ⟨c, cs, hcons, hspace, hquote, halpha, hcs, hlen, htok⟩ : ∃ c cs, word = c :: cs ∧
      ¬ isSpace c = true ∧ ¬ (c = 39 ∨ c = 34) ∧ (isAlpha c = true ∨ c = 95) ∧
      (∀ d ∈ cs, isWord d = true) ∧ word.length ≤ 5 ∧ tok % 256 = tok := by
    rcases hword with ⟨rfl, rfl⟩ | ⟨rfl, rfl⟩ | ⟨rfl, rfl⟩
    · exact ⟨_, _, rfl, by decide, by decide, by decide, by decide, by decide, by decide⟩
    · exact ⟨_, _, rfl, by decide, by decide, by decide, by decide, by decide, by decide⟩
    · exact ⟨_, _, rfl, by decide, by decide, by decide, by decide, by decide, by decide⟩
  rw [hcons, List.cons_append] at hat
  have hstep := scanStep_at lim lbl txt hat
  rw [if_neg hspace, if_neg hquote, if_pos halpha] at hstep
  unfold scanSymbol at hstep
  rw [takeWhile_append_ends hcs hrest, ← hcons] at hstep
  by_cases hroom : s.room < 8
  · rw [if_pos hroom] at hstep
    cases (h.stop hstep).1
  · rw [if_neg hroom] at hstep
    obtain ⟨mid, hbuf, hcnt, hsp⟩ := hs.split
    have hsmall := hs.small
    have hbuflen : s.buf.length = toks.length + mid.length + stack.length := by
      rw [hbuf, List.length_append, List.length_append]
    rw [room_eq hcnt hsp (by lia)] at hroom
    have hcopy : 1 + (word ++ [0]).length ≤ mid.length := by
      rw [List.length_append, List.length_singleton]
      lia
    obtain ⟨mid', hmid', hpokes⟩ := pokes_mid toks stack (word ++ [0]) mid 1 hcopy
    rw [← hbuf, ← hcnt] at hpokes
    dsimp only at hstep
    rw [hpokes, Option.bind_some] at hstep
    have hs₁ : Scan.Holds ⟨tok, s.cnt, s.sp, s.i + word.length, toks ++ mid' ++ stack⟩
        toks stack := by
      refine ⟨⟨mid', rfl, hcnt, hsp.trans (by rw [hmid'])⟩, ?_⟩
      show (toks ++ mid' ++ stack).length < 65536
      rw [List.length_append, List.length_append]
      lia
    have hpush : scanStep lim lbl txt vis s =
        Json.push ⟨tok, s.cnt, s.sp, s.i + word.length, toks ++ mid' ++ stack⟩ := by
      rw [hstep]
      rcases hword with ⟨rfl, rfl⟩ | ⟨rfl, rfl⟩ | ⟨rfl, rfl⟩
      · exact if_pos rfl
      · exact (if_neg (by decide)).trans (if_pos rfl)
      · exact (if_neg (by decide)).trans ((if_neg (by decide)).trans (if_pos rfl))
    obtain ⟨s', hrun, hs', hi⟩ := h.push hs₁ hpush
    rw [htok] at hs'
    exact ⟨s', hrun, hs', hi⟩

/-- The tokens of an integer. -/
def intBytes (val : BitVec 32) : List Nat :=
  ((intToks val).1 :: (intToks val).2).map (· % 256)

theorem intToks_length (val : BitVec 32) : ((intToks val).1 :: (intToks val).2).length ≤ 5 := by
  unfold intToks
  split_ifs
  · show 2 ≤ 5
    decide
  · show 3 ≤ 5
    decide
  · exact le_refl _

theorem isDigit_class {c : Nat} (hc : isDigit c = true) :
    ¬ isSpace c = true ∧ ¬ (c = 39 ∨ c = 34) ∧ ¬ (isAlpha c = true ∨ c = 95) ∧ c ≠ 45 ∧
      isWord c = true := by
  simp only [isDigit, isSpace, isAlpha, isUpper, isLower, isWord, Bool.and_eq_true, Bool.or_eq_true,
    beq_iff_eq, decide_eq_true_eq] at hc ⊢
  lia

theorem isDigit_of_not_isWord {c : Nat} (hc : isWord c = false) : isDigit c = false := by
  cases hd : isDigit c with
  | false => rfl
  | true => rw [(isDigit_class hd).2.2.2.2] at hc; cases hc

/-- The digits of a number, behind its sign. -/
theorem Runs.digits (h : Runs lim lbl txt vis s r) {s₁ : Scan} (hs : s₁.Holds toks stack)
    {neg : Bool} {c : Nat} {cs rest : List Nat} (hcs : ∀ d ∈ cs, isDigit d = true)
    (hrest : Ends rest)
    (hstep : scanStep lim lbl txt vis s = scanDigits s₁ neg c (cs ++ rest)) :
    ∃ s', Runs lim lbl txt vis s' r ∧
      s'.Holds (toks ++ intBytes (if neg then -decimal (c :: cs) else decimal (c :: cs))) stack ∧
      s'.i = s₁.i + (c :: cs).length := by
  unfold scanDigits at hstep
  rw [takeWhile_append_ends hcs fun d hd => isDigit_of_not_isWord (hrest d hd)] at hstep
  dsimp only at hstep
  generalize (if neg then -decimal (c :: cs) else decimal (c :: cs)) = val at hstep ⊢
  have hlen := intToks_length val
  by_cases hroom : Scan.room { s₁ with i := s₁.i + (c :: cs).length } < 5
  · rw [if_pos hroom] at hstep
    cases (h.stop hstep).1
  · rw [if_neg hroom] at hstep
    have hs₂ : Scan.Holds { s₁ with tok := (intToks val).1, i := s₁.i + (c :: cs).length }
        toks stack := ⟨hs.split, hs.small⟩
    obtain ⟨s', hemit, hs', hi, -⟩ := hs₂.emit ((intToks val).1 :: (intToks val).2)
      (fun hlt => hroom (hlt.trans_le hlen))
    rw [hemit] at hstep
    exact ⟨s', h.cont hstep, hs', hi⟩

/-- The bytes of a number. -/
def numberBytes (neg : Bool) (ds : List Nat) : List Nat := if neg then 45 :: ds else ds

theorem Runs.number (h : Runs lim lbl txt vis s r) (hs : s.Holds toks stack) {neg : Bool}
    {ds rest : List Nat} (hne : ds ≠ []) (hds : ∀ d ∈ ds, isDigit d = true) (hrest : Ends rest)
    (hat : vis.drop s.i = numberBytes neg ds ++ rest) :
    ∃ s', Runs lim lbl txt vis s' r ∧
      s'.Holds (toks ++ intBytes (if neg then -decimal ds else decimal ds)) stack ∧
      s'.i = s.i + (numberBytes neg ds).length := by
  obtain ⟨c, cs, rfl⟩ := List.exists_cons_of_ne_nil hne
  have hc := hds c List.mem_cons_self
  have hcs : ∀ d ∈ cs, isDigit d = true := fun d hd => hds d (List.mem_cons_of_mem _ hd)
  obtain ⟨hspace, hquote, halpha, hminus, -⟩ := isDigit_class hc
  cases neg with
  | false =>
      have hat' : vis.drop s.i = c :: (cs ++ rest) := hat
      have hstep := scanStep_at lim lbl txt hat'
      rw [if_neg hspace, if_neg hquote, if_neg halpha, if_pos (Or.inl hc)] at hstep
      unfold scanNumber at hstep
      rw [if_neg hminus] at hstep
      exact h.digits hs hcs hrest hstep
  | true =>
      have hat' : vis.drop s.i = 45 :: c :: (cs ++ rest) := hat
      have hstep := scanStep_at lim lbl txt hat'
      rw [if_neg (by decide), if_neg (by decide), if_neg (by decide), if_pos (Or.inr rfl)] at hstep
      unfold scanNumber at hstep
      rw [if_pos rfl] at hstep
      dsimp only at hstep
      rw [if_pos hc] at hstep
      have hs₁ : Scan.Holds { s with i := s.i + 1 } toks stack := ⟨hs.split, hs.small⟩
      obtain ⟨s', hrun, hs', hi⟩ := h.digits hs₁ hcs hrest hstep
      have hlen : (numberBytes true (c :: cs)).length = 1 + (c :: cs).length := by
        show (c :: cs).length + 1 = _
        lia
      refine ⟨s', hrun, hs', ?_⟩
      rw [hi, hlen, ← Nat.add_assoc]

theorem Runs.comma (h : Runs lim lbl txt vis s r) {rest : List Nat}
    (hat : vis.drop s.i = 44 :: rest) : Runs lim lbl txt vis { s with i := s.i + 1 } r := by
  have hstep := scanStep_at lim lbl txt hat
  rw [if_neg (by decide), if_neg (by decide), if_neg (by decide), if_neg (by decide),
    if_neg (by decide), if_pos rfl] at hstep
  exact h.cont hstep

/-! ## Brackets -/

/-- The turns on brackets. -/
theorem scanStep_bracket {c : Nat} {rest : List Nat} (hat : vis.drop s.i = c :: rest) :
    (c = 91 → scanStep lim lbl txt vis s = scanOpen s tokLeftbracket tokRightbracket) ∧
      (c = 123 → scanStep lim lbl txt vis s = scanOpen s tokLeftbrace tokRightbrace) ∧
      (c = 93 → scanStep lim lbl txt vis s = scanClose s tokRightbracket) ∧
      (c = 125 → scanStep lim lbl txt vis s = scanClose s tokRightbrace) := by
  have hstep := scanStep_at lim lbl txt hat
  refine ⟨?_, ?_, ?_, ?_⟩
  · rintro rfl
    exact hstep
  · rintro rfl
    exact hstep
  · rintro rfl
    exact hstep
  · rintro rfl
    exact hstep

/-- A closing bracket that matches, with another one left on the stack. -/
theorem Runs.close (h : Runs lim lbl txt vis s r) {tok k : Nat} (htok : tok % 256 = tok)
    (hs : s.Holds toks (tok :: k :: stack))
    (hstep : scanStep lim lbl txt vis s = scanClose s tok) :
    ∃ s', Runs lim lbl txt vis s' r ∧ s'.Holds (toks ++ [tok]) (k :: stack) ∧ s'.i = s.i + 1 := by
  obtain ⟨mid, hbuf, hcnt, hsp⟩ := hs.split
  have hlen : s.buf.length = toks.length + mid.length + (stack.length + 2) := by
    rw [hbuf, List.length_append, List.length_append]
    rfl
  have htop : s.buf[s.sp]? = some tok := by
    rw [hbuf, hsp, List.getElem?_append_right (by rw [List.length_append]), List.length_append,
      Nat.sub_self]
    rfl
  unfold scanClose at hstep
  dsimp only at hstep
  rw [if_neg (by lia), htop, Option.bind_some, if_neg (not_not_intro rfl),
    if_neg (by lia)] at hstep
  have hs₁ : Scan.Holds { s with tok := tok, sp := s.sp + 1, i := s.i + 1 } toks (k :: stack) := by
    refine ⟨⟨mid ++ [tok], ?_, hcnt, ?_⟩, hs.small⟩
    · show s.buf = _
      rw [hbuf, ← List.append_assoc toks mid, List.append_assoc (toks ++ mid),
        List.singleton_append]
    · show s.sp + 1 = _
      rw [List.length_append, List.length_singleton]
      lia
  obtain ⟨s', hrun, hs', hi⟩ := h.push hs₁ hstep
  refine ⟨s', hrun, ?_, hi⟩
  have htok' : (toks ++ [tok % 256]) = toks ++ [tok] := by rw [htok]
  exact htok' ▸ hs'

/-- The last closing bracket ends the run. -/
theorem Runs.closeLast (h : Runs lim lbl txt vis s r) {tok : Nat} (htok : tok % 256 = tok)
    (hs : s.Holds toks [tok]) (hstep : scanStep lim lbl txt vis s = scanClose s tok) :
    r.Holds (toks ++ [tok, tokStop]) [] ∧ r.i = s.i + 1 := by
  obtain ⟨mid, hbuf, hcnt, hsp⟩ := hs.split
  have hlen : s.buf.length = toks.length + mid.length + 1 := by
    rw [hbuf, List.length_append, List.length_append]
    rfl
  have htop : s.buf[s.sp]? = some tok := by
    rw [hbuf, hsp, List.getElem?_append_right (by rw [List.length_append]), List.length_append,
      Nat.sub_self]
    rfl
  unfold scanClose at hstep
  dsimp only at hstep
  rw [if_neg (by lia), htop, Option.bind_some, if_neg (not_not_intro rfl),
    if_pos (by lia)] at hstep
  have hs₁ : Scan.Holds { s with tok := tok, sp := s.sp + 1, i := s.i + 1 } toks [] := by
    refine ⟨⟨mid ++ [tok], ?_, hcnt, ?_⟩, hs.small⟩
    · show s.buf = _
      rw [hbuf, ← List.append_assoc, List.append_nil]
    · show s.sp + 1 = _
      rw [List.length_append, List.length_singleton]
      lia
  by_cases hroom : Scan.room { s with tok := tok, sp := s.sp + 1, i := s.i + 1 } < 2
  · rw [if_pos hroom] at hstep
    cases (h.stop hstep).1
  · rw [if_neg hroom] at hstep
    obtain ⟨s', hemit, hs', hi, -⟩ := hs₁.emit [tok, tokStop] hroom
    rw [hemit] at hstep
    obtain ⟨-, rfl⟩ := h.stop hstep
    have htok' : (toks ++ [tok, tokStop].map (· % 256)) = toks ++ [tok, tokStop] := by
      rw [List.map_cons, htok]
      rfl
    exact ⟨htok' ▸ hs', hi⟩

end Runs

/-! ## A stack that has run into the tokens -/

theorem poke_some {buf buf' : List Nat} {k v : Nat} (h : poke buf k v = some buf') :
    k < buf.length ∧ buf'.length = buf.length ∧ ∀ p, p ≠ k → buf'[p]? = buf[p]? := by
  unfold poke at h
  split_ifs at h with hk
  obtain rfl := Option.some.inj h
  exact ⟨hk, List.length_set, fun p hp => List.getElem?_set_ne hp.symm⟩

theorem pokes_some {vs : List Nat} : ∀ {buf buf' : List Nat} {k : Nat},
    pokes buf k vs = some buf' → k ≤ buf.length →
      k + vs.length ≤ buf.length ∧ buf'.length = buf.length ∧ ∀ p, p < k → buf'[p]? = buf[p]? := by
  induction vs with
  | nil =>
      intro buf buf' k h hk
      obtain rfl := Option.some.inj h
      exact ⟨hk, rfl, fun _ _ => rfl⟩
  | cons v vs ih =>
      intro buf buf' k h hk
      obtain ⟨buf₁, hpoke, hrest⟩ := Option.bind_eq_some_iff.mp h
      obtain ⟨hlt, hlen, hkeep⟩ := poke_some hpoke
      obtain ⟨hend, hlen', hkeep'⟩ := ih hrest (by lia)
      refine ⟨?_, hlen'.trans hlen, fun p hp => ?_⟩
      · rw [List.length_cons]
        lia
      · rw [hkeep' p (by lia), hkeep p (by lia)]

/-- The stack reaches below the end of the tokens, and has at `p` an opening bracket that was
pushed as a token over it. -/
structure Jammed (lim : Limits) (p : Nat) (s : Scan) : Prop where
  sp_le : s.sp ≤ p
  lt_cnt : p < s.cnt
  lt_top : p < s.buf.length
  cnt_le : s.cnt ≤ s.buf.length
  small : s.buf.length < 65536
  opening : s.buf[p]? = some tokLeftbrace ∨ s.buf[p]? = some tokLeftbracket
  string : s.tok = lim.tokString → p + 3 < s.cnt

section Jam

variable {lim : Limits} {lbl : List (List Nat)} {txt vis : List Nat} {p : Nat} {s s' : Scan}

/-- No test finds that room is missing. -/
theorem Jammed.room (h : Jammed lim p s) : 65536 ≤ s.room := by
  have hsp := h.sp_le
  have hcnt := h.lt_cnt
  have hle := h.cnt_le
  have hsmall := h.small
  unfold Scan.room
  lia

/-- Tokens are stored over the stack. -/
theorem Jammed.emit (h : Jammed lim p s) {tok i : Nat} {vs : List Nat}
    (hrun : Scan.emit { s with tok := tok, i := i } vs = some s')
    (htok : tok = lim.tokString → 3 ≤ vs.length) : Jammed lim p s' := by
  obtain ⟨buf, hpokes, rfl⟩ := Option.map_eq_some_iff.mp hrun
  obtain ⟨hend, hlen, hkeep⟩ := pokes_some hpokes h.cnt_le
  have hlt := h.lt_cnt
  refine ⟨h.sp_le, Nat.lt_add_right _ hlt, hlen ▸ h.lt_top, hlen ▸ hend, hlen ▸ h.small, ?_,
    fun heq => ?_⟩
  · show buf[p]? = _ ∨ buf[p]? = _
    rw [hkeep p hlt]
    exact h.opening
  · have hthree := htok heq
    show p + 3 < s.cnt + vs.length
    lia

theorem Jammed.setPos (h : Jammed lim p s) {i : Nat} : Jammed lim p { s with i := i } :=
  ⟨h.sp_le, h.lt_cnt, h.lt_top, h.cnt_le, h.small, h.opening, h.string⟩

/-- What a turn leaves: a state with a property, or an error. -/
structure Keeps (I : Scan → Prop) (next : Option Next) : Prop where
  cont : ∀ s', next = some (.cont s') → I s'
  stop : ∀ err s', next = some (.stop err s') → err ≠ ok

namespace Keeps

variable {I : Scan → Prop}

theorem error {err : Int} (herr : err ≠ ok) : Keeps I (some (.stop err s)) where
  cont _ h := nomatch h
  stop _ _ h := (Next.stop.inj (Option.some.inj h)).1 ▸ herr

theorem next (h : I s) : Keeps I (some (.cont s)) where
  cont _ heq := Next.cont.inj (Option.some.inj heq) ▸ h
  stop _ _ h := nomatch h

theorem none : Keeps I none where
  cont _ h := nomatch h
  stop _ _ h := nomatch h

theorem map {o : Option Scan} (h : ∀ s', o = some s' → I s') : Keeps I (o.map .cont) := by
  cases o with
  | none => exact Keeps.none
  | some s' => exact Keeps.next (h s' rfl)

theorem bind {α : Type} {o : Option α} {f : α → Option Next}
    (h : ∀ a, o = some a → Keeps I (f a)) : Keeps I (o.bind f) := by
  cases o with
  | none => exact Keeps.none
  | some a => exact h a rfl

/-- A run does not end well from a state with a property that every turn keeps. -/
theorem not_runs (hstep : ∀ s, I s → Keeps I (scanStep lim lbl txt vis s)) (h : I s) {r : Scan} :
    ¬ Runs lim lbl txt vis s r := by
  rintro ⟨fuel, hrun⟩
  induction fuel generalizing s with
  | zero => cases hrun
  | succ fuel ih =>
      obtain ⟨next, hnext, hrest⟩ := Option.bind_eq_some_iff.mp hrun
      cases next with
      | cont s' => exact ih ((hstep s h).cont s' hnext) hrest
      | stop err s' =>
          obtain ⟨rfl, -⟩ := Prod.mk.inj (Option.some.inj hrest)
          exact (hstep s h).stop _ s' hnext rfl

end Keeps

/-- The code of a string differs from those of the other tokens. -/
theorem ne_tokString (lim : Limits) {tok : Nat} (htok : tok ≤ tokInt32) : tok ≠ lim.tokString := by
  have hpos := lim.pos
  have hfits := lim.fits
  unfold tokInt32 at htok
  unfold Limits.tokString
  lia

theorem Jammed.push (h : Jammed lim p s) {tok i : Nat} (htok : tok ≤ tokInt32) :
    Keeps (Jammed lim p) (push { s with tok := tok, i := i }) := by
  have hroom : 65536 ≤ Scan.room { s with tok := tok, i := i } := h.room
  unfold Json.push
  rw [if_neg (by lia)]
  exact Keeps.map fun s' hrun => h.emit hrun fun heq => absurd heq (ne_tokString lim htok)

theorem Jammed.scanString (h : Jammed lim p s) (qt : Nat) (rest : List Nat) :
    Keeps (Jammed lim p) (scanString lim s qt rest) := by
  unfold Json.scanString
  cases quoteLoop qt rest 0 with
  | none => exact Keeps.error (by decide)
  | some j =>
      dsimp only
      split_ifs with hlong hovf
      · exact Keeps.error (by decide)
      · exact Keeps.error (by decide)
      · exact Keeps.map fun s' hrun => h.emit hrun fun _ => le_refl _

theorem Jammed.scanSymbol (h : Jammed lim p s) (c : Nat) (rest : List Nat) :
    Keeps (Jammed lim p) (scanSymbol s c rest) := by
  unfold Json.scanSymbol
  split_ifs with hovf
  · exact Keeps.error (by decide)
  · refine Keeps.bind fun buf hpokes => ?_
    have hend : s.cnt + 1 ≤ s.buf.length := by
      -- the first byte is stored behind the tokens
      obtain ⟨buf₁, hpoke, -⟩ := Option.bind_eq_some_iff.mp hpokes
      exact (poke_some hpoke).1.le
    obtain ⟨-, hlen, hkeep⟩ := pokes_some hpokes hend
    have hlt := h.lt_cnt
    have h₁ : Jammed lim p { s with buf := buf } := by
      refine ⟨h.sp_le, hlt, hlen ▸ h.lt_top, hlen ▸ h.cnt_le, hlen ▸ h.small, ?_, h.string⟩
      show buf[p]? = _ ∨ buf[p]? = _
      rw [hkeep p (by lia)]
      exact h.opening
    dsimp only
    split_ifs with htrue hfalse hnull
    · exact h₁.push (by decide)
    · exact h₁.push (by decide)
    · exact h₁.push (by decide)
    · exact Keeps.error (by decide)

theorem intToks_tok (val : BitVec 32) : (intToks val).1 ≤ tokInt32 := by
  unfold intToks
  split_ifs
  · show tokInt8 ≤ tokInt32
    decide
  · show tokInt16 ≤ tokInt32
    decide
  · exact le_refl _

theorem Jammed.scanNumber (h : Jammed lim p s) (c : Nat) (rest : List Nat) :
    Keeps (Jammed lim p) (scanNumber s c rest) := by
  have hdigits : ∀ (i : Nat) (neg : Bool) (c : Nat) (rest : List Nat),
      Keeps (Jammed lim p) (scanDigits { s with i := i } neg c rest) := by
    intro i neg c rest
    unfold scanDigits
    dsimp only
    generalize (if neg then _ else _) = val
    split_ifs with hovf
    · exact Keeps.error (by decide)
    · exact Keeps.map fun s' hrun =>
        h.emit hrun fun heq => absurd heq (ne_tokString lim (intToks_tok val))
  unfold Json.scanNumber
  split_ifs with hneg
  · cases rest with
    | nil => exact Keeps.error (by decide)
    | cons d rest =>
        dsimp only
        split_ifs with hd
        · exact hdigits _ true d rest
        · exact Keeps.error (by decide)
  · exact hdigits s.i false c rest

theorem Jammed.scanColon (h : Jammed lim p s) (lbl : List (List Nat)) (txt : List Nat) :
    Keeps (Jammed lim p) (scanColon lim lbl txt s) := by
  unfold Json.scanColon
  split_ifs with htok
  · refine Keeps.bind fun t _ => Keeps.bind fun lo _ => Keeps.bind fun hi _ => ?_
    dsimp only
    have hthree := h.string htok
    have hcnt := h.cnt_le
    have hpos := lim.pos
    have hlabel : lim.tokLabel ≠ lim.tokString := by
      have hlt := ne_tokString lim (le_refl tokInt32)
      have hfits := lim.fits
      unfold Limits.tokLabel Limits.tokString
      lia
    -- the three tokens of the string are behind the bracket
    have hstore : ∀ v buf, poke s.buf (s.cnt - 3) v = some buf → Jammed lim p
        { s with buf := buf, cnt := s.cnt - 2, tok := lim.tokLabel, i := s.i + 1 } := by
      intro v buf hpoke
      obtain ⟨-, hlen, hkeep⟩ := poke_some hpoke
      refine ⟨h.sp_le, ?_, hlen ▸ h.lt_top, ?_, hlen ▸ h.small, ?_, fun heq => absurd heq hlabel⟩
      · show p < s.cnt - 2
        lia
      · show s.cnt - 2 ≤ buf.length
        lia
      · show buf[p]? = _ ∨ buf[p]? = _
        rw [hkeep p (by lia)]
        exact h.opening
    generalize hv : poke s.buf (s.cnt - 3) _ = stored
    cases stored with
    | none => exact Keeps.none
    | some buf => exact Keeps.next (hstore _ buf hv)
  · exact Keeps.error (by decide)

theorem Jammed.scanOpen (h : Jammed lim p s) {tok close : Nat} (htok : tok ≤ tokInt32) :
    Keeps (Jammed lim p) (scanOpen s tok close) := by
  unfold Json.scanOpen
  refine Keeps.bind fun buf hpoke => ?_
  obtain ⟨hlt, hlen, hkeep⟩ := poke_some hpoke
  have hsp := h.sp_le
  have htop := h.lt_top
  have hsmall := h.small
  have h₁ : Jammed lim p { s with buf := buf, sp := (s.sp + (2 ^ 32 - 1)) % 2 ^ 32 } := by
    refine ⟨?_, h.lt_cnt, hlen ▸ h.lt_top, hlen ▸ h.cnt_le, hlen ▸ h.small, ?_, h.string⟩
    · show (s.sp + (2 ^ 32 - 1)) % 2 ^ 32 ≤ p
      lia
    · show buf[p]? = _ ∨ buf[p]? = _
      rw [hkeep p (by lia)]
      exact h.opening
  exact h₁.push htok

theorem Jammed.scanClose (h : Jammed lim p s) {tok : Nat} (htok : tok ≤ tokInt32)
    (hbrace : tok ≠ tokLeftbrace) (hbracket : tok ≠ tokLeftbracket) :
    Keeps (Jammed lim p) (scanClose s tok) := by
  have hsp := h.sp_le
  have htop := h.lt_top
  unfold Json.scanClose
  dsimp only
  rw [if_neg (by lia)]
  refine Keeps.bind fun t ht => ?_
  by_cases hne : t ≠ tok
  · rw [if_pos hne]
    exact Keeps.error (by decide)
  · rw [not_not] at hne
    -- the bracket at `p` is not a closing one
    have hp : s.sp ≠ p := by
      rintro heq
      rw [heq, hne] at ht
      rcases h.opening with hopen | hopen
      · exact hbrace (Option.some.inj (ht.symm.trans hopen))
      · exact hbracket (Option.some.inj (ht.symm.trans hopen))
    have h₁ : Jammed lim p { s with sp := s.sp + 1 } := by
      refine ⟨?_, h.lt_cnt, h.lt_top, h.cnt_le, h.small, h.opening, h.string⟩
      show s.sp + 1 ≤ p
      lia
    rw [if_neg (not_not_intro hne), if_neg (by lia)]
    exact h₁.push htok

/-- A turn from a jammed state. -/
theorem Jammed.step (h : Jammed lim p s) (lbl : List (List Nat)) (txt vis : List Nat) :
    Keeps (Jammed lim p) (scanStep lim lbl txt vis s) := by
  have hsp := h.sp_le
  have htop := h.lt_top
  cases hat : vis.drop s.i with
  | nil =>
      unfold scanStep
      rw [hat]
      dsimp only
      rw [if_pos (by lia)]
      exact Keeps.error (by decide)
  | cons c rest =>
      refine scanStep_turns hat (Keeps.next h.setPos) (h.scanString c rest) (h.scanSymbol c rest)
        (h.scanNumber c rest) (h.scanColon lbl txt) ?_ ?_ (Keeps.error (by decide))
      · rintro tok close (rfl | rfl)
        · exact h.scanOpen (by decide)
        · exact h.scanOpen (by decide)
      · rintro tok (rfl | rfl)
        · exact h.scanClose (by decide) (by decide) (by decide)
        · exact h.scanClose (by decide) (by decide) (by decide)

/-- A jammed run does not end well. -/
theorem Jammed.not_runs (h : Jammed lim p s) {r : Scan} : ¬ Runs lim lbl txt vis s r :=
  Keeps.not_runs (fun _ hs => hs.step lbl txt vis) h

/-- The tokens fill the buffer, and more. -/
structure Full (lim : Limits) (s : Scan) : Prop where
  cnt_eq : s.cnt = s.buf.length
  sp_lt : s.sp < s.buf.length
  tok_ne : s.tok ≠ lim.tokString

theorem emit_full (h : s.cnt = s.buf.length) (v : Nat) (vs : List Nat) : s.emit (v :: vs) = none := by
  unfold Scan.emit pokes poke
  rw [if_neg (by lia)]
  rfl

theorem push_full (h : s.cnt = s.buf.length) {I : Scan → Prop} : Keeps I (push s) := by
  unfold Json.push
  split_ifs
  · exact Keeps.error (by decide)
  · rw [emit_full h]
    exact Keeps.none

/-- From a full buffer no token is stored. -/
theorem Full.step (h : Full lim s) (lbl : List (List Nat)) (txt vis : List Nat) :
    Keeps (Full lim) (scanStep lim lbl txt vis s) := by
  have hcnt := h.cnt_eq
  have hpos : ∀ i, Full lim { s with i := i } := fun _ => ⟨h.cnt_eq, h.sp_lt, h.tok_ne⟩
  have hdigits : ∀ (i : Nat) (neg : Bool) (c : Nat) (rest : List Nat),
      Keeps (Full lim) (scanDigits { s with i := i } neg c rest) := by
    intro i neg c rest
    unfold scanDigits
    dsimp only
    generalize (if neg then _ else _) = val
    split_ifs
    · exact Keeps.error (by decide)
    · rw [emit_full (by exact hcnt)]
      exact Keeps.none
  have hopen : ∀ tok close, Keeps (Full lim) (scanOpen s tok close) := by
    intro tok close
    unfold scanOpen
    refine Keeps.bind fun buf hpoke => push_full ?_
    exact hcnt.trans (poke_some hpoke).2.1.symm
  have hclose : ∀ tok, Keeps (Full lim) (scanClose s tok) := by
    intro tok
    unfold scanClose
    dsimp only
    rw [if_neg h.sp_lt.ne]
    refine Keeps.bind fun t _ => ?_
    split_ifs
    · exact Keeps.error (by decide)
    · exact Keeps.error (by decide)
    · rw [emit_full (by exact hcnt)]
      exact Keeps.none
    · exact push_full (by exact hcnt)
  have hstring : ∀ c rest, Keeps (Full lim) (scanString lim s c rest) := by
    intro c rest
    unfold scanString
    cases quoteLoop c rest 0 with
    | none => exact Keeps.error (by decide)
    | some j =>
        dsimp only
        split_ifs
        · exact Keeps.error (by decide)
        · exact Keeps.error (by decide)
        · rw [emit_full (by exact hcnt)]
          exact Keeps.none
  have hsymbol : ∀ c rest, Keeps (Full lim) (scanSymbol s c rest) := by
    intro c rest
    unfold scanSymbol
    by_cases hroom : s.room < 8
    · rw [if_pos hroom]
      exact Keeps.error (by decide)
    · rw [if_neg hroom]
      refine Keeps.bind fun buf hpokes => ?_
      obtain ⟨buf₁, hpoke, -⟩ := Option.bind_eq_some_iff.mp hpokes
      have hlt := (poke_some hpoke).1
      lia
  have hnumber : ∀ c rest, Keeps (Full lim) (scanNumber s c rest) := by
    intro c rest
    unfold scanNumber
    split_ifs
    · cases rest with
      | nil => exact Keeps.error (by decide)
      | cons d rest =>
          dsimp only
          split_ifs
          · exact hdigits _ true d rest
          · exact Keeps.error (by decide)
    · exact hdigits s.i false c rest
  have hcolon : Keeps (Full lim) (scanColon lim lbl txt s) := by
    unfold scanColon
    rw [if_neg h.tok_ne]
    exact Keeps.error (by decide)
  cases hat : vis.drop s.i with
  | nil =>
      unfold scanStep
      rw [hat]
      dsimp only
      rw [if_pos h.sp_lt.ne]
      exact Keeps.error (by decide)
  | cons c rest =>
      exact scanStep_turns hat (Keeps.next (hpos _)) (hstring c rest) (hsymbol c rest)
        (hnumber c rest) hcolon (fun tok close _ => hopen tok close) (fun tok _ => hclose tok)
        (Keeps.error (by decide))

theorem Full.not_runs (h : Full lim s) {r : Scan} : ¬ Runs lim lbl txt vis s r :=
  Keeps.not_runs (fun _ hs => hs.step lbl txt vis) h

end Jam

section Open

variable {lim : Limits} {lbl : List (List Nat)} {txt vis toks stack : List Nat} {s s' r : Scan}

/-- An opening bracket, which needs room for its token and for the closing one. -/
theorem Runs.open (h : Runs lim lbl txt vis s r) {tok close k : Nat}
    (hs : s.Holds toks (k :: stack)) (hne : toks ≠ [])
    (htok : tok = tokLeftbrace ∨ tok = tokLeftbracket) (hclose : close % 256 = close)
    (hstep : scanStep lim lbl txt vis s = scanOpen s tok close) :
    ∃ s', Runs lim lbl txt vis s' r ∧ s'.Holds (toks ++ [tok]) (close :: k :: stack) ∧
      s'.i = s.i + 1 := by
  obtain ⟨mid, hbuf, hcnt, hsp⟩ := hs.split
  have hsmall := hs.small
  have hpos : 0 < toks.length := List.length_pos_of_ne_nil hne
  have hlen : s.buf.length = toks.length + mid.length + (stack.length + 1) := by
    rw [hbuf, List.length_append, List.length_append]
    rfl
  have htok256 : tok % 256 = tok := by
    rcases htok with rfl | rfl
    · rfl
    · rfl
  have hsp' : (s.sp + (2 ^ 32 - 1)) % 2 ^ 32 = s.sp - 1 := by lia
  unfold scanOpen at hstep
  dsimp only at hstep
  rw [hsp'] at hstep
  rcases List.eq_nil_or_concat mid with rfl | ⟨mid, m, rfl⟩
  · -- the closing bracket is stored over the last token
    have hpoke : poke s.buf (s.sp - 1) close = some (s.buf.set (s.sp - 1) (close % 256)) :=
      if_pos (by lia)
    rw [hpoke, Option.bind_some] at hstep
    rw [List.length_nil] at hsp hlen
    have hroom : ¬ Scan.room ⟨tok, s.cnt, s.sp - 1, s.i + 1,
        s.buf.set (s.sp - 1) (close % 256)⟩ < 1 := by
      unfold Scan.room
      dsimp only
      lia
    have hstore : poke (s.buf.set (s.sp - 1) (close % 256)) s.cnt tok =
        some ((s.buf.set (s.sp - 1) (close % 256)).set s.cnt tok) := by
      rw [poke, if_pos (by rw [List.length_set]; lia), htok256]
    have hcont : scanStep lim lbl txt vis s = some (.cont ⟨tok, s.cnt + 1, s.sp - 1, s.i + 1,
        (s.buf.set (s.sp - 1) (close % 256)).set s.cnt tok⟩) := by
      rw [hstep, Json.push, if_neg hroom]
      unfold Scan.emit pokes
      dsimp only
      rw [hstore]
      rfl
    have hjam : Jammed lim toks.length ⟨tok, s.cnt + 1, s.sp - 1, s.i + 1,
        (s.buf.set (s.sp - 1) (close % 256)).set s.cnt tok⟩ := by
      have hlen₁ : ((s.buf.set (s.sp - 1) (close % 256)).set s.cnt tok).length = s.buf.length := by
        rw [List.length_set, List.length_set]
      have hlt : toks.length < (s.buf.set (s.sp - 1) (close % 256)).length := by
        rw [List.length_set]
        lia
      refine ⟨?_, ?_, ?_, ?_, hlen₁ ▸ hsmall, ?_, fun heq => ?_⟩
      · show s.sp - 1 ≤ toks.length
        lia
      · show toks.length < s.cnt + 1
        lia
      · show toks.length < ((s.buf.set (s.sp - 1) (close % 256)).set s.cnt tok).length
        lia
      · show s.cnt + 1 ≤ ((s.buf.set (s.sp - 1) (close % 256)).set s.cnt tok).length
        lia
      · dsimp only
        rw [hcnt, List.getElem?_set_self hlt, Option.some.injEq, Option.some.injEq]
        exact htok
      · refine absurd heq (ne_tokString lim ?_)
        rcases htok with rfl | rfl
        · show tokLeftbrace ≤ tokInt32
          decide
        · show tokLeftbracket ≤ tokInt32
          decide
    exact absurd (h.cont hcont) hjam.not_runs
  · rw [List.concat_eq_append] at hbuf
    rw [List.length_concat] at hsp hlen
    have hset : s.buf.set (s.sp - 1) (close % 256) = toks ++ mid ++ (close :: k :: stack) := by
      have hat : s.sp - 1 = (toks ++ mid).length := by
        rw [List.length_append]
        lia
      rw [hbuf, ← List.append_assoc toks mid, List.append_assoc (toks ++ mid), hat,
        List.set_append_right _ _ (le_refl _), Nat.sub_self, hclose]
      rfl
    have hpoke : poke s.buf (s.sp - 1) close = some (toks ++ mid ++ (close :: k :: stack)) := by
      rw [poke, if_pos (by lia), hset]
    rw [hpoke, Option.bind_some] at hstep
    have hs₁ : Scan.Holds ⟨tok, s.cnt, s.sp - 1, s.i + 1, toks ++ mid ++ (close :: k :: stack)⟩
        toks (close :: k :: stack) := by
      refine ⟨⟨mid, rfl, hcnt, ?_⟩, ?_⟩
      · show s.sp - 1 = _
        lia
      · show (toks ++ mid ++ (close :: k :: stack)).length < 65536
        rw [← hset, List.length_set]
        exact hsmall
    obtain ⟨s', hrun, hs', hi⟩ := h.push hs₁ hstep
    dsimp only at hs'
    rw [htok256] at hs'
    exact ⟨s', hrun, hs', hi⟩

/-! ## More text -/

theorem pokes_length {vs : List Nat} : ∀ {buf buf' : List Nat} {k : Nat},
    pokes buf k vs = some buf' → buf'.length = buf.length := by
  induction vs with
  | nil =>
      intro buf buf' k h
      rw [Option.some.inj h]
  | cons v vs ih =>
      intro buf buf' k h
      obtain ⟨buf₁, hpoke, hrest⟩ := Option.bind_eq_some_iff.mp h
      exact (ih hrest).trans (poke_some hpoke).2.1

theorem quoteLoop_lt {qt : Nat} {rest : List Nat} : ∀ {j k : Nat},
    quoteLoop qt rest j = some k → k < j + rest.length := by
  induction rest with
  | nil => exact fun h => nomatch h
  | cons c rest ih =>
      intro j k h
      rw [quoteLoop] at h
      rw [List.length_cons]
      split_ifs at h
      · rw [Option.some.injEq] at h
        lia
      · have hk := ih h
        lia

/-- A turn that goes on leaves something on the stack and moves in the text, from `lo` to at most
`hi`; one that ends the run does not leave the text. -/
structure Goes (lo hi : Nat) (next : Option Next) : Prop where
  cont : ∀ s', next = some (.cont s') → s'.sp < s'.buf.length ∧ lo < s'.i ∧ s'.i ≤ hi
  stop : ∀ r, next = some (.stop ok r) → lo ≤ r.i ∧ r.i ≤ hi

variable {lo hi : Nat}

theorem Goes.error {err : Int} (herr : err ≠ ok) : Goes lo hi (some (.stop err s)) where
  cont _ h := nomatch h
  stop _ h := absurd (Next.stop.inj (Option.some.inj h)).1 herr

theorem Goes.none : Goes lo hi none where
  cont _ h := nomatch h
  stop _ h := nomatch h

theorem Goes.next (h : s.sp < s.buf.length) (hlo : lo < s.i) (hhi : s.i ≤ hi) :
    Goes lo hi (some (.cont s)) where
  cont _ heq := Next.cont.inj (Option.some.inj heq) ▸ ⟨h, hlo, hhi⟩
  stop _ h := nomatch h

theorem Goes.bind {α : Type} {o : Option α} {f : α → Option Next}
    (h : ∀ a, o = some a → Goes lo hi (f a)) : Goes lo hi (o.bind f) := by
  cases o with
  | none => exact Goes.none
  | some a => exact h a rfl

theorem Goes.emit (h : s.sp < s.buf.length) {tok i : Nat} (vs : List Nat) (hlo : lo < i)
    (hhi : i ≤ hi) : Goes lo hi ((Scan.emit { s with tok := tok, i := i } vs).map .cont) := by
  unfold Scan.emit
  dsimp only
  cases hpokes : pokes s.buf s.cnt vs with
  | none => exact Goes.none
  | some buf =>
      refine Goes.next ?_ hlo hhi
      show s.sp < buf.length
      rw [pokes_length hpokes]
      exact h

theorem Goes.push (h : s.sp < s.buf.length) (hlo : lo < s.i) (hhi : s.i ≤ hi) :
    Goes lo hi (push s) := by
  unfold Json.push
  split_ifs
  · exact Goes.error (by decide)
  · exact Goes.emit h _ hlo hhi

theorem scanString_goes (h : s.sp < s.buf.length) (qt : Nat) (rest : List Nat) :
    Goes s.i (s.i + 1 + rest.length) (scanString lim s qt rest) := by
  unfold scanString
  cases hj : quoteLoop qt rest 0 with
  | none => exact Goes.error (by decide)
  | some j =>
      have hlt := quoteLoop_lt hj
      dsimp only
      split_ifs
      · exact Goes.error (by decide)
      · exact Goes.error (by decide)
      · exact Goes.emit h _ (by lia) (by lia)

theorem scanSymbol_goes (h : s.sp < s.buf.length) (c : Nat) (rest : List Nat) :
    Goes s.i (s.i + 1 + rest.length) (scanSymbol s c rest) := by
  have hle : (rest.takeWhile isWord).length ≤ rest.length :=
    (List.takeWhile_prefix isWord).length_le
  unfold scanSymbol
  split_ifs
  · exact Goes.error (by decide)
  · refine Goes.bind fun buf hpokes => ?_
    have hbuf : s.sp < buf.length := pokes_length hpokes ▸ h
    have hlo : s.i < s.i + (c :: rest.takeWhile isWord).length := by
      rw [List.length_cons]
      lia
    have hhi : s.i + (c :: rest.takeWhile isWord).length ≤ s.i + 1 + rest.length := by
      rw [List.length_cons]
      lia
    dsimp only
    split_ifs
    · exact Goes.push hbuf hlo hhi
    · exact Goes.push hbuf hlo hhi
    · exact Goes.push hbuf hlo hhi
    · exact Goes.error (by decide)

theorem scanDigits_goes (h : s.sp < s.buf.length) (i : Nat) (neg : Bool) (c : Nat)
    (rest : List Nat) :
    Goes i (i + 1 + rest.length) (scanDigits { s with i := i } neg c rest) := by
  have hle : (rest.takeWhile isDigit).length ≤ rest.length :=
    (List.takeWhile_prefix isDigit).length_le
  unfold scanDigits
  dsimp only
  generalize (if neg then _ else _) = val
  split_ifs
  · exact Goes.error (by decide)
  · refine Goes.emit h _ ?_ ?_
    · rw [List.length_cons]
      lia
    · rw [List.length_cons]
      lia

theorem scanNumber_goes (h : s.sp < s.buf.length) (c : Nat) (rest : List Nat) :
    Goes s.i (s.i + 1 + rest.length) (scanNumber s c rest) := by
  unfold scanNumber
  split_ifs
  · cases rest with
    | nil => exact Goes.error (by decide)
    | cons d rest =>
        have hdigits := scanDigits_goes h (s.i + 1) true d rest
        dsimp only
        split_ifs
        · refine ⟨fun s' hs' => ?_, fun r hr => ?_⟩
          · obtain ⟨hopen, hlo, hhi⟩ := hdigits.cont s' hs'
            rw [List.length_cons]
            exact ⟨hopen, by lia, by lia⟩
          · obtain ⟨hlo, hhi⟩ := hdigits.stop r hr
            rw [List.length_cons]
            exact ⟨by lia, by lia⟩
        · exact Goes.error (by decide)
  · exact scanDigits_goes h s.i false c rest

theorem scanColon_goes (h : s.sp < s.buf.length) (rest : List Nat) :
    Goes s.i (s.i + 1 + rest.length) (scanColon lim lbl txt s) := by
  unfold scanColon
  split_ifs
  · refine Goes.bind fun t _ => Goes.bind fun lo _ => Goes.bind fun hi _ => ?_
    dsimp only
    generalize hv : poke s.buf (s.cnt - 3) _ = stored
    cases stored with
    | none => exact Goes.none
    | some buf =>
        refine Goes.next ?_ (Nat.lt_succ_self _) (Nat.le_add_right _ _)
        show s.sp < buf.length
        rw [(poke_some hv).2.1]
        exact h
  · exact Goes.error (by decide)

theorem scanOpen_goes (tok close : Nat) (rest : List Nat) :
    Goes s.i (s.i + 1 + rest.length) (scanOpen s tok close) := by
  unfold scanOpen
  refine Goes.bind fun buf hpoke => ?_
  obtain ⟨hlt, hlen, -⟩ := poke_some hpoke
  exact Goes.push (hlen ▸ hlt) (Nat.lt_succ_self _) (Nat.le_add_right _ _)

theorem scanClose_goes (h : s.sp < s.buf.length) (tok : Nat) (rest : List Nat) :
    Goes s.i (s.i + 1 + rest.length) (scanClose s tok) := by
  unfold scanClose
  dsimp only
  rw [if_neg h.ne]
  refine Goes.bind fun t _ => ?_
  by_cases hne : t ≠ tok
  · rw [if_pos hne]
    exact Goes.error (by decide)
  · rw [if_neg hne]
    by_cases htop : s.sp + 1 = s.buf.length
    · rw [if_pos htop]
      split_ifs
      · exact Goes.error (by decide)
      · refine ⟨fun s' heq => ?_, fun r heq => ?_⟩
        · obtain ⟨_, _, hs'⟩ := Option.map_eq_some_iff.mp heq
          cases hs'
        · obtain ⟨s₁, hemit, hs₁⟩ := Option.map_eq_some_iff.mp heq
          obtain ⟨-, rfl⟩ := Next.stop.inj hs₁
          obtain ⟨buf, -, rfl⟩ := Option.map_eq_some_iff.mp hemit
          exact ⟨Nat.le_succ _, Nat.le_add_right _ _⟩
    · rw [if_neg htop]
      refine Goes.push ?_ (Nat.lt_succ_self _) (Nat.le_add_right _ _)
      show s.sp + 1 < s.buf.length
      lia

theorem scanStep_goes (h : s.sp < s.buf.length) :
    Goes s.i vis.length (scanStep lim lbl txt vis s) := by
  cases hat : vis.drop s.i with
  | nil =>
      unfold scanStep
      rw [hat]
      dsimp only
      rw [if_pos h.ne]
      exact Goes.error (by decide)
  | cons c rest =>
      have hlen : s.i + 1 + rest.length = vis.length := by
        have hdrop := congrArg List.length hat
        rw [List.length_drop, List.length_cons] at hdrop
        lia
      rw [← hlen]
      exact scanStep_turns hat (Goes.next h (Nat.lt_succ_self _) (Nat.le_add_right _ _))
        (scanString_goes h c rest) (scanSymbol_goes h c rest) (scanNumber_goes h c rest)
        (scanColon_goes h rest) (fun tok close _ => scanOpen_goes tok close rest)
        (fun tok _ => scanClose_goes h tok rest) (Goes.error (by decide))

/-- A run moves forward in the text. -/
theorem Runs.within (h : Runs lim lbl txt vis s r) (hopen : s.sp < s.buf.length) :
    s.i ≤ r.i ∧ r.i ≤ vis.length := by
  obtain ⟨fuel, hrun⟩ := h
  induction fuel generalizing s with
  | zero => cases hrun
  | succ fuel ih =>
      have hgoes : Goes s.i vis.length (scanStep lim lbl txt vis s) := scanStep_goes hopen
      obtain ⟨next, hstep, hnext⟩ := Option.bind_eq_some_iff.mp hrun
      cases next with
      | cont s' =>
          obtain ⟨hopen', hlo, hhi⟩ := hgoes.cont s' hstep
          obtain ⟨hlo', hhi'⟩ := ih hopen' hnext
          exact ⟨by lia, hhi'⟩
      | stop err s' =>
          obtain ⟨rfl, rfl⟩ := Prod.mk.inj (Option.some.inj hnext)
          exact hgoes.stop _ hstep

theorem quoteLoop_more {qt : Nat} {rest : List Nat} (u : List Nat) : ∀ {j k : Nat},
    quoteLoop qt rest j = some k → quoteLoop qt (rest ++ u) j = some k := by
  induction rest with
  | nil => exact fun h => nomatch h
  | cons c rest ih =>
      intro j k h
      rw [List.cons_append]
      rw [quoteLoop] at h ⊢
      split_ifs at h ⊢ with hc
      · exact h
      · exact ih h

theorem push_stop {err : Int} (h : push s = some (.stop err s')) : err ≠ ok := by
  unfold Json.push at h
  split_ifs at h
  · exact (Next.stop.inj (Option.some.inj h)).1 ▸ by decide
  · obtain ⟨s₁, -, hs₁⟩ := Option.map_eq_some_iff.mp h
    cases hs₁

/-- What follows a turn that does not fail. -/
theorem scanString_more {qt : Nat} {rest : List Nat} (u : List Nat) {next : Next}
    (h : scanString lim s qt rest = some next) (hok : ∀ err s', next = .stop err s' → err = ok) :
    scanString lim s qt (rest ++ u) = some next := by
  unfold scanString at h ⊢
  cases hj : quoteLoop qt rest 0 with
  | none =>
      rw [hj] at h
      exact absurd (hok _ _ (Option.some.inj h).symm) (by decide)
  | some j =>
      rw [hj] at h
      rw [quoteLoop_more u hj]
      exact h

theorem push_pos (h : push s = some (.cont s')) : s'.i = s.i := by
  unfold Json.push at h
  split_ifs at h
  · cases h
  · obtain ⟨s₁, hemit, hs₁⟩ := Option.map_eq_some_iff.mp h
    obtain rfl := Next.cont.inj hs₁
    obtain ⟨buf, -, rfl⟩ := Option.map_eq_some_iff.mp hemit
    rfl

theorem scanSymbol_pos {c : Nat} {rest : List Nat} (h : scanSymbol s c rest = some (.cont s')) :
    s'.i = s.i + (1 + (rest.takeWhile isWord).length) := by
  unfold scanSymbol at h
  split_ifs at h
  · cases h
  · obtain ⟨buf, -, hbuf⟩ := Option.bind_eq_some_iff.mp h
    dsimp only at hbuf
    have hcons : (c :: rest.takeWhile isWord).length = 1 + (rest.takeWhile isWord).length := by
      rw [List.length_cons, Nat.add_comm]
    rw [← hcons]
    split_ifs at hbuf
    · exact push_pos hbuf
    · exact push_pos hbuf
    · exact push_pos hbuf
    · cases hbuf

theorem scanDigits_pos {i : Nat} {neg : Bool} {c : Nat} {rest : List Nat}
    (h : scanDigits { s with i := i } neg c rest = some (.cont s')) :
    s'.i = i + (1 + (rest.takeWhile isDigit).length) := by
  unfold scanDigits at h
  dsimp only at h
  generalize (if neg then _ else _) = val at h
  have hcons : (c :: rest.takeWhile isDigit).length = 1 + (rest.takeWhile isDigit).length := by
    rw [List.length_cons, Nat.add_comm]
  rw [← hcons]
  split_ifs at h
  · cases h
  · obtain ⟨s₁, hemit, hs₁⟩ := Option.map_eq_some_iff.mp h
    obtain rfl := Next.cont.inj hs₁
    obtain ⟨buf, -, rfl⟩ := Option.map_eq_some_iff.mp hemit
    rfl

/-- More text does not change what is taken of a text that has more. -/
theorem takeWhile_more {p : Nat → Bool} {rest : List Nat} (u : List Nat)
    (h : (rest.takeWhile p).length < rest.length) :
    (rest ++ u).takeWhile p = rest.takeWhile p := by
  rw [List.takeWhile_append, if_neg h.ne]

theorem scanSymbol_more {c : Nat} {rest : List Nat} (u : List Nat) {next : Next}
    (h : scanSymbol s c rest = some next) (hok : ∀ err s', next = .stop err s' → err = ok)
    (hi : ∀ s', next = .cont s' → s'.i < s.i + 1 + rest.length) :
    scanSymbol s c (rest ++ u) = some next := by
  cases next with
  | cont s' =>
      have hpos := scanSymbol_pos h
      have hlt := hi s' rfl
      rw [← h]
      unfold scanSymbol
      rw [takeWhile_more u (by lia)]
  | stop err s' =>
      have herr := hok err s' rfl
      unfold scanSymbol at h
      split_ifs at h
      · exact absurd ((Next.stop.inj (Option.some.inj h)).1.trans herr) (by decide)
      · obtain ⟨buf, -, hbuf⟩ := Option.bind_eq_some_iff.mp h
        dsimp only at hbuf
        split_ifs at hbuf
        · exact absurd herr (push_stop hbuf)
        · exact absurd herr (push_stop hbuf)
        · exact absurd herr (push_stop hbuf)
        · exact absurd ((Next.stop.inj (Option.some.inj hbuf)).1.trans herr) (by decide)

theorem scanDigits_more {i : Nat} {neg : Bool} {c : Nat} {rest : List Nat} (u : List Nat)
    {next : Next} (h : scanDigits { s with i := i } neg c rest = some next)
    (hok : ∀ err s', next = .stop err s' → err = ok)
    (hi : ∀ s', next = .cont s' → s'.i < i + 1 + rest.length) :
    scanDigits { s with i := i } neg c (rest ++ u) = some next := by
  cases next with
  | cont s' =>
      have hpos := scanDigits_pos h
      have hlt := hi s' rfl
      rw [← h]
      unfold scanDigits
      rw [takeWhile_more u (by lia)]
  | stop err s' =>
      have herr := hok err s' rfl
      unfold scanDigits at h
      dsimp only at h
      generalize (if neg then _ else _) = val at h
      split_ifs at h
      · exact absurd ((Next.stop.inj (Option.some.inj h)).1.trans herr) (by decide)
      · obtain ⟨s₁, -, hs₁⟩ := Option.map_eq_some_iff.mp h
        cases hs₁

theorem scanNumber_more {c : Nat} {rest : List Nat} (u : List Nat) {next : Next}
    (h : scanNumber s c rest = some next) (hok : ∀ err s', next = .stop err s' → err = ok)
    (hi : ∀ s', next = .cont s' → s'.i < s.i + 1 + rest.length) :
    scanNumber s c (rest ++ u) = some next := by
  unfold scanNumber at h ⊢
  by_cases hneg : c = 45
  · rw [if_pos hneg] at h ⊢
    cases rest with
    | nil => exact absurd (hok _ _ (Option.some.inj h).symm) (by decide)
    | cons d rest =>
        rw [List.cons_append]
        dsimp only at h ⊢
        by_cases hd : isDigit d = true
        · rw [if_pos hd] at h ⊢
          refine scanDigits_more u h hok fun s' hs' => ?_
          have hlt := hi s' hs'
          rw [List.length_cons] at hlt
          lia
        · rw [if_neg hd] at h
          exact absurd (hok _ _ (Option.some.inj h).symm) (by decide)
  · rw [if_neg hneg] at h ⊢
    exact @scanDigits_more s s.i false c rest u next h hok hi

/-- A turn that does not fail and stays before the end of the text is the same on a longer one. -/
theorem scanStep_more (u : List Nat) (hopen : s.sp < s.buf.length) {next : Next}
    (h : scanStep lim lbl txt vis s = some next) (hok : ∀ err s', next = .stop err s' → err = ok)
    (hi : ∀ s', next = .cont s' → s'.i < vis.length) :
    scanStep lim lbl txt (vis ++ u) s = some next := by
  cases hat : vis.drop s.i with
  | nil =>
      unfold scanStep at h
      rw [hat] at h
      dsimp only at h
      rw [if_pos hopen.ne] at h
      exact absurd (hok _ _ (Option.some.inj h).symm) (by decide)
  | cons c rest =>
      have hlen : s.i + 1 + rest.length = vis.length := by
        have hdrop := congrArg List.length hat
        rw [List.length_drop, List.length_cons] at hdrop
        lia
      have hat' : (vis ++ u).drop s.i = c :: (rest ++ u) := by
        rw [List.drop_append_of_le_length (by lia), hat, List.cons_append]
      rw [scanStep_at lim lbl txt hat] at h
      rw [scanStep_at lim lbl txt hat']
      rw [← hlen] at hi
      by_cases hspace : isSpace c = true
      · rw [if_pos hspace] at h ⊢
        exact h
      rw [if_neg hspace] at h ⊢
      by_cases hquote : c = 39 ∨ c = 34
      · rw [if_pos hquote] at h ⊢
        exact scanString_more u h hok
      rw [if_neg hquote] at h ⊢
      by_cases halpha : isAlpha c = true ∨ c = 95
      · rw [if_pos halpha] at h ⊢
        exact scanSymbol_more u h hok hi
      rw [if_neg halpha] at h ⊢
      by_cases hdigit : isDigit c = true ∨ c = 45
      · rw [if_pos hdigit] at h ⊢
        exact scanNumber_more u h hok hi
      rw [if_neg hdigit] at h ⊢
      -- the other turns do not look at the rest
      exact h

/-- A run that ends well does so on a longer text. -/
theorem Runs.more (h : Runs lim lbl txt vis s r) (hopen : s.sp < s.buf.length) (u : List Nat) :
    Runs lim lbl txt (vis ++ u) s r := by
  obtain ⟨fuel, hrun⟩ := h
  induction fuel generalizing s with
  | zero => cases hrun
  | succ fuel ih =>
      obtain ⟨next, hstep, hnext⟩ := Option.bind_eq_some_iff.mp hrun
      cases next with
      | cont s' =>
          have hgoes : Goes s.i vis.length (scanStep lim lbl txt vis s) := scanStep_goes hopen
          obtain ⟨hopen', -, hhi⟩ := hgoes.cont s' hstep
          have hend : s'.i < vis.length := by
            by_contra hnot
            -- at the end of the text the brackets do not match
            have hrest : Runs lim lbl txt vis s' r := ⟨fuel, hnext⟩
            have hstop : scanStep lim lbl txt vis s' = some (.stop bracketMismatch s') := by
              unfold scanStep
              rw [List.drop_eq_nil_of_le (not_lt.mp hnot)]
              dsimp only
              rw [if_pos hopen'.ne]
            exact absurd (hrest.stop hstop).1 (by decide)
          obtain ⟨fuel', hmore⟩ := ih hopen' hnext
          have hstep' := scanStep_more u hopen hstep (fun _ _ heq => nomatch heq)
            fun s₁ heq => Next.cont.inj heq ▸ hend
          refine ⟨fuel' + 1, ?_⟩
          rw [scanLoop, hstep']
          exact hmore
      | stop err s' =>
          obtain ⟨rfl, rfl⟩ := Prod.mk.inj (Option.some.inj hnext)
          have hstep' := scanStep_more u hopen hstep
            (fun _ _ heq => (Next.stop.inj heq).1.symm) fun _ heq => nomatch heq
          refine ⟨1, ?_⟩
          rw [scanLoop, hstep']
          rfl

end Open

end YardIce.MicroJs.Json
