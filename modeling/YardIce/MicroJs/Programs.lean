import YardIce.MicroJs.Rounds

/-!
# Compilations of programs

The states that a compilation of any number of lines goes through, and what holds in all of
them: the lexer's identifiers have no zero byte, actions that use an identifier find it in
the token, and the stack of the symbol table has what the parser's stack will take off.
-/

namespace YardIce.MicroJs

open YardIce.Lib

/-! ## Identifiers -/

/-- A text in the memory of the compiler and in the address space of 32 bits. -/
structure Source (E : Env) (t : Text) : Prop where
  mem : t.mem = E.mem
  fits : t.txt + t.len ≤ 4294967296

/-- An identifier has no zero byte, and its descriptor holds it. -/
def Token.Good (E : Env) (tok : Token) : Prop :=
  tok.typ = .id → 0 ∉ E.name tok.s tok.qlf ∧ tok.s < 4294967296 ∧ tok.qlf < 256

theorem wordEnd_spec (t : Text) (fuel off : Nat) :
    off ≤ wordEnd t fuel off ∧ ∀ i, off ≤ i → i < wordEnd t fuel off → isWord (t.at i) = true := by
  induction fuel generalizing off with
  | zero => exact ⟨Nat.le_refl _, fun i hi hlt => (Nat.not_lt.mpr hi hlt).elim⟩
  | succ fuel ih =>
      obtain ⟨hle, hword⟩ := ih (off + 1)
      rw [wordEnd]
      split_ifs with hoff
      · refine ⟨by omega, fun i hi hlt => ?_⟩
        rcases Nat.eq_or_lt_of_le hi with rfl | hi
        · exact hoff
        · exact hword i hi hlt
      · exact ⟨Nat.le_refl _, fun i hi hlt => (Nat.not_lt.mpr hi hlt).elim⟩

theorem isWord_ne_zero {c : Nat} (h : isWord c = true) : c ≠ 0 := by
  rintro rfl
  exact absurd h (by decide)

theorem scanWord_good {E : Env} {t : Text} (ht : Source E t) {off : Nat} (hoff : off < t.len)
    (h : (isAlpha (t.at off) || t.at off == 95) = true) : (scanWord t off).1.Good E := by
  intro _
  obtain ⟨hle, hword⟩ := wordEnd_spec t 65536 (off + 1)
  have hfits := ht.fits
  have hfirst : isWord (t.at off) = true := by
    rw [isWord, Bool.or_eq_true, Bool.or_eq_true]
    rcases (Bool.or_eq_true _ _).mp h with h | h
    · exact Or.inl (Or.inl h)
    · exact Or.inr h
  refine ⟨fun h0 => ?_, ?_, Nat.mod_lt _ (Nat.succ_pos _)⟩
  · obtain ⟨i, hi, hzero⟩ := List.mem_map.mp h0
    have hi' := List.mem_range.mp hi
    have hlt : i < wordEnd t 65536 (off + 1) - off :=
      Nat.lt_of_lt_of_le hi' (Nat.mod_le _ _)
    have hbyte : t.at (off + i) = 0 := by
      rw [Text.at, ht.mem, ← Nat.add_assoc]
      exact hzero
    rcases Nat.eq_zero_or_pos i with rfl | hpos
    · exact isWord_ne_zero hfirst hbyte
    · exact isWord_ne_zero (hword (off + i) (by omega) (by omega)) hbyte
  · have hs : (scanWord t off).1.s = t.txt + off := rfl
    omega

theorem plain_good (E : Env) {typ : Terminal} (h : typ ≠ .id) : (Token.plain typ).Good E :=
  fun hid => (h hid).elim

theorem pair_good (E : Env) (t : Text) (off : Nat) {seconds : List (Nat × Terminal)}
    {alone : Terminal} (hseconds : ∀ p ∈ seconds, p.2 ≠ .id) (halone : alone ≠ .id) :
    (pair t off seconds alone).1.Good E := by
  unfold pair
  split_ifs
  · cases hfind : seconds.find? fun p => decide (p.1 = t.at (off + 1)) with
    | none => exact plain_good E halone
    | some p => exact plain_good E (hseconds p (List.mem_of_find?_eq_some hfind))
  · exact plain_good E halone

theorem doubled_good (E : Env) (t : Text) (off : Nat) {both alone : Terminal}
    (hboth : both ≠ .id) (halone : alone ≠ .id) : (doubled t off both alone).1.Good E := by
  unfold doubled
  split_ifs
  · exact plain_good E hboth
  · exact plain_good E halone

theorem scanPunctuation_good (E : Env) {t : Text} {off : Nat} {r : Token × Nat}
    (h : scanPunctuation t off = .ok r) : r.1.Good E := by
  simp only [scanPunctuation] at h
  split_ifs at h
  · exact Except.ok.inj h ▸ pair_good E t off (by decide) (by decide)
  · exact Except.ok.inj h ▸ pair_good E t off (by decide) (by decide)
  · exact Except.ok.inj h ▸ pair_good E t off (by decide) (by decide)
  · exact Except.ok.inj h ▸ pair_good E t off (by decide) (by decide)
  · exact Except.ok.inj h ▸ doubled_good E t off (by decide) (by decide)
  · exact Except.ok.inj h ▸ doubled_good E t off (by decide) (by decide)
  · cases hfind : punctuation.find? fun p => decide (p.1 = t.at off) with
    | none =>
        simp only [hfind] at h
        cases h
    | some p =>
        simp only [hfind] at h
        have hp : ∀ p ∈ punctuation, p.2 ≠ .id := by decide
        exact Except.ok.inj h ▸ plain_good E (hp p (List.mem_of_find?_eq_some hfind))

theorem scanNumberEnd_good (E : Env) {t : Text} {v : Nat × Nat} {r : Token × Nat}
    (h : scanNumberEnd t v = .ok r) : r.1.Good E := by
  simp only [scanNumberEnd] at h
  split_ifs at h
  exact Except.ok.inj h ▸ fun hid => by cases hid

theorem scanNumber_good (E : Env) {t : Text} {off : Nat} {r : Token × Nat}
    (h : scanNumber t off = .ok r) : r.1.Good E := by
  simp only [scanNumber] at h
  split_ifs at h
  · exact scanNumberEnd_good E h
  · exact scanNumberEnd_good E h

theorem scanQuoted_good (E : Env) {t : Text} {off : Nat} {r : Token × Nat}
    (h : scanQuoted t off = .ok r) : r.1.Good E := by
  simp only [scanQuoted] at h
  cases hend : quoteEnd t (t.at off) t.len (off + 1) with
  | none =>
      simp only [hend] at h
      cases h
  | some stop =>
      simp only [hend] at h
      split_ifs at h
      · exact Except.ok.inj h ▸ fun hid => by cases hid
      · exact Except.ok.inj h ▸ fun hid => by cases hid

theorem lexerScan_good {E : Env} {t : Text} (ht : Source E t) (fuel : Nat) :
    ∀ {off : Nat} {r : Token × Nat}, lexerScan t fuel off = .ok r → r.1.Good E := by
  induction fuel with
  | zero => exact fun h => Except.ok.inj h ▸ plain_good E (by decide)
  | succ fuel ih =>
      intro off r h
      simp only [lexerScan] at h
      split_ifs at h with hoff _ _ hword
      · exact ih h
      · exact scanQuoted_good E h
      · exact Except.ok.inj h ▸ scanWord_good ht hoff hword
      · exact scanNumber_good E h
      · exact ih h
      · cases hend : commentEnd t t.len (off + 2) with
        | none =>
            simp only [hend] at h
            cases h
        | some stop =>
            simp only [hend] at h
            exact ih h
      · exact Except.ok.inj h ▸ plain_good E (by decide)
      · exact scanPunctuation_good E h
      · exact Except.ok.inj h ▸ plain_good E (by decide)

theorem plainEof_good (E : Env) : (Token.plain .eof).Good E := plain_good E (by decide)

/-- The actions that use the name in the token. -/
def Action.usesName : Action → Bool
  | .opVarDecl | .opPushTmp => true
  | _ => false

/-- Every action that uses the token's name comes behind an identifier; `known` says that
the token is one now. -/
def afterId : Bool → List Sym → Bool
  | _, [] => true
  | known, .a act :: l => (known || !act.usesName) && afterId known l
  | _, .t a :: l => afterId (a == .id) l
  | _, .n _ :: l => afterId false l

theorem afterId_mono {l : List Sym} (known : Bool) (h : afterId false l = true) :
    afterId known l = true := by
  induction l with
  | nil => rfl
  | cons sym l ih =>
      cases sym with
      | a act =>
          rw [afterId, Bool.and_eq_true, Bool.false_or] at h
          rw [afterId, Bool.and_eq_true, h.1, Bool.or_true]
          exact ⟨rfl, ih h.2⟩
      | t a => exact h
      | n a => exact h

theorem afterId_append {w l : List Sym} {known : Bool} (hw : afterId known w = true)
    (hl : afterId false l = true) : afterId known (w ++ l) = true := by
  induction w generalizing known with
  | nil => exact afterId_mono known hl
  | cons sym w ih =>
      cases sym with
      | a act =>
          rw [afterId, Bool.and_eq_true] at hw
          rw [List.cons_append, afterId, Bool.and_eq_true]
          exact ⟨hw.1, ih hw.2⟩
      | t a => exact ih hw
      | n a => exact ih hw

theorem productions_afterId (a : NonTerminal) :
    ∀ r ∈ productions a, afterId false (ruleVec r) = true := by
  cases a <;> decide

/-! ## Runs -/

/-- The actions that a compilation has run, the last one first, with the states in which
they were run. -/
abbrev Trace := List (Action × Sdt)

/-- The record after a round that starts in `p`. -/
def record (p : Parse) (tr : Trace) : Trace :=
  match p.m.ll with
  | .a act :: ll => (act, { p.m with ll }) :: tr
  | _ => tr

/-- The states of a compilation that starts with the translator `m₀`: rounds of the loop,
and new lines, before which the parser may be reset. -/
inductive Compiling (E : Env) (m₀ : Sdt) : Trace → Text → Parse → Prop
  | start {t : Text} : Source E t → Compiling E m₀ [] t ⟨m₀, Token.plain .eof, 0⟩
  | line {tr : Trace} {t t' : Text} {p p' : Parse} : Compiling E m₀ tr t p → Source E t' →
      advance (lexerOpen t') ⟨p.m, Token.plain .eof, 0⟩ = (.ok (), p') →
      Compiling E m₀ tr (lexerOpen t') p'
  | reset {tr : Trace} {t : Text} {p : Parse} : Compiling E m₀ tr t p → p.m.ll = [] →
      Compiling E m₀ tr t { p with m := microjsSdtReset p.m }
  | round {tr : Trace} {t : Text} {p p' : Parse} : Compiling E m₀ tr t p →
      compileStep E t p = (.ok (), p') → Compiling E m₀ (record p tr) t p'

theorem lexerOpen_source {E : Env} {t : Text} (h : Source E t) : Source E (lexerOpen t) := by
  have hfits := h.fits
  have hmod : t.len % 65536 ≤ t.len := Nat.mod_le _ _
  refine ⟨h.mem, ?_⟩
  have hopen : t.txt + t.len % 65536 ≤ 4294967296 := by omega
  exact hopen

theorem Compiling.source {E : Env} {m₀ : Sdt} {tr : Trace} {t : Text} {p : Parse}
    (h : Compiling E m₀ tr t p) : Source E t := by
  induction h with
  | start ht => exact ht
  | line _ ht _ _ => exact lexerOpen_source ht
  | reset _ _ ih => exact ih
  | round _ _ ih => exact ih

theorem advance_ok {t : Text} {p p' : Parse} (h : advance t p = (.ok (), p')) :
    ∃ tok off, lexerScan t 65536 p.off = .ok (tok, off) ∧ p' = ⟨p.m, tok, off⟩ := by
  simp only [advance] at h
  cases hscan : lexerScan t 65536 p.off with
  | error e =>
      simp only [hscan] at h
      cases h
  | ok r =>
      simp only [hscan, Prod.mk.injEq, true_and] at h
      exact ⟨r.1, r.2, rfl, h.symm⟩

/-- A number of rounds, with the record. -/
def runRounds (E : Env) (t : Text) : Nat → Trace × Parse → Option (Trace × Parse)
  | 0, s => some s
  | n + 1, s =>
      match compileStep E t s.2 with
      | (.ok (), p) => runRounds E t n (record s.2 s.1, p)
      | (.error _, _) => none

/-- A number of rounds on a text, from a table on. -/
def runText (E : Env) (tab : Symtab) (code : Nat → Nat) (size : Nat) (t : Text) (n : Nat) :
    Option (Trace × Parse) :=
  (microjsSdtInit tab ⟨[], 0⟩).bind fun m =>
    match advance (lexerOpen t) ⟨microjsSdtBegin E code size m, Token.plain .eof, 0⟩ with
    | (.ok (), p) => runRounds E (lexerOpen t) n ([], p)
    | (.error _, _) => none

theorem Compiling.rounds {E : Env} {m₀ : Sdt} {tr : Trace} {t : Text} {p : Parse} {n : Nat}
    {s : Trace × Parse} (h : Compiling E m₀ tr t p) (hrun : runRounds E t n (tr, p) = some s) :
    Compiling E m₀ s.1 t s.2 := by
  induction n generalizing tr p with
  | zero => exact Option.some.inj hrun ▸ h
  | succ n ih =>
      rw [runRounds] at hrun
      cases hstep : compileStep E t p with
      | mk o p' =>
          simp only [hstep] at hrun
          cases o with
          | error e => cases hrun
          | ok u => exact ih (.round h hstep) hrun

/-! ## Histories -/

/-- What an action adds to the history. -/
def Ghost.act (E : Env) (a : Action) (m : Sdt) (g : Ghost) : Ghost :=
  match a with
  | .opVarDecl => g.declare (E.name m.tok.s m.tok.qlf) m.tab.bp
  | .opBlkOpen => ⟨[] :: g.scopes, m :: g.opens⟩
  | .opBlkClose => ⟨g.scopes.tail, g.opens.tail⟩
  | _ => g

/-- What a record amounts to. -/
def history (E : Env) (g₀ : Ghost) : Trace → Ghost
  | [] => g₀
  | (a, m) :: tr => (history E g₀ tr).act E a m

/-- Every name that has been declared has at most 248 characters. -/
def ShortNames (tr : Trace) : Prop := ∀ s ∈ tr, s.1 = .opVarDecl → s.2.tok.qlf ≤ 248

instance (tr : Trace) : Decidable (ShortNames tr) :=
  inferInstanceAs (Decidable (∀ s ∈ tr, s.1 = .opVarDecl → s.2.tok.qlf ≤ 248))

theorem Ghost.act_eq {a : Action} (ha : a.scoping = false) (E : Env) (m : Sdt) (g : Ghost) :
    g.act E a m = g := by
  cases a with
  | opVarDecl | opBlkOpen | opBlkClose => cases ha
  | _ => rfl

/-! ## What every run keeps -/

/-- The stack of the symbol table has, above `es₀`, exactly what the parser's stack will take
off, and the scopes are those of the history. -/
structure Sound (E : Env) (es₀ : List Entry) (g : Ghost) (m : Sdt) (es : List Entry) : Prop where
  held : Held m (es ++ es₀) g
  typed : Effect.applyAll Sym.effect m.ll (es.map Entry.kind) = some []
  named : ∀ d, .tmp d ∈ es → 0 ∉ E.name d.s d.len
  after : afterId (m.tok.typ == .id) m.ll = true
  tok : m.tok.Good E

/-- The entries that an action takes off, and those below. -/
theorem split_entries {es : List Entry} {ks r : List Kind} (h : es.map Entry.kind = ks ++ r) :
    ∃ es₁ es₂, es = es₁ ++ es₂ ∧ es₁.map Entry.kind = ks ∧ es₂.map Entry.kind = r :=
  List.map_eq_append_iff.mp h

theorem frameless_of_kinds {es : List Entry} (h : Kind.frame ∉ es.map Entry.kind) :
    Frameless es := fun _ he hk => h (hk ▸ List.mem_map_of_mem he)

/-- The token that an action names is an identifier. -/
theorem typ_of_afterId {known : Bool} {a : Action} {ll : List Sym} (ha : a.usesName = true)
    (h : afterId known (.a a :: ll) = true) : known = true := by
  rw [afterId, Bool.and_eq_true, ha] at h
  simpa using h.1

theorem tail_afterId {known : Bool} {a : Action} {ll : List Sym}
    (h : afterId known (.a a :: ll) = true) : afterId known ll = true := by
  rw [afterId, Bool.and_eq_true] at h
  exact h.2

namespace Sound

variable {E : Env} {es₀ es : List Entry} {g : Ghost} {m : Sdt}

/-- The table does not depend on the parser's stack and the token. -/
theorem held_congr {m' : Sdt} (h : Held m es g) (htab : m'.tab = m.tab)
    (hpos : m'.dataPos = m.dataPos) : Held m' es g := by
  refine ⟨?_, ?_, ?_, hpos.trans h.data⟩
  · rw [htab]
    exact h.stacked
  · rw [htab]
    exact h.scopes
  · rw [htab]
    exact h.term

/-- An action that leaves the scopes alone. -/
theorem action {a : Action} {ll : List Sym} (h : Sound E es₀ g m es) (hll : m.ll = .a a :: ll)
    (ha : a.scoping = false) (hok : (op E a { m with ll }).1 = .ok ()) :
    ∃ es', Sound E es₀ g (op E a { m with ll }).2 es' := by
  have htyped := h.typed
  rw [hll] at htyped
  obtain ⟨r, hks, hrest⟩ := Effect.applyAll_cons.mp htyped
  obtain ⟨es₁, es₂, rfl, hk₁, hk₂⟩ := split_entries hks
  have hfl : Frameless es₁ := frameless_of_kinds (hk₁ ▸ pops_frameless ha)
  have hheld := h.held
  rw [List.append_assoc] at hheld
  have hheld' : Held { m with ll } (es₁ ++ (es₂ ++ es₀)) g := held_congr hheld rfl rfl
  obtain ⟨hu, -, es', hst, hfl', hnames, hk'⟩ :=
    op_shifts E ha { m with ll } es₁ (es₂ ++ es₀) hheld'.stacked hfl hk₁
  have hafter := h.after
  rw [hll] at hafter
  refine ⟨es' ++ es₂, ?_, ?_, ?_, ?_, ?_⟩
  · rw [List.append_assoc]
    exact hheld'.untouched hu hfl hst hfl'
  · rw [hu.ll, List.map_append, hk' () hok, hk₂]
    exact hrest
  · intro d hd
    rcases List.mem_append.mp hd with hd | hd
    · rcases hnames _ hd rfl with hd | ⟨rfl, hd⟩
      · exact h.named d (List.mem_append_left _ hd)
      · obtain ⟨hzero, hs, hqlf⟩ := h.tok (beq_iff_eq.mp (typ_of_afterId rfl hafter))
        have hd' : d = ⟨m.tok.s % 4294967296, m.tok.qlf % 256⟩ := Entry.tmp.inj hd
        rw [hd', Nat.mod_eq_of_lt hs, Nat.mod_eq_of_lt hqlf]
        exact hzero
    · exact h.named d (List.mem_append_right _ hd)
  · rw [hu.ll, hu.tok]
    exact tail_afterId hafter
  · rw [hu.tok]
    exact h.tok

/-- A declaration of a short name. -/
theorem varDecl {ll : List Sym} (h : Sound E es₀ g m es) (hll : m.ll = .a .opVarDecl :: ll)
    (hshort : m.tok.qlf ≤ 248) (hok : (opVarDecl E { m with ll }).1 = .ok ()) :
    Sound E es₀ (g.act E .opVarDecl { m with ll }) (opVarDecl E { m with ll }).2 es := by
  have hafter := h.after
  have htyped := h.typed
  rw [hll] at hafter htyped
  obtain ⟨r, hks, hrest⟩ := Effect.applyAll_cons.mp htyped
  have hnm := (h.tok (beq_iff_eq.mp (typ_of_afterId rfl hafter))).1
  have hlen : (E.name m.tok.s m.tok.qlf).length ≤ 248 := by
    rw [Env.name, load_length]
    exact hshort
  have hheld : Held { m with ll } (es ++ es₀) g := held_congr h.held rfl rfl
  have hstep := (hheld.varDecl hnm hlen).1 hok
  have hkept : (opVarDecl E { m with ll }).2.ll = ll ∧
      (opVarDecl E { m with ll }).2.tok = m.tok := by
    rcases opVarDecl_cases (E := E) hheld.stacked with heq | ⟨-, heq, -⟩
    · rw [heq]
      exact ⟨rfl, rfl⟩
    · rw [heq]
      exact ⟨rfl, rfl⟩
  refine ⟨hstep, ?_, h.named, ?_, ?_⟩
  · rw [hkept.1, hks]
    exact hrest
  · rw [hkept.1, hkept.2]
    exact tail_afterId hafter
  · rw [hkept.2]
    exact h.tok

/-- The opening of a block. -/
theorem blkOpen {ll : List Sym} (h : Sound E es₀ g m es) (hll : m.ll = .a .opBlkOpen :: ll)
    (hok : (opBlkOpen { m with ll }).1 = .ok ()) :
    ∃ es', Sound E es₀ (g.act E .opBlkOpen { m with ll }) (opBlkOpen { m with ll }).2 es' := by
  have hafter := h.after
  have htyped := h.typed
  rw [hll] at hafter htyped
  obtain ⟨r, hks, hrest⟩ := Effect.applyAll_cons.mp htyped
  have hheld : Held { m with ll } (es ++ es₀) g := held_congr h.held rfl rfl
  have hstep := hheld.blkOpen.1 hok
  have hu := hheld.stacked.blkOpen.1
  refine ⟨.frame m.tab.fp m.tab.bp :: .addr (m.dataPos % 65536) :: es, hstep, ?_, ?_, ?_, ?_⟩
  · rw [hu.ll, List.map_cons, List.map_cons, hks]
    exact hrest
  · intro d hd
    rcases List.mem_cons.mp hd with hd | hd
    · cases hd
    · rcases List.mem_cons.mp hd with hd | hd
      · cases hd
      · exact h.named d hd
  · rw [hu.ll, hu.tok]
    exact tail_afterId hafter
  · rw [hu.tok]
    exact h.tok

/-- The entries that a pending closing takes off. -/
theorem closing {ll : List Sym} (h : Sound E es₀ g m es) (hll : m.ll = .a .opBlkClose :: ll) :
    ∃ f b n es', es = .frame f b :: .addr n :: es' ∧
      Held { m with ll } (.frame f b :: .addr n :: (es' ++ es₀)) g ∧
      Effect.applyAll Sym.effect ll (es'.map Entry.kind) = some [] := by
  have htyped := h.typed
  rw [hll] at htyped
  obtain ⟨r, hks, hrest⟩ := Effect.applyAll_cons.mp htyped
  obtain ⟨es₁, es', rfl, hk₁, hk₂⟩ := split_entries hks
  have hheld : Held { m with ll } (es₁ ++ es' ++ es₀) g := held_congr h.held rfl rfl
  match es₁, hk₁ with
  | [.frame f b, .addr n], _ => exact ⟨f, b, n, es', rfl, hheld, hk₂ ▸ hrest⟩

/-- The closing of a block. -/
theorem blkClose {ll : List Sym} (h : Sound E es₀ g m es) (hll : m.ll = .a .opBlkClose :: ll) :
    ∃ es', Sound E es₀ (g.act E .opBlkClose { m with ll }) (opBlkClose { m with ll }).2 es' := by
  have hafter := h.after
  rw [hll] at hafter
  obtain ⟨f, b, n, es', rfl, hheld, hrest⟩ := h.closing hll
  obtain ⟨ds, ss, m₀, ms, rfl, hstep, -⟩ := hheld.blkClose
  obtain ⟨hrun, -, -⟩ := hheld.stacked.blkClose
  refine ⟨es', hstep, ?_, fun d hd => h.named d (List.mem_cons_of_mem _
    (List.mem_cons_of_mem _ hd)), ?_, ?_⟩
  · rw [hrun]
    exact hrest
  · rw [hrun]
    exact tail_afterId hafter
  · rw [hrun]
    exact h.tok

end Sound

/-- A round keeps the invariant, as long as the names that it declares are short. -/
theorem sound_round {E : Env} {es₀ es : List Entry} {g₀ : Ghost} {tr : Trace} {t : Text}
    {p p' : Parse} (h : Sound E es₀ (history E g₀ tr) p.m es) (hahead : p.ahead.Good E)
    (ht : Source E t) (hround : Round E t p p') (hshort : ShortNames (record p tr)) :
    (∃ es', Sound E es₀ (history E g₀ (record p tr)) p'.m es') ∧ p'.ahead.Good E := by
  cases hround with
  | idle hll =>
      rw [record, hll]
      exact ⟨⟨es, h⟩, hahead⟩
  | @terminal a ll tok off hll ha hscan =>
      have hafter := h.after
      have htyped := h.typed
      rw [hll] at hafter htyped
      obtain ⟨r, hks, hrest⟩ := Effect.applyAll_cons.mp htyped
      rw [record, hll]
      refine ⟨⟨es, Sound.held_congr h.held rfl rfl, ?_, h.named, ?_, hahead⟩,
        lexerScan_good ht 65536 hscan⟩
      · rw [hks]
        exact hrest
      · rw [← ha]
        exact hafter
  | @nonterminal a ll w hll hpush =>
      have hafter := h.after
      have htyped := h.typed
      rw [hll] at hafter htyped
      obtain ⟨r, hr, rfl⟩ := microjsLlPush_mem hpush
      have heffect : Effect.applyAll Sym.effect (ruleVec r) (Sym.effect (.n a)).pops =
          some (Sym.effect (.n a)).pushes := productions_effect a r hr
      rw [record, hll]
      refine ⟨⟨es, Sound.held_congr h.held rfl rfl, Effect.applyAll_replace heffect htyped,
        h.named, ?_, h.tok⟩, hahead⟩
      exact afterId_append (afterId_mono _ (productions_afterId a r hr)) hafter
  | @action a ll hll hok =>
      have hrecord : record p tr = (a, { p.m with ll }) :: tr := by
        rw [record, hll]
      rw [hrecord] at hshort ⊢
      refine ⟨?_, hahead⟩
      by_cases ha : a.scoping = false
      · rw [history, Ghost.act_eq ha]
        exact h.action hll ha hok
      · cases a with
        | opVarDecl =>
            exact ⟨es, h.varDecl hll (hshort _ List.mem_cons_self rfl) hok⟩
        | opBlkOpen => exact h.blkOpen hll hok
        | opBlkClose => exact h.blkClose hll
        | _ => exact (ha rfl).elim

end YardIce.MicroJs
