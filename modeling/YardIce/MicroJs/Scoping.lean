import YardIce.MicroJs.Rollback

/-!
# Lexical scoping

In every state of every compilation, whatever was compiled before with the same symbol
table, a lookup finds the innermost declaration, the words of the variables in scope are
disjoint, and the closing of a block gives back what was there at its opening: as long as
no declared name is longer than the links of the objects allow.
-/

namespace YardIce.MicroJs

open YardIce.Lib

/-! ## Sessions -/

/-- The declarations of the global scope. -/
def Ghost.global (g : Ghost) : List Decl := g.scopes.getLastD []

/-- The tables between compilations that share one, with the global declarations: the fresh
one, those that a whole program leaves, and those to which a stopped compilation is rolled
back that has created no global object. -/
inductive Between : Symtab → List Decl → Prop
  | init (buf : Nat → Nat) {bufLen : Nat} : 14 ≤ bufLen → bufLen ≤ 65547 →
      Between (symtabInit buf bufLen) []
  | done {E : Env} {tab : Symtab} {ds : List Decl} {m₀ : Sdt} {tr : Trace} {t : Text}
      {p : Parse} : Between tab ds → Begins E tab m₀ → Compiling E m₀ tr t p → ShortNames tr →
      p.m.ll = [] → Between p.m.tab (history E ⟨[ds], []⟩ tr).global
  | ended {E : Env} {tab : Symtab} {ds : List Decl} {m₀ : Sdt} {tr : Trace} {t : Text}
      {p : Parse} : Between tab ds → Begins E tab m₀ → Compiling E m₀ tr t p → ShortNames tr →
      p.m.ll = [] → Between (microjsSdtEnd p.m).2.tab (history E ⟨[ds], []⟩ tr).global
  | undone {E : Env} {tab : Symtab} {ds : List Decl} {m₀ : Sdt} {tr : Trace} {m : Sdt} :
      Between tab ds → Begins E tab m₀ → Stopped E m₀ tr m → globals E tr = [] →
      Between (m.undo tab).tab ds

/-! ## What is claimed of a state -/

/-- The innermost declaration of a name. -/
def Ghost.innermost (g : Ghost) (nm : List Nat) : Option Decl :=
  g.scopes.findSome? fun ds => ds.find? fun d => d.nm = nm

/-- The table is the one that lexical scoping asks for. -/
structure Scoped (m : Sdt) (g : Ghost) : Prop where
  lookup : ∀ nm, 0 ∉ nm → symObjLookup m.tab nm = (g.innermost nm).map Decl.pos
  disjoint : g.scopes.flatten.Pairwise fun d e =>
    m.tab.objAddr e.pos + sizeofWord ≤ m.tab.objAddr d.pos
  closing : ∀ ll, m.ll = .a .opBlkClose :: ll → ∃ m₀ ms, g.opens = m₀ :: ms ∧
    (opBlkClose { m with ll }).1 = .ok () ∧ Reopened (opBlkClose { m with ll }).2 m₀

theorem Held.innermost {m : Sdt} {es : List Entry} {g : Ghost} (h : Held m es g) {nm : List Nat}
    (hnm : 0 ∉ nm) : MicroJs.symObjLookup m.tab nm = (g.innermost nm).map Decl.pos := by
  rw [h.symObjLookup hnm, Ghost.innermost, List.find?_flatten]

theorem Sound.scoped {E : Env} {es₀ es : List Entry} {g : Ghost} {m : Sdt}
    (h : Sound E es₀ g m es) : Scoped m g := by
  refine ⟨fun nm hnm => h.held.innermost hnm, ?_, fun ll hll => ?_⟩
  · have htop := h.held.stacked.top_lt
    have hbp := h.held.bp_lt
    exact h.held.scopes.chain.disjoint (by lia)
  · obtain ⟨f, b, n, es', -, hheld, -⟩ := h.closing hll
    obtain ⟨ds, ss, m₀, ms, rfl, -, hreopened⟩ := hheld.blkClose
    obtain ⟨hrun, -, -⟩ := hheld.stacked.blkClose
    exact ⟨m₀, ms, rfl, by rw [hrun], hreopened⟩

/-! ## Every session -/

theorem wellFormed_congr {tab tab' : Symtab} {es : List Entry} {ds : List Decl}
    (h : WellFormed tab es ds) (halike : tab.Alike tab') : WellFormed tab' es ds := by
  refine ⟨h.stacked.congr halike.sp halike.fp halike.bp halike.top halike.high, h.refs, ?_, ?_, ?_⟩
  · rw [halike.bp]
    exact h.seg.congr fun i hi => halike.low i (Nat.le_succ_of_le hi)
  · rw [halike.low 0 (Nat.zero_le _), h.first]
  · rw [halike.bp, halike.low _ (Nat.le_refl _), h.term]

section Sessions

variable {E : Env} {tab : Symtab} {es : List Entry} {ds : List Decl} {m₀ : Sdt} {tr : Trace}
  {t : Text} {p : Parse}

/-- A compilation starts in a sound state. -/
theorem sound_start (h : WellFormed tab es ds) (hbegin : Begins E tab m₀) :
    ∃ es₁, (∀ e ∈ es₁ ++ es, e.kind = .ref) ∧ Sound E (es₁ ++ es) ⟨[ds], []⟩ m₀ [] := by
  obtain ⟨es₁, hrefs, hst, hll, htok, htop, hbp, -, hbuf⟩ := begins_stacked h.stacked hbegin
  obtain ⟨strs, code, size, m, hinit, rfl⟩ := hbegin
  have hheld := (h.init hinit).1
  have hpos : (microjsSdtBegin E code size m).dataPos = 4 * ds.length := by
    have hu := (beginCode_stacked (E := E)
      (m := microjsSdtReset { m with pc := 0, cdsz := size % 65536, code }) hheld.stacked).1
    have hdata := hheld.data
    rw [declCount, List.flatten_singleton] at hdata
    exact hu.pos.trans hdata
  have hrefs' : ∀ e ∈ es₁ ++ es, e.kind = .ref := by
    intro e he
    rcases List.mem_append.mp he with he | he
    · exact hrefs e he
    · exact h.refs e he
  have hwf : WellFormed (microjsSdtBegin E code size m).tab (es₁ ++ es) ds := by
    refine ⟨hst, hrefs', ?_, ?_, ?_⟩
    · rw [hbp]
      exact h.seg.congr fun i hi => hbuf i (Or.inl (Nat.le_succ_of_le hi))
    · rw [hbuf 0 (Or.inl (Nat.zero_le _)), h.first]
    · rw [hbp, hbuf _ (Or.inl (Nat.le_refl _)), h.term]
  refine ⟨es₁, hrefs', hwf.held rfl hpos, ?_, fun d hd => (List.not_mem_nil hd).elim, ?_, ?_⟩
  · rw [hll]
    rfl
  · rw [hll]
    rfl
  · rw [htok]
    exact plainEof_good E

/-- The record only grows, so that names that are short at the end were always short. -/
theorem ShortNames.of_record (h : ShortNames (record p tr)) : ShortNames tr := by
  cases hll : p.m.ll with
  | nil =>
      rw [record, hll] at h
      exact h
  | cons sym ll =>
      cases sym with
      | a act =>
          rw [record, hll] at h
          exact fun s hs => h s (List.mem_cons_of_mem _ hs)
      | t a =>
          rw [record, hll] at h
          exact h
      | n a =>
          rw [record, hll] at h
          exact h

/-- Every state of a compilation with short names is sound. -/
theorem sound_compiling {es₀ : List Entry} {g₀ : Ghost} (h₀ : Sound E es₀ g₀ m₀ [])
    (h : Compiling E m₀ tr t p) (hshort : ShortNames tr) :
    (∃ es, Sound E es₀ (history E g₀ tr) p.m es) ∧ p.ahead.Good E := by
  induction h with
  | start _ => exact ⟨⟨[], h₀⟩, plainEof_good E⟩
  | line _ ht hadv ih =>
      obtain ⟨tok, off, hscan, rfl⟩ := advance_ok hadv
      exact ⟨(ih hshort).1, lexerScan_good (lexerOpen_source ht) 65536 hscan⟩
  | reset _ hll ih =>
      obtain ⟨⟨es, hsound⟩, hahead⟩ := ih hshort
      obtain rfl := typed_nil hsound.typed hll
      exact ⟨⟨[], Sound.held_congr hsound.held rfl rfl, rfl, hsound.named, rfl, hsound.tok⟩,
        hahead⟩
  | round hcomp hstep ih =>
      obtain ⟨⟨es, hsound⟩, hahead⟩ := ih hshort.of_record
      exact sound_round hsound hahead hcomp.source (round_of_ok hstep) hshort

/-- A whole program leaves a well formed table. -/
theorem wellFormed_done (h : WellFormed tab es ds) (hbegin : Begins E tab m₀)
    (hrun : Compiling E m₀ tr t p) (hshort : ShortNames tr) (hll : p.m.ll = []) :
    ∃ es', WellFormed p.m.tab es' (history E ⟨[ds], []⟩ tr).global := by
  obtain ⟨es₁, hrefs, h₀⟩ := sound_start h hbegin
  obtain ⟨⟨es', hsound⟩, -⟩ := sound_compiling h₀ hrun hshort
  obtain rfl := typed_nil hsound.typed hll
  obtain ⟨ds', hg, hwf⟩ := WellFormed.of_held hsound.held hrefs
  have hglobal : (history E ⟨[ds], []⟩ tr).global = ds' := by
    rw [hg]
    rfl
  exact ⟨_, hglobal ▸ hwf⟩

/-- The code at the end does not touch the table. -/
theorem microjsSdtEnd_keeps : Attempt.Keeps microjsSdtEnd Unmoved := by
  have hrest (ref : Ref) (pc : Nat) : Silent (do
      patch ref.addr pc
      emit [opcRet]
      Attempt.read fun m => m.pc) :=
    (Silent.patch _ _).bind fun _ => (Silent.emit _).bind fun _ => Silent.read fun _ _ => rfl
  exact Attempt.keeps_bind Unmoved.trans (Silent.read fun _ _ => rfl).keeps fun _ =>
    Attempt.keeps_bind Unmoved.trans (Silent.guard _ (by decide)).keeps fun _ =>
    Attempt.keeps_bind Unmoved.trans Silent.tgtStackPop.keeps fun _ =>
    Attempt.keeps_bind Unmoved.trans (Silent.emit _).keeps fun _ =>
    Attempt.keeps_bind Unmoved.trans (Silent.emit _).keeps fun _ =>
    Attempt.keeps_bind Unmoved.trans (Attempt.keeps_read Unmoved.refl _) fun ref =>
    Attempt.keeps_bind Unmoved.trans (Silent.read fun _ _ => rfl).keeps fun pc =>
      (hrest ref pc).keeps

theorem Unmoved.alike {m m' : Sdt} (h : Unmoved m m') : m.tab.Alike m'.tab :=
  ⟨h.sp, h.bp, h.fp, h.top, fun i _ => congrFun h.buf i, fun i _ => congrFun h.buf i⟩

/-- Between compilations the table is well formed. -/
theorem wellFormed_between (h : Between tab ds) : ∃ es, WellFormed tab es ds := by
  induction h with
  | init buf hmin hmax => exact ⟨[], symtabInit_wellFormed buf hmin hmax⟩
  | done _ hbegin hrun hshort hll ih =>
      obtain ⟨es, hwf⟩ := ih
      exact wellFormed_done hwf hbegin hrun hshort hll
  | ended _ hbegin hrun hshort hll ih =>
      obtain ⟨es, hwf⟩ := ih
      obtain ⟨es', hwf'⟩ := wellFormed_done hwf hbegin hrun hshort hll
      exact ⟨es', wellFormed_congr hwf' (microjsSdtEnd_keeps _).alike⟩
  | undone _ hbegin hstop hmade ih =>
      obtain ⟨es, hwf⟩ := ih
      obtain ⟨es₁, hbase, h₀, ht₀⟩ := kept_start hwf.stacked hwf.fp_eq hwf.term hbegin
      obtain ⟨es', hkept⟩ := kept_stopped hbase h₀ ht₀ hstop
      exact ⟨es, wellFormed_congr hwf (hkept.undo_alike hbase hwf.fp_eq hwf.term (by
        rw [hmade]
        rfl))⟩

/-- Scoping is lexical in every state of every compilation whose declared names have at most
248 characters. -/
theorem scoping_lexical (hb : Between tab ds) (hbegin : Begins E tab m₀)
    (hrun : Compiling E m₀ tr t p) (hshort : ShortNames tr) :
    Scoped p.m (history E ⟨[ds], []⟩ tr) := by
  obtain ⟨es, hwf⟩ := wellFormed_between hb
  obtain ⟨es₁, -, h₀⟩ := sound_start hwf hbegin
  obtain ⟨⟨es', hsound⟩, -⟩ := sound_compiling h₀ hrun hshort
  exact hsound.scoped

end Sessions

/-! ## Programs -/

/-- A compiler without externals for a program. -/
def plainEnv (src : List Nat) : Env := ⟨⟨[], []⟩, true, 60, fun i => src.getD i 32⟩

/-- The program as a text. -/
def plainText (src : List Nat) : Text := ⟨fun i => src.getD i 32, 0, src.length⟩

/-- A number of rounds on a program, from a fresh table. -/
def runPlain (src : List Nat) (n : Nat) : Option (Trace × Parse) :=
  runText (plainEnv src) (symtabInit (fun _ => 0) 600) (fun _ => 0) 100 (plainText src) n

theorem plainText_source {src : List Nat} (h : src.length ≤ 4294967296) :
    Source (plainEnv src) (plainText src) :=
  ⟨rfl, Nat.le_trans (Nat.le_of_eq (Nat.zero_add _)) h⟩

theorem fresh_between : Between (symtabInit (fun _ => 0) 600) [] :=
  .init _ (by decide) (by decide)

/-- `{var x;if(x){var x;}}`. -/
def shadowing : List Nat :=
  [123, 118, 97, 114, 32, 120, 59, 105, 102, 40, 120, 41, 123, 118, 97, 114, 32, 120, 59, 125, 125]

/-- Where the inner block is about to be closed, both declarations are in scope. -/
theorem scoping_lexical_shadowing : ∃ m₀ tr t p, Begins (plainEnv shadowing)
      (symtabInit (fun _ => 0) 600) m₀ ∧ Compiling (plainEnv shadowing) m₀ tr t p ∧
    (history (plainEnv shadowing) ⟨[[]], []⟩ tr).scopes.map List.length = [1, 1, 0] ∧
    Scoped p.m (history (plainEnv shadowing) ⟨[[]], []⟩ tr) := by
  have hrun : (runPlain shadowing 61).map (fun s =>
      ((history (plainEnv shadowing) ⟨[[]], []⟩ s.1).scopes.map List.length,
        decide (ShortNames s.1))) = some ([1, 1, 0], true) := by
    decide
  obtain ⟨s, hs, hvals⟩ := Option.map_eq_some_iff.mp hrun
  obtain ⟨hscopes, hshort⟩ := Prod.mk.inj hvals
  obtain ⟨m₀, hbegin, hcomp⟩ := runText_some (plainText_source (by decide)) hs
  exact ⟨m₀, s.1, _, s.2, hbegin, hcomp, hscopes,
    scoping_lexical fresh_between hbegin hcomp (of_decide_eq_true hshort)⟩

/-- `var` and a name of 249 characters, as a text in memory. -/
def longDecl (i : Nat) : Nat := if i < 253 then [118, 97, 114, 32].getD i 97 else 32

def longEnv : Env := ⟨⟨[], []⟩, true, 60, longDecl⟩

/-- The links of an object have eight bits: a lookup does not find a name of 249 characters
that has just been declared. -/
theorem longDecl_not_scoped : ¬ ∀ (E : Env) (tab : Symtab) (ds : List Decl) (m₀ : Sdt)
    (tr : Trace) (t : Text) (p : Parse), Between tab ds → Begins E tab m₀ →
      Compiling E m₀ tr t p → Scoped p.m (history E ⟨[ds], []⟩ tr) := by
  intro h
  have hrun : (runText longEnv (symtabInit (fun _ => 0) 600) (fun _ => 0) 100
      ⟨longDecl, 0, 253⟩ 7).map (fun s =>
        (symObjLookup s.2.m.tab (List.replicate 249 97),
          ((history longEnv ⟨[[]], []⟩ s.1).innermost (List.replicate 249 97)).map
            Decl.pos)) = some (none, some 0) := by
    decide +kernel
  obtain ⟨s, hs, hvals⟩ := Option.map_eq_some_iff.mp hrun
  obtain ⟨hlookup, hdecl⟩ := Prod.mk.inj hvals
  obtain ⟨m₀, hbegin, hcomp⟩ := runText_some ⟨rfl, by decide⟩ hs
  have hscoped := (h _ _ _ _ _ _ _ fresh_between hbegin hcomp).lookup
    (List.replicate 249 97) fun h0 => absurd (List.eq_of_mem_replicate h0) (by decide)
  rw [hlookup, hdecl] at hscoped
  cases hscoped

end YardIce.MicroJs
