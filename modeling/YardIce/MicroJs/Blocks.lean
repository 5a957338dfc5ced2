import YardIce.MicroJs.Discipline
import YardIce.MicroJs.Objects

/-!
# Declarations and blocks

What a declaration and the opening and closing of a block do to the stack of the symbol
table, whatever the names are, and what they do to the scopes when the names are short.
-/

namespace YardIce.MicroJs

open YardIce.Lib

/-! ## Opening -/

theorem symPush_error (bs : List Nat) (tab : Symtab) (h : ∀ a, (symPush bs tab).1 ≠ .ok a) :
    (symPush bs tab).2 = tab ∧ tab.sp < tab.bp + 2 + bs.length := by
  unfold symPush at h ⊢
  split_ifs at h ⊢ with hroom
  · exact (h () rfl).elim
  · exact ⟨rfl, Nat.lt_of_not_le hroom⟩

theorem symSfPush_error {tab : Symtab} (h : tab.sp < tab.bp + 6) :
    symSfPush tab = (.error .symPushFail, tab) := by
  have hlen : (le16 tab.fp ++ le16 tab.bp).length = 4 := rfl
  have hfail : symPush (le16 tab.fp ++ le16 tab.bp) tab = (.error .symPushFail, tab) := by
    rw [symPush, if_neg (by lia)]
  simp only [symSfPush, Attempt.run_bind, Attempt.run_read, Attempt.andThen_ok, hfail,
    Attempt.andThen_error]

theorem run_opBlkOpen (m : Sdt) :
    opBlkOpen m = ((symSfPush (symPush (le16 m.dataPos) m.tab).2).1,
      { m with tab := (symSfPush (symPush (le16 m.dataPos) m.tab).2).2 }) := rfl

/-- The opening of a block adds a frame above the position in the data memory, or fails. -/
theorem Stacked.blkOpen {m : Sdt} {es : List Entry} (h : Stacked m.tab es) :
    Untouched es m (opBlkOpen m).2 ∧
      ((opBlkOpen m).1 = .ok () ∧ Stacked (opBlkOpen m).2.tab
          (.frame m.tab.fp m.tab.bp :: .addr (m.dataPos % 65536) :: es) ∨
        (∀ a, (opBlkOpen m).1 ≠ .ok a) ∧
          ∃ es', Frameless es' ∧ Stacked (opBlkOpen m).2.tab (es' ++ es)) := by
  have hsp := h.sp_add
  have hbytes : (Entry.addr (m.dataPos % 65536)).bytes = le16 m.dataPos := le16_mod m.dataPos
  rw [run_opBlkOpen]
  rcases h.push (e := .addr (m.dataPos % 65536)) (fun hk => by cases hk) (mod_half m.dataPos)
    with hfail | ⟨buf₁, hok, hst₁, hkept₁⟩
  · rw [hbytes] at hfail
    obtain ⟨-, hroom⟩ := symPush_error (le16 m.dataPos) m.tab fun a ha => by
      rw [hfail] at ha
      cases ha
    have hlen : (le16 m.dataPos).length = 2 := rfl
    have hfail₂ : symSfPush m.tab = (.error .symPushFail, m.tab) := symSfPush_error (by lia)
    simp only [hfail, hfail₂]
    exact ⟨Untouched.refl es m, Or.inr ⟨fun a ha => (by cases ha), [],
      fun e he => (List.not_mem_nil he).elim, h⟩⟩
  · rw [hbytes] at hok hst₁
    rw [hok]
    rcases hst₁.frame with hfail | ⟨buf₂, hok₂, hst₂, hkept₂⟩
    · rw [hfail]
      refine ⟨⟨rfl, rfl, rfl, rfl, rfl, rfl, fun i hi => hkept₁ i (hi.imp id fun hi => ?_)⟩,
        Or.inr ⟨fun a ha => (by cases ha), [.addr (m.dataPos % 65536)], ?_, hst₁⟩⟩
      · lia
      · exact List.forall_mem_singleton.mpr fun hk => (by cases hk)
    · rw [hok₂]
      refine ⟨⟨rfl, rfl, rfl, rfl, rfl, rfl, fun i hi => ?_⟩, Or.inl ⟨rfl, hst₂⟩⟩
      rcases hi with hi | hi
      · exact (hkept₂ i (Or.inl hi)).trans (hkept₁ i (Or.inl hi))
      · have hi' : m.tab.sp ≤ i := by lia
        have hi₁ : m.tab.sp - (le16 m.dataPos).length ≤ i := by lia
        exact (hkept₂ i (Or.inr hi₁)).trans (hkept₁ i (Or.inr hi'))

theorem agrees_frame : Attempt.Agrees (onTab symSfPush) Sdt.Alike := by
  rintro m m' ⟨tab', htab, rfl⟩
  obtain ⟨hout, tab'', htab'', heq⟩ :=
    agrees_push (le16 m.tab.fp ++ le16 m.tab.bp) m { m with tab := tab' } ⟨tab', htab, rfl⟩
  simp only [onTab, Attempt.on] at hout htab'' heq
  have hsame : (symPush (le16 m.tab.fp ++ le16 m.tab.bp) tab').2 = tab'' :=
    congrArg Sdt.tab heq
  simp only [onTab, Attempt.on, symSfPush, Attempt.run_bind, Attempt.run_read,
    Attempt.andThen_ok, htab.fp, htab.bp]
  cases hrun : symPush (le16 m.tab.fp ++ le16 m.tab.bp) m.tab with
  | mk o tab₁ =>
      cases hrun' : symPush (le16 m.tab.fp ++ le16 m.tab.bp) tab' with
      | mk o' tab₁' =>
          rw [hrun, hrun'] at hout
          rw [hrun] at htab''
          rw [hrun'] at hsame
          obtain rfl : o = o' := hout
          obtain rfl : tab₁' = tab'' := hsame
          cases o with
          | error e => exact ⟨rfl, tab₁', htab'', rfl⟩
          | ok u => exact ⟨rfl, { tab₁' with fp := tab₁'.sp }, ⟨htab''.sp, htab''.bp, htab''.sp,
              htab''.top, htab''.low, htab''.high⟩, rfl⟩

theorem agrees_blkOpen : Attempt.Agrees opBlkOpen Sdt.Alike :=
  Attempt.agrees_bind (Silent.read fun _ _ => rfl).agrees fun _ =>
    Attempt.agrees_bind (Attempt.agrees_ignoring (agrees_push _)) fun _ => agrees_frame

theorem noEof_blkOpen (m : Sdt) : (opBlkOpen m).1 ≠ .error .unexpectedEof := by
  rw [run_opBlkOpen]
  generalize (symPush (le16 m.dataPos) m.tab).2 = tab
  simp only [symSfPush, Attempt.run_bind, Attempt.run_read, Attempt.andThen_ok, symPush]
  split_ifs with hroom
  · exact fun h => by cases h
  · exact fun h => by cases h

/-! ## Closing -/

/-- The closing of a block takes the frame off and gives back what it remembers. -/
theorem Stacked.blkClose {m : Sdt} {es : List Entry} {f b n : Nat}
    (h : Stacked m.tab (.frame f b :: .addr n :: es)) :
    opBlkClose m = (.ok (), { m with
        dataPos := n
        tab := { m.tab with
          sp := m.tab.sp + 6, fp := f, bp := b, buf := store m.tab.buf (b + 1) [0] } }) ∧
      Stacked (opBlkClose m).2.tab es ∧ b ≤ m.tab.bp := by
  obtain ⟨hpop, hst, hb⟩ := h.unframe
  have hn : n < 65536 := h.fits _ (List.mem_cons_of_mem _ List.mem_cons_self)
  obtain ⟨haddr, hst'⟩ := hst.pop fun hk => by cases hk
  have hlen : (Entry.addr n).bytes.length = 2 := rfl
  have hbytes : (Entry.addr n).bytes = le16 n := rfl
  rw [hlen, hbytes] at haddr
  rw [hlen] at hst'
  have hrun : opBlkClose m = (.ok (), { m with
      dataPos := n, tab := { symSfPop m.tab with sp := (symSfPop m.tab).sp + 2 } }) := by
    simp only [opBlkClose, symAddrPop, onTab, Attempt.on, Attempt.run_bind, Attempt.run_update,
      Attempt.run_map, Attempt.andThen_ok, haddr, Attempt.run_pure, ofBytes_le16 hn]
  refine ⟨?_, ?_, hb⟩
  · rw [hrun, hpop]
  · rw [hrun]
    exact hst'

/-! ## Declaring -/

/-- The state after a declaration of a new name. -/
def declaredSdt (m : Sdt) (nm : List Nat) : Sdt :=
  let addr := (m.dataPos + 3) / 4 * 4
  let pos := (addr + sizeofWord) % 65536
  { m with
    dataPos := pos
    tab := { m.tab with
      buf := declared m.tab.buf m.tab.bp
        (if m.tab.fp = m.tab.top then symObjGlobal else 0) addr nm
      bp := m.tab.bp + (sizeofSymObj + nm.length + 1)
      dataSz := max m.tab.dataSz pos } }

theorem run_opVarDecl (E : Env) (m : Sdt) :
    opVarDecl E m =
      if (symObjScopeLookup m.tab (E.name m.tok.s m.tok.qlf)).isSome then (.ok (), m)
      else if m.tab.sp < m.tab.bp + (sizeofSymObj + (E.name m.tok.s m.tok.qlf).length + 1) + 2 then
        (.error .objNewFail, m)
      else (.ok (), declaredSdt m (E.name m.tok.s m.tok.qlf)) := by
  simp only [opVarDecl, Attempt.run_bind, Attempt.run_read, Attempt.andThen_ok]
  cases symObjScopeLookup m.tab (E.name m.tok.s m.tok.qlf) with
  | some pos => rfl
  | none =>
      by_cases hroom : m.tab.sp <
          m.tab.bp + (sizeofSymObj + (E.name m.tok.s m.tok.qlf).length + 1) + 2
      · have hnew : symObjNew (E.name m.tok.s m.tok.qlf) m.tab = (.error .objNewFail, m.tab) :=
          if_pos hroom
        rw [if_pos hroom]
        simp only [Attempt.run_bind, onTab, Attempt.on, hnew, Attempt.andThen_error]
        rfl
      · have hnew : symObjNew (E.name m.tok.s m.tok.qlf) m.tab = (.ok m.tab.bp, _) :=
          if_neg hroom
        rw [if_neg hroom]
        simp only [Attempt.run_bind, onTab, Attempt.on, hnew, Attempt.andThen_ok]
        rfl

/-- A declaration leaves the stack as it is. -/
theorem Stacked.declare {m : Sdt} {es : List Entry} (h : Stacked m.tab es) {nm : List Nat}
    (hroom : m.tab.bp + (sizeofSymObj + nm.length + 1) + 2 ≤ m.tab.sp) :
    Stacked (declaredSdt m nm).tab es := by
  refine ⟨?_, h.sp_add, h.linked.mono (Nat.le_add_right _ _), h.fits, hroom, h.top_lt⟩
  have hsix : sizeofSymObj = 6 := rfl
  refine (load_congr fun i hi _ => declared_ge _ _ _ _ ?_).trans h.bytes
  have hi' : m.tab.sp ≤ i := hi
  lia

/-- What a pending declaration can do: nothing for a known name, fail without room, or add
the object. -/
theorem opVarDecl_cases {E : Env} {m : Sdt} {es : List Entry} (h : Stacked m.tab es) :
    (opVarDecl E m).2 = m ∨
      ((opVarDecl E m).1 = .ok () ∧
        (opVarDecl E m).2 = declaredSdt m (E.name m.tok.s m.tok.qlf) ∧
        Stacked (opVarDecl E m).2.tab es) := by
  rw [run_opVarDecl]
  split_ifs with hknown hroom
  · exact Or.inl rfl
  · exact Or.inl rfl
  · exact Or.inr ⟨rfl, rfl, h.declare (Nat.le_of_not_lt hroom)⟩

/-! ## The scopes -/

/-- What a declaration adds to the history. -/
def Ghost.declare (g : Ghost) (nm : List Nat) (pos : Nat) : Ghost :=
  match g.scopes with
  | [] => g
  | ds :: rest =>
      if ds.any fun d => d.nm = nm then g else { g with scopes := (⟨nm, pos⟩ :: ds) :: rest }

/-- The closing of a block gives back the table in which it was opened, but for the bytes
below its stack. -/
structure Reopened (m m₀ : Sdt) : Prop where
  sp_eq : m.tab.sp = m₀.tab.sp
  fp_eq : m.tab.fp = m₀.tab.fp
  bp_eq : m.tab.bp = m₀.tab.bp
  pos_eq : m.dataPos = m₀.dataPos
  kept : ∀ i, m₀.tab.sp ≤ i → i < m₀.tab.top → m.tab.buf i = m₀.tab.buf i

namespace Held

variable {m m' : Sdt} {es es' r : List Entry} {g : Ghost}

/-- What an action does to the stack does not change the scopes. -/
theorem untouched (h : Held m (es ++ r) g) (hu : Untouched r m m') (hfl : Frameless es)
    (hst : Stacked m'.tab (es' ++ r)) (hfl' : Frameless es') : Held m' (es' ++ r) g := by
  have hblocks : blocks (es' ++ r) = blocks (es ++ r) := by
    rw [blocks_append hfl', blocks_append hfl]
  refine ⟨hst, ?_, ?_, hu.pos.trans h.data⟩
  · rw [hu.top, hu.bp, hblocks]
    exact h.scopes.congr fun i hi => hu.buf i (Or.inl (Nat.le_succ_of_le hi))
  · rw [hu.bp, hu.buf _ (Or.inl (Nat.le_refl _)), h.term]

theorem count_le (h : Held m es g) : 7 * declCount g.scopes ≤ m.tab.bp :=
  h.scopes.chain.length_le

theorem blkOpen (h : Held m es g) :
    ((opBlkOpen m).1 = .ok () → Held (opBlkOpen m).2
        (.frame m.tab.fp m.tab.bp :: .addr (m.dataPos % 65536) :: es)
        ⟨[] :: g.scopes, m :: g.opens⟩) ∧
      ((∀ a, (opBlkOpen m).1 ≠ .ok a) →
        ∃ es', Frameless es' ∧ Held (opBlkOpen m).2 (es' ++ es) g) := by
  have hcount := h.count_le
  have hbp := h.bp_lt
  have htop := h.stacked.top_lt
  have hdata := h.data
  obtain ⟨hu, hcases⟩ := h.stacked.blkOpen
  constructor
  · intro hok
    obtain ⟨-, hst⟩ := hcases.resolve_right fun hfail => hfail.1 () hok
    have haddr : m.dataPos % 65536 = 4 * declCount g.scopes := by lia
    rw [haddr] at hst ⊢
    refine ⟨hst, ?_, ?_, hu.pos.trans h.data⟩
    · rw [hu.top, hu.bp]
      refine .inner (h.scopes.congr fun i hi => hu.buf i (Or.inl (Nat.le_succ_of_le hi)))
        ⟨h.stacked, rfl, rfl, h.data⟩ .nil
    · rw [hu.bp, hu.buf _ (Or.inl (Nat.le_refl _)), h.term]
  · intro hfail
    obtain ⟨-, es', hfl, hst⟩ := hcases.resolve_left fun hok => hfail () hok.1
    have h' : Held m ([] ++ es) g := h
    exact ⟨es', hfl, h'.untouched hu (fun e he => (List.not_mem_nil he).elim) hst hfl⟩

theorem blkClose {f b n : Nat} (h : Held m (.frame f b :: .addr n :: es) g) :
    ∃ ds ss m₀ ms, g = ⟨ds :: ss, m₀ :: ms⟩ ∧ Held (opBlkClose m).2 es ⟨ss, ms⟩ ∧
      Reopened (opBlkClose m).2 m₀ := by
  obtain ⟨hrun, hst, hb⟩ := h.stacked.blkClose
  have hscopes := h.scopes
  have hg : g = ⟨g.scopes, g.opens⟩ := rfl
  generalize g.scopes = ss at hscopes hg
  generalize g.opens = ms at hscopes hg
  cases hscopes with
  | @inner _ ss ms m₀ _ ds _ _ hrest hopened hseg =>
      have hlow (i : Nat) (hi : i ≤ b) : store m.tab.buf (b + 1) [0] i = m.tab.buf i :=
        store_lt _ _ (Nat.lt_succ_of_le hi)
      refine ⟨ds, ss, m₀, ms, hg, ⟨hst, ?_, ?_, ?_⟩, ?_⟩
      · rw [hrun]
        exact hrest.congr hlow
      · rw [hrun]
        have hterm : store m.tab.buf (b + 1) [0] (b + 1) = 0 :=
          store_at m.tab.buf [0] (i := 0) Nat.one_pos
        exact hterm
      · rw [hrun]
      · have htop : (opBlkClose m).2.tab.top = m₀.tab.top := by
          rw [hrun, hopened.top_eq]
        obtain ⟨hsp, hfp, hkept⟩ := hopened.stacked.unique hst htop
        refine ⟨hsp, hfp, ?_, ?_, hkept⟩
        · rw [hrun, hopened.bp_eq]
        · rw [hrun, hopened.pos_eq]

/-- A declaration adds its name to the innermost scope, if it is not there. -/
theorem varDecl {E : Env} (h : Held m es g) (hnm : 0 ∉ E.name m.tok.s m.tok.qlf)
    (hlen : (E.name m.tok.s m.tok.qlf).length ≤ 248) :
    ((opVarDecl E m).1 = .ok () →
        Held (opVarDecl E m).2 es (g.declare (E.name m.tok.s m.tok.qlf) m.tab.bp)) ∧
      ((∀ a, (opVarDecl E m).1 ≠ .ok a) → (opVarDecl E m).2 = m) := by
  obtain ⟨ds, rest, hg, hseg⟩ := h.scopes.scope
  have hlookup := h.symObjScopeLookup hnm hg
  rw [run_opVarDecl]
  generalize E.name m.tok.s m.tok.qlf = nm at hnm hlen hlookup ⊢
  have hknown : (MicroJs.symObjScopeLookup m.tab nm).isSome = ds.any fun d => d.nm = nm := by
    rw [hlookup, Option.isSome_map, List.isSome_find?, List.any_reverse]
  rw [hknown, Ghost.declare, hg]
  dsimp only
  split_ifs with hany hroom
  · exact ⟨fun _ => h, fun hfail => (hfail () rfl).elim⟩
  · exact ⟨fun hok => (by cases hok), fun _ => rfl⟩
  · refine ⟨fun _ => ?_, fun hfail => (hfail () rfl).elim⟩
    have hcount := h.count_le
    have hbp := h.bp_lt
    have htop := h.stacked.top_lt
    have hdata := h.data
    have hshort : (Decl.mk nm m.tab.bp).Short := ⟨hnm, hlen⟩
    have haddr : (m.dataPos + 3) / 4 * 4 = 4 * declCount g.scopes := by lia
    obtain ⟨hobj, hprev, hterm⟩ := declared_objAt m.tab.buf
      (if m.tab.fp = m.tab.top then symObjGlobal else 0) (4 * declCount g.scopes) hshort
    have hlow (i : Nat) (hi : i ≤ m.tab.bp) :
        declared m.tab.buf m.tab.bp (if m.tab.fp = m.tab.top then symObjGlobal else 0)
          (4 * declCount g.scopes) nm i = m.tab.buf i := declared_le _ _ _ _ hi
    refine ⟨h.stacked.declare (Nat.le_of_not_lt hroom), ?_, ?_, ?_⟩
    · simp only [declaredSdt, haddr]
      exact (h.scopes.congr hlow).declare hg hshort hobj hprev
    · simp only [declaredSdt, haddr]
      exact hterm
    · have hnew : declCount ((⟨nm, m.tab.bp⟩ :: ds) :: rest) = declCount g.scopes + 1 := by
        rw [hg, declCount, declCount, List.flatten_cons, List.flatten_cons, List.cons_append,
          List.length_cons]
      simp only [declaredSdt, hnew, haddr, sizeofWord]
      lia

end Held

end YardIce.MicroJs
