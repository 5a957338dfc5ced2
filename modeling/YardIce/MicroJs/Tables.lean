import YardIce.MicroJs.Programs

/-!
# Tables between compilations

What a symbol table looks like when no compilation is under way: the global declarations,
no frame, and at most the reference to the default exception handler on its stack.
-/

namespace YardIce.MicroJs

open YardIce.Lib

/-- The table has the entries `es`, none of them a frame, and the global declarations `ds`. -/
structure WellFormed (tab : Symtab) (es : List Entry) (ds : List Decl) : Prop where
  stacked : Stacked tab es
  refs : ∀ e ∈ es, e.kind = .ref
  seg : Seg tab.buf 0 0 ds tab.bp
  first : tab.buf 0 = 0
  term : tab.buf (tab.bp + 1) = 0

theorem refs_frameless {es : List Entry} (h : ∀ e ∈ es, e.kind = .ref) : Frameless es :=
  fun e he hk => by
    rw [h e he] at hk
    cases hk

theorem refs_blocks {es : List Entry} (h : ∀ e ∈ es, e.kind = .ref) : blocks es = [] := by
  have hblocks := blocks_append (refs_frameless h) []
  rw [List.append_nil] at hblocks
  exact hblocks

namespace WellFormed

variable {tab : Symtab} {es : List Entry} {ds : List Decl}

theorem held (h : WellFormed tab es ds) {m : Sdt} (htab : m.tab = tab)
    (hpos : m.dataPos = 4 * ds.length) : Held m es ⟨[ds], []⟩ := by
  subst htab
  refine ⟨h.stacked, ?_, h.term, ?_⟩
  · rw [refs_blocks h.refs]
    exact .outer h.seg h.first
  · rw [hpos, declCount, List.flatten_singleton]

theorem fp_eq (h : WellFormed tab es ds) : tab.fp = tab.top := by
  have hlinked := h.stacked.linked
  have hnil := (Linked.append_iff (r := []) (refs_frameless h.refs)).mp (by
    rw [List.append_nil]
    exact hlinked)
  exact hnil

/-- A table without open blocks. -/
theorem of_held {m : Sdt} {g : Ghost} (h : Held m es g) (hrefs : ∀ e ∈ es, e.kind = .ref) :
    ∃ ds, g = ⟨[ds], []⟩ ∧ WellFormed m.tab es ds := by
  have hscopes := h.scopes
  have hg : g = ⟨g.scopes, g.opens⟩ := rfl
  rw [refs_blocks hrefs] at hscopes
  generalize g.scopes = ss at hscopes hg
  generalize g.opens = ms at hscopes hg
  cases hscopes with
  | outer hseg h0 => exact ⟨_, hg, h.stacked, hrefs, hseg, h0, h.term⟩

theorem count_lt (h : WellFormed tab es ds) : 4 * ds.length < 65536 := by
  have hlen := h.seg.length_le
  have hsp := h.stacked.sp_le
  have hroom := h.stacked.room
  have htop := h.stacked.top_lt
  omega

/-- `symtab_data_size` counts the words of the declarations. -/
theorem dataSize (h : WellFormed tab es ds) : symtabDataSize tab = 4 * ds.length := by
  have hsp := h.stacked.sp_le
  have hroom := h.stacked.room
  have htop := h.stacked.top_lt
  have hlen := h.seg.length_le
  have hfuel : 65536 = ds.length + (65535 - ds.length + 1) := by omega
  rw [symtabDataSize, hfuel, h.seg.dataSizeUp, dataSizeUp, if_pos h.term, Nat.add_zero]

/-- Both lookups search the declarations. -/
theorem lookups (h : WellFormed tab es ds) {nm : List Nat} (hnm : 0 ∉ nm) :
    symObjLookup tab nm = (ds.find? fun d => d.nm = nm).map Decl.pos ∧
      symObjScopeLookup tab nm = (ds.reverse.find? fun d => d.nm = nm).map Decl.pos := by
  have hheld : Held ⟨Token.plain .eof, tab, ⟨[], 0⟩, fun _ => 0, 0, 0, 0, 4 * ds.length, [], 0⟩
    es ⟨[ds], []⟩ := h.held rfl rfl
  have hlookup := hheld.symObjLookup hnm
  rw [List.flatten_singleton] at hlookup
  exact ⟨hlookup, hheld.symObjScopeLookup hnm rfl⟩

theorem init {strs : Strbuf} {m : Sdt} (h : WellFormed tab es ds)
    (hinit : microjsSdtInit tab strs = some m) :
    Held m es ⟨[ds], []⟩ ∧ m.tab = tab ∧ m.tok = Token.plain .eof := by
  simp only [microjsSdtInit] at hinit
  split_ifs at hinit with hfits
  obtain rfl := Option.some.inj hinit
  refine ⟨h.held rfl ?_, rfl, rfl⟩
  rw [h.dataSize, Nat.mod_eq_of_lt h.count_lt]

end WellFormed

/-- `symtab_init` gives a table without entries and declarations. -/
theorem symtabInit_wellFormed (buf : Nat → Nat) {bufLen : Nat} (hmin : 14 ≤ bufLen)
    (hmax : bufLen ≤ 65547) : WellFormed (symtabInit buf bufLen) [] [] := by
  have htop : (bufLen - 12) % 65536 = bufLen - 12 := Nat.mod_eq_of_lt (by omega)
  have hroom : 0 + 2 ≤ (bufLen - 12) % 65536 := by omega
  exact ⟨⟨rfl, rfl, rfl, fun e he => (List.not_mem_nil he).elim, hroom,
    Nat.mod_lt _ (Nat.succ_pos _)⟩, fun e he => (List.not_mem_nil he).elim, .nil, rfl, rfl⟩

/-- The code of the beginning behind the push of the reference. -/
def beginTail (E : Env) : Op := do
  saveSpc E
  reserve opcPushx
  tgtStackPush

theorem beginTail_silent (E : Env) : Silent (beginTail E) :=
  (Silent.saveSpc E).bind fun _ => (Silent.reserve _).bind fun _ => Silent.tgtStackPush

theorem beginCode_run (E : Env) (m : Sdt) :
    beginCode E m = beginTail E (if m.tab.isEmpty then (symRefPush ⟨0⟩ m).2 else m) := by
  simp only [beginCode, Attempt.run_bind, Attempt.run_read, Attempt.andThen_ok]
  split_ifs
  · rfl
  · rfl

/-- What a beginning does to the table: it may push the reference. -/
theorem beginCode_stacked {E : Env} {m : Sdt} {es : List Entry} (h : Stacked m.tab es) :
    Untouched es m (beginCode E m).2 ∧ ∃ es₁, (∀ e ∈ es₁, e.kind = .ref) ∧
      Stacked (beginCode E m).2.tab (es₁ ++ es) := by
  rw [beginCode_run]
  have hpush : Untouched es m (if m.tab.isEmpty then (symRefPush ⟨0⟩ m).2 else m) ∧
      ∃ es₁, (∀ e ∈ es₁, e.kind = .ref) ∧
        Stacked (if m.tab.isEmpty then (symRefPush ⟨0⟩ m).2 else m).tab (es₁ ++ es) := by
    split_ifs
    · rcases h.push (e := .ref ⟨0⟩) (fun hk => by cases hk) (Nat.succ_pos _) with
        hfail | ⟨buf', hok, hst, hkept⟩
      · have hrun : (symRefPush ⟨0⟩ m).2 = m := by
          have hfail' : symPush (Ref.bytes ⟨0⟩) m.tab = (.error .symPushFail, m.tab) := hfail
          simp only [symRefPush, onTab, Attempt.on, hfail']
        rw [hrun]
        exact ⟨Untouched.refl es m, [], fun e he => (List.not_mem_nil he).elim, h⟩
      · have hok' : symPush (Ref.bytes ⟨0⟩) m.tab = (.ok (), { m.tab with
            buf := buf', sp := m.tab.sp - (Entry.ref ⟨0⟩).bytes.length }) := hok
        simp only [symRefPush, onTab, Attempt.on, hok']
        refine ⟨⟨rfl, rfl, rfl, rfl, rfl, rfl, fun i hi => hkept i (hi.imp id fun hi => ?_)⟩,
          [.ref ⟨0⟩], fun e he => by rw [List.mem_singleton.mp he]; rfl, hst⟩
        have hsp := h.sp_add
        omega
    · exact ⟨Untouched.refl es m, [], fun e he => (List.not_mem_nil he).elim, h⟩
  generalize (if m.tab.isEmpty then (symRefPush ⟨0⟩ m).2 else m) = m₁ at hpush
  obtain ⟨hu, es₁, hrefs, hst⟩ := hpush
  have hk := (beginTail_silent E).keeps m₁
  refine ⟨hu.trans ⟨hk.tok, hk.ll, hk.pos, hk.top, hk.bp, hk.size,
    fun i _ => congrFun hk.buf i⟩, es₁, hrefs, ?_⟩
  exact hst.congr hk.sp hk.fp hk.bp hk.top fun i _ => congrFun hk.buf i

end YardIce.MicroJs
