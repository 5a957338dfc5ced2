import YardIce.MicroJs.Layout
import Mathlib.Data.List.TakeWhile
import Mathlib.Data.List.Pairwise

/-!
# The objects of the symbol table

What the bytes at the start of the buffer mean: the declarations of the open scopes, one
behind the other, and what the lookups find among them.

## Implementation notes

Scopes list their declarations with the last one first, and the innermost scope comes
first. A declaration carries the place of its object; its word is the one behind those of
the declarations before it.
-/

namespace YardIce.MicroJs

open YardIce.Lib

/-! ## Objects -/

/-- A declaration: its name and the place of its object. -/
structure Decl where
  nm : List Nat
  pos : Nat

/-- The bytes of the object. -/
def Decl.len (d : Decl) : Nat := sizeofSymObj + d.nm.length + 1

/-- The object of a declaration as lookups read it, with `addr` as its address. -/
structure ObjAt (buf : Nat → Nat) (d : Decl) (addr : Nat) : Prop where
  next : buf (d.pos + 1) = d.len
  size : buf (d.pos + 3) = 4
  addr : load buf (d.pos + 4) 2 = le16 addr
  nm : load buf (d.pos + 6) d.nm.length = d.nm
  nul : buf (d.pos + 6 + d.nm.length) = 0

/-- A name of a declaration: no zero, and short enough for the links. -/
def Decl.Short (d : Decl) : Prop := 0 ∉ d.nm ∧ d.nm.length ≤ 248

/-- The objects of a scope fill the buffer from `b` to `p`; `n` counts the declarations
before the scope. -/
inductive Seg (buf : Nat → Nat) (b n : Nat) : List Decl → Nat → Prop
  | nil : Seg buf b n [] b
  | cons {ds : List Decl} {d : Decl} : Seg buf b n ds d.pos → d.Short →
      ObjAt buf d (4 * (n + ds.length)) → buf (d.pos + d.len) = d.len →
      Seg buf b n (d :: ds) (d.pos + d.len)

theorem Seg.le {buf : Nat → Nat} {b n : Nat} {ds : List Decl} {p : Nat}
    (h : Seg buf b n ds p) : b ≤ p := by
  induction h with
  | nil => exact Nat.le_refl b
  | cons _ _ _ _ ih => exact Nat.le_trans ih (Nat.le_add_right _ _)

theorem ObjAt.congr {buf buf' : Nat → Nat} {d : Decl} {addr : Nat} (h : ObjAt buf d addr)
    (heq : ∀ i < d.pos + d.len, buf' i = buf i) : ObjAt buf' d addr := by
  have hlen : d.len = 7 + d.nm.length := by
    unfold Decl.len sizeofSymObj
    lia
  constructor
  · rw [heq _ (by lia), h.next]
  · rw [heq _ (by lia), h.size]
  · rw [load_congr fun i _ hi => heq i (by lia), h.addr]
  · rw [load_congr fun i _ hi => heq i (by lia), h.nm]
  · rw [heq _ (by lia), h.nul]

theorem Seg.congr {buf buf' : Nat → Nat} {b n : Nat} {ds : List Decl} {p : Nat}
    (h : Seg buf b n ds p) (heq : ∀ i ≤ p, buf' i = buf i) : Seg buf' b n ds p := by
  induction h with
  | nil => exact .nil
  | @cons ds d hseg hshort hobj hprev ih =>
      refine .cons (ih fun i hi => heq i (by lia)) hshort
        (hobj.congr fun i hi => heq i (Nat.le_of_lt hi)) ?_
      rw [heq _ (Nat.le_refl _), hprev]

/-! ## Lookups -/

theorem strncmpEq_iff (buf : Nat → Nat) (nm : List Nat) : ∀ (cs : List Nat) (pos : Nat),
    0 ∉ nm → 0 ∉ cs → load buf pos cs.length = cs → buf (pos + cs.length) = 0 →
      ((strncmpEq buf pos nm && buf (pos + nm.length) == 0) = true ↔ cs = nm) := by
  induction nm with
  | nil =>
      intro cs pos _ hcs hload hnul
      cases cs with
      | nil => simpa [strncmpEq] using hnul
      | cons c cs =>
          have hc : buf pos = c := by
            rw [List.length_cons, Nat.add_comm, load_append] at hload
            exact List.head_eq_of_cons_eq hload
          have hne : c ≠ 0 := fun h => hcs (h ▸ List.mem_cons_self)
          simp [strncmpEq, hc, hne]
  | cons a nm ih =>
      intro cs pos hnm hcs hload hnul
      have ha : a ≠ 0 := fun h => hnm (h ▸ List.mem_cons_self)
      cases cs with
      | nil =>
          have h0 : buf pos = 0 := hnul
          simp [strncmpEq, h0, Ne.symm ha]
      | cons c cs =>
          rw [List.length_cons, Nat.add_comm, load_append] at hload
          have hc : buf pos = c := List.head_eq_of_cons_eq hload
          have hrest : load buf (pos + 1) cs.length = cs := List.tail_eq_of_cons_eq hload
          have hnul' : buf (pos + 1 + cs.length) = 0 := by
            rw [← hnul, List.length_cons, Nat.add_assoc, Nat.add_comm 1]
          have hih := ih cs (pos + 1) (fun h => hnm (List.mem_cons_of_mem a h))
            (fun h => hcs (List.mem_cons_of_mem c h)) hrest hnul'
          have hlen : pos + (a :: nm).length = pos + 1 + nm.length := by
            rw [List.length_cons, Nat.add_assoc, Nat.add_comm 1]
          simp only [strncmpEq, hc, hlen, Bool.and_eq_true, beq_iff_eq, Bool.or_eq_true, ha,
            false_or, List.cons.injEq] at hih ⊢
          rw [← hih, and_assoc]

theorem nameIs_iff {buf : Nat → Nat} {d : Decl} {addr : Nat} (h : ObjAt buf d addr)
    (hshort : d.Short) {nm : List Nat} (hnm : 0 ∉ nm) :
    nameIs buf d.pos nm = true ↔ d.nm = nm :=
  strncmpEq_iff buf nm d.nm (d.pos + 6) hnm hshort.1 h.nm h.nul

theorem decl_len_pos (d : Decl) : 0 < d.len := Nat.succ_pos _

/-- The walk over a scope upwards meets its declarations from the first to the last. -/
theorem Seg.lookupUp {buf : Nat → Nat} {b n : Nat} {ds : List Decl} {p : Nat}
    (h : Seg buf b n ds p) {nm : List Nat} (hnm : 0 ∉ nm) : ∀ fuel : Nat,
      MicroJs.lookupUp buf nm (ds.length + fuel) b =
        ((ds.reverse.find? fun d => d.nm = nm).map Decl.pos).or
          (MicroJs.lookupUp buf nm fuel p) := by
  induction h with
  | nil =>
      intro fuel
      rw [List.length_nil, Nat.zero_add]
      rfl
  | @cons ds d hseg hshort hobj hprev ih =>
      intro fuel
      have hlen := decl_len_pos d
      have hstep : MicroJs.lookupUp buf nm (fuel + 1) d.pos =
          if d.nm = nm then some d.pos else MicroJs.lookupUp buf nm fuel (d.pos + d.len) := by
        rw [MicroJs.lookupUp, hobj.next, if_neg (by lia)]
        exact if_congr (nameIs_iff hobj hshort hnm) rfl rfl
      have hfuel : (d :: ds).length + fuel = ds.length + (fuel + 1) := by
        rw [List.length_cons]
        lia
      rw [hfuel, ih, hstep, List.reverse_cons, List.find?_append, List.find?_singleton]
      cases List.find? (fun d => decide (d.nm = nm)) ds.reverse with
      | some e => rfl
      | none =>
          simp only [Option.map_none, Option.none_or, decide_eq_true_eq]
          split_ifs <;> rfl

/-- The walk over all objects sums up four bytes for each. -/
theorem Seg.dataSizeUp {buf : Nat → Nat} {b n : Nat} {ds : List Decl} {p : Nat}
    (h : Seg buf b n ds p) : ∀ fuel : Nat,
      MicroJs.dataSizeUp buf (ds.length + fuel) b =
        4 * ds.length + MicroJs.dataSizeUp buf fuel p := by
  induction h with
  | nil =>
      intro fuel
      rw [List.length_nil, Nat.zero_add, Nat.mul_zero, Nat.zero_add]
  | @cons ds d hseg hshort hobj hprev ih =>
      intro fuel
      have hlen := decl_len_pos d
      have hstep : MicroJs.dataSizeUp buf (fuel + 1) d.pos =
          4 + MicroJs.dataSizeUp buf fuel (d.pos + d.len) := by
        rw [MicroJs.dataSizeUp, hobj.next, hobj.size, if_neg (by lia)]
      have hfuel : (d :: ds).length + fuel = ds.length + (fuel + 1) := by
        rw [List.length_cons]
        lia
      rw [hfuel, ih, hstep, List.length_cons]
      lia

theorem Seg.length_le {buf : Nat → Nat} {b n : Nat} {ds : List Decl} {p : Nat}
    (h : Seg buf b n ds p) : b + 7 * ds.length ≤ p := by
  induction h with
  | nil => exact Nat.le_refl _
  | @cons ds d _ _ _ _ ih =>
      rw [List.length_cons, Decl.len, sizeofSymObj]
      lia

/-- The objects from `p` down to the start of the buffer. -/
inductive Chain (buf : Nat → Nat) : List Decl → Nat → Prop
  | nil : buf 0 = 0 → Chain buf [] 0
  | cons {ds : List Decl} {d : Decl} : Chain buf ds d.pos → d.Short →
      ObjAt buf d (4 * ds.length) → buf (d.pos + d.len) = d.len →
      Chain buf (d :: ds) (d.pos + d.len)

theorem Seg.chain {buf : Nat → Nat} {b n : Nat} {ds ds' : List Decl} {p : Nat}
    (h : Seg buf b n ds p) (hn : n = ds'.length) (hb : Chain buf ds' b) :
    Chain buf (ds ++ ds') p := by
  induction h with
  | nil => exact hb
  | @cons ds d _ hshort hobj hprev ih =>
      have haddr : 4 * (n + ds.length) = 4 * (ds ++ ds').length := by
        rw [List.length_append, hn, Nat.add_comm]
      exact .cons ih hshort (haddr ▸ hobj) hprev

/-- `sym_obj_lookup` finds the innermost declaration of a name. -/
theorem Chain.lookupDown {buf : Nat → Nat} {ds : List Decl} {p : Nat} (h : Chain buf ds p)
    {nm : List Nat} (hnm : 0 ∉ nm) : ∀ fuel : Nat, p < fuel →
      MicroJs.lookupDown buf nm fuel p = (ds.find? fun d => d.nm = nm).map Decl.pos := by
  induction h with
  | nil h0 =>
      intro fuel hfuel
      obtain ⟨fuel, rfl⟩ : ∃ k, fuel = k + 1 := ⟨fuel - 1, by lia⟩
      rw [MicroJs.lookupDown, if_pos h0]
      rfl
  | @cons ds d hchain hshort hobj hprev ih =>
      intro fuel hfuel
      obtain ⟨fuel, rfl⟩ : ∃ k, fuel = k + 1 := ⟨fuel - 1, by lia⟩
      have hlen := decl_len_pos d
      rw [MicroJs.lookupDown, hprev, if_neg (by lia), Nat.add_sub_cancel, List.find?_cons,
        ih fuel (by lia)]
      by_cases hd : d.nm = nm
      · rw [if_pos ((nameIs_iff hobj hshort hnm).mpr hd)]
        simp [hd]
      · rw [if_neg fun h => hd ((nameIs_iff hobj hshort hnm).mp h)]
        simp [hd]

theorem Chain.length_le {buf : Nat → Nat} {ds : List Decl} {p : Nat} (h : Chain buf ds p) :
    7 * ds.length ≤ p := by
  induction h with
  | nil => exact Nat.le_refl _
  | @cons ds d _ _ _ _ ih =>
      rw [List.length_cons, Decl.len, sizeofSymObj]
      lia

theorem Chain.objAt {buf : Nat → Nat} {ds : List Decl} {p : Nat} (h : Chain buf ds p) :
    ∀ d ∈ ds, ∃ n < ds.length, ObjAt buf d (4 * n) := by
  induction h with
  | nil => exact fun d hd => (List.not_mem_nil hd).elim
  | @cons ds d _ _ hobj _ ih =>
      intro e he
      rw [List.length_cons]
      rcases List.mem_cons.mp he with rfl | he
      · exact ⟨ds.length, Nat.lt_succ_self _, hobj⟩
      · obtain ⟨n, hn, hobj⟩ := ih e he
        exact ⟨n, Nat.lt_succ_of_lt hn, hobj⟩

/-- The words of two declarations do not overlap. -/
theorem Chain.disjoint {buf : Nat → Nat} {ds : List Decl} {p : Nat} (h : Chain buf ds p)
    (hp : p < 65536) : ds.Pairwise fun d e =>
      ofBytes (load buf (e.pos + 4) 2) + 4 ≤ ofBytes (load buf (d.pos + 4) 2) := by
  induction h with
  | nil => exact .nil
  | @cons ds d hchain _ hobj _ ih =>
      have hlen := hchain.length_le
      refine .cons (fun e he => ?_) (ih (by lia))
      obtain ⟨n, hn, hobj'⟩ := hchain.objAt e he
      rw [hobj.addr, hobj'.addr, ofBytes_le16 (by lia), ofBytes_le16 (by lia)]
      lia

/-! ## The open scopes -/

/-- The declarations in all scopes. -/
def declCount (ss : List (List Decl)) : Nat := ss.flatten.length

/-- What a frame remembers: the end of the objects, and the entries below it. -/
structure Block where
  bp : Nat
  below : List Entry

/-- The blocks that are open, the innermost one first. -/
def blocks : List Entry → List Block
  | [] => []
  | .frame _ b :: es => ⟨b, es⟩ :: blocks es
  | _ :: es => blocks es

theorem blocks_cons {e : Entry} (hkind : e.kind ≠ .frame) (es : List Entry) :
    blocks (e :: es) = blocks es := by
  cases e with
  | frame => exact (hkind rfl).elim
  | _ => rfl

theorem blocks_append {es : List Entry} (hkind : ∀ e ∈ es, e.kind ≠ .frame) (r : List Entry) :
    blocks (es ++ r) = blocks r := by
  induction es with
  | nil => rfl
  | cons e es ih =>
      rw [List.cons_append, blocks_cons (hkind e List.mem_cons_self)]
      exact ih fun e he => hkind e (List.mem_cons_of_mem _ he)

/-- Where the objects of the innermost scope begin. -/
def scopeBase (bs : List Block) : Nat := (bs.head?.map Block.bp).getD 0

/-- The innermost scope begins where `sym_sf_get` says. -/
theorem Stacked.scopeStart {es : List Entry} : ∀ {tab : Symtab}, Stacked tab es →
    tab.scopeStart = scopeBase (blocks es) := by
  induction es with
  | nil => exact fun h => if_pos (Nat.le_of_eq h.linked.symm)
  | cons e es ih =>
      intro tab h
      by_cases hkind : e.kind = .frame
      · cases e with
        | frame f b =>
            obtain ⟨hsame, htop, -, hb, hload⟩ := h.frame_bytes
            rw [Symtab.scopeStart, if_neg (by lia), hload, ofBytes_le16 hb]
            rfl
        | _ => cases hkind
      · rw [blocks_cons hkind]
        have hstart := ih (h.pop hkind).2
        exact hstart

/-- `m` is a state with the entries `es` and `n` declarations whose objects end at `b`. -/
structure Opened (m : Sdt) (top : Nat) (es : List Entry) (b n : Nat) : Prop where
  stacked : Stacked m.tab es
  top_eq : m.tab.top = top
  bp_eq : m.tab.bp = b
  pos_eq : m.dataPos = 4 * n

/-- The scopes of the open blocks and the states in which the blocks were opened. -/
inductive Scopes (buf : Nat → Nat) (top : Nat) :
    List Block → List (List Decl) → List Sdt → Nat → Prop
  | outer {ds : List Decl} {bp : Nat} : Seg buf 0 0 ds bp → buf 0 = 0 →
      Scopes buf top [] [ds] [] bp
  | inner {bs : List Block} {ss : List (List Decl)} {ms : List Sdt} {m : Sdt} {es : List Entry}
      {ds : List Decl} {b bp : Nat} : Scopes buf top bs ss ms b →
      Opened m top es b (declCount ss) → Seg buf b (declCount ss) ds bp →
      Scopes buf top (⟨b, .addr (4 * declCount ss) :: es⟩ :: bs) (ds :: ss) (m :: ms) bp

namespace Scopes

variable {buf buf' : Nat → Nat} {top : Nat} {bs : List Block} {ss : List (List Decl)}
  {ms : List Sdt} {bp : Nat}

theorem congr (h : Scopes buf top bs ss ms bp) (hlow : ∀ i ≤ bp, buf' i = buf i) :
    Scopes buf' top bs ss ms bp := by
  induction h with
  | outer hseg h0 => exact .outer (hseg.congr hlow) (by rw [hlow _ (Nat.zero_le _), h0])
  | inner _ hopened hseg ih =>
      have hle := hseg.le
      exact .inner (ih fun i hi => hlow i (by lia)) hopened (hseg.congr hlow)

theorem chain (h : Scopes buf top bs ss ms bp) : Chain buf ss.flatten bp := by
  induction h with
  | outer hseg h0 =>
      have hchain : Chain buf (_ ++ []) _ := hseg.chain rfl (.nil h0)
      rw [List.append_nil] at hchain
      rw [List.flatten_singleton]
      exact hchain
  | inner _ _ hseg ih =>
      rw [List.flatten_cons]
      exact hseg.chain rfl ih

/-- The innermost scope. -/
theorem scope (h : Scopes buf top bs ss ms bp) :
    ∃ ds rest, ss = ds :: rest ∧ Seg buf (scopeBase bs) (declCount rest) ds bp := by
  cases h with
  | outer hseg _ => exact ⟨_, [], rfl, hseg⟩
  | inner _ _ hseg => exact ⟨_, _, rfl, hseg⟩

/-- The innermost scope grows by an object at the end. -/
theorem declare {d : Decl} {ds : List Decl} {rest : List (List Decl)}
    (h : Scopes buf top bs ss ms d.pos) (hss : ss = ds :: rest) (hd : d.Short)
    (hobj : ObjAt buf d (4 * declCount ss)) (hprev : buf (d.pos + d.len) = d.len) :
    Scopes buf top bs ((d :: ds) :: rest) ms (d.pos + d.len) := by
  have hcount : declCount ss = declCount rest + ds.length := by
    rw [hss, declCount, declCount, List.flatten_cons, List.length_append, Nat.add_comm]
  rw [hcount] at hobj
  generalize hp : d.pos = p at h
  cases h with
  | outer hseg h0 =>
      subst hp
      obtain ⟨rfl, rfl⟩ := List.cons_eq_cons.mp hss
      exact .outer (.cons hseg hd hobj hprev) h0
  | inner hrest hopened hseg =>
      subst hp
      obtain ⟨rfl, rfl⟩ := List.cons_eq_cons.mp hss
      exact .inner hrest hopened (.cons hseg hd hobj hprev)

end Scopes

/-- What a history of the program amounts to: the declarations of the open scopes, and the
states in which the open blocks were opened. -/
structure Ghost where
  scopes : List (List Decl)
  opens : List Sdt

/-- The table stands for the entries and for the history. -/
structure Held (m : Sdt) (es : List Entry) (g : Ghost) : Prop where
  stacked : Stacked m.tab es
  scopes : Scopes m.tab.buf m.tab.top (blocks es) g.scopes g.opens m.tab.bp
  term : m.tab.buf (m.tab.bp + 1) = 0
  data : m.dataPos = 4 * declCount g.scopes

namespace Held

variable {m : Sdt} {es : List Entry} {g : Ghost}

theorem bp_lt (h : Held m es g) : m.tab.bp + 2 ≤ m.tab.top := by
  have hsp := h.stacked.sp_le
  have hroom := h.stacked.room
  lia

theorem symObjLookup (h : Held m es g) {nm : List Nat} (hnm : 0 ∉ nm) :
    MicroJs.symObjLookup m.tab nm =
      (g.scopes.flatten.find? fun d => d.nm = nm).map Decl.pos :=
  h.scopes.chain.lookupDown hnm _ (Nat.lt_succ_self _)

/-- A name is known in the innermost scope exactly if a declaration there has it. -/
theorem symObjScopeLookup (h : Held m es g) {nm : List Nat} (hnm : 0 ∉ nm) {ds : List Decl}
    {rest : List (List Decl)} (hg : g.scopes = ds :: rest) :
    MicroJs.symObjScopeLookup m.tab nm = (ds.reverse.find? fun d => d.nm = nm).map Decl.pos := by
  obtain ⟨ds', rest', hss, hseg⟩ := h.scopes.scope
  obtain ⟨rfl, rfl⟩ : ds = ds' ∧ rest = rest' := by
    rw [hg] at hss
    exact List.cons_eq_cons.mp hss
  have hbounds := h.bp_lt
  have htop := h.stacked.top_lt
  have hlen := hseg.length_le
  have hfuel : 65536 = ds.length + (65535 - ds.length + 1) := by lia
  rw [MicroJs.symObjScopeLookup, h.stacked.scopeStart, hfuel, hseg.lookupUp hnm, lookupUp,
    if_pos h.term, Option.or_none]

end Held

/-! ## Declarations -/

theorem strncpy_eq {nm : List Nat} (h : 0 ∉ nm) : strncpy nm = nm := by
  have htake : nm.takeWhile (· ≠ 0) = nm := by
    rw [List.takeWhile_eq_self_iff]
    exact fun c hc => decide_eq_true fun h0 => h (h0 ▸ hc)
  rw [strncpy, htake, Nat.sub_self, List.replicate_zero, List.append_nil]

theorem strncpy_length (nm : List Nat) : (strncpy nm).length = nm.length := by
  have hle := (List.takeWhile_prefix (l := nm) fun c : Nat => decide (c ≠ 0)).length_le
  rw [strncpy, List.length_append, List.length_replicate]
  lia

/-- The buffer after a declaration: the links, the fields and the name of the object, and
the terminator behind it. -/
def declared (buf : Nat → Nat) (bp flags addr : Nat) (nm : List Nat) : Nat → Nat :=
  let len := sizeofSymObj + nm.length + 1
  let buf := store buf (bp + 1) ([len % 256, flags, 0, 0, 0] ++ strncpy nm ++ [0])
  let buf := store buf (bp + len) [len % 256, 0]
  store buf (bp + 2) ([buf (bp + 2) ||| symObjAlloc, 4] ++ le16 addr)

section Declared

variable (buf : Nat → Nat) (bp flags addr : Nat) {nm : List Nat}

theorem declared_le {i : Nat} (hi : i ≤ bp) : declared buf bp flags addr nm i = buf i := by
  simp only [declared]
  rw [store_lt _ _ (by lia), store_lt _ _ (by lia), store_lt _ _ (by lia)]

theorem declared_ge {i : Nat} (hi : bp + nm.length + 9 ≤ i) :
    declared buf bp flags addr nm i = buf i := by
  have hcpy := strncpy_length nm
  have hle16 : (le16 addr).length = 2 := rfl
  simp only [declared, sizeofSymObj]
  rw [store_ge _ _ (by rw [List.length_append, hle16, List.length_cons]; simp; lia),
    store_ge _ _ (by rw [List.length_cons]; simp; lia),
    store_ge _ _ (by rw [List.length_append, List.length_append, hcpy]; simp; lia)]

/-- The bytes of the objects determine those of the objects with the new one. -/
theorem declared_congr {buf' : Nat → Nat} (h : ∀ i ≤ bp, buf' i = buf i) {i : Nat}
    (hi : i < bp + nm.length + 9) :
    declared buf' bp flags addr nm i = declared buf bp flags addr nm i := by
  have hcpy := strncpy_length nm
  have hlen : ([(6 + nm.length + 1) % 256, flags, 0, 0, 0] ++ strncpy nm ++ [0]).length =
      nm.length + 6 := by
    simp only [List.length_append, List.length_cons, List.length_nil, hcpy]
    lia
  have hbelow (j : Nat) (hj : j < bp + nm.length + 9) :
      store (store buf' (bp + 1) ([(6 + nm.length + 1) % 256, flags, 0, 0, 0] ++ strncpy nm ++ [0]))
        (bp + (6 + nm.length + 1)) [(6 + nm.length + 1) % 256, 0] j =
      store (store buf (bp + 1) ([(6 + nm.length + 1) % 256, flags, 0, 0, 0] ++ strncpy nm ++ [0]))
        (bp + (6 + nm.length + 1)) [(6 + nm.length + 1) % 256, 0] j := by
    refine store_congr fun hout => store_congr fun hout' => h j ?_
    rw [List.length_cons, List.length_singleton] at hout
    lia
  simp only [declared, sizeofSymObj]
  rw [hbelow (bp + 2) (by lia)]
  exact store_congr fun _ => hbelow i hi

/-- The links and the size of a new object and the terminator behind it, for any name. -/
theorem declared_links :
    declared buf bp flags addr nm (bp + 1) = (7 + nm.length) % 256 ∧
      declared buf bp flags addr nm (bp + 3) = 4 ∧
      declared buf bp flags addr nm (bp + (sizeofSymObj + nm.length + 1) + 1) = 0 := by
  have hcpy := strncpy_length nm
  have hlen : ([(6 + nm.length + 1) % 256, flags, 0, 0, 0] ++ strncpy nm ++ [0]).length =
      nm.length + 6 := by
    simp only [List.length_append, List.length_cons, List.length_nil, hcpy]
    lia
  have hmod : (6 + nm.length + 1) % 256 = (7 + nm.length) % 256 := by lia
  simp only [declared, sizeofSymObj]
  refine ⟨?_, ?_, ?_⟩
  · have hpos : bp + 1 = bp + 1 + 0 := rfl
    rw [store_lt _ _ (by lia), store_lt _ _ (by lia), hpos, store_at _ _ (by lia)]
    exact hmod
  · have hpos : bp + 3 = bp + 2 + 1 := rfl
    rw [hpos, store_at _ _ (by simp [le16])]
    rfl
  · have hle16 : (le16 addr).length = 2 := rfl
    rw [store_ge _ _ (by rw [List.length_append, hle16, List.length_cons]; simp; lia),
      store_at _ _ (by simp)]
    rfl

/-- The object of a new declaration. -/
theorem declared_objAt {d : Decl} (h : d.Short) :
    ObjAt (declared buf d.pos flags addr d.nm) d addr ∧
      declared buf d.pos flags addr d.nm (d.pos + d.len) = d.len ∧
      declared buf d.pos flags addr d.nm (d.pos + d.len + 1) = 0 := by
  obtain ⟨h0, hshort⟩ := h
  have hl : d.len = 7 + d.nm.length := by
    unfold Decl.len sizeofSymObj
    lia
  have hmod : (6 + d.nm.length + 1) % 256 = 7 + d.nm.length := by lia
  have hfields : ([(6 + d.nm.length + 1) % 256, flags, 0, 0, 0] ++ d.nm ++ [0]).length =
      d.nm.length + 6 := by
    simp only [List.length_append, List.length_cons, List.length_nil]
    lia
  -- the last store covers the flags, the size and the address
  have hlast (i : Nat) (hi : i < d.pos + 2 ∨ d.pos + 6 ≤ i) :
      declared buf d.pos flags addr d.nm i =
      store (store buf (d.pos + 1) ([(6 + d.nm.length + 1) % 256, flags, 0, 0, 0] ++ d.nm ++ [0]))
        (d.pos + (6 + d.nm.length + 1)) [(6 + d.nm.length + 1) % 256, 0] i := by
    simp only [declared, strncpy_eq h0, sizeofSymObj]
    rcases hi with hi | hi
    · exact store_lt _ _ hi
    · exact store_ge _ _ hi
  have hmid (i : Nat) (hi : i < d.pos + 7 + d.nm.length) : store
      (store buf (d.pos + 1) ([(6 + d.nm.length + 1) % 256, flags, 0, 0, 0] ++ d.nm ++ [0]))
        (d.pos + (6 + d.nm.length + 1)) [(6 + d.nm.length + 1) % 256, 0] i =
      store buf (d.pos + 1) ([(6 + d.nm.length + 1) % 256, flags, 0, 0, 0] ++ d.nm ++ [0]) i :=
    store_lt _ _ (by lia)
  refine ⟨⟨?_, ?_, ?_, ?_, ?_⟩, ?_, ?_⟩
  · have hpos : d.pos + 1 = d.pos + 1 + 0 := rfl
    rw [hl, hlast _ (by lia), hmid _ (by lia), hpos, store_at _ _ (by lia)]
    exact hmod
  · have hpos : d.pos + 3 = d.pos + 2 + 1 := rfl
    simp only [declared]
    rw [hpos, store_at _ _ (by simp [le16])]
    rfl
  · have hload := load_store_part
      (store (store buf (d.pos + 1) ([(6 + d.nm.length + 1) % 256, flags, 0, 0, 0] ++ d.nm ++ [0]))
        (d.pos + (6 + d.nm.length + 1)) [(6 + d.nm.length + 1) % 256, 0]) (d.pos + 2)
      [store
        (store buf (d.pos + 1) ([(6 + d.nm.length + 1) % 256, flags, 0, 0, 0] ++ d.nm ++ [0]))
        (d.pos + (6 + d.nm.length + 1)) [(6 + d.nm.length + 1) % 256, 0] (d.pos + 2) |||
          symObjAlloc, 4]
      (le16 addr) []
    simp only [declared, strncpy_eq h0, sizeofSymObj]
    rw [List.append_nil] at hload
    exact hload
  · have hload := load_store_part buf (d.pos + 1)
      [(6 + d.nm.length + 1) % 256, flags, 0, 0, 0] d.nm [0]
    refine (load_congr fun i hi hi' => ?_).trans hload
    rw [hlast i (by lia), hmid i (by lia)]
  · have hpos : d.pos + 6 + d.nm.length = d.pos + 1 + (d.nm.length + 5) := by lia
    rw [hlast _ (by lia), hmid _ (by lia), hpos, store_at _ _ (by lia),
      List.getElem_append_right (by simp)]
    simp
  · have hpos : d.pos + (7 + d.nm.length) = d.pos + (6 + d.nm.length + 1) + 0 := by lia
    rw [hl, hlast _ (by lia), hpos, store_at _ _ (by simp)]
    exact hmod
  · have hpos : d.pos + (7 + d.nm.length) + 1 = d.pos + (6 + d.nm.length + 1) + 1 := by lia
    rw [hl, hlast _ (by lia), hpos, store_at _ _ (by simp)]
    rfl

end Declared

end YardIce.MicroJs
