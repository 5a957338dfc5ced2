import YardIce.MicroJs.Actions

/-!
# The stack of the symbol table

What the bytes at the end of the buffer mean: descriptors, saved positions and frames, of
which each frame remembers the one below it and where the objects ended.

## Implementation notes

Nothing is said about the objects here, so that the stack is well formed whatever the
names in a program are.
-/

namespace YardIce.MicroJs

open YardIce.Lib

/-! ## Bytes in the buffer -/

theorem load_length (buf : Nat → Nat) (pos len : Nat) : (load buf pos len).length = len := by
  rw [load, List.length_map, List.length_range]

theorem load_congr {buf buf' : Nat → Nat} {pos len : Nat}
    (h : ∀ i, pos ≤ i → i < pos + len → buf' i = buf i) : load buf' pos len = load buf pos len :=
  List.map_congr_left fun i hi => by
    have hlt := List.mem_range.mp hi
    exact h _ (Nat.le_add_right pos i) (by omega)

theorem load_append (buf : Nat → Nat) (pos m n : Nat) :
    load buf pos (m + n) = load buf pos m ++ load buf (pos + m) n := by
  rw [load, List.range_add, List.map_append, List.map_map]
  congr 1
  exact List.map_congr_left fun i _ => congrArg buf (Nat.add_assoc pos m i).symm

theorem store_lt (buf : Nat → Nat) (bs : List Nat) {pos i : Nat} (h : i < pos) :
    store buf pos bs i = buf i := by
  rw [store, if_neg (by omega)]

theorem store_ge (buf : Nat → Nat) (bs : List Nat) {pos i : Nat} (h : pos + bs.length ≤ i) :
    store buf pos bs i = buf i := by
  rw [store]
  split_ifs with hpos
  · rw [List.getElem?_eq_none (by omega), Option.getD_none]
  · rfl

theorem store_at (buf : Nat → Nat) (bs : List Nat) {pos i : Nat} (h : i < bs.length) :
    store buf pos bs (pos + i) = bs[i] := by
  rw [store, if_pos (Nat.le_add_right pos i), Nat.add_sub_cancel_left,
    List.getElem?_eq_getElem h, Option.getD_some]

/-- Two buffers agree where a store leaves them alone, and so they agree afterwards. -/
theorem store_congr {buf buf' : Nat → Nat} {pos i : Nat} {bs : List Nat}
    (h : i < pos ∨ pos + bs.length ≤ i → buf' i = buf i) :
    store buf' pos bs i = store buf pos bs i := by
  by_cases hout : i < pos ∨ pos + bs.length ≤ i
  · rcases hout with hlt | hge
    · rw [store_lt _ _ hlt, store_lt _ _ hlt, h (Or.inl hlt)]
    · rw [store_ge _ _ hge, store_ge _ _ hge, h (Or.inr hge)]
  · have hi : i = pos + (i - pos) := by omega
    rw [hi, store_at _ _ (by omega), store_at _ _ (by omega)]

theorem load_store (buf : Nat → Nat) (pos : Nat) (bs : List Nat) :
    load (store buf pos bs) pos bs.length = bs := by
  apply List.ext_getElem
  · exact load_length _ _ _
  · intro i hi hi'
    simp only [load, List.getElem_map, List.getElem_range]
    exact store_at buf bs hi'

theorem load_store_part (buf : Nat → Nat) (pos : Nat) (as bs cs : List Nat) :
    load (store buf pos (as ++ bs ++ cs)) (pos + as.length) bs.length = bs := by
  have h := load_store buf pos (as ++ bs ++ cs)
  rw [List.length_append, List.length_append, load_append, load_append] at h
  have h₁ := List.append_inj_left h (by rw [List.length_append, load_length, load_length,
    List.length_append])
  exact List.append_inj_right h₁ (load_length _ _ _)

theorem ofBytes_le16 {n : Nat} (h : n < 65536) : ofBytes (le16 n) = n := by
  simp only [le16, ofBytes]
  omega

theorem ofBytes_le32 {n : Nat} (h : n < 4294967296) : ofBytes (le32 n) = n := by
  simp only [le32, ofBytes]
  omega

/-! ## Entries of the stack -/

/-- What the stack of the symbol table holds: the descriptors, saved positions of the data
memory, and frames. -/
inductive Entry where
  | tmp (d : Tmp)
  | cld (d : Cld)
  | call (d : Call)
  | ref (d : Ref)
  | wld (d : Wld)
  | fld (d : Fld)
  | addr (n : Nat)
  | frame (fp bp : Nat)

/-- The kinds of entries. -/
inductive Kind where
  | tmp | cld | call | ref | wld | fld | addr | frame
  deriving DecidableEq, Repr

def Entry.kind : Entry → Kind
  | .tmp _ => .tmp
  | .cld _ => .cld
  | .call _ => .call
  | .ref _ => .ref
  | .wld _ => .wld
  | .fld _ => .fld
  | .addr _ => .addr
  | .frame _ _ => .frame

def Entry.bytes : Entry → List Nat
  | .tmp d => d.bytes
  | .cld d => d.bytes
  | .call d => d.bytes
  | .ref d => d.bytes
  | .wld d => d.bytes
  | .fld d => d.bytes
  | .addr n => le16 n
  | .frame fp bp => le16 fp ++ le16 bp

theorem Tmp.ofBytes_bytes {d : Tmp} (hs : d.s < 4294967296) (hlen : d.len < 256) :
    Tmp.ofBytes d.bytes = d := by
  cases d with
  | mk s len =>
      have hs' := ofBytes_le32 hs
      simp only [Tmp.ofBytes, Tmp.bytes, le32] at hs' ⊢
      simp only [List.take, List.cons_append, List.nil_append, List.getD_cons_succ,
        List.getD_cons_zero, hs', Nat.mod_eq_of_lt hlen]

/-- The fields of an entry fit where they are stored. -/
def Entry.Fits : Entry → Prop
  | .tmp d => d.s < 4294967296 ∧ d.len < 256
  | .cld d => d.cid < 256
  | .call d => d.xid < 256 ∧ d.argcnt < 256 ∧ d.argmin < 256 ∧ d.argmax < 256 ∧
      -128 ≤ d.retcnt ∧ d.retcnt < 128
  | .ref d => d.addr < 65536
  | .wld d => d.loop < 65536 ∧ d.cond < 65536
  | .fld d => d.addr0 < 65536 ∧ d.addr1 < 65536 ∧ d.addr2 < 65536 ∧ d.addr3 < 65536
  | .addr n => n < 65536
  | .frame fp bp => fp < 65536 ∧ bp < 65536

/-- The bytes of an entry of each kind. -/
def Kind.size : Kind → Nat
  | .tmp => 8
  | .cld => 1
  | .call => 5
  | .ref => 2
  | .wld => 4
  | .fld => 8
  | .addr => 2
  | .frame => 4

theorem Entry.bytes_length (e : Entry) : e.bytes.length = e.kind.size := by
  cases e <;> rfl

/-! ## The stack -/

/-- The bytes of a stack, whose top comes first. -/
def stackBytes (es : List Entry) : List Nat := es.flatMap Entry.bytes

/-- The frames among the entries are linked from `fp` down, and the ends of the objects
that they remember go up to `bp`. -/
def Linked (top : Nat) : List Entry → Nat → Nat → Prop
  | [], fp, _ => fp = top
  | .frame f b :: es, fp, bp =>
      fp + (stackBytes (.frame f b :: es)).length = top ∧ b ≤ bp ∧ Linked top es f b
  | _ :: es, fp, bp => Linked top es fp bp

/-- The stack of the symbol table holds the entries. -/
structure Stacked (tab : Symtab) (es : List Entry) : Prop where
  bytes : load tab.buf tab.sp (stackBytes es).length = stackBytes es
  sp_add : tab.sp + (stackBytes es).length = tab.top
  linked : Linked tab.top es tab.fp tab.bp
  fits : ∀ e ∈ es, e.Fits
  room : tab.bp + 2 ≤ tab.sp
  top_lt : tab.top < 65536

theorem stackBytes_cons (e : Entry) (es : List Entry) :
    stackBytes (e :: es) = e.bytes ++ stackBytes es := List.flatMap_cons

theorem stackBytes_append (es r : List Entry) :
    stackBytes (es ++ r) = stackBytes es ++ stackBytes r := List.flatMap_append

theorem stackBytes_length_cons (e : Entry) (es : List Entry) :
    (stackBytes (e :: es)).length = e.kind.size + (stackBytes es).length := by
  rw [stackBytes_cons, List.length_append, Entry.bytes_length]

namespace Linked

variable {top : Nat} {e : Entry} {es r : List Entry} {fp fp' bp bp' : Nat}

theorem cons_iff (hkind : e.kind ≠ .frame) :
    Linked top (e :: es) fp bp ↔ Linked top es fp bp := by
  cases e with
  | frame => exact (hkind rfl).elim
  | _ => exact Iff.rfl

theorem append_iff (hkind : ∀ e ∈ es, e.kind ≠ .frame) :
    Linked top (es ++ r) fp bp ↔ Linked top r fp bp := by
  induction es with
  | nil => exact Iff.rfl
  | cons e es ih =>
      rw [List.cons_append, cons_iff (hkind e List.mem_cons_self)]
      exact ih fun e he => hkind e (List.mem_cons_of_mem _ he)

/-- The innermost frame lies between the top of the stack and its end. -/
theorem bounds (h : Linked top es fp bp) :
    fp ≤ top ∧ top ≤ fp + (stackBytes es).length := by
  induction es with
  | nil => exact ⟨Nat.le_of_eq h, by
      rw [show fp = top from h]
      exact Nat.le_add_right _ _⟩
  | cons e es ih =>
      rw [stackBytes_length_cons]
      by_cases hkind : e.kind = .frame
      · cases e with
        | frame f b =>
            have hfp := h.1
            rw [stackBytes_length_cons] at hfp
            omega
        | _ => cases hkind
      · have hb := ih ((cons_iff hkind).mp h)
        omega

theorem fp_unique (h : Linked top es fp bp) (h' : Linked top es fp' bp') : fp = fp' := by
  induction es with
  | nil => exact (show fp = top from h).trans (show fp' = top from h').symm
  | cons e es ih =>
      by_cases hkind : e.kind = .frame
      · cases e with
        | frame f b =>
            have hfp := h.1
            have hfp' := h'.1
            omega
        | _ => cases hkind
      · exact ih ((cons_iff hkind).mp h) ((cons_iff hkind).mp h')

theorem mono (h : Linked top es fp bp) (hle : bp ≤ bp') : Linked top es fp bp' := by
  induction es with
  | nil => exact h
  | cons e es ih =>
      by_cases hkind : e.kind = .frame
      · cases e with
        | frame f b => exact ⟨h.1, Nat.le_trans h.2.1 hle, h.2.2⟩
        | _ => cases hkind
      · exact (cons_iff hkind).mpr (ih ((cons_iff hkind).mp h))

end Linked

/-- Two tables differ at most between the objects and the stack and in the sizes that they
report. -/
structure Symtab.Alike (tab tab' : Symtab) : Prop where
  sp : tab'.sp = tab.sp
  bp : tab'.bp = tab.bp
  fp : tab'.fp = tab.fp
  top : tab'.top = tab.top
  low : ∀ i ≤ tab.bp + 1, tab'.buf i = tab.buf i
  high : ∀ i, tab.sp ≤ i → tab'.buf i = tab.buf i

/-- What a push does to the bytes of the stack. -/
theorem load_push (buf : Nat → Nat) {sp n : Nat} {bs : List Nat} (h : bs.length ≤ sp) :
    load (store buf (sp - bs.length) bs) (sp - bs.length) (bs.length + n) =
      bs ++ load buf sp n := by
  rw [load_append, load_store, Nat.sub_add_cancel h]
  congr 1
  exact load_congr fun i hi _ => store_ge _ _ (by omega)

namespace Stacked

variable {tab tab' : Symtab} {e : Entry} {es r : List Entry}

theorem sp_le (h : Stacked tab es) : tab.sp ≤ tab.fp ∧ tab.fp ≤ tab.top := by
  have hbounds := h.linked.bounds
  have hsp := h.sp_add
  omega

theorem congr (h : Stacked tab es) (hsp : tab'.sp = tab.sp) (hfp : tab'.fp = tab.fp)
    (hbp : tab'.bp = tab.bp) (htop : tab'.top = tab.top)
    (hbuf : ∀ i, tab.sp ≤ i → tab'.buf i = tab.buf i) : Stacked tab' es := by
  constructor
  · rw [hsp, load_congr fun i hi _ => hbuf i hi]
    exact h.bytes
  · rw [hsp, htop]
    exact h.sp_add
  · rw [htop, hfp, hbp]
    exact h.linked
  · exact h.fits
  · rw [hbp, hsp]
    exact h.room
  · rw [htop]
    exact h.top_lt

/-- Two tables with the same entries have the same bytes there. -/
theorem unique (h : Stacked tab es) (h' : Stacked tab' es) (htop : tab'.top = tab.top) :
    tab'.sp = tab.sp ∧ tab'.fp = tab.fp ∧
      ∀ i, tab.sp ≤ i → i < tab.top → tab'.buf i = tab.buf i := by
  have hsp := h.sp_add
  have hsp' := h'.sp_add
  have hsame : tab'.sp = tab.sp := by omega
  refine ⟨hsame, ?_, ?_⟩
  · have hlinked := h'.linked
    rw [htop] at hlinked
    exact hlinked.fp_unique h.linked
  · intro i hi hit
    have hbytes := h'.bytes.trans h.bytes.symm
    have hmem : i - tab.sp ∈ List.range (stackBytes es).length :=
      List.mem_range.mpr (by omega)
    have hat := List.map_inj_left.mp hbytes (i - tab.sp) hmem
    rw [hsame, Nat.add_sub_cancel' hi] at hat
    exact hat

/-- A push of an entry that is no frame: it fails and changes nothing, or adds the entry. -/
theorem push (h : Stacked tab es) (hkind : e.kind ≠ .frame) (hfits : e.Fits) :
    symPush e.bytes tab = (.error .symPushFail, tab) ∨
      ∃ buf', symPush e.bytes tab =
          (.ok (), { tab with buf := buf', sp := tab.sp - e.bytes.length }) ∧
        Stacked { tab with buf := buf', sp := tab.sp - e.bytes.length } (e :: es) ∧
        ∀ i, i ≤ tab.bp + 1 ∨ tab.sp ≤ i → buf' i = tab.buf i := by
  unfold symPush
  split_ifs with hroom
  · right
    refine ⟨_, rfl, ⟨?_, ?_, ?_, ?_, ?_, h.top_lt⟩, ?_⟩
    · have hload := load_push tab.buf (n := (stackBytes es).length)
        (show e.bytes.length ≤ tab.sp by omega)
      rw [h.bytes, ← List.length_append, ← stackBytes_cons] at hload
      exact hload
    · have hsp := h.sp_add
      have hlen : (stackBytes (e :: es)).length = e.bytes.length + (stackBytes es).length := by
        rw [stackBytes_cons, List.length_append]
      have hsum : tab.sp - e.bytes.length + (stackBytes (e :: es)).length = tab.top := by omega
      exact hsum
    · exact (Linked.cons_iff hkind).mpr h.linked
    · exact List.forall_mem_cons.mpr ⟨hfits, h.fits⟩
    · have hroom' : tab.bp + 2 ≤ tab.sp - e.bytes.length := by omega
      exact hroom'
    · rintro i (hi | hi)
      · exact store_lt _ _ (by omega)
      · exact store_ge _ _ (by omega)
  · exact Or.inl rfl

theorem bytes_cons (h : Stacked tab (e :: es)) :
    load tab.buf tab.sp e.bytes.length = e.bytes ∧
      load tab.buf (tab.sp + e.bytes.length) (stackBytes es).length = stackBytes es := by
  have hbytes := h.bytes
  rw [stackBytes_cons, List.length_append, load_append] at hbytes
  exact List.append_inj hbytes (load_length _ _ _)

/-- A pop gives the top entry. -/
theorem pop (h : Stacked tab (e :: es)) (hkind : e.kind ≠ .frame) :
    symPop e.bytes.length tab = (.ok e.bytes, { tab with sp := tab.sp + e.bytes.length }) ∧
      Stacked { tab with sp := tab.sp + e.bytes.length } es := by
  obtain ⟨hload, hrest⟩ := h.bytes_cons
  have hlinked := (Linked.cons_iff hkind).mp h.linked
  have hbounds := hlinked.bounds
  have hsp := h.sp_add
  have hroom := h.room
  rw [stackBytes_cons, List.length_append] at hsp
  have hpos : 0 < e.bytes.length := by
    cases e <;> exact Nat.succ_pos _
  refine ⟨?_, hrest, ?_, hlinked, fun e he => h.fits e (List.mem_cons_of_mem _ he), ?_, h.top_lt⟩
  · rw [symPop, if_neg (by omega), hload]
  · have hsum : tab.sp + e.bytes.length + (stackBytes es).length = tab.top := by omega
    exact hsum
  · have hroom' : tab.bp + 2 ≤ tab.sp + e.bytes.length := by omega
    exact hroom'

/-- The opening of a scope adds a frame, or fails and changes nothing. -/
theorem frame (h : Stacked tab es) :
    symSfPush tab = (.error .symPushFail, tab) ∨
      ∃ buf', symSfPush tab =
          (.ok (), { tab with buf := buf', sp := tab.sp - 4, fp := tab.sp - 4 }) ∧
        Stacked { tab with buf := buf', sp := tab.sp - 4, fp := tab.sp - 4 }
          (.frame tab.fp tab.bp :: es) ∧
        ∀ i, i ≤ tab.bp + 1 ∨ tab.sp ≤ i → buf' i = tab.buf i := by
  have hfp := h.sp_le
  have htop := h.top_lt
  have hsp := h.sp_add
  have hlen : (le16 tab.fp ++ le16 tab.bp).length = 4 := rfl
  simp only [symSfPush, Attempt.run_bind, Attempt.run_read, Attempt.andThen_ok, symPush, hlen]
  split_ifs with hroom
  · right
    simp only [Attempt.andThen_ok, Attempt.run_update]
    refine ⟨_, rfl, ⟨?_, ?_, ⟨?_, Nat.le_refl _, h.linked⟩, ?_, ?_, h.top_lt⟩, ?_⟩
    · have hload := load_push tab.buf (n := (stackBytes es).length)
        (show (le16 tab.fp ++ le16 tab.bp).length ≤ tab.sp by omega)
      rw [h.bytes, ← List.length_append] at hload
      exact hload
    · have hsum : tab.sp - 4 + (4 + (stackBytes es).length) = tab.top := by omega
      rw [stackBytes_length_cons]
      exact hsum
    · have hsum : tab.sp - 4 + (4 + (stackBytes es).length) = tab.top := by omega
      rw [stackBytes_length_cons]
      exact hsum
    · exact List.forall_mem_cons.mpr ⟨⟨by omega, by omega⟩, h.fits⟩
    · have hroom' : tab.bp + 2 ≤ tab.sp - 4 := by omega
      exact hroom'
    · rintro i (hi | hi)
      · exact store_lt _ _ (by omega)
      · exact store_ge _ _ (by omega)
  · exact Or.inl rfl

/-- What a frame at the top of the stack says. -/
theorem frame_bytes {f b : Nat} (h : Stacked tab (.frame f b :: es)) :
    tab.fp = tab.sp ∧ tab.sp + 4 ≤ tab.top ∧ (f < 65536 ∧ load tab.buf tab.fp 2 = le16 f) ∧
      b < 65536 ∧ load tab.buf (tab.fp + 2) 2 = le16 b := by
  obtain ⟨hload, -⟩ := h.bytes_cons
  have hfp := h.linked.1
  have hsp := h.sp_add
  obtain ⟨hf, hb⟩ := h.fits _ List.mem_cons_self
  have hsame : tab.fp = tab.sp := by omega
  have hlen : (Entry.frame f b).bytes.length = 4 := rfl
  rw [stackBytes_cons, List.length_append, hlen] at hsp
  have hsplit := load_append tab.buf tab.sp 2 2
  rw [hlen] at hload
  rw [hload] at hsplit
  obtain ⟨hload₁, hload₂⟩ := List.append_inj hsplit.symm (load_length _ _ _)
  rw [hsame]
  exact ⟨rfl, by omega, ⟨hf, hload₁⟩, hb, hload₂⟩

/-- The closing of a scope takes the frame off and puts the terminator where it says. -/
theorem unframe {f b : Nat} (h : Stacked tab (.frame f b :: es)) :
    symSfPop tab = { tab with
        sp := tab.sp + 4, fp := f, bp := b, buf := store tab.buf (b + 1) [0] } ∧
      Stacked (symSfPop tab) es ∧ b ≤ tab.bp := by
  obtain ⟨-, hrest⟩ := h.bytes_cons
  obtain ⟨hsame, htop, ⟨hf, hload₁⟩, hb', hload₂⟩ := h.frame_bytes
  obtain ⟨-, hb, hlinked⟩ := h.linked
  have hsp := h.sp_add
  have hroom := h.room
  have hlen : (Entry.frame f b).bytes.length = 4 := rfl
  rw [stackBytes_cons, List.length_append, hlen] at hsp
  rw [hlen] at hrest
  have hpop : symSfPop tab = { tab with
      sp := tab.sp + 4, fp := f, bp := b, buf := store tab.buf (b + 1) [0] } := by
    rw [symSfPop, if_neg (by omega), hload₁, hload₂, ofBytes_le16 hf, ofBytes_le16 hb', hsame]
  refine ⟨hpop, ?_, hb⟩
  rw [hpop]
  refine ⟨?_, ?_, hlinked, fun e he => h.fits e (List.mem_cons_of_mem _ he), ?_, h.top_lt⟩
  · have hkept (i : Nat) (hi : tab.sp + 4 ≤ i) : store tab.buf (b + 1) [0] i = tab.buf i :=
      store_ge _ _ (by
        rw [List.length_singleton]
        omega)
    exact (load_congr fun i hi _ => hkept i hi).trans hrest
  · have hsum : tab.sp + 4 + (stackBytes es).length = tab.top := by omega
    exact hsum
  · have hroom' : b + 2 ≤ tab.sp + 4 := by omega
    exact hroom'

end Stacked

end YardIce.MicroJs
