import YardIce.Lib.Runs
import YardIce.Debugger.BreakpointBook
import YardIce.Debugger.BreakpointPool

/-!
# Integrity of the breakpoint table

After every sequence of calls that add and remove breakpoints the list holds
distinct entries with distinct addresses and sizes, and the free chain runs
through exactly the other entries of the pool. A call that sets a new breakpoint
while the pool has no entry left does not return.

## Implementation notes

Between taking an entry from the chain and giving one back, a call writes only to
entries of the list. `Kept` says so once for all of these writes: the links of
free entries, the addresses and the sizes stay.
-/

namespace YardIce.Breakpoints.Pool

open Lib

/-- The chain of links that starts at `p` runs through `l`. -/
def Chain (entry : BpId → Entry) : Option BpId → List BpId → Prop
  | p, [] => p = none
  | p, b :: l => p = some b ∧ ∃ next, (entry b).word = .link next ∧ Chain entry next l

/-- What the lookup compares. -/
def Table.key (t : Table) (b : BpId) : BitVec 32 × BitVec 32 := ((t.entry b).addr, (t.entry b).size)

/-- The list holds distinct entries with distinct keys, and every entry is either in
the list or on the free chain. -/
structure Intact (t : Table) : Prop where
  distinct : t.lst.Nodup
  keys : t.lst.Pairwise fun a b => t.key a ≠ t.key b
  chained : ∃ chain, Chain t.entry t.free chain ∧ chain.Nodup ∧ ∀ b, b ∈ chain ↔ b ∉ t.lst

/-- All entries of the pool are in use. -/
def Full (t : Table) : Prop := ∀ b, b ∈ t.lst

variable {t u v : Table} {b : BpId}

section Chains

theorem Chain.congr {entry entry' : BpId → Entry} {p : Option BpId} {l : List BpId}
    (h : Chain entry p l) (heq : ∀ b ∈ l, entry' b = entry b) : Chain entry' p l := by
  induction l generalizing p with
  | nil => exact h
  | cons b l ih =>
      obtain ⟨hp, next, hword, hrest⟩ := h
      refine ⟨hp, next, ?_, ih hrest fun x hx => heq x (by simp [hx])⟩
      rw [heq b (by simp)]
      exact hword

/-- The entries from `b` on, in the order of the pool. -/
theorem chain_finRange (entry : BpId → Entry)
    (hword : ∀ b, (entry b).word =
      .link (if h : b.val + 1 < dbgBreakpointMax then some ⟨b.val + 1, h⟩ else none))
    (k : Nat) (hk : k < dbgBreakpointMax) :
    Chain entry (some ⟨k, hk⟩) ((List.finRange dbgBreakpointMax).drop k) := by
  induction hn : dbgBreakpointMax - 1 - k generalizing k with
  | zero =>
      have hlast : k = dbgBreakpointMax - 1 := by omega
      subst hlast
      exact ⟨rfl, none, hword _, rfl⟩
  | succ n ih =>
      have hlt : k + 1 < dbgBreakpointMax := by omega
      rw [List.drop_eq_getElem_cons (by simpa using hk), List.getElem_finRange]
      refine ⟨rfl, some ⟨k + 1, hlt⟩, ?_, ih (k + 1) hlt (by omega)⟩
      have hw := hword ⟨k, hk⟩
      rw [dif_pos hlt] at hw
      exact hw

theorem dbgBpInit_intact (t : Table) : Intact (dbgBpInit t) where
  distinct := List.nodup_nil
  keys := List.Pairwise.nil
  chained := by
    refine ⟨List.finRange dbgBreakpointMax, ?_, List.nodup_finRange _, ?_⟩
    · exact chain_finRange (dbgBpInit t).entry (fun _ => rfl) 0 (by decide)
    · intro b
      simp [dbgBpInit]

end Chains

section Writes

@[simp] theorem bp_addr (t : Table) (b : BpId) : (t.bp b).addr = (t.entry b).addr := by
  unfold Table.bp
  split <;> rfl

@[simp] theorem bp_size (t : Table) (b : BpId) : (t.bp b).size = (t.entry b).size := by
  unfold Table.bp
  split <;> rfl

theorem setBp_entry_of_ne {x : BpId} (h : x ≠ b) (t : Table) (y : DbgBp) :
    (t.setBp b y).entry x = t.entry x :=
  Function.update_of_ne h _ _

theorem setNext_entry_of_ne {x : BpId} (h : x ≠ b) (t : Table) (next : Option BpId) :
    (t.setNext b next).entry x = t.entry x :=
  Function.update_of_ne h _ _

/-- A change that leaves the free chain and all keys as they are, and keeps the list
up to its order. -/
structure Kept (t u : Table) : Prop where
  state : u.state = t.state
  lst : u.lst.Perm t.lst
  free : u.free = t.free
  key : ∀ b, u.key b = t.key b
  entry : ∀ b, b ∉ t.lst → u.entry b = t.entry b

theorem Kept.refl (t : Table) : Kept t t :=
  ⟨rfl, List.Perm.refl _, rfl, fun _ => rfl, fun _ _ => rfl⟩

theorem Kept.trans (h : Kept t u) (h' : Kept u v) : Kept t v where
  state := h'.state.trans h.state
  lst := h'.lst.trans h.lst
  free := h'.free.trans h.free
  key b := (h'.key b).trans (h.key b)
  entry b hb := (h'.entry b (mt h.lst.mem_iff.mp hb)).trans (h.entry b hb)

/-- Writing fields of an entry of the list keeps the chain. -/
theorem Kept.setBp (h : Kept t u) (hb : b ∈ t.lst) {x : DbgBp} (haddr : x.addr = (u.bp b).addr)
    (hsize : x.size = (u.bp b).size) : Kept t (u.setBp b x) := by
  apply h.trans
  refine ⟨rfl, List.Perm.refl _, rfl, ?_, ?_⟩
  · intro y
    by_cases hy : y = b
    · subst hy
      simp [Table.key, Table.setBp, haddr, hsize]
    · simp [Table.key, setBp_entry_of_ne hy]
  · intro y hy
    apply setBp_entry_of_ne
    rintro rfl
    exact hy (h.lst.mem_iff.mpr hb)

theorem Kept.setFpb (h : Kept t u) (fpb : Fpb) : Kept t { u with fpb := fpb } :=
  ⟨h.state, h.lst, h.free, h.key, h.entry⟩

theorem Kept.bpSet (h : Kept t u) (hb : b ∈ t.lst) (hset : u.bpSet b = some v) : Kept t v := by
  unfold Table.bpSet at hset
  split at hset
  · cases hset
  · obtain rfl := Option.some.inj hset
    exact (h.setFpb _).setBp hb rfl rfl

theorem Kept.drop (h : Kept t u) (hb : b ∈ t.lst) : Kept t (u.drop b) := by
  have hset : Kept t (u.setBp b { u.bp b with active := false }) := h.setBp hb rfl rfl
  exact hset.setFpb _

/-- `dbg_bp_activate` writes to the entry and to the one it deactivates. -/
theorem Kept.activate (h : Kept t u) (hb : b ∈ t.lst) : Kept t (dbgBpActivate u b) := by
  have hset : ∀ w, Kept t w →
      Kept t ((w.bpSet b).getD (w.setBp b { w.bp b with active := false, hwId := -1 })) := by
    intro w hw
    cases hs : w.bpSet b with
    | none => exact hw.setBp hb rfl rfl
    | some w' => exact hw.bpSet hb hs
  unfold dbgBpActivate
  split
  · exact h
  · apply hset
    split
    · next nxt hnxt =>
        split
        · exact h.drop (h.lst.mem_iff.mp (List.mem_of_getElem? hnxt))
        · exact h
    · exact h

theorem useBp_kept (hb : b ∈ t.lst) : Kept t (useBp t b) := by
  have hmove : Kept t (dbgBpMoveToHead t b) := by
    refine ⟨rfl, ?_, rfl, fun _ => rfl, fun _ _ => rfl⟩
    exact (shiftTo_perm hb).trans (List.perm_cons_erase hb).symm
  have hen := hmove.setBp (x := { (dbgBpMoveToHead t b).bp b with enabled := true }) hb rfl rfl
  unfold useBp
  simp only
  split
  · exact hen
  · exact hen.activate hb

theorem promote_kept (h : Kept t u) {stale : Int} (hp : promote u stale = some v) : Kept t v := by
  unfold promote at hp
  split at hp
  · split at hp
    · cases hp
    · split at hp
      · cases hp
      · next nxt hnxt =>
          have hmem : nxt ∈ t.lst := h.lst.mem_iff.mp (List.mem_of_getElem? hnxt)
          split at hp
          · obtain rfl := Option.some.inj hp
            cases hs : u.bpSet nxt with
            | none => exact h.setBp hmem rfl rfl
            | some w => exact h.bpSet hmem hs
          · obtain rfl := Option.some.inj hp
            exact h
  · obtain rfl := Option.some.inj hp
    exact h

/-- What keeps chain, keys and list keeps the table intact. -/
theorem Intact.of_kept (hi : Intact t) (h : Kept t u) : Intact u := by
  obtain ⟨chain, hchain, hnd, hcover⟩ := hi.chained
  refine ⟨h.lst.nodup_iff.mpr hi.distinct, ?_, chain, ?_, hnd, ?_⟩
  · have hkeys : t.lst.Pairwise fun a b => u.key a ≠ u.key b := by
      simpa only [h.key] using hi.keys
    exact h.lst.symm.pairwise hkeys fun hab => hab.symm
  · rw [h.free]
    exact hchain.congr fun x hx => h.entry x ((hcover x).mp hx)
  · intro x
    rw [hcover x, h.lst.mem_iff]

end Writes

section Calls

theorem lookup_eq_none {addr size : BitVec 32} (h : dbgBpLookup t addr size = none) :
    ∀ x ∈ t.lst, t.key x ≠ (addr, size) := by
  intro x hx hkey
  have hnot := List.find?_eq_none.mp h x hx
  simp only [Table.key, Prod.mk.injEq] at hkey
  simp [hkey.1, hkey.2] at hnot

/-- Where `dbg_bp_new` takes an entry from and where it puts it. -/
structure Taken (t : Table) (addr size : BitVec 32) (b : BpId) (u : Table) : Prop where
  head : t.free = some b
  word : (t.entry b).word = .link u.free
  state : u.state = t.state
  lst : t.lst.length < dbgBreakpointMax → u.lst = t.lst ++ [b]
  key : u.key b = (addr, size)
  entry : ∀ x, x ≠ b → u.entry x = t.entry x

theorem dbgBpNew_taken {addr size : BitVec 32} (h : dbgBpNew t addr size = some (b, u)) :
    Taken t addr size b u := by
  unfold dbgBpNew at h
  split at h
  · cases h
  · next x hfree =>
      split at h
      · cases h
      · next next hword =>
          simp only [Option.some.injEq, Prod.mk.injEq] at h
          obtain ⟨rfl, rfl⟩ := h
          refine ⟨hfree, hword, rfl, ?_, ?_, ?_⟩
          · intro hlen
            exact if_pos hlen
          · simp [Table.key, Table.setBp]
          · intro y hy
            exact setBp_entry_of_ne hy _ _

theorem Intact.length_lt (hi : Intact t) (hb : b ∉ t.lst) : t.lst.length < dbgBreakpointMax := by
  have hcard := (List.nodup_cons.mpr ⟨hb, hi.distinct⟩).length_le_card
  rw [Fintype.card_fin, List.length_cons] at hcard
  exact hcard

/-- A new entry comes from the head of the free chain. -/
theorem dbgBpNew_intact (hi : Intact t) {addr size : BitVec 32}
    (hnew : dbgBpLookup t addr size = none) (h : dbgBpNew t addr size = some (b, u)) :
    Intact u ∧ b ∈ u.lst := by
  have htaken := dbgBpNew_taken h
  obtain ⟨chain, hchain, hnd, hcover⟩ := hi.chained
  cases chain with
  | nil =>
      have hfree : t.free = none := hchain
      rw [htaken.head] at hfree
      cases hfree
  | cons x rest =>
      obtain ⟨hfree, next, hword, hrest⟩ := hchain
      obtain rfl : b = x := Option.some.inj (htaken.head.symm.trans hfree)
      obtain rfl : u.free = next := Word.link.inj (htaken.word.symm.trans hword)
      have hb : b ∉ t.lst := (hcover b).mp (by simp)
      have hbrest : b ∉ rest := (List.nodup_cons.mp hnd).1
      have hlst : u.lst = t.lst ++ [b] := htaken.lst (hi.length_lt hb)
      have hkey : ∀ x ∈ t.lst, u.key x = t.key x := by
        intro x hx
        have hxb : x ≠ b := fun he => hb (he ▸ hx)
        simp only [Table.key, htaken.entry x hxb]
      refine ⟨⟨?_, ?_, rest, ?_, (List.nodup_cons.mp hnd).2, ?_⟩, by simp [hlst]⟩
      · rw [hlst]
        exact List.nodup_append'.mpr ⟨hi.distinct, List.nodup_singleton b, by simpa using hb⟩
      · rw [hlst, List.pairwise_append]
        refine ⟨?_, List.pairwise_singleton _ _, ?_⟩
        · refine hi.keys.imp_of_mem ?_
          intro x y hx hy hxy
          rw [hkey x hx, hkey y hy]
          exact hxy
        · intro x hx y hy
          obtain rfl : y = b := by simpa using hy
          rw [hkey x hx, htaken.key]
          exact lookup_eq_none hnew x hx
      · exact hrest.congr fun y hy => htaken.entry y fun he => hbrest (he ▸ hy)
      · intro y
        have hy := hcover y
        rw [hlst, List.mem_append, List.mem_singleton, not_or, ← hy, List.mem_cons]
        constructor
        · intro hmem
          exact ⟨Or.inr hmem, fun he => hbrest (he ▸ hmem)⟩
        · rintro ⟨hmem, hne⟩
          exact hmem.resolve_left hne

/-- With an entry left, a new breakpoint gets one. -/
theorem dbgBpNew_isSome (hi : Intact t) (hfull : ¬Full t) (addr size : BitVec 32) :
    ∃ b u, dbgBpNew t addr size = some (b, u) := by
  obtain ⟨chain, hchain, -, hcover⟩ := hi.chained
  cases chain with
  | nil =>
      refine absurd ?_ hfull
      intro x
      by_contra hx
      simpa using (hcover x).mpr hx
  | cons x rest =>
      obtain ⟨hfree, next, hword, -⟩ := hchain
      simp only [dbgBpNew, hfree, hword]
      exact ⟨_, _, rfl⟩

/-- With no entry left, the call writes through a null pointer. -/
theorem dbgBpNew_full (hi : Intact t) (hfull : Full t) (addr size : BitVec 32) :
    dbgBpNew t addr size = none := by
  obtain ⟨chain, hchain, -, hcover⟩ := hi.chained
  cases chain with
  | nil =>
      have hfree : t.free = none := hchain
      simp [dbgBpNew, hfree]
  | cons x rest => exact absurd (hfull x) ((hcover x).mp (by simp))

theorem eraseIdx_findIdx {l : List BpId} {n : Nat} (h : l.findIdx? (· = b) = some n) :
    b ∈ l ∧ l.eraseIdx n = l.erase b := by
  induction l generalizing n with
  | nil => cases h
  | cons x l ih =>
      by_cases hx : x = b
      · subst hx
        obtain rfl : 0 = n := by simpa [List.findIdx?_cons] using h
        simp
      · simp only [List.findIdx?_cons, hx, decide_false, Bool.false_eq_true, if_false,
          Option.map_eq_some_iff] at h
        obtain ⟨m, hm, rfl⟩ := h
        obtain ⟨hmem, herase⟩ := ih hm
        exact ⟨by simp [hmem], by simp [hx, herase]⟩

/-- Giving an entry back: it leaves the list, entries of the shorter list may be
written, and it becomes the head of the chain. -/
theorem Intact.delete (hi : Intact t) (hb : b ∈ t.lst)
    (hk : Kept { t with lst := t.lst.erase b } u) :
    Intact { u.setNext b u.free with free := some b } := by
  obtain ⟨chain, hchain, hnd, hcover⟩ := hi.chained
  have hbc : b ∉ chain := fun h => (hcover b).mp h hb
  have hmem : ∀ x, x ∈ u.lst ↔ x ≠ b ∧ x ∈ t.lst := by
    intro x
    rw [hk.lst.mem_iff]
    exact hi.distinct.mem_erase_iff
  have hkeep : ∀ x ∈ chain, (u.setNext b u.free).entry x = t.entry x := by
    intro x hx
    have hxt : x ∉ t.lst := (hcover x).mp hx
    have hxb : x ≠ b := fun he => hbc (he ▸ hx)
    rw [setNext_entry_of_ne hxb]
    exact hk.entry x fun hxe => hxt (List.mem_of_mem_erase hxe)
  have hkey : ∀ x, ({ u.setNext b u.free with free := some b } : Table).key x = t.key x := by
    intro x
    rw [← show u.key x = t.key x from hk.key x]
    by_cases hx : x = b
    · subst hx
      simp [Table.key, Table.setNext]
    · simp [Table.key, Table.setNext, Function.update_of_ne hx]
  refine ⟨?_, ?_, b :: chain, ⟨rfl, u.free, ?_, ?_⟩, List.nodup_cons.mpr ⟨hbc, hnd⟩, ?_⟩
  · exact hk.lst.nodup_iff.mpr (hi.distinct.erase b)
  · simp only [hkey]
    have hsub : (t.lst.erase b).Pairwise fun x y => t.key x ≠ t.key y :=
      hi.keys.sublist List.erase_sublist
    exact hk.lst.symm.pairwise hsub fun hab => hab.symm
  · simp [Table.setNext]
  · rw [show u.free = t.free from hk.free]
    exact hchain.congr fun x hx => by rw [← hkeep x hx, ← show u.free = t.free from hk.free]
  · intro x
    change x ∈ b :: chain ↔ x ∉ u.lst
    rw [hmem x, List.mem_cons, hcover x]
    by_cases hx : x = b
    · simp [hx]
    · simp [hx]

theorem dbgBpDelete_intact (hi : Intact t) {stale r : Int}
    (h : dbgBpDelete t b stale = some (r, u)) : Intact u ∧ u.state = t.state := by
  unfold dbgBpDelete at h
  cases hn : t.lst.findIdx? (· = b) with
  | none =>
      rw [hn] at h
      cases h
  | some n =>
      obtain ⟨hb, herase⟩ := eraseIdx_findIdx hn
      simp only [hn, herase, Option.bind_eq_bind, Option.pure_def] at h
      -- both branches end with the same two writes
      have hend : ∀ w, Kept { t with lst := t.lst.erase b } w →
          some ((0 : Int), { w.setNext b w.free with free := some b }) = some (r, u) →
          Intact u ∧ u.state = t.state := by
        intro w hkept hw
        obtain ⟨-, rfl⟩ := Prod.mk.inj (Option.some.inj hw)
        exact ⟨hi.delete hb hkept, hkept.state⟩
      split at h
      · obtain ⟨w, hw, hr⟩ := Option.bind_eq_some_iff.mp h
        exact hend w (promote_kept ((Kept.refl _).setFpb _) hw) hr
      · exact hend _ (Kept.refl _) h

theorem targetBreakpointSet_intact (hi : Intact t) {addr size : BitVec 32} {r : Int}
    (h : targetBreakpointSet t addr size = some (r, u)) : Intact u := by
  unfold targetBreakpointSet at h
  split at h
  · cases h
    exact hi
  · split at h
    · next b hb =>
        cases h
        exact hi.of_kept (useBp_kept (List.mem_of_find?_eq_some hb))
    · next hnone =>
        obtain ⟨⟨b, v⟩, hnew, hr⟩ := Option.map_eq_some_iff.mp h
        obtain ⟨hv, hmem⟩ := dbgBpNew_intact hi hnone hnew
        cases hr
        exact hv.of_kept (useBp_kept hmem)

/-- What a set call should do in the state `t`: it returns with the table
intact, and it fails without effect if it needs an entry and there is none. -/
def SetSafe (t : Table) (addr size : BitVec 32) : Prop :=
  ∃ r u, targetBreakpointSet t addr size = some (r, u) ∧ Intact u ∧
    (Full t → dbgBpLookup t addr (bpSize size) = none → r < 0 ∧ u = t)

theorem setSafe_iff (hi : Intact t) (hst : DbgState.connected.num ≤ t.state.num)
    (addr size : BitVec 32) :
    SetSafe t addr size ↔ ¬(Full t ∧ dbgBpLookup t addr (bpSize size) = none) := by
  have hconn : ¬t.state.num < DbgState.connected.num := by omega
  constructor
  · rintro ⟨r, u, hset, -, -⟩ ⟨hfull, hnone⟩
    simp [targetBreakpointSet, hconn, hnone, dbgBpNew_full hi hfull] at hset
  · intro hnot
    have hret : ∃ r u, targetBreakpointSet t addr size = some (r, u) := by
      cases hl : dbgBpLookup t addr (bpSize size) with
      | some b => simp [targetBreakpointSet, hconn, hl]
      | none =>
          have hfull : ¬Full t := fun hf => hnot ⟨hf, hl⟩
          obtain ⟨b, u, hnew⟩ := dbgBpNew_isSome hi hfull addr (bpSize size)
          simp [targetBreakpointSet, hconn, hl, hnew]
    obtain ⟨r, u, hset⟩ := hret
    refine ⟨r, u, hset, targetBreakpointSet_intact hi hset, ?_⟩
    intro hfull hnone
    exact absurd ⟨hfull, hnone⟩ hnot

theorem targetBreakpointSet_state (hi : Intact t) {addr size : BitVec 32} {r : Int}
    (h : targetBreakpointSet t addr size = some (r, u)) : u.state = t.state := by
  unfold targetBreakpointSet at h
  split at h
  · cases h
    rfl
  · split at h
    · next b hb =>
        cases h
        exact (useBp_kept (List.mem_of_find?_eq_some hb)).state
    · next hnone =>
        obtain ⟨⟨b, v⟩, hnew, hr⟩ := Option.map_eq_some_iff.mp h
        obtain ⟨-, hmem⟩ := dbgBpNew_intact hi hnone hnew
        cases hr
        exact (useBp_kept hmem).state.trans (dbgBpNew_taken hnew).state

theorem Intact.call (hi : Intact t) {c : Call} {r : Int} (h : t.call c = some (r, u)) :
    Intact u ∧ u.state = t.state := by
  cases c with
  | set addr size =>
      exact ⟨targetBreakpointSet_intact hi h, targetBreakpointSet_state hi h⟩
  | clear addr size stale =>
      simp only [Table.call, targetBreakpointClear] at h
      split at h
      · cases h
        exact ⟨hi, rfl⟩
      · split at h
        · cases h
          exact ⟨hi, rfl⟩
        · exact dbgBpDelete_intact hi h
  | delete b stale =>
      simp only [Table.call, targetBreakpointDelete] at h
      split at h
      · cases h
        exact ⟨hi, rfl⟩
      · exact dbgBpDelete_intact hi h

end Calls

section Lists

/-- The table as the list model sees it, with the free entries `chain`. -/
def Table.view (t : Table) (chain : List BpId) : Debugger where
  state := t.state
  bpCtrl := { poll := t.bp, lst := t.lst, free := chain }
  fpb := t.fpb

theorem view_setBp (t : Table) (chain : List BpId) (b : BpId) (x : DbgBp) :
    (t.setBp b x).view chain = (t.view chain).setBp b x := by
  have hbp : (t.setBp b x).bp = Function.update t.bp b x := by
    funext y
    by_cases hy : y = b
    · subst hy
      simp [Table.bp, Table.setBp]
    · simp [Table.bp, Table.setBp, Function.update_of_ne hy]
  simp only [Table.view, Debugger.setBp, hbp]
  rfl

theorem view_bpSet (t : Table) (chain : List BpId) (b : BpId) :
    (t.view chain).bpSet b = (t.bpSet b).map fun u => u.view chain := by
  have hview : cm3iceBpSet (t.view chain).fpb ((t.view chain).bp b).addr ((t.view chain).bp b).size =
      cm3iceBpSet t.fpb (t.bp b).addr (t.bp b).size := rfl
  unfold Debugger.bpSet Table.bpSet
  rw [hview]
  cases cm3iceBpSet t.fpb (t.bp b).addr (t.bp b).size with
  | none => rfl
  | some r =>
      obtain ⟨id, fpb⟩ := r
      exact congrArg some (view_setBp { t with fpb := fpb } chain b _).symm

theorem view_dbgBpActivate (t : Table) (chain : List BpId) (b : BpId) :
    (dbgBpActivate t b).view chain = Breakpoints.dbgBpActivate (t.view chain) b := by
  have hset : ∀ w : Table,
      ((w.bpSet b).getD (w.setBp b { w.bp b with active := false, hwId := -1 })).view chain =
        ((w.view chain).bpSet b).getD
          ((w.view chain).setBp b { (w.view chain).bp b with active := false, hwId := -1 }) := by
    intro w
    rw [view_bpSet]
    cases w.bpSet b with
    | none => exact view_setBp w chain b _
    | some w' => rfl
  have hdrop : ∀ nxt, (t.drop nxt).view chain = (t.view chain).drop nxt := by
    intro nxt
    have hview := view_setBp t chain nxt { t.bp nxt with active := false }
    exact congrArg (fun d => d.bpClr (t.bp nxt).hwId) hview
  have hlst : (t.view chain).lst[(t.view chain).bpMax]? = t.lst[t.bpMax]? := rfl
  have hactive : ∀ x, ((t.view chain).bp x).active = (t.bp x).active := fun _ => rfl
  unfold dbgBpActivate Breakpoints.dbgBpActivate
  rw [hlst, hactive]
  split
  · rfl
  · cases t.lst[t.bpMax]? with
    | none => exact hset t
    | some nxt =>
        simp only [hactive, ← hdrop nxt]
        split
        · exact hset (t.drop nxt)
        · exact hset t

/-- Using an entry is the same on the storage and on the list model. -/
theorem view_useBp (t : Table) (chain : List BpId) (b : BpId) :
    (useBp t b).view chain = Breakpoints.useBp (t.view chain) b := by
  have hen : ((dbgBpMoveToHead t b).setBp b
      { (dbgBpMoveToHead t b).bp b with enabled := true }).view chain =
        (Breakpoints.dbgBpMoveToHead (t.view chain) b).setBp b
          { (Breakpoints.dbgBpMoveToHead (t.view chain) b).bp b with enabled := true } :=
    view_setBp (dbgBpMoveToHead t b) chain b _
  unfold useBp Breakpoints.useBp
  simp only
  rw [← hen, ← view_dbgBpActivate]
  split
  · next h => exact (if_pos h).symm
  · next h => exact (if_neg h).symm

theorem view_promote (t : Table) (chain : List BpId) (stale : Int) :
    Breakpoints.promote (t.view chain) stale = (promote t stale).map fun u => u.view chain := by
  have hmax : (t.view chain).bpMax = t.bpMax := rfl
  have hlst : (t.view chain).lst = t.lst := rfl
  have henabled : ∀ x, ((t.view chain).bp x).enabled = (t.bp x).enabled := fun _ => rfl
  unfold Breakpoints.promote promote
  rw [hmax, hlst]
  split
  · cases t.bpMax with
    | zero => rfl
    | succ k =>
        simp only
        cases t.lst[k]? with
        | none => rfl
        | some nxt =>
            simp only [view_bpSet, henabled]
            split
            · cases t.bpSet nxt with
              | none => exact congrArg some (view_setBp t chain nxt _).symm
              | some u => rfl
            · rfl
  · rfl

/-- Setting a breakpoint is the same on the storage and on the list model. -/
theorem view_targetBreakpointSet {chain : List BpId} (hchain : Chain t.entry t.free chain)
    {addr size : BitVec 32} {r : Int} (h : targetBreakpointSet t addr size = some (r, u)) :
    ∃ chain', Breakpoints.targetBreakpointSet (t.view chain) addr size =
      some (u.view chain') := by
  have hlookup : Breakpoints.dbgBpLookup (t.view chain) addr (bpSize size) =
      dbgBpLookup t addr (bpSize size) := rfl
  have hstate : (t.view chain).state = t.state := rfl
  unfold targetBreakpointSet at h
  unfold Breakpoints.targetBreakpointSet
  rw [hlookup, hstate]
  by_cases hst : t.state.num < DbgState.connected.num
  · rw [if_pos hst] at h
    cases h
    exact ⟨chain, if_pos hst⟩
  · rw [if_neg hst] at h ⊢
    cases hb : dbgBpLookup t addr (bpSize size) with
    | some b =>
        simp only [hb] at h
        cases h
        exact ⟨chain, congrArg some (view_useBp t chain b).symm⟩
    | none =>
        simp only [hb] at h
        obtain ⟨⟨b, v⟩, hnew, hr⟩ := Option.map_eq_some_iff.mp h
        cases hr
        have htaken := dbgBpNew_taken hnew
        cases chain with
        | nil =>
            rw [htaken.head] at hchain
            cases hchain
        | cons x rest =>
            obtain ⟨hfree, next, hword, -⟩ := hchain
            refine ⟨rest, ?_⟩
            rw [view_useBp]
            simp only [dbgBpNew, hfree, hword, Option.some.injEq, Prod.mk.injEq] at hnew
            obtain ⟨rfl, rfl⟩ := hnew
            have hview := view_setBp { t with free := next } rest x
              { ({ t with free := next } : Table).bp x with
                addr := addr, size := bpSize size, active := false }
            refine congrArg (fun d => some (Breakpoints.useBp (Debugger.setLst d _) x)) hview.symm

/-- Deleting a breakpoint is the same on the storage and on the list model, but for the
fields of the deleted entry, whose word becomes a link. -/
theorem view_dbgBpDelete (chain : List BpId) {stale r : Int}
    (h : dbgBpDelete t b stale = some (r, u)) :
    ∃ d, Breakpoints.dbgBpDelete (t.view chain) b stale = some d ∧
      u.view (b :: chain) = d.setBp b (u.bp b) := by
  have hend : ∀ w : Table, ({ w.setNext b w.free with free := some b } : Table).view (b :: chain) =
      ({ w.view chain with bpCtrl := { (w.view chain).bpCtrl with free := b :: chain } } :
        Debugger).setBp b (({ w.setNext b w.free with free := some b } : Table).bp b) := by
    intro w
    have hbp : (w.setNext b w.free).bp = Function.update w.bp b ((w.setNext b w.free).bp b) := by
      funext y
      by_cases hy : y = b
      · subst hy
        simp
      · simp [Table.bp, Table.setNext, Function.update_of_ne hy]
    unfold Table.view Debugger.setBp
    exact congrArg (fun poll => (⟨w.state, ⟨poll, w.lst, b :: chain⟩, w.fpb⟩ : Debugger)) hbp
  unfold dbgBpDelete at h
  cases hn : t.lst.findIdx? (· = b) with
  | none =>
      rw [hn] at h
      cases h
  | some n =>
      obtain ⟨hb, herase⟩ := eraseIdx_findIdx hn
      simp only [hn, herase, Option.bind_eq_bind, Option.pure_def] at h
      unfold Breakpoints.dbgBpDelete
      rw [if_pos (show b ∈ (t.view chain).lst from hb)]
      have hact : (((t.view chain).setLst ((t.view chain).lst.erase b)).bp b).active =
          (({ t with lst := t.lst.erase b } : Table).bp b).active := rfl
      simp only [Option.bind_eq_bind, Option.pure_def]
      rw [hact]
      split at h
      · next ha =>
          obtain ⟨w, hw, hr⟩ := Option.bind_eq_some_iff.mp h
          obtain ⟨-, rfl⟩ := Prod.mk.inj (Option.some.inj hr)
          have hp := view_promote _ chain stale |>.trans (congrArg _ hw)
          rw [if_pos ha]
          exact ⟨_, Option.bind_eq_some_iff.mpr ⟨_, hp, rfl⟩, hend w⟩
      · next ha =>
          obtain ⟨-, rfl⟩ := Prod.mk.inj (Option.some.inj h)
          rw [if_neg ha]
          exact ⟨_, rfl, hend _⟩

end Lists

/-- After every sequence of calls in a connected state the table is intact, and the next set
call is safe exactly when it finds its breakpoint or a free entry. -/
theorem breakpointTable_intact (t₀ : Table) (hst : DbgState.connected.num ≤ t₀.state.num)
    (cs : List Call) (hrun : exec Table.step (dbgBpInit t₀) cs = some t) :
    Intact t ∧ ∀ addr size,
      SetSafe t addr size ↔ ¬(Full t ∧ dbgBpLookup t addr (bpSize size) = none) := by
  have hinv : Intact t ∧ DbgState.connected.num ≤ t.state.num := by
    have hinit : Intact (dbgBpInit t₀) ∧ DbgState.connected.num ≤ (dbgBpInit t₀).state.num :=
      ⟨dbgBpInit_intact t₀, hst⟩
    refine exec_invariant (I := fun t => Intact t ∧ DbgState.connected.num ≤ t.state.num) ?_ hinit
      (along_of_forall (fun _ _ => trivial) _ cs) hrun
    intro s c u hs _ hstep
    obtain ⟨⟨r, v⟩, hcall, rfl⟩ := Option.map_eq_some_iff.mp hstep
    obtain ⟨hi, hstate⟩ := hs.1.call hcall
    exact ⟨hi, hstate ▸ hs.2⟩
  exact ⟨hinv.1, setSafe_iff hinv.1 hinv.2⟩

/-- A halted target with `codeMax` comparators and unused storage. -/
def blankTable (codeMax : Nat) : Table where
  state := .halted
  fpb := { codeMax := codeMax, codeBmp := 0, comp := fun _ => 0 }
  entry _ := ⟨.link none, 0, 0⟩
  lst := []
  free := none
  bits _ := (0, true, false)

theorem breakpointTable_intact_run :
    ∃ t, exec Table.step (dbgBpInit (blankTable 2))
        [.set 0x100 2, .set 0x204 4, .set 0x30a 0, .delete 1 0, .set 0x100 0, .clear 0x30a 2 0,
          .set 0x400 2] = some t ∧ t.lst = [2, 0] ∧ Intact t ∧ SetSafe t 0x500 4 := by
  refine ⟨_, rfl, by decide, ?_⟩
  have h := breakpointTable_intact (blankTable 2) (by decide)
    [.set 0x100 2, .set 0x204 4, .set 0x30a 0, .delete 1 0, .set 0x100 0, .clear 0x30a 2 0,
      .set 0x400 2] rfl
  exact ⟨h.1, (h.2 0x500 4).mpr fun hfull => absurd (hfull.1 1) (by decide)⟩

/-- Sixteen breakpoints fill the pool; the seventeenth call writes through a null
pointer instead of failing. -/
theorem breakpointTable_not_intact :
    ∃ t, exec Table.step (dbgBpInit (blankTable 2))
        ((List.range dbgBreakpointMax).map fun i => .set (0x100 + 2 * i) 2) = some t ∧
      Full t ∧ dbgBpLookup t 0x1000 (bpSize 2) = none ∧
      targetBreakpointSet t 0x1000 2 = none ∧ ¬SetSafe t 0x1000 2 := by
  have hrun : (exec Table.step (dbgBpInit (blankTable 2))
      ((List.range dbgBreakpointMax).map fun i => .set (0x100 + 2 * i) 2)).any (fun t =>
        decide (∀ b, b ∈ t.lst) && (dbgBpLookup t 0x1000 (bpSize 2)).isNone &&
          (targetBreakpointSet t 0x1000 2).isNone) = true := by decide
  obtain ⟨t, ht, hall⟩ := (Option.any_eq_true _ _).mp hrun
  simp only [Bool.and_eq_true, decide_eq_true_eq, Option.isNone_iff_eq_none] at hall
  obtain ⟨⟨hfull, hnone⟩, hset⟩ := hall
  refine ⟨t, ht, hfull, hnone, hset, ?_⟩
  rintro ⟨r, u, h, -⟩
  rw [hset] at h
  cases h

end YardIce.Breakpoints.Pool
