import YardIce.Debugger.BreakpointTable
import YardIce.Lib.Recency

/-!
# The breakpoint list is in the order of the last set call

Setting a breakpoint moves its entry to the head of the list, and clearing or deleting it
takes the entry out. The addresses and sizes of the entries, in the order of the list, are
the list of the keys in use with the one set last in front.
-/

namespace YardIce.Breakpoints.Pool

open Lib

variable {t u v : Table} {b : BpId}

/-- The addresses and sizes of the breakpoints, in the order of the list. -/
def Table.keys (t : Table) : List (BitVec 32 × BitVec 32) := t.lst.map t.key

/-- What a call does to a key. -/
def Table.event (t : Table) : Call → List (Recency (BitVec 32 × BitVec 32))
  | .set addr size =>
    if t.state.num < DbgState.connected.num then [] else [.touch (addr, bpSize size)]
  | .clear addr size _ =>
    if t.state.num < DbgState.connected.num then [] else [.drop (addr, bpSize size)]
  | .delete b _ => if t.state.num < DbgState.connected.num then [] else [.drop (t.key b)]

/-- The history of the keys, the newest event first: the calls of a run after `es`. -/
def history : Table → List Call → List (Recency (BitVec 32 × BitVec 32)) →
    List (Recency (BitVec 32 × BitVec 32))
  | _, [], es => es
  | t, c :: cs, es =>
    match t.step c with
    | none => es
    | some u => history u cs (t.event c ++ es)

/-! ### The order of the list -/

/-- The shift rotates the part of the list up to the entry. -/
theorem shiftTo_eq {prev : BpId} {l : List BpId} (h : b ∈ l) :
    shiftTo b prev l = prev :: l.erase b := by
  induction l generalizing prev with
  | nil => exact absurd h List.not_mem_nil
  | cons x l ih =>
      by_cases hx : x = b
      · subst hx
        simp [shiftTo]
      · have hb : b ∈ l := (List.mem_cons.mp h).resolve_left fun he => hx he.symm
        have herase : (x :: l).erase b = x :: l.erase b := by simp [hx]
        simp only [shiftTo, if_neg hx, ih hb, herase]

theorem bpSet_lst (h : t.bpSet b = some u) : u.lst = t.lst := by
  unfold Table.bpSet at h
  split at h
  · cases h
  · rw [← Option.some.inj h]
    rfl

/-- Taking a comparator, or failing to, leaves the list. -/
theorem bpSet_getD_lst (b : BpId) (hu : u.lst = t.lst) : ((t.bpSet b).getD u).lst = t.lst := by
  cases hset : t.bpSet b with
  | none => exact hu
  | some w => exact bpSet_lst hset

theorem dbgBpActivate_lst (t : Table) (b : BpId) : (dbgBpActivate t b).lst = t.lst := by
  have hfreed : ∀ w : Table, w.lst = t.lst →
      ((w.bpSet b).getD (w.setBp b { w.bp b with active := false, hwId := -1 })).lst = t.lst := by
    intro w hw
    have hself : (w.setBp b { w.bp b with active := false, hwId := -1 }).lst = w.lst := rfl
    exact (bpSet_getD_lst b hself).trans hw
  unfold dbgBpActivate
  split
  · rfl
  · apply hfreed
    split
    · split
      · rfl
      · rfl
    · rfl

/-- The entry of a set call is moved to the head. -/
theorem useBp_lst (hb : b ∈ t.lst) : (useBp t b).lst = b :: t.lst.erase b := by
  have hmove : (dbgBpMoveToHead t b).lst = b :: t.lst.erase b := shiftTo_eq hb
  unfold useBp
  simp only
  split
  · exact hmove
  · rw [dbgBpActivate_lst]
    exact hmove

theorem promote_lst {stale : Int} (h : promote t stale = some u) : u.lst = t.lst := by
  unfold promote at h
  split at h
  · split at h
    · cases h
    · split at h
      · cases h
      · split at h
        · rw [← Option.some.inj h]
          exact bpSet_getD_lst _ rfl
        · rw [← Option.some.inj h]
  · rw [← Option.some.inj h]

/-! ### The keys -/

/-- Where the keys of a list are distinct, an entry leaves it with its key. -/
theorem map_erase_of_pairwise {α β : Type*} [DecidableEq α] [DecidableEq β] {f : α → β} {l : List α}
    (h : l.Pairwise fun a b => f a ≠ f b) {a : α} (ha : a ∈ l) :
    (l.erase a).map f = (l.map f).erase (f a) := by
  induction l with
  | nil => exact absurd ha List.not_mem_nil
  | cons x l ih =>
      obtain ⟨hx, hl⟩ := List.pairwise_cons.mp h
      by_cases hxa : x = a
      · subst hxa
        simp
      · have ha' : a ∈ l := (List.mem_cons.mp ha).resolve_left fun he => hxa he.symm
        have hne : f x ≠ f a := hx a ha'
        simp only [List.erase_cons, List.map_cons, beq_iff_eq, if_neg hxa, if_neg hne, ih hl ha']

theorem Kept.keys (h : Kept t u) : u.lst.map u.key = u.lst.map t.key :=
  List.map_congr_left fun x _ => h.key x

/-- Setting an entry of the list brings its key to the head. -/
theorem useBp_keys (hi : Intact t) (hb : b ∈ t.lst) :
    (useBp t b).keys = Recency.apply t.keys (.touch (t.key b)) := by
  rw [Recency.apply, Table.keys, (useBp_kept hb).keys, useBp_lst hb, List.map_cons,
    map_erase_of_pairwise hi.keys hb]
  rfl

theorem not_mem_keys {addr size : BitVec 32} (h : dbgBpLookup t addr size = none) :
    (addr, size) ∉ t.keys := by
  intro hk
  obtain ⟨x, hx, hkey⟩ := List.mem_map.mp hk
  exact lookup_eq_none h x hx hkey

theorem key_of_lookup {addr size : BitVec 32} (h : dbgBpLookup t addr size = some b) :
    b ∈ t.lst ∧ t.key b = (addr, size) := by
  have hfound := List.find?_some h
  simp only [bp_addr, bp_size, Bool.and_eq_true, decide_eq_true_eq] at hfound
  exact ⟨List.mem_of_find?_eq_some h, Prod.ext hfound.1 hfound.2⟩

/-- A new entry stands behind the others until it is set. -/
theorem dbgBpNew_keys (hi : Intact t) {addr size : BitVec 32}
    (h : dbgBpNew t addr size = some (b, u)) :
    u.keys = t.keys ++ [(addr, size)] := by
  have htaken := dbgBpNew_taken h
  obtain ⟨chain, hchain, -, hcover⟩ := hi.chained
  have hb : b ∉ t.lst := by
    cases chain with
    | nil =>
        have hfree : t.free = none := hchain
        rw [htaken.head] at hfree
        cases hfree
    | cons x rest =>
        obtain rfl : b = x := Option.some.inj (htaken.head.symm.trans hchain.1)
        exact (hcover b).mp List.mem_cons_self
  have hkey : ∀ x ∈ t.lst, u.key x = t.key x := by
    intro x hx
    have hxb : x ≠ b := fun he => hb (he ▸ hx)
    simp only [Table.key, htaken.entry x hxb]
  rw [Table.keys, htaken.lst (hi.length_lt hb), List.map_append, List.map_congr_left hkey,
    List.map_singleton, htaken.key]
  rfl

theorem targetBreakpointSet_keys (hi : Intact t) {addr size : BitVec 32} {r : Int}
    (hconn : ¬t.state.num < DbgState.connected.num)
    (h : targetBreakpointSet t addr size = some (r, u)) :
    u.keys = Recency.apply t.keys (.touch (addr, bpSize size)) := by
  unfold targetBreakpointSet at h
  rw [if_neg hconn] at h
  cases hlookup : dbgBpLookup t addr (bpSize size) with
  | some b =>
      rw [hlookup] at h
      cases h
      obtain ⟨hb, hkey⟩ := key_of_lookup hlookup
      rw [useBp_keys hi hb, hkey]
  | none =>
      rw [hlookup] at h
      obtain ⟨⟨b, v⟩, hnew, hr⟩ := Option.map_eq_some_iff.mp h
      cases hr
      obtain ⟨hv, hb⟩ := dbgBpNew_intact hi hlookup hnew
      have hkey : v.key b = (addr, bpSize size) := (dbgBpNew_taken hnew).key
      have hnot : (addr, bpSize size) ∉ t.keys := not_mem_keys hlookup
      rw [useBp_keys hv hb, hkey, dbgBpNew_keys hi hnew]
      exact Recency.apply_touch_append hnot

theorem dbgBpDelete_keys (hi : Intact t) {stale r : Int}
    (h : dbgBpDelete t b stale = some (r, u)) :
    u.keys = Recency.apply t.keys (.drop (t.key b)) := by
  unfold dbgBpDelete at h
  cases hn : t.lst.findIdx? (· = b) with
  | none =>
      rw [hn] at h
      cases h
  | some n =>
      obtain ⟨hb, herase⟩ := eraseIdx_findIdx hn
      simp only [hn, herase, Option.bind_eq_bind, Option.pure_def] at h
      -- both branches end with the same two writes
      have hend : ∀ w, Kept { t with lst := t.lst.erase b } w → w.lst = t.lst.erase b →
          some ((0 : Int), { w.setNext b w.free with free := some b }) = some (r, u) →
          u.keys = Recency.apply t.keys (.drop (t.key b)) := by
        intro w hkept hlst hw
        obtain ⟨-, rfl⟩ := Prod.mk.inj (Option.some.inj hw)
        have hkey : ∀ x ∈ t.lst.erase b,
            ({ w.setNext b w.free with free := some b } : Table).key x = t.key x := by
          intro x hx
          have hxb : x ≠ b := by
            rintro rfl
            exact hi.distinct.not_mem_erase hx
          rw [← show w.key x = t.key x from hkept.key x]
          simp [Table.key, Table.setNext, Function.update_of_ne hxb]
        rw [Recency.apply, Table.keys, Table.keys, ← map_erase_of_pairwise hi.keys hb, ← hlst]
        rw [← hlst] at hkey
        exact List.map_congr_left hkey
      split at h
      · obtain ⟨w, hw, hr⟩ := Option.bind_eq_some_iff.mp h
        exact hend w (promote_kept ((Kept.refl _).setFpb _) hw) (promote_lst hw) hr
      · exact hend _ (Kept.refl _) rfl h

/-- One call changes the keys as its event says. -/
theorem step_keys (hi : Intact t) {c : Call} (h : t.step c = some u) :
    u.keys = ((t.event c).foldl Recency.apply t.keys) := by
  obtain ⟨⟨r, w⟩, hcall, rfl⟩ := Option.map_eq_some_iff.mp h
  by_cases hst : t.state.num < DbgState.connected.num
  · cases c with
    | set addr size =>
        simp only [Table.call, targetBreakpointSet, if_pos hst] at hcall
        cases hcall
        simp [Table.event, hst]
    | clear addr size stale =>
        simp only [Table.call, targetBreakpointClear, if_pos hst] at hcall
        cases hcall
        simp [Table.event, hst]
    | delete b stale =>
        simp only [Table.call, targetBreakpointDelete, if_pos hst] at hcall
        cases hcall
        simp [Table.event, hst]
  · cases c with
    | set addr size =>
        simp only [Table.event, if_neg hst]
        exact targetBreakpointSet_keys hi hst hcall
    | clear addr size stale =>
        simp only [Table.call, targetBreakpointClear, if_neg hst] at hcall
        simp only [Table.event, if_neg hst]
        cases hlookup : dbgBpLookup t addr (bpSize size) with
        | none =>
            rw [hlookup] at hcall
            cases hcall
            exact (Recency.apply_drop_of_not_mem (not_mem_keys hlookup)).symm
        | some b =>
            rw [hlookup] at hcall
            have hkey := (key_of_lookup hlookup).2
            rw [← hkey]
            exact dbgBpDelete_keys hi hcall
    | delete b stale =>
        simp only [Table.call, targetBreakpointDelete, if_neg hst] at hcall
        simp only [Table.event, if_neg hst]
        exact dbgBpDelete_keys hi hcall

/-! ### Runs -/

/-- The keys of the list are those that the history of the calls leaves. -/
theorem run_keys {es : List (Recency (BitVec 32 × BitVec 32))} (cs : List Call) (hi : Intact t)
    (hes : t.keys = Recency.recent es) (hrun : exec Table.step t cs = some u) :
    u.keys = Recency.recent (history t cs es) := by
  induction cs generalizing t es with
  | nil =>
      rw [← Option.some.inj hrun]
      exact hes
  | cons c cs ih =>
      obtain ⟨w, hw, hrest⟩ := exec_cons hrun
      have hkeys : w.keys = Recency.recent (t.event c ++ es) := by
        rw [step_keys hi hw, hes]
        cases c with
        | set addr size | clear addr size stale | delete b stale =>
            simp only [Table.event]
            split
            · rfl
            · rfl
      obtain ⟨⟨r, w'⟩, hcall, rfl⟩ := Option.map_eq_some_iff.mp hw
      simp only [history, hw]
      exact ih (hi.call hcall).1 hkeys hrest

/-- After every sequence of calls the list holds each breakpoint in use once, the one whose
last set call is newest first. -/
theorem breakpointList_newestFirst (t₀ : Table) (cs : List Call)
    (hrun : exec Table.step (dbgBpInit t₀) cs = some t) :
    t.lst.Nodup ∧ t.keys.Nodup ∧
      (∀ k, k ∈ t.keys ↔ 0 < Recency.lastTouch k (history (dbgBpInit t₀) cs [])) ∧
      t.keys.Pairwise fun a b =>
        Recency.lastTouch b (history (dbgBpInit t₀) cs []) <
          Recency.lastTouch a (history (dbgBpInit t₀) cs []) := by
  have hintact : Intact t := by
    refine exec_invariant (I := Intact) ?_ (dbgBpInit_intact t₀)
      (along_of_forall (fun _ _ => trivial) _ cs) hrun
    intro s c u hs _ hstep
    obtain ⟨⟨r, v⟩, hcall, rfl⟩ := Option.map_eq_some_iff.mp hstep
    exact (hs.call hcall).1
  have hnone : (dbgBpInit t₀).keys = Recency.recent [] := rfl
  have hkeys := run_keys cs (dbgBpInit_intact t₀) hnone hrun
  refine ⟨hintact.distinct, ?_, ?_, ?_⟩
  · rw [hkeys]
    exact Recency.nodup_recent _
  · intro k
    rw [hkeys]
    exact Recency.mem_recent_iff k _
  · rw [hkeys]
    exact Recency.pairwise_recent _

theorem breakpointList_newestFirst_run :
    ∃ t, exec Table.step (dbgBpInit (blankTable 2))
        [.set 0x100 2, .set 0x204 4, .set 0x30a 0, .delete 1 0, .set 0x100 0, .clear 0x30a 2 0,
          .set 0x400 2] = some t ∧ t.keys = [(0x400, 2), (0x100, 2)] ∧ t.keys.Nodup := by
  refine ⟨_, rfl, by decide, ?_⟩
  exact (breakpointList_newestFirst (blankTable 2)
    [.set 0x100 2, .set 0x204 4, .set 0x30a 0, .delete 1 0, .set 0x100 0, .clear 0x30a 2 0,
      .set 0x400 2] rfl).2.1

end YardIce.Breakpoints.Pool
