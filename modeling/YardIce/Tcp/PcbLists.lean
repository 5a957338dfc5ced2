import Mathlib.Data.Fintype.Card
import YardIce.Lib.ListPool
import YardIce.Tcp.CallsSpec
import YardIce.Tcp.InputSpec
import YardIce.Tcp.System

/-!
# Every control block is in one list

The free, closed, listen and active lists share the pool: every block is in one of them,
in the one that its state says, and the tail pointer of each list is its last node.
-/

namespace YardIce.Tcp

open YardIce.Lib

variable {N : Nat}

namespace TcpSystem

/-- The state of a block says which list it is in; free blocks keep an old state. -/
def agrees : PcbHead → TcpState → Prop
  | .free, _ => True
  | .closed, st => st = .closed
  | .listen, st => st = .listen
  | .active, st => st ≠ .closed ∧ st ≠ .listen

/-- The blocks are distributed over the lists as `contents` says. -/
structure Listed (s : TcpSystem N) (contents : PcbHead → List (Fin N)) : Prop where
  pool : ListPool id s.heap contents
  agree : ∀ h, ∀ i ∈ contents h, agrees h (s.pcb i).tState

variable {s : TcpSystem N} {contents : PcbHead → List (Fin N)} {i : Fin N}

theorem length_le (hpool : ListPool id s.heap contents) (h : PcbHead) :
    (contents h).length ≤ N := by
  simpa using (hpool.part.nodup h).length_le_card

theorem list_eq (hpool : ListPool id s.heap contents) (h : PcbHead) : s.list h = contents h :=
  walk_linked (hpool.holds h).linked ((length_le hpool h).trans (Nat.le_succ N))

theorem pcbMove_eq (hpool : ListPool id s.heap contents) {src : PcbHead} {u v : List (Fin N)}
    (hc : contents src = u ++ i :: v) (dst : PcbHead) :
    s.pcbMove i src dst =
      { s with heap := (s.heap.unlinkAfter src (lastLink (.head src) u) i).insertTail dst i } := by
  have hnd := hpool.part.nodup src
  have hlen := length_le hpool src
  have hlinked := (hpool.holds src).linked
  rw [id, hc] at hlinked
  rw [hc] at hnd hlen
  have hi : i ∉ u := fun hm => (List.nodup_append'.mp hnd).2.2 hm (by simp)
  simp only [List.length_append, List.length_cons] at hlen
  simp only [pcbMove, seek_linked hlinked hi (show u.length < N + 1 by omega), pcbInsert]

/-- A block goes to the end of the list that agrees with its new state. -/
theorem pcbMove_listed (hpool : ListPool id s.heap contents) {src dst : PcbHead}
    (hagree : ∀ h, ∀ j ∈ contents h, j ≠ i → agrees h (s.pcb j).tState) (hi : i ∈ contents src)
    (hdst : agrees dst (s.pcb i).tState) (hne : src ≠ dst) :
    ∃ rest, Listed (s.pcbMove i src dst) (ListPool.moved contents src dst rest i) ∧
      ∀ j, j ∈ contents src ↔ j = i ∨ j ∈ rest := by
  obtain ⟨u, v, hc⟩ := List.append_of_mem hi
  have hnd := hpool.part.nodup src
  rw [hc] at hnd
  have hnot : i ∉ u ++ v := (List.nodup_cons.mp (List.nodup_middle.mp hnd)).1
  refine ⟨u ++ v, ⟨?_, ?_⟩, fun j => ?_⟩
  · rw [pcbMove_eq hpool hc]
    exact hpool.move Function.injective_id hne hc
  · intro h j hj
    rw [pcbMove_eq hpool hc]
    by_cases hd : h = dst
    · subst hd
      rw [ListPool.moved_target, List.mem_append, List.mem_singleton] at hj
      rcases hj with hj | rfl
      · exact hagree h j hj fun he => hne (hpool.part.eq_of_mem hi (he ▸ hj))
      · exact hdst
    · by_cases hs : h = src
      · subst hs
        rw [ListPool.moved_source hne] at hj
        refine hagree h j ?_ fun he => hnot (he ▸ hj)
        rw [hc]
        simp only [List.mem_append, List.mem_cons] at hj ⊢
        exact hj.elim Or.inl fun h => Or.inr (Or.inr h)
      · rw [ListPool.moved_other hs hd] at hj
        exact hagree h j hj fun he => hs (hpool.part.eq_of_mem (he ▸ hj) hi)
  · rw [hc]
    simp only [List.mem_append, List.mem_cons]
    exact or_left_comm

theorem setPcb_agree {p : Pcb} (h : Listed s contents) (k : PcbHead) {j : Fin N}
    (hj : j ∈ contents k) (hne : j ≠ i) : agrees k ((s.setPcb i p).pcb j).tState := by
  simpa only [setPcb, Function.update_of_ne hne] using h.agree k j hj

/-- A block that keeps agreeing with its list. -/
theorem setPcb_listed (h : Listed s contents) {p : Pcb}
    (hp : ∀ k, i ∈ contents k → agrees k p.tState) : Listed (s.setPcb i p) contents := by
  refine ⟨h.pool, fun k j hj => ?_⟩
  by_cases hij : j = i
  · subst hij
    simpa only [setPcb, Function.update_self] using hp k hj
  · exact setPcb_agree h k hj hij

theorem setMux_listed (h : Listed s contents) (m : ListenPcb N) : Listed (s.setMux i m) contents :=
  ⟨h.pool, h.agree⟩

/-- A new state and the move that goes with it. -/
theorem setPcb_pcbMove_listed (h : Listed s contents) {p : Pcb} {src dst : PcbHead}
    (hi : i ∈ contents src) (hdst : agrees dst p.tState) (hne : src ≠ dst) :
    ∃ contents', Listed ((s.setPcb i p).pcbMove i src dst) contents' := by
  have hst : ((s.setPcb i p).pcb i).tState = p.tState := by simp [setPcb]
  obtain ⟨rest, hlisted, -⟩ := pcbMove_listed (s := s.setPcb i p) h.pool
    (fun k j hj hne => setPcb_agree h k hj hne) hi (hst ▸ hdst) hne
  exact ⟨_, hlisted⟩

/-- A block that is not free is in the list that its state says. -/
theorem Listed.mem_of_state (h : Listed s contents) {k : PcbHead} (hfree : i ∉ contents .free)
    (hk : ∀ k', k' ≠ .free → agrees k' (s.pcb i).tState → k' = k) : i ∈ contents k := by
  obtain ⟨k', hk', -⟩ := h.pool.part.unique i
  have hne : k' ≠ .free := fun he => hfree (he ▸ hk')
  rw [← hk k' hne (h.agree k' i hk')]
  exact hk'

theorem agrees_unique {st : TcpState} {k k' : PcbHead} (hk : k ≠ .free) (hk' : k' ≠ .free)
    (h : agrees k st) (h' : agrees k' st) : k = k' := by
  cases k <;> cases k' <;> simp_all [agrees]

theorem Listed.mem (h : Listed s contents) {k : PcbHead} (hfree : i ∉ contents .free)
    (hk : k ≠ .free) (hagree : agrees k (s.pcb i).tState) : i ∈ contents k :=
  h.mem_of_state hfree fun _ hne h' => agrees_unique hne hk h' hagree

/-! ### Connections -/

/-- What `tcp_pcb_new` does: nothing is free, or the first free block goes to the list. -/
theorem tcpPcbNew_spec (h : Listed s contents) (dst : PcbHead) (hdst : dst ≠ .free) :
    s.tcpPcbNew dst = none ∨
      ∃ i s' rest, s.tcpPcbNew dst = some (i, s') ∧ i ∈ contents .free ∧
        s'.iss = s.iss ∧ ListPool id s'.heap (ListPool.moved contents .free dst rest i) ∧
        (∀ j, j ≠ i → s'.pcb j = s.pcb j) ∧
        ∀ k, ∀ j ∈ ListPool.moved contents .free dst rest i k, j ≠ i →
          agrees k (s'.pcb j).tState := by
  have hlinked := (h.pool.holds .free).linked
  cases hfree : contents .free with
  | nil =>
      left
      rw [id, hfree] at hlinked
      simp only [tcpPcbNew, pcbRemoveHead, show s.heap.next (.head .free) = none from hlinked,
        Option.map_none]
  | cons i rest =>
      right
      rw [id, hfree] at hlinked
      have hmoved := h.pool.move Function.injective_id (Ne.symm hdst) (u := []) hfree
      refine ⟨i, (({ s with heap := s.heap.unlinkAfter .free (.head .free) i }.pcbInsert dst
        i).setPcb i zeroPcb).setMux i (zeroMux N), rest, ?_, by simp, rfl, hmoved, ?_, ?_⟩
      · simp only [tcpPcbNew, pcbRemoveHead, hlinked.1, Option.map_some]
      · intro j hj
        simp [setPcb, setMux, pcbInsert, Function.update_of_ne hj]
      · intro k j hj hne
        simp only [setPcb, setMux, pcbInsert, Function.update_of_ne hne]
        by_cases hkd : k = dst
        · subst hkd
          rw [ListPool.moved_target, List.mem_append, List.mem_singleton] at hj
          exact h.agree k j (hj.resolve_right hne)
        · by_cases hkf : k = .free
          · subst hkf
            trivial
          · rw [ListPool.moved_other hkf hkd] at hj
            exact h.agree k j hj

theorem tcpAlloc_listed (h : Listed s contents) : ∃ contents', Listed s.tcpAlloc contents' := by
  simp only [tcpAlloc]
  rcases tcpPcbNew_spec h .closed (by decide) with hnone | ⟨i, s', rest, hsome, -, -, hpool, -, hrest⟩
  · rw [hnone]
    exact ⟨contents, h⟩
  · rw [hsome]
    refine ⟨_, hpool, fun k j hj => ?_⟩
    by_cases hji : j = i
    · subst hji
      have hk : k = .closed := hpool.part.eq_of_mem hj (by rw [ListPool.moved_target]; simp)
      subst hk
      simp [setPcb, agrees]
    · simpa only [setPcb, Function.update_of_ne hji] using hrest k j hj hji

theorem tcpPassiveOpen_listed (h : Listed s contents) (mux : Fin N) (e : Endpoints)
    (route : Option Ifnet) (cond : Bool) (seg : Segment) :
    ∃ contents', Listed (s.tcpPassiveOpen mux e route cond seg) contents' := by
  simp only [tcpPassiveOpen]
  split
  · exact ⟨contents, h⟩
  · split
    · exact ⟨contents, h⟩
    · rcases tcpPcbNew_spec h .active (by decide) with
        hnone | ⟨i, s', rest, hsome, -, -, hpool, -, hrest⟩
      · rw [hnone]
        exact ⟨contents, h⟩
      · rw [hsome]
        refine ⟨_, hpool, fun k j hj => ?_⟩
        by_cases hji : j = i
        · subst hji
          have hk : k = .active := hpool.part.eq_of_mem hj (by rw [ListPool.moved_target]; simp)
          subst hk
          have hst := (Opened.passive (e.saddr, e.sport) (e.daddr, e.dport) route s'.iss seg).fresh.tState
          simp only [setMux, setPcb, Function.update_self, Pcb.sched, agrees]
          rcases hst with hst | hst <;> rw [hst] <;> decide
        · simpa only [setMux, setPcb, Function.update_of_ne hji] using hrest k j hj hji

theorem mem_of_pcbLookup (h : Listed s contents) {faddr laddr : BitVec 32} {fport lport : BitVec 16}
    {k : PcbHead} (hi : s.pcbLookup faddr fport laddr lport k = some i) : i ∈ contents k := by
  rw [← list_eq h.pool k]
  exact List.mem_of_find?_eq_some hi

theorem tcpInput_listed (h : Listed s contents) (e : Endpoints) (route : Option Ifnet) (cond : Bool)
    (seg : Segment) (avail : Nat) :
    ∃ contents', Listed (s.tcpInput e route cond seg avail) contents' := by
  simp only [tcpInput]
  split
  · next i hi =>
    have hmem := mem_of_pcbLookup h hi
    have hspec := tcpInput_spec (s.pcb i) seg avail
    split
    · next hlist =>
      refine ⟨contents, setPcb_listed h fun k hk => ?_⟩
      rw [h.pool.part.eq_of_mem hk hmem]
      exact hspec.live (h.agree .active i hmem) hlist
    · next hlist => exact setPcb_pcbMove_listed h hmem (hspec.marked hlist) (by decide)
    · exact setPcb_pcbMove_listed h hmem trivial (by decide)
  · split
    · exact ⟨contents, h⟩
    · split
      · exact ⟨contents, h⟩
      · exact tcpPassiveOpen_listed h _ e route cond seg

theorem tcpBind_listed (h : Listed s contents) (i : Fin N) (addr : BitVec 32) (port : BitVec 16) :
    Listed (s.tcpBind i addr port) contents := by
  simp only [tcpBind]
  split
  · exact setPcb_listed h fun k hk => h.agree k i hk
  · exact h

/-- What has been found is not lost. -/
theorem wildLoop_found {faddr laddr : BitVec 32} {fport lport : BitVec 16} {w : Wild N}
    (l : List (Fin N)) (hw : w.found.isSome = true) :
    (wildLoop s faddr fport laddr lport w l).isSome = true := by
  induction l generalizing w with
  | nil => exact hw
  | cons j l ih =>
      simp only [wildLoop]
      split
      · exact ih hw
      · split
        · exact ih hw
        · split
          · exact ih hw
          · split
            · split
              · rfl
              · exact ih rfl
            · exact ih hw

/-- The lookup of an address in use finds the listener that has it. -/
theorem wildLoop_isSome {laddr : BitVec 32} {lport : BitVec 16} (l : List (Fin N)) (hi : i ∈ l)
    (hport : (s.pcb i).lport = lport) (haddr : (s.pcb i).laddr = laddr) :
    (wildLoop s 0 0 laddr lport ⟨none, 3, 0⟩ l).isSome = true := by
  induction l with
  | nil => simp at hi
  | cons j l ih =>
      -- a block that does not match leaves the locals as they are
      have hskip : j ≠ i → (wildLoop s 0 0 laddr lport ⟨none, 3, 0⟩ l).isSome = true := by
        intro hne
        exact ih (List.mem_of_ne_of_mem hne.symm hi)
      simp only [wildLoop]
      split
      · next h => exact hskip fun he => h (he ▸ hport)
      · split
        · next h => exact hskip fun he => h.2.2 (he ▸ haddr)
        · split
          · next h => exact absurd rfl h.2.1
          · split
            · split
              · rfl
              · exact wildLoop_found l rfl
            · next h =>
              refine absurd ?_ h
              simp only [countWild]
              split <;> split <;> simp

theorem tcpListen_listed (h : Listed s contents) (hfree : i ∉ contents .free) (backlog : BitVec 32)
    (sem : Bool) : ∃ contents', Listed (s.tcpListen i backlog sem) contents' := by
  simp only [tcpListen]
  split
  · exact ⟨contents, h⟩
  · next hnone =>
    split
    · next hst =>
      split
      · have hmem : i ∈ contents .closed := h.mem hfree (by decide) hst
        have hlisted : agrees .listen { s.pcb i with tState := .listen }.tState := rfl
        exact setPcb_pcbMove_listed (setMux_listed (i := i) h _) hmem hlisted (by decide)
      · exact ⟨contents, h⟩
    · next hst =>
      -- a listener finds its own address in use
      have hmem : i ∈ s.list .listen := by
        rw [list_eq h.pool]
        exact h.mem hfree (by decide) hst
      exact absurd (wildLoop_isSome _ hmem rfl rfl) hnone
    · exact ⟨contents, h⟩

theorem callPcb_tState (p : Pcb) (a : Action) : (callPcb p a).tState = p.tState := by
  cases a with
  | output es => exact (tcpOutput_moved p es).kept.1
  | send src len nowait offs avail =>
      rcases tcpSend_spec p src len nowait offs avail with ⟨hcore, -⟩ | ⟨-, hspec⟩
      · exact congrArg Core.tState hcore
      · have hst := congrArg Core.tState hspec.core
        exact hst
  | recv len =>
      have hst := congrArg Core.tState (tcpRecv_core p len)
      exact hst
  | rxmtTmr =>
      rcases tcpRxmtTmr_core p with hcore | hcore
      · exact congrArg Core.tState hcore
      · have hst := congrArg Core.tState hcore
        exact hst
  | fastTmr => exact congrArg Core.tState (tcpFastTmr_core p)
  | input s avail | close => rfl

/-! ### The idle timer -/

/-- The turn of a block ends in the list that its state says. -/
theorem idleTmr_agrees {p : Pcb} (hlive : p.tState ≠ .closed ∧ p.tState ≠ .listen) :
    agrees p.idleTmr.2.head p.idleTmr.1.tState := by
  simp only [Pcb.idleTmr]
  split
  · exact hlive
  · split
    · exact hlive
    · split
      · exact rfl
      · exact rfl
      · split
        · exact hlive
        · split
          · exact hlive
          · exact rfl
      · exact ⟨by simp, by simp⟩
      · exact trivial
      · exact hlive

/-- The link of a block leads to a block of the same list. -/
theorem mem_next (hpool : ListPool id s.heap contents) {k : PcbHead} {j : Fin N}
    (hi : i ∈ contents k) (hnext : s.heap.next (.node i) = some j) : j ∈ contents k := by
  obtain ⟨u, v, hc⟩ := List.append_of_mem hi
  have hlinked := (hpool.holds k).linked
  rw [id, hc] at hlinked
  have hrest := hlinked.after
  cases v with
  | nil =>
      rw [show s.heap.next (.node i) = none from hrest] at hnext
      cases hnext
  | cons j' v =>
      rw [hrest.1, Option.some.injEq] at hnext
      rw [hc, ← hnext]
      simp

theorem mem_first (hpool : ListPool id s.heap contents) {k : PcbHead} {j : Fin N}
    (hnext : s.heap.next (.head k) = some j) : j ∈ contents k := by
  have hlinked := (hpool.holds k).linked
  cases hc : contents k with
  | nil =>
      rw [id, hc] at hlinked
      rw [show s.heap.next (.head k) = none from hlinked] at hnext
      cases hnext
  | cons j' v =>
      rw [id, hc] at hlinked
      rw [hlinked.1, Option.some.injEq] at hnext
      rw [← hnext]
      simp

/-- A block that has been moved is the last of its list. -/
theorem pcbMove_next (hpool : ListPool id s.heap contents) {src : PcbHead} (hi : i ∈ contents src)
    (dst : PcbHead) : (s.pcbMove i src dst).heap.next (.node i) = none := by
  obtain ⟨u, v, hc⟩ := List.append_of_mem hi
  rw [pcbMove_eq hpool hc]
  simp [ListHeap.insertTail]

/-- The walk of the idle timer stays in the active list and ends with a block that leaves it. -/
theorem tcpIdleTmr_listed (fuel : Nat) {x : Link PcbHead (Fin N)} (h : Listed s contents)
    (hx : ∀ j, s.heap.next x = some j → j ∈ contents .active) :
    ∃ contents', Listed (tcpIdleTmr fuel s x) contents' := by
  induction fuel generalizing s contents x with
  | zero => exact ⟨contents, h⟩
  | succ fuel ih =>
      simp only [tcpIdleTmr]
      split
      · exact ⟨contents, h⟩
      · next i hnext =>
        have hmem := hx i hnext
        have hagree := idleTmr_agrees (h.agree .active i hmem)
        split
        · next hactive =>
          rw [hactive] at hagree
          have hkept : Listed (s.setPcb i (s.pcb i).idleTmr.1) contents := by
            refine setPcb_listed h fun k hk => ?_
            rw [h.pool.part.eq_of_mem hk hmem]
            exact hagree
          exact ih hkept fun j hj => mem_next h.pool hmem hj
        · next hleft =>
          have hne : PcbHead.active ≠ (s.pcb i).idleTmr.2.head := by
            cases hlist : (s.pcb i).idleTmr.2 with
            | active => exact absurd hlist hleft
            | closed | free => decide
          obtain ⟨contents', hlisted⟩ := setPcb_pcbMove_listed h hmem hagree hne
          refine ih hlisted fun j hj => ?_
          rw [pcbMove_next (s := s.setPcb i (s.pcb i).idleTmr.1) h.pool hmem] at hj
          cases hj

/-! ### Runs -/

/-- A block is on a list. -/
def On (s : TcpSystem N) (h : PcbHead) (i : Fin N) : Prop := ∃ l, s.heap.Holds h l ∧ i ∈ l

/-- Every block is on one list, the one that its state says, and the tail pointer of each
list is its last node. -/
structure InOneList (s : TcpSystem N) : Prop where
  lists : ∀ h, ∃ l, s.heap.Holds h l ∧ l.Nodup
  one : ∀ i, ∃! h, s.On h i
  agree : ∀ h i, s.On h i → agrees h (s.pcb i).tState

theorem Listed.on_iff (h : Listed s contents) (k : PcbHead) : s.On k i ↔ i ∈ contents k := by
  constructor
  · rintro ⟨l, hl, hi⟩
    have heq : l = contents k := hl.unique (h.pool.holds k)
    exact heq ▸ hi
  · exact fun hi => ⟨contents k, h.pool.holds k, hi⟩

theorem Listed.inOneList (h : Listed s contents) : InOneList s := by
  refine ⟨fun k => ⟨contents k, h.pool.holds k, h.pool.part.nodup k⟩, fun i => ?_, fun k i hi => ?_⟩
  · simp only [h.on_iff]
    exact h.pool.part.unique i
  · exact h.agree k i ((h.on_iff k).mp hi)

/-- The blocks that wait from a position of the ring up to its head. -/
def waitingFrom (m : ListenPcb N) : Nat → Nat → List (Fin N)
  | 0, _ => []
  | n + 1, k => if k = m.head then [] else (m.backlog k).toList ++ waitingFrom m n (m.after k)

/-- The connections that wait in a backlog. -/
def waiting (s : TcpSystem N) (i : Fin N) : List (Fin N) :=
  waitingFrom (s.mux i) (s.mux i).max (s.mux i).tail

/-- Closing a listener frees the connections that wait in its backlog, and its own block. -/
def ListenerClosed (s : TcpSystem N) (i : Fin N) (s' : TcpSystem N) : Prop :=
  ∀ j, s'.On .free j ∧ ¬s.On .free j ↔ j = i ∨ j ∈ s.waiting i

/-- A listener is closed only when no connection waits in its backlog. -/
def closedEmpty (s : TcpSystem N) : Call N → Prop
  | .close i => (s.pcb i).tState = .listen → (s.mux i).head = (s.mux i).tail
  | _ => True

instance (s : TcpSystem N) : (a : Call N) → Decidable (closedEmpty s a)
  | .close _ => inferInstanceAs (Decidable (_ → _))
  | .alloc | .bind .. | .listen .. | .input .. | .accept _ | .idleTmr | .call .. => isTrue trivial

/-- The block of a listener with an empty backlog, or of any other state, is freed. -/
theorem tcpPcbFree_eq (fuel : Nat)
    (hempty : (s.pcb i).tState = .listen → (s.mux i).head = (s.mux i).tail) :
    tcpPcbFree (fuel + 1) s i =
      some (match (s.pcb i).tState with
        | .listen => (s.setPcb i (s.pcb i).unsched).pcbMove i .listen .free
        | .closed => (s.setPcb i (s.pcb i).unsched).pcbMove i .closed .free
        | _ => (s.setPcb i (s.pcb i).unsched.discard).pcbMove i .active .free) := by
  have hself : (s.setPcb i (s.pcb i).unsched).pcb i = (s.pcb i).unsched := by simp [setPcb]
  have hmux : (s.setPcb i (s.pcb i).unsched).mux = s.mux := rfl
  have htwice : (s.setPcb i (s.pcb i).unsched).setPcb i (s.pcb i).unsched.discard =
      s.setPcb i (s.pcb i).unsched.discard := by simp [setPcb]
  have hst : (s.pcb i).unsched.tState = (s.pcb i).tState := rfl
  simp only [tcpPcbFree, hself, htwice, hst]
  cases hcase : (s.pcb i).tState with
  | listen => simp only [freeBacklog, hmux, if_pos (hempty hcase), Option.map_some]
  | _ => rfl

theorem tcpClose_listed (h : Listed s contents) (hfree : i ∉ contents .free)
    (hempty : (s.pcb i).tState = .listen → (s.mux i).head = (s.mux i).tail) {s' : TcpSystem N}
    (hs : s.tcpClose i = some s') : ∃ contents', Listed s' contents' := by
  have hfreed := tcpPcbFree_eq (s := s) (i := i) (N + 11) hempty
  have hkeep : (Tcp.tcpClose (s.pcb i)).1.tState ≠ .closed ∧
      (Tcp.tcpClose (s.pcb i)).1.tState ≠ .listen →
      (s.pcb i).tState ≠ .closed ∧ (s.pcb i).tState ≠ .listen →
      some (s.setPcb i (Tcp.tcpClose (s.pcb i)).1) = some s' → ∃ contents', Listed s' contents' := by
    intro hto hfrom heq
    rw [← Option.some.inj heq]
    have hmem : i ∈ contents .active := h.mem hfree (by decide) hfrom
    refine ⟨contents, setPcb_listed h fun k hk => ?_⟩
    rw [h.pool.part.eq_of_mem hk hmem]
    exact hto
  cases hst : (s.pcb i).tState with
  | listen =>
      simp only [tcpClose, hst, freeFuel, hfreed, Option.some.injEq] at hs
      rw [← hs]
      exact setPcb_pcbMove_listed h (h.mem hfree (by decide) hst) trivial (by decide)
  | closed =>
      simp only [tcpClose, hst, freeFuel, hfreed, Option.some.injEq] at hs
      rw [← hs]
      exact setPcb_pcbMove_listed h (h.mem hfree (by decide) hst) trivial (by decide)
  | timeWait | synSent =>
      simp only [tcpClose, hst, freeFuel, hfreed, Option.some.injEq] at hs
      rw [← hs]
      have hlive : agrees .active (s.pcb i).tState := by simp [agrees, hst]
      exact setPcb_pcbMove_listed h (h.mem hfree (by decide) hlive) trivial (by decide)
  | synRcvd | established | closeWait | finWait1 | closing | lastAck | finWait2 =>
      simp only [tcpClose, hst] at hs
      refine hkeep ?_ (by simp [hst]) hs
      simp [Tcp.tcpClose, hst, Pcb.sched]

theorem step_listed {a : Call N} {s' : TcpSystem N} (h : Listed s contents)
    (hok : closedEmpty s a) (hstep : s.step a = some s') : ∃ contents', Listed s' contents' := by
  have hout : ∀ {i : Fin N} {r : Option (TcpSystem N)}, s.ifOut i r = some s' →
      i ∉ contents .free ∧ r = some s' := by
    intro i r hr
    simp only [ifOut, list_eq h.pool] at hr
    split at hr
    · cases hr
    · next hnot => exact ⟨hnot, hr⟩
  cases a with
  | alloc =>
      rw [← Option.some.inj hstep]
      exact tcpAlloc_listed h
  | bind i addr port =>
      rw [← Option.some.inj (hout hstep).2]
      exact ⟨contents, tcpBind_listed h i addr port⟩
  | listen i backlog sem =>
      rw [← Option.some.inj (hout hstep).2]
      exact tcpListen_listed h (hout hstep).1 backlog sem
  | input e route cond seg avail =>
      rw [← Option.some.inj hstep]
      exact tcpInput_listed h e route cond seg avail
  | accept i =>
      have hs := (hout hstep).2
      simp only [tcpAccept] at hs
      split at hs
      · rw [← Option.some.inj hs]
        exact ⟨contents, h⟩
      · split at hs
        · cases hs
        · rw [← Option.some.inj hs]
          exact ⟨contents, setMux_listed h _⟩
  | close i => exact tcpClose_listed h (hout hstep).1 hok (hout hstep).2
  | idleTmr =>
      rw [← Option.some.inj hstep]
      exact tcpIdleTmr_listed _ h fun j hj => mem_first h.pool hj
  | call i a =>
      rw [← Option.some.inj (hout hstep).2]
      refine ⟨contents, setPcb_listed h fun k hk => ?_⟩
      rw [callPcb_tState]
      exact h.agree k i hk

/-- After `tcp_init` every block is free. -/
theorem tcpInit_listed (pcb : Fin N → Pcb) (iss : BitVec 32) :
    Listed (tcpInit N pcb iss) fun h => if h = .free then List.finRange N else [] := by
  have hne : ∀ h : PcbHead, h ≠ .free →
      (tcpInit N pcb iss).heap.next (.head h) = none := by
    intro h hh
    simp only [tcpInit]
    rw [linkAll_of_ne (by simpa using hh) (by simp)]
  refine ⟨⟨⟨fun i => ⟨.free, by simp, fun h hi => ?_⟩, fun h => ?_⟩, fun h => ?_⟩, fun h i hi => ?_⟩
  · by_contra hh
    simp [hh] at hi
  · split
    · exact List.nodup_finRange N
    · exact List.nodup_nil
  · by_cases hh : h = .free
    · subst hh
      exact ⟨linkAll_linked _ (List.nodup_finRange N) (by simp), rfl⟩
    · simp only [id, if_neg hh]
      refine ⟨hne h hh, ?_⟩
      cases h with
      | free => exact absurd rfl hh
      | closed | listen | active => rfl
  · by_cases hh : h = .free
    · subst hh
      trivial
    · simp [hh] at hi

theorem run_listed {pcb : Fin N → Pcb} {iss : BitVec 32} {as : List (Call N)} {s : TcpSystem N}
    (hok : Along step closedEmpty (tcpInit N pcb iss) as)
    (hrun : exec step (tcpInit N pcb iss) as = some s) : ∃ contents, Listed s contents :=
  exec_invariant (I := fun s => ∃ contents, Listed s contents)
    (fun _ _ _ h hok hstep => step_listed h.choose_spec hok hstep)
    ⟨_, tcpInit_listed pcb iss⟩ hok hrun

/-- A listener with an empty backlog goes back to the free list, alone. -/
theorem close_listener (h : Listed s contents) (hfree : i ∉ contents .free)
    (hst : (s.pcb i).tState = .listen) (hempty : (s.mux i).head = (s.mux i).tail)
    {s' : TcpSystem N} (hs : s.tcpClose i = some s') : ListenerClosed s i s' := by
  have hfreed := tcpPcbFree_eq (s := s) (i := i) (N + 11) fun _ => hempty
  simp only [tcpClose, hst, freeFuel, hfreed, Option.some.injEq] at hs
  have hmem : i ∈ contents .listen := h.mem hfree (by decide) hst
  have hdst : agrees .free ((s.setPcb i (s.pcb i).unsched).pcb i).tState := trivial
  obtain ⟨rest, hlisted, -⟩ := pcbMove_listed (s := s.setPcb i (s.pcb i).unsched) h.pool
    (fun k j hj hne => setPcb_agree h k hj hne) hmem hdst (by decide)
  rw [hs] at hlisted
  have hnone : s.waiting i = [] := by
    rw [waiting, ← hempty]
    cases (s.mux i).max with
    | zero => rfl
    | succ n => simp [waitingFrom]
  intro j
  rw [h.on_iff, hlisted.on_iff, ListPool.moved_target, hnone, List.mem_append,
    List.mem_singleton]
  constructor
  · rintro ⟨hj | hj, hnot⟩
    · exact absurd hj hnot
    · exact Or.inl hj
  · rintro (rfl | hj)
    · exact ⟨Or.inr rfl, hfree⟩
    · cases hj

/-- In every run in which listeners are closed only with an empty backlog, every block is on
one list, the one that its state says, with the tail pointers at the last nodes; and closing
a listener frees the connections that wait in its backlog and the listener. -/
theorem pcbLists_partitioned {pcb : Fin N → Pcb} {iss : BitVec 32} {as : List (Call N)}
    {s : TcpSystem N} (hok : Along step closedEmpty (tcpInit N pcb iss) as)
    (hrun : exec step (tcpInit N pcb iss) as = some s) :
    InOneList s ∧ ∀ i s', (s.pcb i).tState = .listen → closedEmpty s (.close i) →
      s.step (.close i) = some s' → ListenerClosed s i s' := by
  obtain ⟨contents, h⟩ := run_listed hok hrun
  refine ⟨h.inOneList, fun i s' hst hempty hstep => ?_⟩
  simp only [step, ifOut, list_eq h.pool] at hstep
  split at hstep
  · cases hstep
  · next hfree => exact close_listener h hfree hst (hempty hst) hstep

/-! ### A listener that is closed too early -/

/-- The datagrams of a client at port `port`. -/
def client (port : BitVec 16) : Endpoints := ⟨1, port, 2, 80⟩

local instance four_blocks : NeZero 4 := ⟨Nat.succ_ne_zero 3⟩

/-- A listener for one connection, a client, and the listener is closed. -/
def listenRun : List (Call 4) :=
  [.alloc, .bind 0 2 80, .listen 0 1 true, .input (client 7) none true sampleSyn 0, .accept 0]

theorem pcbLists_partitioned_accept :
    ∃ s, exec step (tcpInit 4 (fun _ => zeroPcb) 0) listenRun = some s ∧
      s.list .listen = [0] ∧ s.list .active = [1] ∧ InOneList s := by
  have hend : (exec step (tcpInit 4 (fun _ => zeroPcb) 0) listenRun).map
      (fun s => (s.list .listen, s.list .active)) = some ([0], [1]) := by
    decide
  obtain ⟨s, hrun, hs⟩ := Option.map_eq_some_iff.mp hend
  obtain ⟨hlisten, hactive⟩ := Prod.mk.inj hs
  exact ⟨s, hrun, hlisten, hactive, (pcbLists_partitioned (by decide) hrun).1⟩

/-- A second client waits in the backlog. -/
def secondClientRun : List (Call 4) :=
  listenRun ++ [.input (client 9) none true sampleSyn 0]

/-- Closing the listener frees the connection that was accepted; the one that waits and the
listener stay. -/
theorem listener_not_closed :
    ∃ s s', exec step (tcpInit 4 (fun _ => zeroPcb) 0) secondClientRun = some s ∧
      s.step (.close 0) = some s' ∧ (s.pcb 0).tState = .listen ∧ s.waiting 0 = [2] ∧
      s'.list .free = [3, 1] ∧ s'.list .listen = [0] ∧ s'.list .active = [2] ∧
      ¬ListenerClosed s 0 s' := by
  have hend : (exec step (tcpInit 4 (fun _ => zeroPcb) 0) secondClientRun).any (fun s =>
      (s.pcb 0).tState = .listen && s.waiting 0 = [2] && (s.step (.close 0)).any fun s' =>
        s'.list .free = [3, 1] && s'.list .listen = [0] && s'.list .active = [2]) = true := by
    decide
  obtain ⟨s, hrun, hs⟩ := (Option.any_eq_true _ _).mp hend
  simp only [Bool.and_eq_true, decide_eq_true_eq] at hs
  obtain ⟨⟨hst, hwait⟩, hnext⟩ := hs
  obtain ⟨s', hstep, hs'⟩ := (Option.any_eq_true _ _).mp hnext
  simp only [Bool.and_eq_true, decide_eq_true_eq] at hs'
  obtain ⟨⟨hfree, hlisten⟩, hactive⟩ := hs'
  refine ⟨s, s', hrun, hstep, hst, hwait, hfree, hlisten, hactive, fun h => ?_⟩
  obtain ⟨⟨l, hl, hmem⟩, -⟩ := (h 0).mpr (Or.inl rfl)
  have htake : l.take 5 = [3, 1] := (walk_eq_take hl.linked 5).symm.trans hfree
  have hlen := congrArg List.length htake
  rw [List.length_take] at hlen
  have hall : l = [3, 1] := by
    rw [List.take_of_length_le (by simp at hlen; omega)] at htake
    exact htake
  rw [hall] at hmem
  exact absurd hmem (by decide)

end TcpSystem

end YardIce.Tcp
