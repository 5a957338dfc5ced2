import YardIce.Tcp.PcbLists

/-!
# The walks of the timers

`tcp_rxmt_tmr` and `tcp_idle_tmr` walk along the active list. The turn of a block in
`tcp_idle_tmr` may move it to the closed or to the free list, and the walk then goes on
through the link that the move has written: it ends there, and the blocks after it in the
active list have no turn.
-/

namespace YardIce.Tcp

open YardIce.Lib

variable {N : Nat}

/-- The timer of a block runs out in this call, in a state that the block leaves the active
list from. -/
def Pcb.Expires (p : Pcb) : Prop :=
  p.connTmr = 1 ∧ (p.tState = .synSent ∨ p.tState = .synRcvd ∨ p.tState = .timeWait ∨
    p.tState = .established ∧ p.idle = true ∧ 12 ≤ (p.count + 1) % 256)

/-- A block leaves the active list exactly when it expires. -/
theorem idleTmr_leaves_iff (p : Pcb) : p.idleTmr.2 ≠ .active ↔ p.Expires := by
  simp only [Pcb.idleTmr, Pcb.Expires]
  by_cases hstopped : p.connTmr = 0
  · simp [hstopped]
  · by_cases hrun : p.connTmr - 1 ≠ 0
    · have hone : p.connTmr ≠ 1 := by omega
      simp [hstopped, hrun, hone]
    · have hone : p.connTmr = 1 := by omega
      simp only [hone]
      cases hst : p.tState with
      | established =>
          cases hidle : p.idle with
          | false => simp
          | true =>
              by_cases hcount : (p.count + 1) % 256 < 12
              · simp [hcount]
              · simp [hcount, Nat.le_of_not_lt hcount]
      | synSent | synRcvd | timeWait => simp
      | closed | listen | closeWait | finWait1 | closing | lastAck | finWait2 => simp

/-- A block with a running timer has another value in it after its turn. -/
theorem idleTmr_ne {p : Pcb} (h : p.connTmr ≠ 0) : p.idleTmr.1 ≠ p := by
  have htmr : p.idleTmr.1.connTmr ≠ p.connTmr := by
    simp only [Pcb.idleTmr, if_neg h]
    by_cases hrun : p.connTmr - 1 ≠ 0
    · rw [if_pos hrun]
      exact Nat.ne_of_lt (Nat.pred_lt h)
    · have hone : p.connTmr = 1 := by omega
      simp only [hone]
      cases hst : p.tState with
      | established =>
          cases hidle : p.idle with
          | false => simp [tcpKeepintvl]
          | true =>
              by_cases hcount : (p.count + 1) % 256 < 12
              · have hget : tcpKeepintvl[(p.count + 1) % 256]? = some 75 := by
                  rw [tcpKeepintvl, List.getElem?_replicate_of_lt (by omega)]
                simp [hcount, hget]
              · simp [hcount, Pcb.sched, Pcb.discard]
      | synSent | synRcvd => simp [Pcb.sched, Pcb.discard]
      | timeWait => simp [Pcb.unsched, Pcb.discard]
      | finWait2 => simp [tcpMsl]
      | closed | listen | closeWait | finWait1 | closing | lastAck => simp
  exact fun he => htmr (congrArg Pcb.connTmr he)

theorem idleTmr_stopped {p : Pcb} (h : p.connTmr = 0) : p.idleTmr = (p, .active) := by
  simp only [Pcb.idleTmr, if_pos h]

namespace TcpSystem

variable {s : TcpSystem N} {contents : PcbHead → List (Fin N)}

/-- `tcp_rxmt_tmr` from the link word `x` on. -/
def tcpRxmtTmr : Nat → TcpSystem N → Link PcbHead (Fin N) → TcpSystem N
  | 0, s, _ => s
  | fuel + 1, s, x =>
    match s.heap.next x with
    | none => s
    | some i => tcpRxmtTmr fuel (s.setPcb i (Tcp.tcpRxmtTmr (s.pcb i))) (.node i)

/-- Between two states the blocks of a list have had one turn each, and the other blocks
none. -/
structure TurnsOnce (turn : Pcb → Pcb) (l : List (Fin N)) (s s' : TcpSystem N) : Prop where
  turned : ∀ j ∈ l, s'.pcb j = turn (s.pcb j)
  others : ∀ j, j ∉ l → s'.pcb j = s.pcb j

theorem TurnsOnce.cons {turn : Pcb → Pcb} {l : List (Fin N)} {s' : TcpSystem N} {i : Fin N}
    (hi : i ∉ l) (h : TurnsOnce turn l (s.setPcb i (turn (s.pcb i))) s') :
    TurnsOnce turn (i :: l) s s' := by
  have hpcb : ∀ j, j ≠ i → (s.setPcb i (turn (s.pcb i))).pcb j = s.pcb j :=
    fun j hj => Function.update_of_ne hj _ _
  constructor
  · intro j hj
    rcases List.mem_cons.mp hj with rfl | hj
    · rw [h.others j hi, setPcb]
      exact Function.update_self j _ _
    · have hne : j ≠ i := fun he => hi (he ▸ hj)
      rw [h.turned j hj, hpcb j hne]
  · intro j hj
    rw [List.mem_cons, not_or] at hj
    obtain ⟨hne, hj⟩ := hj
    rw [h.others j hj, hpcb j hne]

theorem TurnsOnce.nil (turn : Pcb → Pcb) (s : TcpSystem N) : TurnsOnce turn [] s s :=
  ⟨fun _ hj => absurd hj List.not_mem_nil, fun _ _ => rfl⟩

@[simp] theorem setPcb_heap (s : TcpSystem N) (i : Fin N) (p : Pcb) :
    (s.setPcb i p).heap = s.heap := rfl

theorem pcbMove_pcb (s : TcpSystem N) (i : Fin N) (src dst : PcbHead) :
    (s.pcbMove i src dst).pcb = s.pcb := by
  simp only [pcbMove]
  split <;> rfl

/-- No turn of the retransmission timer changes a link: every block of the list has one. -/
theorem tcpRxmtTmr_turnsOnce {l : List (Fin N)} {x : Link PcbHead (Fin N)} {fuel : Nat}
    (hl : Linked s.heap.next (s.heap.next x) l) (hnd : l.Nodup) (hfuel : l.length < fuel) :
    TurnsOnce Tcp.tcpRxmtTmr l s (tcpRxmtTmr fuel s x) := by
  induction l generalizing s x fuel with
  | nil =>
      cases fuel with
      | zero => simp at hfuel
      | succ fuel =>
          simp only [tcpRxmtTmr, show s.heap.next x = none from hl]
          exact TurnsOnce.nil _ s
  | cons i l ih =>
      cases fuel with
      | zero => simp at hfuel
      | succ fuel =>
          obtain ⟨hi, hnd⟩ := List.nodup_cons.mp hnd
          simp only [tcpRxmtTmr, hl.1]
          apply TurnsOnce.cons hi
          exact ih (s := s.setPcb i _) hl.2 hnd (Nat.lt_of_succ_lt_succ hfuel)

/-! ### The idle timer -/

/-- The blocks of a list that have a turn: up to the first one that leaves. -/
def idleTurns (s : TcpSystem N) : List (Fin N) → List (Fin N)
  | [] => []
  | i :: rest => if (s.pcb i).idleTmr.2 = .active then i :: s.idleTurns rest else [i]

theorem idleTurns_congr {s' : TcpSystem N} {l : List (Fin N)} (h : ∀ j ∈ l, s'.pcb j = s.pcb j) :
    s'.idleTurns l = s.idleTurns l := by
  induction l with
  | nil => rfl
  | cons i rest ih =>
      have hrest := ih fun j hj => h j (List.mem_cons_of_mem i hj)
      simp only [idleTurns, h i List.mem_cons_self, hrest]

theorem idleTurns_subset {l : List (Fin N)} {j : Fin N} (hj : j ∈ s.idleTurns l) : j ∈ l := by
  induction l with
  | nil => exact hj
  | cons i rest ih =>
      simp only [idleTurns] at hj
      split at hj
      · rcases List.mem_cons.mp hj with rfl | hj
        · exact List.mem_cons_self
        · exact List.mem_cons_of_mem i (ih hj)
      · rw [List.mem_singleton.mp hj]
        exact List.mem_cons_self

/-- The walk of the idle timer gives one turn to each block up to the first one that leaves,
and ends there. -/
theorem tcpIdleTmr_turns {l : List (Fin N)} {x : Link PcbHead (Fin N)} {fuel : Nat}
    (hpool : ListPool id s.heap contents) (hl : Linked s.heap.next (s.heap.next x) l)
    (hmem : ∀ j ∈ l, j ∈ contents .active) (hnd : l.Nodup) (hfuel : l.length < fuel) :
    TurnsOnce (fun p => p.idleTmr.1) (s.idleTurns l) s (tcpIdleTmr fuel s x) := by
  induction l generalizing s x fuel with
  | nil =>
      cases fuel with
      | zero => simp at hfuel
      | succ fuel =>
          simp only [tcpIdleTmr, show s.heap.next x = none from hl]
          exact TurnsOnce.nil _ s
  | cons i l ih =>
      cases fuel with
      | zero => simp at hfuel
      | succ fuel =>
          obtain ⟨hi, hnd⟩ := List.nodup_cons.mp hnd
          have hlen : l.length < fuel := Nat.lt_of_succ_lt_succ hfuel
          simp only [tcpIdleTmr, idleTurns, hl.1]
          by_cases hstays : (s.pcb i).idleTmr.2 = .active
          · simp only [if_pos hstays]
            apply TurnsOnce.cons fun hm => hi (idleTurns_subset hm)
            have hrest : (s.setPcb i (s.pcb i).idleTmr.1).idleTurns l = s.idleTurns l := by
              apply idleTurns_congr
              intro j hj
              have hne : j ≠ i := fun he => hi (he ▸ hj)
              exact Function.update_of_ne hne _ _
            rw [← hrest]
            exact ih (s := s.setPcb i _) hpool hl.2
              (fun j hj => hmem j (List.mem_cons_of_mem i hj)) hnd hlen
          · simp only [if_neg hstays]
            apply TurnsOnce.cons List.not_mem_nil
            -- the move has written the link that the walk goes on through
            have hend := pcbMove_next (s := s.setPcb i (s.pcb i).idleTmr.1) hpool
              (hmem i List.mem_cons_self) (s.pcb i).idleTmr.2.head
            cases fuel with
            | zero => simp at hlen
            | succ fuel =>
                simp only [tcpIdleTmr, hend]
                exact ⟨fun j hj => absurd hj List.not_mem_nil,
                  fun j _ => congrFun (pcbMove_pcb _ _ _ _) j⟩

/-- A block has a turn, or one before it leaves the list. -/
theorem mem_idleTurns_or {l : List (Fin N)} {j : Fin N} (hj : j ∈ l) :
    j ∈ s.idleTurns l ∨ ∃ u i v, l = u ++ i :: v ∧ (s.pcb i).Expires ∧ j ∈ v := by
  induction l with
  | nil => exact absurd hj List.not_mem_nil
  | cons i rest ih =>
      simp only [idleTurns]
      by_cases hstays : (s.pcb i).idleTmr.2 = .active
      · rw [if_pos hstays]
        rcases List.mem_cons.mp hj with rfl | hj
        · exact Or.inl List.mem_cons_self
        · rcases ih hj with hturn | ⟨u, k, v, hsplit, hk⟩
          · exact Or.inl (List.mem_cons_of_mem i hturn)
          · exact Or.inr ⟨i :: u, k, v, by rw [hsplit, List.cons_append], hk⟩
      · rw [if_neg hstays]
        rcases List.mem_cons.mp hj with rfl | hj
        · exact Or.inl List.mem_cons_self
        · exact Or.inr ⟨[], i, rest, rfl, (idleTmr_leaves_iff _).mp hstays, hj⟩

/-- A block after one that leaves the list has no turn. -/
theorem not_mem_idleTurns {u v : List (Fin N)} {i j : Fin N} (hnd : (u ++ i :: v).Nodup)
    (hi : (s.pcb i).Expires) (hj : j ∈ v) : j ∉ s.idleTurns (u ++ i :: v) := by
  induction u with
  | nil =>
      have hleaves := (idleTmr_leaves_iff _).mpr hi
      simp only [List.nil_append, idleTurns, if_neg hleaves, List.mem_singleton]
      rintro rfl
      exact (List.nodup_cons.mp hnd).1 hj
  | cons k u ih =>
      rw [List.cons_append] at hnd ⊢
      obtain ⟨hk, hnd⟩ := List.nodup_cons.mp hnd
      have hne : j ≠ k := by
        rintro rfl
        exact hk (List.mem_append_right u (List.mem_cons_of_mem i hj))
      simp only [idleTurns]
      split
      · rw [List.mem_cons, not_or]
        exact ⟨hne, ih hnd⟩
      · rw [List.mem_singleton]
        exact hne

/-- Behind a block that leaves the list no timer runs. -/
def ExpireLast (s : TcpSystem N) (l : List (Fin N)) : Prop :=
  ∀ u i v, l = u ++ i :: v → (s.pcb i).Expires → ∀ j ∈ v, (s.pcb j).connTmr = 0

theorem InOneList.pool (h : InOneList s) : ∃ contents, ListPool id s.heap contents := by
  refine ⟨fun k => (h.lists k).choose, ⟨fun i => ?_, fun k => (h.lists k).choose_spec.2⟩,
    fun k => (h.lists k).choose_spec.1⟩
  have hiff : ∀ k, s.On k i ↔ i ∈ (h.lists k).choose := by
    intro k
    constructor
    · rintro ⟨l, hl, hi⟩
      have heq : l = (h.lists k).choose := hl.unique (h.lists k).choose_spec.1
      exact heq ▸ hi
    · exact fun hi => ⟨_, (h.lists k).choose_spec.1, hi⟩
  simpa only [hiff] using h.one i

/-- A call of `tcp_rxmt_tmr` gives every block of the active list its turn, and one of
`tcp_idle_tmr` does exactly if no timer runs behind a block that leaves the list. -/
theorem timers_turnsOnce (h : InOneList s) :
    TurnsOnce Tcp.tcpRxmtTmr (s.list .active) s (tcpRxmtTmr (N + 1) s (.head .active)) ∧
      (TurnsOnce (fun p => p.idleTmr.1) (s.list .active) s (tcpIdleTmr (N + 1) s (.head .active)) ↔
        s.ExpireLast (s.list .active)) := by
  obtain ⟨contents, hpool⟩ := h.pool
  have hlinked := (hpool.holds .active).linked
  have hnd := hpool.part.nodup .active
  have hlen : (contents .active).length < N + 1 := Nat.lt_succ_of_le (length_le hpool .active)
  rw [list_eq hpool]
  refine ⟨tcpRxmtTmr_turnsOnce hlinked hnd hlen, ?_⟩
  have hturns := tcpIdleTmr_turns hpool hlinked (fun _ hj => hj) hnd hlen
  constructor
  · intro honce u i v hsplit hi j hj
    have hmem : j ∈ contents .active := by
      rw [hsplit]
      exact List.mem_append_right u (List.mem_cons_of_mem i hj)
    have hskipped : j ∉ s.idleTurns (contents .active) := by
      rw [hsplit] at hnd ⊢
      exact not_mem_idleTurns hnd hi hj
    by_contra hrunning
    exact idleTmr_ne hrunning ((honce.turned j hmem).symm.trans (hturns.others j hskipped))
  · intro hlast
    refine ⟨fun j hj => ?_, fun j hj => hturns.others j fun hm => hj (idleTurns_subset hm)⟩
    by_cases hturn : j ∈ s.idleTurns (contents .active)
    · exact hturns.turned j hturn
    · obtain ⟨u, i, v, hsplit, hi, hv⟩ := (mem_idleTurns_or hj).resolve_left hturn
      rw [hturns.others j hturn, idleTmr_stopped (hlast u i v hsplit hi j hv)]

theorem timers_turnsOnce_halfOpen :
    ∃ s, exec step (tcpInit 4 (fun _ => zeroPcb) 0) secondClientRun = some s ∧
      s.list .active = [1, 2] ∧
      TurnsOnce (fun p => p.idleTmr.1) (s.list .active) s (tcpIdleTmr 5 s (.head .active)) := by
  have hend : (exec step (tcpInit 4 (fun _ => zeroPcb) 0) secondClientRun).map
      (fun s => (s.list .active, (s.pcb 1).connTmr, (s.pcb 2).connTmr)) = some ([1, 2], 10, 10) := by
    decide
  obtain ⟨s, hrun, hs⟩ := Option.map_eq_some_iff.mp hend
  simp only [Prod.mk.injEq] at hs
  obtain ⟨hactive, hfirst, hsecond⟩ := hs
  have hone : InOneList s := (run_listed (by decide) hrun).choose_spec.inOneList
  refine ⟨s, hrun, hactive, (timers_turnsOnce hone).2.mpr fun u i v hsplit hi => ?_⟩
  have hmem : i ∈ s.list .active := by
    rw [hsplit]
    exact List.mem_append_right u List.mem_cons_self
  have htmr := hi.1
  rw [hactive, List.mem_pair] at hmem
  rcases hmem with rfl | rfl
  · rw [hfirst] at htmr
    cases htmr
  · rw [hsecond] at htmr
    cases htmr

/-- Two clients knock between two ticks and do not answer for nine of them. -/
def halfOpenRun : List (Call 4) :=
  secondClientRun ++ List.replicate 9 .idleTmr

/-- Both connections expire in the tenth tick. The first is moved, and the second has no
turn: its timer still stands at one. -/
theorem halfOpen_skipped :
    ∃ s, exec step (tcpInit 4 (fun _ => zeroPcb) 0) halfOpenRun = some s ∧
      s.list .active = [1, 2] ∧ (s.pcb 1).connTmr = 1 ∧ (s.pcb 2).connTmr = 1 ∧
      (tcpIdleTmr 5 s (.head .active)).list .active = [2] ∧
      ((tcpIdleTmr 5 s (.head .active)).pcb 2).connTmr = 1 ∧
      ¬TurnsOnce (fun p => p.idleTmr.1) (s.list .active) s (tcpIdleTmr 5 s (.head .active)) := by
  have hend : (exec step (tcpInit 4 (fun _ => zeroPcb) 0) halfOpenRun).map
      (fun s => ((s.list .active, (s.pcb 1).connTmr, (s.pcb 2).connTmr),
        (tcpIdleTmr 5 s (.head .active)).list .active,
        ((tcpIdleTmr 5 s (.head .active)).pcb 2).connTmr, (s.pcb 2).idleTmr.1.connTmr)) =
      some (([1, 2], 1, 1), [2], 1, 0) := by
    decide
  obtain ⟨s, hrun, hs⟩ := Option.map_eq_some_iff.mp hend
  simp only [Prod.mk.injEq] at hs
  obtain ⟨⟨hactive, hfirst, hsecond⟩, hleft, hstays, hturn⟩ := hs
  refine ⟨s, hrun, hactive, hfirst, hsecond, hleft, hstays, fun h => ?_⟩
  have hmem : (2 : Fin 4) ∈ s.list .active := by
    rw [hactive]
    decide
  have hpcb := congrArg Pcb.connTmr (h.turned 2 hmem)
  rw [hstays] at hpcb
  exact absurd (hpcb.trans hturn) (by decide)

end TcpSystem

end YardIce.Tcp
