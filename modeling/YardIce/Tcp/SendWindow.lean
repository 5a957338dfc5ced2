import YardIce.Tcp.CallsSpec
import YardIce.Tcp.InputSpec

/-!
# The send window

What the window offered by the peer allows `tcp_output` to send. The window of the
last acceptable acknowledgement bounds every segment as long as no acknowledgement
takes back what an earlier one offered.
-/

namespace YardIce.Tcp

open YardIce.Lib

variable {c : Conn} {p : Pcb} {s : Segment} {avail : Nat}

/-- A segment whose window is looked at: an acceptable acknowledgement does not shrink
the window, any other one neither opens it nor establishes the connection. -/
def windowKept (c : Conn) : Action → Prop
  | .input s _ =>
    c.pcb.tState ≠ .synSent → reaches c.pcb s = true →
      if acceptableAck c.pcb s then c.pcb.sndWnd ≤ s.win
      else s.win ≤ c.pcb.sndWnd ∧ c.pcb.tState ≠ .synRcvd
  | _ => True

instance (c : Conn) : (a : Action) → Decidable (windowKept c a)
  | .input _ _ => inferInstanceAs (Decidable (_ → _ → _))
  | .output _ | .send .. | .recv _ | .close | .rxmtTmr | .fastTmr => isTrue trivial

/-- The last byte of the segment lies inside the offer. -/
def InsideOffer (offer : Option (Seq × BitVec 16)) (seg : OutSeg) : Prop :=
  ∃ ack win, offer = some (ack, win) ∧
    seqLt (seg.seq + BitVec.ofNat 32 (seg.len - 1)) (ack + win.setWidth 32)

/-- The window of the block is covered by the offer, unless there is nothing to send. -/
structure Covered (c : Core) (offer : Option (Seq × BitVec 16)) : Prop where
  timeWait : c.tState = .timeWait → c.sndQ = []
  offer : c.sndQ = [] ∧ c.tState ≠ .established ∨
    ∃ win, offer = some (c.sndSeq, win) ∧ c.sndWnd ≤ win

theorem Covered.congr {d d' : Core} {offer : Option (Seq × BitVec 16)} (h : Covered d offer)
    (hst : d'.tState = d.tState) (hseq : d'.sndSeq = d.sndSeq) (hwnd : d'.sndWnd = d.sndWnd)
    (hq : d'.sndQ = d.sndQ) : Covered d' offer := by
  refine ⟨?_, ?_⟩
  · rw [hst, hq]
    exact h.timeWait
  · rw [hst, hq, hseq, hwnd]
    exact h.offer

/-! ### Segments out -/

/-- A segment with text ends inside the window. -/
theorem Emits.inside {o₀ m o n₀ : Nat} {r : Pass} {seg : OutSeg} (h : Emits p o₀ m r seg o n₀)
    (hdata : seg.data ≠ []) {win : BitVec 16} (hwin : p.sndWnd ≤ win) :
    seqLt (seg.seq + BitVec.ofNat 32 (seg.len - 1)) (p.sndSeq + win.setWidth 32) := by
  have hlen : 0 < seg.len := by
    rw [← h.data_length]
    exact List.length_pos_of_ne_nil hdata
  have hle := h.le
  have hend : o + seg.len ≤ p.sndWnd.toNat := by
    rcases h.bound with hz | hb
    · omega
    · have husable : p.usable ≤ p.sndWnd.toNat := min_le_right _ _
      omega
  have hwin' : p.sndWnd.toNat ≤ win.toNat := hwin
  have hlt := win.isLt
  have hseq := h.seq
  rw [if_pos (Or.inl (by omega))] at hseq
  rw [hseq, seqLt]
  simp only [Pcb.seqAt, BitVec.toInt_eq_toNat_cond]
  split <;> split <;> bv_omega

/-- With a covered window, every segment with text lies inside the offer. -/
theorem tcpOutput_inside {offer : Option (Seq × BitVec 16)} (h : Covered p.core offer)
    (es : List OutEnv) : ∀ seg ∈ (tcpOutput p es).2, seg.data ≠ [] → InsideOffer offer seg := by
  let J : Pcb → List OutSeg → Prop := fun q out =>
    Covered q.core offer ∧ ∀ seg ∈ out, seg.data ≠ [] → InsideOffer offer seg
  have hmoved : ∀ {q q' : Pcb}, Covered q.core offer → q.core.Moved q'.core →
      Covered q'.core offer := by
    intro q q' hq hmv
    obtain ⟨hst, hseq, hwnd, -, hsq⟩ := hmv.kept
    exact hq.congr hst hseq hwnd hsq
  have hemit : ∀ q o₀ m out r seg o n₀, J q out → Emits q o₀ m r seg o n₀ →
      J r.pcb (out ++ [seg]) ∧ (r.again = true → J r.pcb (out ++ [seg])) := by
    intro q o₀ m out r seg o n₀ hJ hs
    have hnew : seg.data ≠ [] → InsideOffer offer seg := by
      intro hdata
      rcases hJ.1.offer with ⟨hnil, -⟩ | ⟨win, hoffer, hwin⟩
      · have hempty : q.sndQ = [] := hnil
        rw [hs.data, hempty] at hdata
        simp at hdata
      · exact ⟨q.sndSeq, win, hoffer, hs.inside hdata hwin⟩
    have hout : J r.pcb (out ++ [seg]) := by
      refine ⟨hmoved hJ.1 hs.moved, fun seg' hmem => ?_⟩
      rcases List.mem_append.mp hmem with hold | hlast
      · exact hJ.2 seg' hold
      · obtain rfl := List.mem_singleton.mp hlast
        exact hnew
    exact ⟨hout, fun _ => hout⟩
  exact (tcpOutput_rule (I := fun q _ _ out => J q out) (J := J) (fun _ _ _ _ hJ => hJ)
    (fun _ _ _ _ _ hJ hq => ⟨hmoved hJ.1 hq.moved, hJ.2⟩) hemit p es [] ⟨h, by simp⟩).2

/-! ### Segments in -/

theorem acceptableAck_iff (hst : p.tState ≠ .synSent) :
    acceptableAck p s = true ↔
      accepts p s = true ∧ (s.ack - p.sndSeq).toNat ≤ p.sndMax.toNat := by
  simp [acceptableAck, hst]

/-- An acknowledgement at or before `snd_una` is acceptable only at `snd_una`. -/
theorem eq_of_seqLeq {ack una : Seq} {m : BitVec 16} (hle : seqLeq ack una)
    (hin : (ack - una).toNat ≤ m.toNat) : ack = una := by
  have hm := m.isLt
  simp only [seqLeq, BitVec.toInt_eq_toNat_cond] at hle
  split at hle <;> bv_omega

/-- ACK processing that goes on leaves `snd_una` at an acceptable acknowledgement and
does not move it on any other. -/
theorem AckDone.sndSeq_eq {d : Core} (h : AckDone p.core s.ack d) (hst : p.tState ≠ .synSent)
    (hacc : accepts p s = true) :
    d.sndSeq = if acceptableAck p s then s.ack else p.sndSeq := by
  split
  · next hok =>
    obtain ⟨-, hin⟩ := (acceptableAck_iff hst).mp hok
    cases h with
    | same _ hle hcore => rw [hcore]; exact (eq_of_seqLeq hle hin).symm
    | early _ hge hmax hle hcore => rw [hcore]; exact (eq_of_seqLeq hle hin).symm
    | new k hnew hlast htime => exact hnew.sndSeq
  · next hno =>
    have hout : ¬(s.ack - p.sndSeq).toNat ≤ p.sndMax.toNat :=
      fun hin => hno ((acceptableAck_iff hst).mpr ⟨hacc, hin⟩)
    cases h with
    | same hst hle hcore => rw [hcore]; rfl
    | early hst hge hmax hle hcore => rw [hcore]; rfl
    | new k hnew hlast htime =>
        have hle : k ≤ p.sndMax.toNat := hnew.le
        have hm := p.sndMax.isLt
        rw [show s.ack = p.sndSeq + BitVec.ofNat 32 k from hnew.ack_eq,
          toNat_offset_sub p.sndSeq (by omega)] at hout
        exact absurd hle hout

/-- What ACK processing does to the window and the queue. -/
theorem AckDone.window {d d' : Core} {ack : Seq} (h : AckDone d ack d') :
    d'.sndWnd = d.sndWnd ∧ (d.sndQ = [] → d'.sndQ = []) ∧
      (d'.tState = .timeWait → d.tState = .timeWait ∨ d'.sndQ = []) := by
  cases h with
  | same _ hle hcore =>
      rw [hcore]
      exact ⟨rfl, fun hq => hq, Or.inl⟩
  | early _ hge hmax hle hcore =>
      rw [hcore]
      exact ⟨rfl, fun hq => hq, fun h => by cases h⟩
  | new k hnew hlast htime =>
      refine ⟨hnew.sndWnd, fun hq => ?_, fun ht => Or.inr ?_⟩
      · rw [hnew.sndQ, hq, List.drop_nil]
      · -- only an acknowledged FIN leads to `TIME_WAIT` here
        have hcov : d.sndQ.length < k := by
          by_contra hno
          rw [hnew.tState, decide_eq_false hno] at ht
          cases hst : d.tState <;> simp_all [ackedState]
        rw [hnew.sndQ]
        exact List.drop_eq_nil_of_le (Nat.le_of_lt hcov)

/-- The end of input processing keeps a covered window covered. -/
theorem EndSpec.covered {d : Core} {t : Text} {win : BitVec 16} {r : InputResult} {taken : Bool}
    {offer : Option (Seq × BitVec 16)} (h : EndSpec d t win avail r taken)
    (htime : d.tState = .timeWait → d.sndQ = [])
    (hoffer : d.sndQ = [] ∧ d.tState ≠ .established ∨
      ∃ w, offer = some (d.sndSeq, w) ∧ r.pcb.sndWnd ≤ w) : Covered r.pcb.core offer := by
  have hst : r.pcb.core.tState = _ := h.tState
  have hq : r.pcb.core.sndQ = _ := h.sndQ
  have hempty : d.sndQ = [] → r.pcb.core.sndQ = [] := by
    intro hnil
    rw [hq]
    split
    · rfl
    · exact hnil
  constructor
  · intro ht
    rw [hst] at ht
    split at ht
    · next htaken =>
      rcases finState_eq_timeWait ht with h2 | h2
      · rw [hq, if_pos ⟨htaken, h2⟩]
      · exact hempty (htime h2)
    · exact hempty (htime ht)
  · rcases hoffer with ⟨hnil, hne⟩ | ⟨w, hw, hle⟩
    · left
      refine ⟨hempty hnil, fun hest => ?_⟩
      rw [hst] at hest
      split at hest
      · exact finState_eq_established hest
      · exact hne hest
    · right
      refine ⟨w, ?_, hle⟩
      rw [show r.pcb.core.sndSeq = d.sndSeq from h.sndSeq]
      exact hw

theorem InputDone.covered {r : InputResult} {offer : Option (Seq × BitVec 16)}
    (h : InputDone p s avail r) (hcov : Covered p.core offer)
    (hkept : p.tState ≠ .synSent → reaches p s = true →
      if acceptableAck p s then p.sndWnd ≤ s.win
      else s.win ≤ p.sndWnd ∧ p.tState ≠ .synRcvd)
    (hlist : r.list = .active) :
    Covered r.pcb.core (if acceptableAck p s then some (s.ack, s.win) else offer) := by
  cases h with
  | refused hst hleft hstored hmark => exact absurd hlist hleft
  | opened hopen taken hend =>
      obtain ⟨hst, -, -, -, -, hack⟩ := opens_iff.mp hopen
      have hacc : acceptableAck p s = true := by
        rw [acceptableAck, if_pos hst]
        exact hopen
      rw [if_pos hacc]
      refine hend.covered (fun ht => by cases ht) (Or.inr ⟨s.win, ?_, ?_⟩)
      · rw [hack]
        rfl
      · rw [hend.sndWnd]
        simp [Core.opened]
  | stopped hst hacc hstop =>
      have hno : ¬acceptableAck p s = true := by
        rw [acceptableAck_iff hst, hacc]
        simp
      rw [if_neg hno, hstop.stays hlist]
      exact hcov
  | ended hst hacc hrst hstored hack =>
      cases hack with
      | range hl hcore hout =>
          have hno : ¬acceptableAck p s = true := by
            rw [acceptableAck_iff hst]
            exact fun h => absurd h.2 (Nat.not_le_of_lt hout)
          rw [if_neg hno, hcore]
          exact hcov
      | freed hl => rw [hl] at hlist; cases hlist
      | waiting hl htime k hnew =>
          have hnil : r.pcb.core.sndQ = [] := by
            rw [hnew.sndQ, hcov.timeWait htime, List.drop_nil]
          refine ⟨fun _ => hnil, Or.inl ⟨hnil, ?_⟩⟩
          rw [hnew.tState, htime]
          simp [ackedState]
  | processed hst hacc hreach p' t hcheck d hack taken hend =>
      have hkept := hkept hst hreach
      obtain ⟨hwnd, hnil, htime⟩ := hack.window
      have hseq := hack.sndSeq_eq hst hacc
      have htime' : d.tState = .timeWait → d.sndQ = [] := fun ht =>
        (htime ht).elim (fun h => hnil (hcov.timeWait h)) fun h => h
      have hraise : r.pcb.sndWnd = if p.sndWnd < s.win then s.win else p.sndWnd := by
        rw [hend.sndWnd, hwnd, hcheck.ack]
        simp only [true_and]
        rfl
      refine hend.covered htime' ?_
      split
      · next hok =>
        rw [if_pos hok] at hkept hseq
        refine Or.inr ⟨s.win, by rw [hseq], ?_⟩
        rw [hraise]
        split
        · exact BitVec.le_refl _
        · exact hkept
      · next hno =>
        rw [if_neg hno] at hkept hseq
        rw [if_neg (BitVec.not_lt.mpr hkept.1)] at hraise
        rcases hcov.offer with ⟨hq, hne⟩ | ⟨w, hw, hle⟩
        · left
          exact ⟨hnil hq, fun hest => (hack.of_established hest).elim hne hkept.2⟩
        · right
          refine ⟨w, ?_, ?_⟩
          · rw [hseq]
            exact hw
          · rw [hraise]
            exact hle

/-! ### Runs -/

theorem close_covered {offer : Option (Seq × BitVec 16)} (h : Covered p.core offer)
    (hlist : (tcpClose p).2 = .active) : Covered (tcpClose p).1.core offer := by
  cases tcpClose_spec hlist with
  | fin hst hcore =>
      rw [hcore]
      refine ⟨fun ht => (by cases ht), ?_⟩
      rcases h.offer with ⟨hq, -⟩ | hoffer
      · exact Or.inl ⟨hq, by simp⟩
      · exact Or.inr hoffer
  | discard hst hcore =>
      rw [hcore]
      exact ⟨fun _ => rfl, Or.inl ⟨rfl, by simp⟩⟩
  | same hst hcore =>
      rw [hcore]
      exact h

/-- Every step keeps the window covered. -/
theorem step_covered {a : Action} {c' : Conn}
    (h : c.list = .active → Covered c.pcb.core c.offer) (hok : windowKept c a)
    (hstep : c.step a = some c') : c'.list = .active → Covered c'.pcb.core c'.offer := by
  simp only [Conn.step] at hstep
  split at hstep
  · next hlist =>
    obtain rfl := Option.some.inj hstep
    have hcov := h hlist
    intro hlist'
    cases a with
    | input s avail => exact (tcpInput_spec c.pcb s avail).covered hcov hok hlist'
    | output es =>
        obtain ⟨hst, hseq, hwnd, -, hq⟩ := (tcpOutput_moved c.pcb es).kept
        exact hcov.congr hst hseq hwnd hq
    | send src len nowait offs avail =>
        rcases tcpSend_spec c.pcb src len nowait offs avail with ⟨hcore, -⟩ | ⟨hest, hspec⟩
        · show Covered (tcpSend c.pcb src len nowait offs avail).1.core c.offer
          rw [hcore]
          exact hcov
        · show Covered (tcpSend c.pcb src len nowait offs avail).1.core c.offer
          rw [hspec.core]
          refine ⟨fun ht => ?_, ?_⟩
          · rw [show c.pcb.core.tState = .established from hest] at ht
            cases ht
          · rcases hcov.offer with ⟨-, hne⟩ | hoffer
            · exact absurd hest hne
            · exact Or.inr hoffer
    | recv len =>
        show Covered (tcpRecv c.pcb len).core c.offer
        rw [tcpRecv_core]
        exact hcov.congr rfl rfl rfl rfl
    | close => exact close_covered hcov hlist'
    | rxmtTmr =>
        show Covered (tcpRxmtTmr c.pcb).core c.offer
        rcases tcpRxmtTmr_core c.pcb with hcore | hcore
        · rw [hcore]
          exact hcov
        · rw [hcore]
          exact hcov.congr rfl rfl rfl rfl
    | fastTmr =>
        show Covered (tcpFastTmr c.pcb).core c.offer
        rw [tcpFastTmr_core]
        exact hcov
  · cases hstep

theorem start_covered (hp : Opened p) : Covered (Conn.start p).pcb.core (Conn.start p).offer := by
  have hfresh := hp.fresh
  have hq : p.core.sndQ = [] := hfresh.sndQ
  refine ⟨fun _ => hq, Or.inl ⟨hq, ?_⟩⟩
  rcases hfresh.tState with hst | hst <;> simp [Conn.start, Pcb.core, hst]

/-- In every run in which no acknowledgement takes back the window, every segment with text
that `tcp_output` sends ends inside the window of the last acceptable acknowledgement. -/
theorem sendWindow_respected (hp : Opened p) {as : List Action}
    (hkept : Along Conn.step windowKept (Conn.start p) as)
    (hrun : exec Conn.step (Conn.start p) as = some c) (hlist : c.list = .active)
    (es : List OutEnv) : ∀ seg ∈ (tcpOutput c.pcb es).2, seg.data ≠ [] →
      InsideOffer c.offer seg := by
  have hcov : c.list = .active → Covered c.pcb.core c.offer :=
    exec_invariant (I := fun c => c.list = .active → Covered c.pcb.core c.offer)
      (fun _ _ _ h hok hstep => step_covered h hok hstep) (fun _ => start_covered hp) hkept hrun
  exact tcpOutput_inside (hcov hlist) es

/-- The peer acknowledges our SYN and the application sends three bytes. -/
def threeBytesRun : List Action :=
  [.output [openNet], .input (sampleSegment false 101 0x100001 1000 [] nil_lt) 10,
    .send [1, 2, 3] 3 true 0 100]

theorem sendWindow_respected_three :
    ∃ c, exec Conn.step sampleStart threeBytesRun = some c ∧
      c.offer = some (0x100001, 1000) ∧
      (tcpOutput c.pcb [openNet]).2.map OutSeg.data = [[1, 2, 3]] ∧
      ∀ seg ∈ (tcpOutput c.pcb [openNet]).2, seg.data ≠ [] → InsideOffer c.offer seg := by
  have hend : (exec Conn.step sampleStart threeBytesRun).map
      (fun c => (c.list, c.offer, (tcpOutput c.pcb [openNet]).2.map OutSeg.data)) =
        some (.active, some (0x100001, 1000), [[1, 2, 3]]) := by
    decide
  obtain ⟨c, hrun, hc⟩ := Option.map_eq_some_iff.mp hend
  obtain ⟨hlist, hrest⟩ := Prod.mk.inj hc
  obtain ⟨hoffer, hsegs⟩ := Prod.mk.inj hrest
  exact ⟨c, hrun, hoffer, hsegs, sendWindow_respected (.passive _ _ _ _ _) (by decide)
    hrun hlist [openNet]⟩

/-- The peer closes its window before the bytes are sent. -/
def closedWindowRun : List Action :=
  threeBytesRun ++ [.input (sampleSegment false 101 0x100001 0 [] nil_lt) 10]

/-- Three bytes are sent into a window of zero bytes. -/
theorem sendWindow_not_respected :
    ∃ c, exec Conn.step sampleStart closedWindowRun = some c ∧ c.list = .active ∧
      c.offer = some (0x100001, 0) ∧
      ∃ seg ∈ (tcpOutput c.pcb [openNet]).2, seg.data = [1, 2, 3] ∧
        ¬InsideOffer c.offer seg := by
  have hend : (exec Conn.step sampleStart closedWindowRun).map
      (fun c => (c.list, c.offer, (tcpOutput c.pcb [openNet]).2.any
        fun seg => seg.seq = 0x100001 && seg.len = 3 && seg.data = [1, 2, 3])) =
        some (.active, some (0x100001, 0), true) := by
    decide
  obtain ⟨c, hrun, hc⟩ := Option.map_eq_some_iff.mp hend
  obtain ⟨hlist, hrest⟩ := Prod.mk.inj hc
  obtain ⟨hoffer, hsegs⟩ := Prod.mk.inj hrest
  obtain ⟨seg, hmem, hseg⟩ := List.any_eq_true.mp hsegs
  simp only [Bool.and_eq_true, decide_eq_true_eq] at hseg
  obtain ⟨⟨hseq, hlen⟩, hdata⟩ := hseg
  refine ⟨c, hrun, hlist, hoffer, seg, hmem, hdata, ?_⟩
  rintro ⟨ack, win, hsome, hlt⟩
  rw [hoffer] at hsome
  obtain ⟨rfl, rfl⟩ := Prod.mk.inj (Option.some.inj hsome)
  rw [hseq, hlen] at hlt
  exact absurd hlt (by decide)

end YardIce.Tcp
