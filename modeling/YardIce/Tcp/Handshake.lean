import YardIce.Tcp.SendSequence

/-!
# Handshake and close

Which acknowledgements take a connection from one state to the next. That the FIN is
acknowledged is inferred from an acknowledgement past the queue; where the send sequence
space is in order, such an acknowledgement is one of the FIN that was sent.
-/

namespace YardIce.Tcp

open YardIce.Lib

variable {p : Pcb} {s : Segment} {avail : Nat} {out : List OutSeg}

/-- The acknowledgement is the sequence number after a FIN that was sent. -/
def FinAcked (out : List OutSeg) (ack : Seq) : Prop :=
  ∃ seg ∈ out, seg.flags.fin = true ∧ ack = seg.seq + BitVec.ofNat 32 seg.len + 1

/-- More than the queue is acknowledged only with the FIN. -/
theorem Placed.finAcked {c : Core} (h : Placed c out) (hfin : (tcpOutflags c.tState).fin = true)
    {ack : Seq} {k : Nat} (hk : c.sndQ.length < k) (hle : k ≤ c.sndMax.toNat)
    (hack : ack = c.sndSeq + BitVec.ofNat 32 k) : FinAcked out ack := by
  have hmax := h.max_le
  obtain ⟨seg, hmem, hflag, hseq⟩ := h.slot (by omega)
  refine ⟨seg, hmem, ?_, ?_⟩
  · rcases hflag with ⟨-, hsyn⟩ | ⟨hf, -⟩
    · rw [outflags_syn_or_fin _ hsyn] at hfin
      cases hfin
    · exact hf
  · rw [hack, hseq, show k = c.sndQ.length + 1 by omega, ← offset_add_offset]
    rfl

/-- What a segment must acknowledge to change the state of a connection. -/
structure AckedBy (p : Pcb) (iss : Seq) (out : List OutSeg) (s : Segment) (r : InputResult) :
    Prop where
  syn : p.tState = .synRcvd → r.list = .active → r.pcb.tState ≠ .synRcvd → s.ack = iss + 1
  fin : p.tState = .finWait1 ∨ p.tState = .closing → r.list = .active →
    r.pcb.tState = .finWait2 ∨ r.pcb.tState = .timeWait → FinAcked out s.ack
  last : p.tState = .lastAck → r.list = .free → s.flags.rst = true ∨ FinAcked out s.ack

/-- A call that leaves the state alone acknowledges nothing. -/
theorem ackedBy_same {iss : Seq} {r : InputResult} (hst : r.list = .active → r.pcb.tState = p.tState)
    (hfree : p.tState = .lastAck → r.list = .free → s.flags.rst = true) :
    AckedBy p iss out s r := by
  refine ⟨fun h hl hne => absurd ((hst hl).trans h) hne, fun h hl hto => ?_,
    fun h hf => Or.inl (hfree h hf)⟩
  rw [hst hl] at hto
  rcases h with h | h <;> rw [h] at hto <;> rcases hto with h' | h' <;> cases h'

/-- The FIN of the peer alone does not end the wait for our own. -/
theorem finState_ne {st : TcpState} (h : st = .finWait1 ∨ st = .closing) :
    finState st ≠ .finWait2 ∧ finState st ≠ .timeWait := by
  rcases h with rfl | rfl <;> decide

/-- Input that left the wait for the acknowledgement of our FIN did so before the text. -/
theorem EndSpec.waits {c : Core} {t : Text} {win : BitVec 16} {r : InputResult} {taken : Bool}
    (h : EndSpec c t win avail r taken) (hst : c.tState = .finWait1 ∨ c.tState = .closing) :
    ¬(r.pcb.tState = .finWait2 ∨ r.pcb.tState = .timeWait) := by
  obtain ⟨h₁, h₂⟩ := finState_ne hst
  intro hto
  rw [h.tState] at hto
  split at hto
  · exact hto.elim h₁ h₂
  · rcases hst with hst | hst <;> rw [hst] at hto <;> rcases hto with h' | h' <;> cases h'

/-- An acknowledgement that does not cover the FIN leaves the wait for it alone. -/
theorem NewAck.waits {c d : Core} {ack : Seq} {k : Nat} (h : NewAck c ack k d)
    (hst : c.tState = .finWait1 ∨ c.tState = .closing) (hk : ¬c.sndQ.length < k) :
    d.tState = c.tState := by
  rw [h.tState, decide_eq_false hk, ackedState_false]
  rcases hst with hst | hst <;> rw [hst] <;> decide

/-- The first acknowledgement of a SYN is one number past it. -/
theorem NewAck.of_synRcvd {c d : Core} {ack iss : Seq} {k una : Nat} {queued : List UInt8}
    (h : NewAck c ack k d) (hplaced : Placed c out) (hnum : Numbered c iss una queued)
    (hst : c.tState = .synRcvd) : ack = iss + 1 := by
  have hflag : (tcpOutflags c.tState).syn = true := by
    rw [hst]
    rfl
  have hmax := hplaced.max_le
  rw [hplaced.syn hflag, List.length_nil] at hmax
  have hpos := h.pos
  have hle := h.le
  have hone : k = 1 := by omega
  rw [h.ack_eq, hnum.seq, (hnum.syn hflag).2, hone]
  simp

theorem InputDone.ackedBy {iss : Seq} {una : Nat} {queued : List UInt8} {r : InputResult}
    (h : InputDone p s avail r) (hplaced : Placed p.core out)
    (hnum : Numbered p.core iss una queued)
    (hsynack : p.tState = .synRcvd → reaches p s = true → ¬seqLeq s.ack p.sndSeq) :
    AckedBy p iss out s r := by
  cases h with
  | refused hst hleft hstored hmark =>
      refine ackedBy_same (fun hl => absurd hl hleft) fun h => ?_
      rw [hst] at h
      cases h
  | opened hopen taken hend =>
      obtain ⟨hst, -⟩ := opens_iff.mp hopen
      refine ⟨fun h => ?_, fun h => ?_, fun h => ?_⟩
      · rw [hst] at h
        cases h
      · rw [hst] at h
        rcases h with h | h <;> cases h
      · rw [hst] at h
        cases h
  | stopped hst hacc hstop =>
      refine ackedBy_same (fun hl => congrArg Core.tState (hstop.stays hl)) fun _ hf => ?_
      exact hstop.leaves (by rw [hf]; decide)
  | ended hst hacc hrst hstored hended =>
      cases hended with
      | range hl hcore hout =>
          refine ackedBy_same (fun _ => congrArg Core.tState hcore) fun _ hf => ?_
          rw [hl] at hf
          cases hf
      | freed hl hlast k hk hle hack hlen =>
          refine ⟨fun _ hl' => ?_, fun _ hl' => ?_, fun _ _ => Or.inr ?_⟩
          · rw [hl] at hl'
            cases hl'
          · rw [hl] at hl'
            cases hl'
          · exact hplaced.finAcked (by rw [hlast]; rfl) hlen hle hack
      | waiting hl htime k hnew =>
          refine ackedBy_same (fun _ => ?_) fun _ hf => ?_
          · have hst' : r.pcb.tState = _ := hnew.tState
            rw [hst', htime]
            exact htime.symm
          · rw [hl] at hf
            cases hf
  | processed hst hacc hreach p' t hcheck d hdone taken hend =>
      have hlist := hend.list
      have hlast : p.tState = .lastAck → r.list = .free → s.flags.rst = true ∨ FinAcked out s.ack := by
        intro _ hf
        rw [hlist] at hf
        cases hf
      cases hdone with
      | same hne hle hcore =>
          refine ⟨fun h => absurd h hne, fun h _ hto => ?_, hlast⟩
          have hwait : d.tState = .finWait1 ∨ d.tState = .closing := by
            rw [hcore]
            exact h
          exact absurd hto (hend.waits hwait)
      | early hsyn hge hmax hle hcore => exact absurd hle (hsynack hsyn hreach)
      | new k hnew hlast' htime =>
          refine ⟨fun hsyn _ _ => hnew.of_synRcvd hplaced hnum hsyn, fun h _ hto => ?_, hlast⟩
          have hcov : p.core.sndQ.length < k := by
            by_contra hno
            have hwait : d.tState = .finWait1 ∨ d.tState = .closing := by
              rw [hnew.waits h hno]
              exact h
            exact hend.waits hwait hto
          refine hplaced.finAcked ?_ hcov hnew.le hnew.ack_eq
          rcases h with h | h <;> rw [show p.core.tState = _ from h] <;> rfl

/-- A step that no acknowledgement takes part in. -/
structure Unacked (c c' : Conn) : Prop where
  syn : c.pcb.tState = .synRcvd → c'.pcb.tState ≠ .established ∧ c'.pcb.tState ≠ .closeWait
  fin : c.pcb.tState = .finWait1 ∨ c.pcb.tState = .closing →
    c'.pcb.tState ≠ .finWait2 ∧ c'.pcb.tState ≠ .timeWait
  last : c.pcb.tState = .lastAck → c'.list ≠ .free

theorem unacked_same {c c' : Conn} (hlist : c'.list = .active)
    (hst : c'.pcb.tState = c.pcb.tState) : Unacked c c' := by
  refine ⟨fun h => ?_, fun h => ?_, fun _ => by rw [hlist]; decide⟩
  · rw [hst, h]
    decide
  · rw [hst]
    rcases h with h | h <;> rw [h] <;> decide

/-- Calls of the application, output and timers acknowledge nothing. -/
theorem next_unacked {c : Conn} {a : Action} (hlist : c.list = .active)
    (ha : ∀ s avail, a ≠ .input s avail) : Unacked c (c.next a) := by
  cases a with
  | input s avail => exact absurd rfl (ha s avail)
  | output es => exact unacked_same hlist (tcpOutput_moved c.pcb es).kept.1
  | send src len nowait offs avail =>
      refine unacked_same hlist ?_
      rcases tcpSend_spec c.pcb src len nowait offs avail with ⟨hcore, -⟩ | ⟨-, hspec⟩
      · exact congrArg Core.tState hcore
      · have hst := congrArg Core.tState hspec.core
        exact hst
  | recv len =>
      have hst := congrArg Core.tState (tcpRecv_core c.pcb len)
      exact unacked_same hlist hst
  | rxmtTmr =>
      refine unacked_same hlist ?_
      rcases tcpRxmtTmr_core c.pcb with hcore | hcore
      · exact congrArg Core.tState hcore
      · have hst := congrArg Core.tState hcore
        exact hst
  | fastTmr => exact unacked_same hlist (congrArg Core.tState (tcpFastTmr_core c.pcb))
  | close =>
      refine ⟨fun h => ?_, fun h => ?_, fun h => ?_⟩
      · simp [Conn.next, tcpClose, h, Pcb.sched]
      · rcases h with h | h <;> simp [Conn.next, tcpClose, h]
      · simp [Conn.next, tcpClose, h]

/-- The application closes an established connection and the FIN is sent. -/
def activeCloseRun : List Action :=
  [.output [openNet], .input (sampleSegment false 101 0x100001 1000 [] nil_lt) 10, .close,
    .output [openNet]]

/-- The acknowledgement of the FIN. -/
def finAck : Action := .input (sampleSegment false 101 0x100002 1000 [] nil_lt) 10

/-- The peer closes and the application follows; the FIN has not been sent yet. -/
def lastAckRun : List Action :=
  [.output [openNet], .input (sampleSegment true 101 0x100001 1000 [] nil_lt) 10, .close]

/-- A reset in the window. -/
def sampleReset : Segment :=
  { sampleSegment false 102 0x100001 1000 [] nil_lt with
    flags := ⟨false, false, true, false, true, false⟩ }

end YardIce.Tcp
