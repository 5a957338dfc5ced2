import YardIce.Tcp.Input

/-!
# Header prediction

A segment that header prediction takes goes through the slow path without being
trimmed or dropped, so both paths leave the connection at the same place.
-/

namespace YardIce.Tcp

variable {p : Pcb} {s : Segment} {t : Text} {avail : Nat}

/-- An acknowledgement is pending, at once or delayed. -/
def Pcb.ackPending (p : Pcb) : Bool := p.acknow || p.delack

@[simp]
theorem sched_core (p : Pcb) : p.sched.core = p.core := rfl

@[simp]
theorem sched_ackPending (p : Pcb) : p.sched.ackPending = p.ackPending := rfl

theorem trimHead_of_next (h : t.seq = p.rcvNxt) : trimHead p t = (p, t) := by
  simp [trimHead, h]

theorem trimTail_of_next (h : t.seq = p.rcvNxt) (hfit : t.data.length ≤ p.rcvWnd) :
    trimTail p t = .ok (p, t) := by
  have hwnd : p.rcvWnd ≤ 2920 := Nat.sub_le _ _
  have hdrop : ¬((t.seq + BitVec.ofNat 32 t.data.length) -
      (p.rcvNxt + BitVec.ofNat 32 p.rcvWnd)).toInt > 0 := by
    rw [h, BitVec.toInt_eq_toNat_cond]
    split <;> bv_omega
  simp only [trimTail, if_neg hdrop]

/-- What the test in front of header prediction says. -/
theorem predictable_iff :
    predictable p s = true ↔
      p.tState = .established ∧ s.flags.syn = false ∧ s.flags.fin = false ∧
        s.flags.rst = false ∧ s.flags.urg = false ∧ s.flags.ack = true ∧ s.seq = p.rcvNxt ∧
        s.win ≠ 0 ∧ s.win = p.sndWnd ∧ p.sndNxt = p.sndLast := by
  simp [predictable, and_assoc]

theorem checkSegment_predicted (h : predictable p s = true) (hfit : s.data.length ≤ p.rcvWnd) :
    checkSegment p s = .ok (p, s.text) := by
  obtain ⟨hst, hsyn, hfin, hrst, -, hack, hseq, -⟩ := predictable_iff.mp h
  have hhead : trimHead p s.text = (p, s.text) := trimHead_of_next hseq
  have htail : trimTail p s.text = .ok (p, s.text) := trimTail_of_next hseq hfit
  have hnum : ¬(p.tState.num > TcpState.finWait1.num ∧ s.text.data ≠ []) := by
    simp [hst, TcpState.num]
  simp only [checkSegment, hhead, if_neg hnum]
  rw [htail]
  simp [Segment.text, hsyn, hrst, hack, bind, Except.bind, pure, Except.pure]

theorem ackSyn_of_ne (h : p.tState ≠ .synRcvd) (t : Text) (ack : Seq) : ackSyn p t ack = .ok p :=
  if_neg h

theorem ackState_established (h : p.tState = .established) (t : Text) (b : Bool) :
    ackState p t b = .ok p := by
  simp [ackState, h]

/-- An acknowledgement of the oldest byte that is not acknowledged changes nothing. -/
theorem inputAck_same (h : p.tState ≠ .synRcvd) (t : Text) :
    inputAck p t p.sndSeq = .ok (p, false) := by
  have hle : seqLeq p.sndSeq p.sndSeq := by simp [seqLeq]
  simp [inputAck, ackSyn_of_ne h, hle, bind, Except.bind, pure, Except.pure]

theorem inputAck_new (h : p.tState = .established) (t : Text) {ack : Seq}
    (hgt : seqGt ack p.sndSeq) (hle : seqLeq ack p.sndLast) :
    inputAck p t ack =
      .ok (ackAdvance p p.sndNxt p.sndLast ack (ack - p.sndSeq).toInt, decide (ack = p.sndLast)) := by
  have hne : p.tState ≠ .synRcvd := by simp [h]
  have hst : (ackAdvance p p.sndNxt p.sndLast ack (ack - p.sndSeq).toInt).tState = .established := h
  have hlt : ¬seqLeq ack p.sndSeq := Int.not_le.mpr hgt
  have hmax : ¬seqGt ack p.sndLast := Int.not_lt.mpr hle
  simp only [inputAck, ackSyn_of_ne hne, hlt, hmax, if_false, bind, Except.bind,
    ackState_established hst]
  rfl

/-- A segment without text, FIN or a larger window ends with the block it came with. -/
theorem inputEnd_plain (hdata : t.data = []) (hfin : t.flags.fin = false) (tiwin : BitVec 16)
    (hwin : tiwin = p.sndWnd) (needoutput : Bool) :
    inputEnd p t tiwin needoutput avail =
      ⟨if needoutput || p.acknow then p.sched else p, .active, none, []⟩ := by
  simp [inputEnd, step6, inputData, hdata, hfin, hwin]

/-- A predicted segment reaches ACK processing as it came in. -/
theorem slowPath_predicted (h : predictable p s = true) (hfit : s.data.length ≤ p.rcvWnd)
    {q : Pcb} {needoutput : Bool} (hack : inputAck p s.text s.ack = .ok (q, needoutput)) :
    slowPath p s avail = inputEnd q s.text s.win needoutput avail := by
  have hst : p.tState ≠ .synSent := by simp [(predictable_iff.mp h).1]
  simp only [slowPath, if_neg hst, checkSegment_predicted h hfit, bind, Except.bind, hack]
  rfl

/-- An acknowledged offset does not lie before the next byte to send. -/
theorem ackAdvance_sndOff (heq : p.sndNxt = p.sndLast) {ack : Seq} (hgt : seqGt ack p.sndSeq)
    (hle : seqLeq ack p.sndLast) (acked : Int) :
    (ackAdvance p p.sndNxt p.sndLast ack acked).sndOff = (p.sndNxt - ack).setWidth 16 := by
  have hnxt : ¬seqLt p.sndNxt ack := by
    rw [heq]
    simp only [seqLt, seqLeq, seqGt, Pcb.sndLast, BitVec.toInt_eq_toNat_cond] at hgt hle ⊢
    split at hgt <;> split at hle <;> split <;> bv_omega
  simp only [ackAdvance, if_neg hnxt]

/-- The trimming of the queue does not depend on the test for the FIN. -/
theorem ackAdvance_sndQ (p : Pcb) (nxt max ack : Seq) (acked : Int) :
    (ackAdvance p nxt max ack acked).sndQ = p.sndQ.drop acked.toNat := by
  simp only [ackAdvance]
  split
  · symm
    apply List.drop_eq_nil_of_le
    omega
  · rfl

/-- Two results that leave a connection at the same place, with or without an
acknowledgement to send. -/
structure Agree (r r' : InputResult) : Prop where
  core : r.pcb.core = r'.pcb.core
  list : r.list = r'.list
  stored : r.stored = r'.stored
  ackPending : r.pcb.ackPending = r'.pcb.ackPending

theorem fastPath_ack_agrees (h : predictable p s = true) (hdata : s.data = [])
    (hgt : seqGt s.ack p.sndSeq) (hle : seqLeq s.ack p.sndLast) {r : InputResult}
    (hr : fastPath p s avail = some r) : Agree r (slowPath p s avail) := by
  obtain ⟨hst, -, hfin, -, -, -, -, -, hwin, heq⟩ := predictable_iff.mp h
  have hfit : s.data.length ≤ p.rcvWnd := by simp [hdata]
  have hwin' : s.win = (ackAdvance p p.sndNxt p.sndLast s.ack (s.ack - p.sndSeq).toInt).sndWnd :=
    hwin
  rw [slowPath_predicted h hfit (inputAck_new hst s.text hgt hle),
    inputEnd_plain hdata hfin s.win hwin']
  simp only [fastPath, h, if_true, if_pos hdata, if_pos (And.intro hgt hle), Option.some.injEq] at hr
  subst hr
  refine ⟨?_, rfl, rfl, ?_⟩
  · have hoff := ackAdvance_sndOff heq hgt hle (s.ack - p.sndSeq).toInt
    have hq := ackAdvance_sndQ p p.sndNxt p.sndLast s.ack (s.ack - p.sndSeq).toInt
    simp only [apply_ite Pcb.core, sched_core, ite_self]
    ext1
    case sndOff => exact hoff.symm
    case sndQ => exact hq.symm
    all_goals rfl
  · simp only [apply_ite Pcb.ackPending, sched_ackPending, ite_self]
    rfl

/-- Text in sequence is appended and acknowledged with delay. -/
theorem inputEnd_data (hst : p.tState = .established) (hseq : t.seq = p.rcvNxt)
    (hdata : t.data ≠ []) (hfin : t.flags.fin = false) (tiwin : BitVec 16)
    (hwin : tiwin = p.sndWnd) :
    inputEnd p t tiwin false avail =
      let stored := t.data.take (min t.data.length avail)
      let q := { fastData p stored with delack := true }
      ⟨if q.acknow then q.sched else q, .active, none, stored⟩ := by
  simp [inputEnd, step6, inputData, fastData, TcpState.haveRcvdFin, TcpState.num, hst, hseq, hdata,
    hfin, hwin]

theorem fastPath_data_agrees (h : predictable p s = true) (hdata : s.data ≠ [])
    (hack : s.ack = p.sndSeq)
    (hroom : (s.data.length : Int) ≤ (tcpMaxrcv : Int) - p.rcvQ.length) {r : InputResult}
    (hr : fastPath p s avail = some r) : Agree r (slowPath p s avail) := by
  obtain ⟨hst, -, hfin, -, -, -, hseq, -, hwin, -⟩ := predictable_iff.mp h
  have hfit : s.data.length ≤ p.rcvWnd := by
    simp only [Pcb.rcvWnd]
    omega
  have hsyn : p.tState ≠ .synRcvd := by simp [hst]
  rw [slowPath_predicted h hfit (hack ▸ inputAck_same hsyn s.text),
    inputEnd_data hst hseq hdata hfin s.win hwin]
  simp only [fastPath, h, if_true, if_neg hdata, if_pos (And.intro hack hroom),
    Option.some.injEq] at hr
  subst hr
  refine ⟨?_, rfl, rfl, ?_⟩
  · simp only [apply_ite Pcb.core, sched_core, ite_self]
    split <;> rfl
  · simp only [apply_ite Pcb.ackPending, sched_ackPending, ite_self]
    simp [Pcb.ackPending]

theorem fastPath_agrees {r : InputResult} (hr : fastPath p s avail = some r) :
    Agree r (slowPath p s avail) := by
  have hpred : predictable p s = true := by
    by_contra h
    simp [fastPath, h] at hr
  have hcase := hr
  simp only [fastPath, hpred, if_true] at hcase
  split at hcase
  next hdata =>
    split at hcase
    next hack => exact fastPath_ack_agrees hpred hdata hack.1 hack.2 hr
    next => cases hcase
  next hdata =>
    split at hcase
    next hack => exact fastPath_data_agrees hpred hdata hack.1 hack.2 hr
    next => cases hcase

/-- Where header prediction takes a segment, the slow path leaves the same state,
sequence numbers, window and queues, and an acknowledgement is pending after both or
after neither. -/
theorem headerPrediction_agrees (p : Pcb) (s : Segment) (avail : Nat) (r : InputResult)
    (hr : fastPath p s avail = some r) :
    let r' := slowPath p s avail
    r.pcb.tState = r'.pcb.tState ∧ r.pcb.sndSeq = r'.pcb.sndSeq ∧
      r.pcb.sndOff = r'.pcb.sndOff ∧ r.pcb.sndMax = r'.pcb.sndMax ∧
      r.pcb.sndWnd = r'.pcb.sndWnd ∧ r.pcb.rcvNxt = r'.pcb.rcvNxt ∧
      r.pcb.sndQ = r'.pcb.sndQ ∧ r.pcb.rcvQ = r'.pcb.rcvQ ∧ r.list = r'.list ∧
      r.stored = r'.stored ∧ r.pcb.ackPending = r'.pcb.ackPending := by
  have hagree := fastPath_agrees hr
  have hcore := hagree.core
  exact ⟨congrArg Core.tState hcore, congrArg Core.sndSeq hcore, congrArg Core.sndOff hcore,
    congrArg Core.sndMax hcore, congrArg Core.sndWnd hcore, congrArg Core.rcvNxt hcore,
    congrArg Core.sndQ hcore, congrArg Core.rcvQ hcore, hagree.list, hagree.stored,
    hagree.ackPending⟩

/-- An established connection with one of two bytes sent. -/
def twoBytesQueued : Pcb :=
  { faddr := 0, laddr := 0, fport := 0, lport := 0
    acknow := false, delack := false, sentfin := false, idle := false, needoutput := false
    tState := .established, count := 0, rxmtTmr := 3, connTmr := 60, maxseg := 1460, route := none
    sndSeq := 0xffffffff, sndOff := 1, sndMax := 1, sndWnd := 1, rcvAdvWnd := 0
    rcvNxt := 0xffffffff, rcvQ := [], sndQ := [1, 2] }

/-- Three bytes in sequence, of which two find buffers. -/
theorem headerPrediction_agrees_short :
    let s : Segment :=
      ⟨⟨false, false, false, false, true, false⟩, 0xffffffff, 0xffffffff, 1, [], [7, 8, 9],
        by decide⟩
    ∃ r, fastPath twoBytesQueued s 2 = some r ∧ r.stored = [7, 8] ∧
      r.pcb.rcvNxt = (slowPath twoBytesQueued s 2).pcb.rcvNxt :=
  ⟨_, rfl, rfl, (headerPrediction_agrees _ _ _ _ rfl).2.2.2.2.2.1⟩

end YardIce.Tcp
