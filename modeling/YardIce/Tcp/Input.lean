import YardIce.Tcp.Pcb

/-!
# Segment input

`tcp_input` for a segment of a connection in the active list. The function is cut
at the labels and block comments of the source: header prediction, the response
to an active open, the trimming of the segment to the window, the checks of the
flags, ACK processing, the window update, the text and the FIN.

## Implementation notes

A jump to `drop`, `dropafterack`, `dropwithreset` or `close` ends a stage with the
result of the call. The bytes that `mbuf_queue_add` can store are the argument
`avail`. The local copies of `snd_una`, `snd_nxt` and `snd_max` are taken before
anything changes the fields they come from.
-/

namespace YardIce.Tcp

/-- The list that a control block is in after a call. -/
inductive PcbList
  | active
  | closed
  | free
  deriving DecidableEq

/-- The arguments of a call of `tcp_respond`. -/
structure Reset where
  ack : Seq
  seq : Seq
  flags : ThFlags
  deriving DecidableEq

/-- What a call of `tcp_input` leaves behind; `stored` are the bytes that were
appended to the receive queue. -/
structure InputResult where
  pcb : Pcb
  list : PcbList
  reset : Option Reset
  stored : List UInt8

/-- The parts of a segment that `tcp_input` changes: `tiflags`, `ti_seq` and the text. -/
structure Text where
  flags : ThFlags
  seq : Seq
  data : List UInt8
  deriving DecidableEq

/-- The text of a segment as it came in. -/
def Segment.text (s : Segment) : Text := ⟨s.flags, s.seq, s.data⟩

/-- `drop`. -/
def drop (p : Pcb) (list : PcbList) : InputResult := ⟨p, list, none, []⟩

/-- `dropafterack`. -/
def dropAfterAck (p : Pcb) (t : Text) : InputResult :=
  if t.flags.rst then drop p .active else ⟨{ p with acknow := true }.sched, .active, none, []⟩

/-- The flags of a reset. -/
def rstFlags (ack : Bool) : ThFlags := ⟨false, false, true, false, ack, false⟩

/-- `dropwithreset`. -/
def dropWithReset (p : Pcb) (list : PcbList) (t : Text) (ack : Seq) : InputResult :=
  if t.flags.rst then drop p list
  else if t.flags.ack then ⟨p, list, some ⟨0, ack, rstFlags false⟩, []⟩
  else
    let len := if t.flags.syn then t.data.length + 1 else t.data.length
    ⟨p, list, some ⟨t.seq + BitVec.ofNat 32 len, 0, rstFlags true⟩, []⟩

/-- `close`. -/
def close (p : Pcb) : InputResult := drop { p.discard with tState := .closed } .closed

/-- `close_and_reset`. -/
def closeAndReset (p : Pcb) (s : Segment) : InputResult :=
  dropWithReset { p.discard with tState := .closed } .closed s.text s.ack

/-- The response to an active open. -/
def inputSynSent (p : Pcb) (s : Segment) : Except InputResult Pcb :=
  if s.flags.rst then .error (close p)
  else if !s.flags.syn || !s.flags.ack || s.data ≠ [] then .error (closeAndReset p s)
  else
    let p := { p with sndSeq := p.sndSeq + 1 }
    if p.sndSeq ≠ s.ack then .error (closeAndReset p s)
    else
      let p := { p with sndOff := p.sndOff - 1, sndMax := p.sndMax - 1 }
      let p := if s.opt = [] then p else p.tcpParseOptions s
      .ok { p with
        rcvNxt := s.seq + 1
        sndWnd := s.win
        tState := .established
        acknow := true }

/-- The receive window: the space left in the receive queue. -/
def Pcb.rcvWnd (p : Pcb) : Nat := tcpMaxrcv - p.rcvQ.length

/-- A SYN in front of the window is taken off. -/
def trimSyn (t : Text) : Text :=
  if t.flags.syn then { t with flags := { t.flags with syn := false }, seq := t.seq + 1 } else t

/-- Drop the first `todrop` bytes; a segment that is all old is dropped with its FIN. -/
def trimBytes (p : Pcb) (t : Text) (todrop : Int) : Pcb × Text :=
  if todrop > t.data.length ∨ (todrop = t.data.length ∧ !t.flags.fin) then
    ({ p with acknow := true },
      { flags := { t.flags with fin := false }
        seq := t.seq + BitVec.ofNat 32 t.data.length
        data := [] })
  else (p, { t with seq := t.seq + BitVec.ofInt 32 todrop, data := t.data.drop todrop.toNat })

/-- Drop what lies before `rcv_nxt`. -/
def trimHead (p : Pcb) (t : Text) : Pcb × Text :=
  let todrop := (p.rcvNxt - t.seq).toInt
  if todrop > 0 then trimBytes p (trimSyn t) (if t.flags.syn then todrop - 1 else todrop)
  else (p, t)

/-- Drop what lies after the window. -/
def trimTail (p : Pcb) (t : Text) : Except InputResult (Pcb × Text) :=
  let wnd := p.rcvWnd
  let todrop :=
    ((t.seq + BitVec.ofNat 32 t.data.length) - (p.rcvNxt + BitVec.ofNat 32 wnd)).toInt
  let cut : Text :=
    { t with
      flags := { t.flags with psh := false, fin := false }
      data := t.data.take (t.data.length - todrop).toNat }
  if todrop > 0 then
    if todrop ≥ t.data.length then
      if wnd = 0 ∧ t.seq = p.rcvNxt then .ok ({ p with acknow := true }, cut)
      else .error (dropAfterAck p t)
    else .ok (p, cut)
  else .ok (p, t)

/-- A reset segment, by state. -/
def inputReset (p : Pcb) : InputResult :=
  match p.tState with
  | .finWait1 | .finWait2 | .closing | .lastAck | .timeWait => drop p.discard .free
  | _ => close p

/-- From the trimming of the segment to the test of the ACK bit. -/
def checkSegment (p : Pcb) (s : Segment) : Except InputResult (Pcb × Text) := do
  let (p, t) := trimHead p s.text
  if p.tState.num > TcpState.finWait1.num ∧ t.data ≠ [] then
    .error (dropWithReset p .active t s.ack)
  else
    let (p, t) ← trimTail p t
    if t.flags.rst then .error (inputReset p)
    else if t.flags.syn then .error (dropWithReset p .active t s.ack)
    else if !t.flags.ack then .error (drop p .active)
    else return (p, t)

/-- The SYN of `SYN_RCVD` is taken as acknowledged. -/
def ackSyn (p : Pcb) (t : Text) (ack : Seq) : Except InputResult Pcb :=
  if p.tState = .synRcvd then
    if seqGt p.sndSeq ack ∨ seqGt ack p.sndLast then .error (dropWithReset p .active t ack)
    else .ok { p with
      tState := .established
      sndOff := p.sndOff - 1
      sndMax := p.sndMax - 1 }
  else .ok p

/-- The fields that a new ACK writes: queue, timer and sequence numbers. -/
def ackAdvance (p : Pcb) (nxt max ack : Seq) (acked : Int) : Pcb :=
  let nxt := if seqLt nxt ack then ack else nxt
  { p with
    rxmtTmr := if ack = max then 0 else tcpRxmtintvl.getD (p.count / 2) 0
    count := if ack = max then 0 else p.count
    sndQ := if acked > p.sndQ.length then [] else p.sndQ.drop acked.toNat
    sndSeq := ack
    sndOff := (nxt - ack).setWidth 16
    sndMax := (max - ack).setWidth 16 }

/-- The change of state when the FIN is acknowledged. -/
def ackState (p : Pcb) (t : Text) (ourfinisacked : Bool) : Except InputResult Pcb :=
  match p.tState with
  | .finWait1 =>
    .ok (if ourfinisacked then { p with connTmr := 4 * tcpMsl, tState := .finWait2 } else p)
  | .closing =>
    .ok (if ourfinisacked then
      { p.discard with tState := .timeWait, rxmtTmr := 0, connTmr := 2 * tcpMsl } else p)
  | .lastAck => if ourfinisacked then .error (drop p.discard .free) else .ok p
  | .timeWait => .error (dropAfterAck { p with connTmr := 2 * tcpMsl } t)
  | _ => .ok p

/-- ACK processing; the second result is `needoutput`. -/
def inputAck (p : Pcb) (t : Text) (ack : Seq) : Except InputResult (Pcb × Bool) := do
  let una := p.sndSeq
  let nxt := p.sndNxt
  let max := p.sndLast
  let p ← ackSyn p t ack
  if seqLeq ack una then return (p, false)
  else if seqGt ack max then .error (dropAfterAck p t)
  else
    let acked := (ack - una).toInt
    let ourfinisacked := decide (acked > p.sndQ.length)
    let p ← ackState (ackAdvance p nxt max ack acked) t ourfinisacked
    return (p, decide (ack = max))

/-- `step6`: the send window only grows. -/
def step6 (p : Pcb) (ack : Bool) (tiwin : BitVec 16) (needoutput : Bool) : Pcb × Bool :=
  if ack ∧ tiwin > p.sndWnd then ({ p with sndWnd := tiwin }, true) else (p, needoutput)

/-- The segment text. The last result is whether the FIN flag is still set. -/
def inputData (p : Pcb) (t : Text) (avail : Nat) : Pcb × List UInt8 × Bool :=
  if (t.data ≠ [] ∨ t.flags.fin) ∧ !p.tState.haveRcvdFin then
    if t.seq = p.rcvNxt ∧ p.tState = .established then
      let stored := t.data.take (min t.data.length avail)
      ({ p with
        delack := true
        rcvQ := p.rcvQ ++ stored
        rcvNxt := p.rcvNxt + BitVec.ofNat 32 stored.length }, stored, t.flags.fin)
    else ({ p with acknow := true }, [], t.flags.fin)
  else (p, [], false)

/-- The state switch of FIN processing. -/
def finSwitch (p : Pcb) : Pcb :=
  match p.tState with
  | .synRcvd | .established => { p with tState := .closeWait }
  | .finWait1 => { p with tState := .closing }
  | .finWait2 =>
    { p.discard with tState := .timeWait, rxmtTmr := 0, connTmr := 2 * tcpMsl }
  | .timeWait => { p with connTmr := 2 * tcpMsl }
  | _ => p

/-- FIN processing. -/
def inputFin (p : Pcb) : Pcb :=
  finSwitch <|
    if p.tState.haveRcvdFin then p else { p with acknow := true, rcvNxt := p.rcvNxt + 1 }

/-- From `step6` to the end. -/
def inputEnd (p : Pcb) (t : Text) (tiwin : BitVec 16) (needoutput : Bool) (avail : Nat) :
    InputResult :=
  let (p, needoutput) := step6 p t.flags.ack tiwin needoutput
  let (p, stored, fin) := inputData p t avail
  let p := if fin then inputFin p else p
  let p := if needoutput || p.acknow then p.sched else p
  ⟨p, .active, none, stored⟩

/-- The result of a stage that may end the call. -/
def finish : Except InputResult InputResult → InputResult
  | .ok r => r
  | .error r => r

/-- Slow path input processing. -/
def slowPath (p : Pcb) (s : Segment) (avail : Nat) : InputResult :=
  finish <|
    if p.tState = .synSent then do
      let p ← inputSynSent p s
      return inputEnd p { s.text with seq := s.seq + 1 } s.win false avail
    else do
      let (p, t) ← checkSegment p s
      let (p, needoutput) ← inputAck p t s.ack
      return inputEnd p t s.win needoutput avail

/-- The test in front of header prediction. -/
def predictable (p : Pcb) (s : Segment) : Bool :=
  p.tState = .established && !s.flags.syn && !s.flags.fin && !s.flags.rst && !s.flags.urg &&
    s.flags.ack && s.seq = p.rcvNxt && s.win ≠ 0 && s.win = p.sndWnd &&
    p.sndNxt = p.sndLast

/-- Header prediction of a pure ACK for outstanding data. -/
def fastAck (p : Pcb) (ack : Seq) : Pcb :=
  let max := p.sndLast
  { p with
    sndQ := p.sndQ.drop (ack - p.sndSeq).toInt.toNat
    sndSeq := ack
    sndOff := (p.sndNxt - ack).setWidth 16
    sndMax := (max - ack).setWidth 16
    rxmtTmr := if ack = max then 0
      else if p.rxmtTmr = 0 then tcpRxmtintvl.getD (p.count / 2) 0 else p.rxmtTmr
    count := if ack = max then 0 else p.count }

/-- Header prediction of data in sequence, of which `stored` found buffers. -/
def fastData (p : Pcb) (stored : List UInt8) : Pcb :=
  { p with
    rcvQ := p.rcvQ ++ stored
    rcvNxt := p.rcvNxt + BitVec.ofNat 32 stored.length }

/-- Header prediction, where one of its two cases applies. -/
def fastPath (p : Pcb) (s : Segment) (avail : Nat) : Option InputResult :=
  if predictable p s then
    if s.data = [] then
      if seqGt s.ack p.sndSeq ∧ seqLeq s.ack p.sndLast then
        let q := fastAck p s.ack
        some ⟨if q.sndQ ≠ [] then q.sched else q, .active, none, []⟩
      else none
    else if s.ack = p.sndSeq ∧ (s.data.length : Int) ≤ (tcpMaxrcv : Int) - p.rcvQ.length then
      let stored := s.data.take (min s.data.length avail)
      let q := fastData p stored
      some ⟨if stored.length ≠ s.data.length then { q with acknow := true }.sched
        else { q with delack := true }, .active, none, stored⟩
    else none
  else none

/-- A segment resets the idle detection. -/
def Pcb.awake (p : Pcb) : Pcb := { p with connTmr := tcpIdleDetTmo, idle := false }

/-- `tcp_input` for a connection that the lookup found. -/
def tcpInput (p : Pcb) (s : Segment) (avail : Nat) : InputResult :=
  match fastPath p.awake s avail with
  | some r => r
  | none => slowPath p.awake s avail

end YardIce.Tcp
