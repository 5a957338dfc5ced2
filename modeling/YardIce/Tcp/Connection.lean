import YardIce.Lib.Runs
import YardIce.Tcp.Calls
import YardIce.Tcp.Output

/-!
# Runs of one connection

A connection starts with `tcp_passive_open` or `tcp_connect` and takes segments,
output passes, calls of the application and timer ticks in any order until its
control block leaves the active list.

## Implementation notes

Beside the control block a connection records its history: how far the send sequence
space is acknowledged, every byte that `tcp_send` took over from the application, every
byte appended to the receive queue, the last acceptable acknowledgement with its
window, and every segment handed to `ip_output`. The code does not read the history.
-/

namespace YardIce.Tcp

open YardIce.Lib

/-- The answer to an active open that establishes the connection. -/
def opens (p : Pcb) (s : Segment) : Bool :=
  p.tState = .synSent && !s.flags.rst && s.flags.syn && s.flags.ack && s.data = [] &&
    s.ack = p.sndSeq + 1

/-- The segment passes the checks in front of ACK processing. -/
def accepts (p : Pcb) (s : Segment) : Bool :=
  match checkSegment p.awake s with
  | .ok _ => true
  | .error _ => false

/-- The segment passes ACK processing too, so that its window and its text are looked at. -/
def reaches (p : Pcb) (s : Segment) : Bool :=
  match checkSegment p.awake s with
  | .ok (q, t) =>
    match inputAck q t s.ack with
    | .ok _ => true
    | .error _ => false
  | .error _ => false

/-- An acknowledgement of something sent and not acknowledged, or of nothing new. -/
def acceptableAck (p : Pcb) (s : Segment) : Bool :=
  if p.tState = .synSent then opens p s
  else accepts p s && (s.ack - p.sndSeq).toNat ≤ p.sndMax.toNat

/-- A connection with its history. `una` counts the sequence numbers acknowledged since
the initial one, `offer` is the last acceptable acknowledgement with its window. -/
structure Conn where
  pcb : Pcb
  list : PcbList
  iss : Seq
  una : Nat
  queued : List UInt8
  rcvd : List UInt8
  offer : Option (Seq × BitVec 16)
  out : List OutSeg

/-- What can happen to a connection. -/
inductive Action
  | input (s : Segment) (avail : Nat)
  | output (es : List OutEnv)
  | send (src : List UInt8) (len : Nat) (nowait : Bool) (offs avail : Nat)
  | recv (len : Nat)
  | close
  | rxmtTmr
  | fastTmr

/-- The bytes that a call of `tcp_send` took over from the application. -/
def takenBytes (src : List UInt8) : Progress → List UInt8
  | .done => src
  | .wait rest => src.take (src.length - rest.length)
  | .failed => []

/-- A step of a connection in the active list. -/
def Conn.next (c : Conn) : Action → Conn
  | .input s avail =>
    let r := tcpInput c.pcb s avail
    { c with
      pcb := r.pcb
      list := r.list
      una := c.una + (r.pcb.sndSeq - c.pcb.sndSeq).toNat
      rcvd := c.rcvd ++ r.stored
      offer := if acceptableAck c.pcb s then some (s.ack, s.win) else c.offer }
  | .output es =>
    let (p, segs) := tcpOutput c.pcb es
    { c with pcb := { p with needoutput := false }, out := c.out ++ segs }
  | .send src len nowait offs avail =>
    let (p, r) := tcpSend c.pcb src len nowait offs avail
    { c with pcb := p, queued := c.queued ++ takenBytes src r }
  | .recv len => { c with pcb := tcpRecv c.pcb len }
  | .close =>
    let (p, list) := tcpClose c.pcb
    { c with pcb := p, list := list }
  | .rxmtTmr => { c with pcb := tcpRxmtTmr c.pcb }
  | .fastTmr => { c with pcb := tcpFastTmr c.pcb }

/-- A connection steps while its control block is in the active list. -/
def Conn.step (c : Conn) (a : Action) : Option Conn :=
  if c.list = .active then some (c.next a) else none

/-- A connection that has just been opened with the control block `p`. -/
def Conn.start (p : Pcb) : Conn where
  pcb := p
  list := .active
  iss := p.sndSeq
  una := 0
  queued := []
  rcvd := []
  offer := none
  out := []

/-- The control blocks with which a connection starts. -/
inductive Opened : Pcb → Prop
  | passive (src dst : BitVec 32 × BitVec 16) (route : Option Ifnet) (iss : BitVec 32)
      (s : Segment) : Opened (tcpPassiveOpen src dst route iss s)
  | active (laddr faddr : BitVec 32 × BitVec 16) (route : Option Ifnet) (iss : BitVec 32) :
      Opened (tcpConnect laddr faddr route iss)

section Sample

theorem nil_lt : ([] : List UInt8).length < 65536 := by decide

/-- A SYN with the sequence number 100. -/
def sampleSyn : Segment where
  flags := ⟨false, true, false, false, false, false⟩
  seq := 100
  ack := 0
  win := 1000
  opt := []
  data := []
  data_lt := nil_lt

/-- A segment with an acknowledgement and no options. -/
def sampleSegment (fin : Bool) (seq ack : Seq) (win : BitVec 16) (data : List UInt8)
    (h : data.length < 65536) : Segment where
  flags := ⟨fin, false, false, false, true, false⟩
  seq := seq
  ack := ack
  win := win
  opt := []
  data := data
  data_lt := h

/-- A network that takes every segment of up to 1460 bytes. -/
def openNet : OutEnv := ⟨some ⟨1500, by decide, by decide⟩, true, true⟩

/-- The connection that a listener opens for `sampleSyn`; its SYN is number `0x100000`. -/
def sampleStart : Conn := Conn.start (tcpPassiveOpen (1, 2) (3, 4) none 0 sampleSyn)

end Sample

end YardIce.Tcp
