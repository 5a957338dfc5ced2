import YardIce.Tcp.Pcb
import Mathlib.Algebra.Group.Nat.Defs

/-!
# Segment output

`tcp_output`. One pass goes from the label `again` to the end of the function: it
computes what may be sent, looks for a reason to send, builds the segment and
updates the sequence numbers.

## Implementation notes

The locals `snd_nxt` and `snd_max` are 32-bit words that live on from pass to pass
while the fields of the control block are 16-bit offsets; `snd_una` never differs
from `snd_seq`. What the network answers in a pass is an argument: the route that a
lookup finds, whether the interface maps a frame and whether `ip_output` takes the
datagram. A list of such answers stands for the passes of a call; where the list
ends the call is caught between two passes.
-/

namespace YardIce.Tcp

/-- `tcp_outflags`. -/
def tcpOutflags : TcpState → ThFlags
  | .closed => ⟨false, false, true, false, true, false⟩
  | .listen => ⟨false, false, false, false, false, false⟩
  | .synSent => ⟨false, true, false, false, false, false⟩
  | .synRcvd => ⟨false, true, false, false, true, false⟩
  | .established | .closeWait | .finWait2 | .timeWait =>
    ⟨false, false, false, false, true, false⟩
  | .finWait1 | .closing | .lastAck => ⟨true, false, false, false, true, false⟩

/-- A segment as it is handed to `ip_output`. `len` is the length that the headers
announce, `data` what `mbuf_queue_get` copied. -/
structure OutSeg where
  saddr : BitVec 32
  daddr : BitVec 32
  sport : BitVec 16
  dport : BitVec 16
  seq : Seq
  ack : Seq
  flags : ThFlags
  win : Nat
  mss : Option Nat
  len : Nat
  data : List UInt8
  deriving DecidableEq

/-- What the network answers in one pass. -/
structure OutEnv where
  route : Option Ifnet
  mapped : Bool
  sent : Bool
  deriving DecidableEq

/-- The locals of a pass that decide what the segment holds. -/
structure Plan where
  off : Int
  nxt : Seq
  len : Nat
  sendalot : Bool
  flags : ThFlags

/-- What a pass leaves behind; `again` is the jump back to the start. -/
structure Pass where
  pcb : Pcb
  nxt : Seq
  max : Seq
  seg : Option OutSeg
  again : Bool

/-- The flags of the state; the FIN waits for the end of the queue. -/
def planFlags (p : Pcb) (nxt : Seq) (len : Nat) : ThFlags :=
  let flags := tcpOutflags p.tState
  if seqLt (nxt + BitVec.ofNat 32 len) (p.sndSeq + BitVec.ofNat 32 p.sndQ.length) then
    { flags with fin := false }
  else flags

/-- The length computation. With the window closed the retransmission is called off. -/
def outputPlan (p : Pcb) (nxt : Seq) : Pcb × Plan :=
  let off := (nxt - p.sndSeq).toInt
  let len : Int := (min p.sndQ.length p.sndWnd.toNat : Nat) - off
  if len < 0 then
    if p.sndWnd = 0 then
      ({ p with rxmtTmr := 0, sndOff := 0 }, ⟨off, p.sndSeq, 0, false, planFlags p p.sndSeq 0⟩)
    else (p, ⟨off, nxt, 0, false, planFlags p nxt 0⟩)
  else if len > p.maxseg then (p, ⟨off, nxt, p.maxseg, true, planFlags p nxt p.maxseg⟩)
  else (p, ⟨off, nxt, len.toNat, false, planFlags p nxt len.toNat⟩)

/-- Sender silly window avoidance, the window update and the flags. -/
def sendReason (p : Pcb) (idle : Bool) (max : Seq) (l : Plan) : Bool :=
  let win : Int := tcpMaxrcv - p.rcvQ.length
  let adv : Int := min win (tcpMaxwin - p.rcvAdvWnd)
  decide (l.len ≠ 0 ∧ (l.len = p.maxseg ∨ idle ∧ l.len + l.off ≥ p.sndQ.length ∨
      l.len ≥ p.sndWnd.toNat / 2 ∨ seqLt l.nxt max)) ||
    decide (win > 0 ∧ (adv ≥ 2 * p.maxseg ∨ 2 * adv ≥ tcpMaxrcv)) ||
    p.acknow || l.flags.syn || l.flags.rst ||
    l.flags.fin && (!p.sentfin || l.nxt = p.sndSeq)

/-- `tcp_mss` with a route. -/
def tcpMss (rt : Ifnet) : Nat := min (rt.mtu - 40) tcpMaxmss

/-- The length is cut to the interface and, with options, to the segment size. The
subtraction of the options is one of unsigned words. -/
def Plan.fit (l : Plan) (p : Pcb) (rt : Ifnet) : Plan :=
  let len := if 40 + l.len > rt.mtu then rt.mtu - 40 else l.len
  let room := (p.maxseg + 2 ^ 32 - if l.flags.syn then 4 else 0) % 2 ^ 32
  { l with len := min len room, sendalot := l.sendalot || len > room }

/-- A FIN that is sent again stays at its sequence number. -/
def Plan.back (l : Plan) (p : Pcb) (max : Seq) : Plan :=
  if l.flags.fin && p.sentfin && l.nxt = max then { l with nxt := l.nxt - 1 } else l

/-- The receive window that is advertised. -/
def outWin (p : Pcb) : Nat :=
  let win : Int := tcpMaxrcv - p.rcvQ.length
  let win := if win < tcpMaxrcv / 4 ∧ win < p.maxseg then 0 else win
  (min win tcpMaxwin).toNat

/-- The segment of a pass. -/
def outSegment (p : Pcb) (max : Seq) (rt : Ifnet) (l : Plan) : OutSeg where
  saddr := p.laddr
  daddr := p.faddr
  sport := p.lport
  dport := p.fport
  seq := if l.len ≠ 0 ∨ l.flags.syn ∨ l.flags.fin then l.nxt else max
  ack := p.rcvNxt
  flags := if l.len ≠ 0 ∧ l.off + l.len = p.sndQ.length then { l.flags with psh := true }
    else l.flags
  win := outWin p
  mss := if l.flags.syn then some (tcpMss rt) else none
  len := l.len
  data := (p.sndQ.drop l.off.toNat).take l.len

/-- The sequence number after the segment. -/
def Plan.after (l : Plan) : Seq :=
  l.nxt + (if l.flags.syn then 1 else 0) + (if l.flags.fin then 1 else 0) + BitVec.ofNat 32 l.len

/-- The sequence update: `nxt` and `max` are the locals after the segment. -/
def account (p : Pcb) (fin : Bool) (nxt max : Seq) : Pcb :=
  let start := p.rxmtTmr = 0 ∧ nxt ≠ p.sndSeq
  { p with
    sentfin := p.sentfin || fin
    rxmtTmr := if start then tcpRxmtintvl.getD 0 0 else p.rxmtTmr
    count := if start then 0 else p.count
    sndOff := (nxt - p.sndSeq).setWidth 16
    sndMax := (max - p.sndSeq).setWidth 16 }

/-- The control block after `ip_output` took the datagram. -/
def Pcb.advertised (p : Pcb) : Pcb :=
  { p with
    rcvAdvWnd := if outWin p > 0 ∧ outWin p > p.rcvAdvWnd then outWin p else p.rcvAdvWnd
    acknow := false
    delack := false }

/-- From the mapped frame to the end of the pass. -/
def transmit (p : Pcb) (max : Seq) (rt : Ifnet) (sent : Bool) (l : Plan) : Pass :=
  let l := (l.fit p rt).back p max
  let nxt := l.after
  let seg := outSegment p max rt l
  let max := if seqGt nxt max then nxt else max
  let q := account p l.flags.fin nxt max
  if sent then ⟨q.advertised, nxt, max, some seg, l.sendalot⟩ else ⟨q, nxt, max, some seg, false⟩

/-- One pass of `tcp_output` from `again` on. -/
def outputPass (idle : Bool) (p : Pcb) (nxt max : Seq) (e : OutEnv) : Pass :=
  let (p, l) := outputPlan p nxt
  if sendReason p idle max l then
    match p.route <|> e.route with
    | none => ⟨p, l.nxt, max, none, false⟩
    | some rt =>
      let p := { p with route := some rt }
      if e.mapped then transmit p max rt e.sent l else ⟨p, l.nxt, max, none, false⟩
  else ⟨p, l.nxt, max, none, false⟩

/-- The passes of a call, with the segments that they build. -/
def outputLoop (idle : Bool) : List OutEnv → Pcb → Seq → Seq → Pcb × List OutSeg
  | [], p, _, _ => (p, [])
  | e :: es, p, nxt, max =>
    let r := outputPass idle p nxt max e
    if r.again then
      let (p, segs) := outputLoop idle es r.pcb r.nxt r.max
      (p, r.seg.toList ++ segs)
    else (r.pcb, r.seg.toList)

/-- `tcp_output`. -/
def tcpOutput (p : Pcb) (es : List OutEnv) : Pcb × List OutSeg :=
  outputLoop (p.sndLast = p.sndSeq) es p p.sndNxt p.sndLast

end YardIce.Tcp
