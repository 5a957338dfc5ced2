import YardIce.Tcp.Input

/-!
# Opening, sending, receiving, closing and the timers

The calls of the application on a connection and the parts of `tcp_fast_tmr` and
`tcp_rxmt_tmr` that look at one control block.

## Implementation notes

A call that waits on the condition variable returns here with the bytes that are
left; the wake-up goes back to `again`, that is, it is the same call with these
bytes. `avail` are the bytes for which `mbuf_queue_add` finds buffers.
-/

namespace YardIce.Tcp

/-- `tcp_passive_open`: the control block for a SYN that reached a listener. `src` and
`dst` are the addresses and ports of the datagram, `iss` the counter before the call. -/
def tcpPassiveOpen (src dst : BitVec 32 × BitVec 16) (route : Option Ifnet) (iss : BitVec 32)
    (s : Segment) : Pcb :=
  let maxseg := match route with
    | none => tcpDefmss
    | some rt => rt.mtu - 40
  let p : Pcb :=
    { faddr := src.1, laddr := dst.1, fport := src.2, lport := dst.2
      acknow := true, delack := false, sentfin := false, idle := false, needoutput := false
      tState := .synRcvd, count := 0, rxmtTmr := 0, connTmr := tcpConnEstTmo
      maxseg := min maxseg tcpMaxmss, route := route
      sndSeq := (iss + 1) <<< 20, sndOff := 0, sndMax := 0, sndWnd := s.win
      rcvAdvWnd := 0, rcvNxt := s.seq + 1, rcvQ := [], sndQ := [] }
  if s.opt = [] then p else p.tcpParseOptions s

/-- The control block that `tcp_connect` moves to the active list. The call does not
set `t_route`, which is null since `tcp_alloc`. -/
def tcpConnect (laddr faddr : BitVec 32 × BitVec 16) (route : Option Ifnet)
    (iss : BitVec 32) : Pcb :=
  let mss := match route with
    | none => tcpDefmss
    | some rt => rt.mtu - 40
  { faddr := faddr.1, laddr := laddr.1, fport := faddr.2, lport := laddr.2
    acknow := false, delack := false, sentfin := false, idle := false, needoutput := true
    tState := .synSent, count := 0, rxmtTmr := 0, connTmr := tcpConnEstTmo
    maxseg := min mss tcpMaxmss, route := none
    sndSeq := (iss + 1) <<< 20, sndOff := 0, sndMax := 0, sndWnd := 1
    rcvAdvWnd := 0, rcvNxt := 0, rcvQ := [], sndQ := [] }

/-- Where a call stands: it waits with the bytes that are left, it is done or it failed. -/
inductive Progress
  | wait (rest : List UInt8)
  | done
  | failed
  deriving DecidableEq

/-- The loop of `tcp_send`: append what the queue limit and the buffers allow. The
first argument bounds the turns, each of which appends at least one byte. -/
def sendLoop : Nat → Pcb → List UInt8 → Nat → Pcb × Progress
  | 0, p, src, _ => (p, .wait src)
  | fuel + 1, p, src, avail =>
    if src = [] then (p, .done)
    else if tcpMaxsnd ≤ p.sndQ.length then ({ p with acknow := true }.sched, .wait src)
    else
      let n := min (min (tcpMaxsnd - p.sndQ.length) src.length) avail
      if n = 0 then (p, .wait src)
      else sendLoop fuel { p with sndQ := p.sndQ ++ src.take n } (src.drop n) (avail - n)

/-- `tcp_send` from `again` on: `src` is what is left of the `len` bytes of the call,
`offs` the offset of the first byte in the first buffer of the queue. A state other
than `ESTABLISHED` makes the call wait or fail. -/
def tcpSend (p : Pcb) (src : List UInt8) (len : Nat) (nowait : Bool) (offs avail : Nat) :
    Pcb × Progress :=
  if p.tState ≠ .established then
    (p, if p.tState = .synRcvd then .wait src else .failed)
  else
    let (p, r) := sendLoop (src.length + 1) p src avail
    if r ≠ .done ∨ len = 0 then (p, r)
    else if nowait ∨ (p.sndQ.length : Int) - offs ≥ p.maxseg then (p.sched, r)
    else ({ p with delack := true }, r)

/-- `tcp_recv` of up to `len` bytes, where it does not wait. -/
def tcpRecv (p : Pcb) (len : Nat) : Pcb :=
  if len = 0 then p
  else
    match p.tState with
    | .closed | .timeWait | .closing | .lastAck => p
    | _ =>
      if p.rcvQ = [] then p
      else
        let p := { p with rcvQ := p.rcvQ.drop len }
        if p.tState = .finWait1 ∨ p.tState = .finWait2 then p
        else if p.rcvQ = [] then { p with acknow := p.acknow || p.delack }.sched
        else p

/-- `tcp_close` of a control block that is not listening. In `CLOSE_WAIT` the data is
discarded and the offsets are reduced by its length. -/
def tcpClose (p : Pcb) : Pcb × PcbList :=
  match p.tState with
  | .timeWait | .closed | .synSent => (p.discard, .free)
  | .synRcvd | .established =>
    ({ p with tState := .finWait1, acknow := true }.sched, .active)
  | .closeWait =>
    ({ p.discard with
        tState := .lastAck
        sndOff := p.sndOff - BitVec.ofNat 16 p.sndQ.length
        sndMax := p.sndMax - BitVec.ofNat 16 p.sndQ.length
        acknow := true }.sched, .active)
  | .listen | .finWait1 | .closing | .lastAck | .finWait2 => (p, .active)

/-- The turn of a control block in `tcp_fast_tmr`. -/
def tcpFastTmr (p : Pcb) : Pcb :=
  if p.delack then { p with delack := false, acknow := true }.sched else p

/-- The turn of a control block in `tcp_rxmt_tmr`. -/
def tcpRxmtTmr (p : Pcb) : Pcb :=
  if p.rxmtTmr = 0 then p
  else
    let p := { p with rxmtTmr := p.rxmtTmr - 1 }
    if p.rxmtTmr ≠ 0 then p
    else
      let p := { p with count := (p.count + 1) % 256 }
      if p.count > tcpMaxrxmts then p
      else
        { p with
          rxmtTmr := tcpRxmtintvl.getD p.count 0
          sndOff := 0
          sentfin := false }.sched

end YardIce.Tcp
