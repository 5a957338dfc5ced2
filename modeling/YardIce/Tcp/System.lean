import YardIce.Lib.LinkedLists
import YardIce.Lib.Runs
import YardIce.Tcp.Connection

/-!
# The control blocks of the TCP system

The pool of control blocks, the four lists that they are in, the listeners with their
backlogs, and the calls that move blocks between the lists.

## Implementation notes

A listener and a connection lie over each other in one block; the model keeps the
fields of both, since no call reads the ones through the other. A block is a number
below `N`, the size of the pool. `N + 1` steps bound every walk along a list. A call
with a null pointer, and one that waits, has no next state.
-/

namespace YardIce.Tcp

open YardIce.Lib

/-- The lists of `struct tcp_system`. -/
inductive PcbHead
  | free
  | closed
  | listen
  | active
  deriving DecidableEq

/-- The fields of `struct tcp_listen_pcb` that a connection has not. -/
structure ListenPcb (N : Nat) where
  max : Nat
  head : Nat
  tail : Nat
  backlog : Nat → Option (Fin N)

/-- `struct tcp_system`. -/
structure TcpSystem (N : Nat) where
  heap : ListHeap PcbHead (Fin N)
  pcb : Fin N → Pcb
  mux : Fin N → ListenPcb N
  iss : BitVec 32

variable {N : Nat}

/-- The position after `n` in the ring of a listener. -/
def ListenPcb.after (m : ListenPcb N) (n : Nat) : Nat :=
  if n + 1 = m.max then 0 else n + 1

/-- `tcp_keepintvl`. -/
def tcpKeepintvl : List Nat := List.replicate 13 75

/-- `tcp_output_dequeue`, as far as it marks the block. -/
def Pcb.unsched (p : Pcb) : Pcb := { p with needoutput := false }

/-- The turn of a block in `tcp_idle_tmr`. -/
def Pcb.idleTmr (p : Pcb) : Pcb × PcbList :=
  if p.connTmr = 0 then (p, .active)
  else
    let p := { p with connTmr := p.connTmr - 1 }
    if p.connTmr ≠ 0 then (p, .active)
    else
      match p.tState with
      | .synSent | .synRcvd => ({ p.discard with tState := .closed }.sched, .closed)
      | .established =>
        if !p.idle then
          ({ p with idle := true, count := 0, connTmr := tcpKeepintvl.getD 0 0 }, .active)
        else
          let p := { p with count := (p.count + 1) % 256 }
          if p.count < 12 then ({ p with connTmr := tcpKeepintvl.getD p.count 0 }, .active)
          else ({ p.discard with tState := .closed }.sched, .closed)
      | .finWait2 => ({ p with rxmtTmr := 0, tState := .timeWait, connTmr := 2 * tcpMsl }, .active)
      | .timeWait => (p.unsched.discard, .free)
      | _ => (p, .active)

/-- The list of a block after a call. -/
def PcbList.head : PcbList → PcbHead
  | .active => .active
  | .closed => .closed
  | .free => .free

namespace TcpSystem

/-- The blocks on a list, in order. -/
def list (s : TcpSystem N) (h : PcbHead) : List (Fin N) := walk s.heap.next (N + 1) (.head h)

/-- Write a block. -/
def setPcb (s : TcpSystem N) (i : Fin N) (p : Pcb) : TcpSystem N :=
  { s with pcb := Function.update s.pcb i p }

/-- Write a listener. -/
def setMux (s : TcpSystem N) (i : Fin N) (m : ListenPcb N) : TcpSystem N :=
  { s with mux := Function.update s.mux i m }

/-- `pcb_insert`. -/
def pcbInsert (s : TcpSystem N) (h : PcbHead) (i : Fin N) : TcpSystem N :=
  { s with heap := s.heap.insertTail h i }

/-- `pcb_move`: a block that is not on the list it should leave stays where it is. -/
def pcbMove (s : TcpSystem N) (i : Fin N) (src dst : PcbHead) : TcpSystem N :=
  match seek s.heap.next i (N + 1) (.head src) with
  | none => s
  | some x => { s with heap := s.heap.unlinkAfter src x i }.pcbInsert dst i

/-- `pcb_remove_head`. -/
def pcbRemoveHead (s : TcpSystem N) (h : PcbHead) : Option (Fin N × TcpSystem N) :=
  (s.heap.next (.head h)).map fun i => (i, { s with heap := s.heap.unlinkAfter h (.head h) i })

/-- A block and a listener after `memset`. -/
def zeroPcb : Pcb where
  faddr := 0
  laddr := 0
  fport := 0
  lport := 0
  acknow := false
  delack := false
  sentfin := false
  idle := false
  needoutput := false
  tState := .closed
  count := 0
  rxmtTmr := 0
  connTmr := 0
  maxseg := 0
  route := none
  sndSeq := 0
  sndOff := 0
  sndMax := 0
  sndWnd := 0
  rcvAdvWnd := 0
  rcvNxt := 0
  rcvQ := []
  sndQ := []

@[inherit_doc zeroPcb]
def zeroMux (N : Nat) : ListenPcb N := ⟨0, 0, 0, fun _ => none⟩

/-- `tcp_pcb_new`. -/
def tcpPcbNew (s : TcpSystem N) (h : PcbHead) : Option (Fin N × TcpSystem N) :=
  (s.pcbRemoveHead .free).map fun (i, s) =>
    (i, ((s.pcbInsert h i).setPcb i zeroPcb).setMux i (zeroMux N))

/-- `tcp_alloc`. -/
def tcpAlloc (s : TcpSystem N) : TcpSystem N :=
  match s.tcpPcbNew .closed with
  | none => s
  | some (i, s) => s.setPcb i { s.pcb i with tState := .closed }

/-- The loop of `tcp_pcb_free` over a backlog. It starts at the head of the ring, and `tp`
is the block it freed last. -/
def freeBacklog (free : TcpSystem N → Fin N → Option (TcpSystem N)) (i : Fin N) :
    Nat → TcpSystem N → Fin N → Option (TcpSystem N × Fin N)
  | 0, _, _ => none
  | fuel + 1, s, tp =>
    if (s.mux i).head = (s.mux i).tail then some (s, tp)
    else
      match (s.mux i).backlog (s.mux i).head with
      | none => none
      | some tp =>
        match free (s.setMux i { s.mux i with head := (s.mux i).head + 1 }) tp with
        | none => none
        | some s =>
          freeBacklog free i fuel
            (if (s.mux i).head = (s.mux i).max then s.setMux i { s.mux i with head := 0 } else s) tp

/-- `tcp_pcb_free`; the first argument bounds the depth of the calls. A listener is moved
by way of the block that its backlog loop freed last. -/
def tcpPcbFree : Nat → TcpSystem N → Fin N → Option (TcpSystem N)
  | 0, _, _ => none
  | fuel + 1, s, i =>
    let s := s.setPcb i (s.pcb i).unsched
    match (s.pcb i).tState with
    | .listen =>
      (freeBacklog (tcpPcbFree fuel) i (fuel + 1) s i).map fun (s, tp) => s.pcbMove tp .listen .free
    | .closed => some (s.pcbMove i .closed .free)
    | _ => some ((s.setPcb i (s.pcb i).discard).pcbMove i .active .free)

/-- Depth and length that the calls of `tcp_pcb_free` do not exceed: the backlog holds at
most eleven blocks. -/
def freeFuel (N : Nat) : Nat := N + 12

/-- `pcb_lookup`. -/
def pcbLookup (s : TcpSystem N) (faddr : BitVec 32) (fport : BitVec 16) (laddr : BitVec 32)
    (lport : BitVec 16) (h : PcbHead) : Option (Fin N) :=
  (s.list h).find? fun i =>
    (s.pcb i).lport = lport ∧ (s.pcb i).laddr = laddr ∧ (s.pcb i).faddr = faddr ∧
      (s.pcb i).fport = fport

/-- The locals of `pcb_wildlookup`. -/
structure Wild (N : Nat) where
  found : Option (Fin N)
  matchwild : Nat
  wildcard : Nat

/-- A wildcard stands on one side only. -/
def countWild (mine asked : BitVec 32) (wildcard : Nat) : Nat :=
  if mine = 0 ↔ asked = 0 then wildcard else wildcard + 1

/-- The loop of `pcb_wildlookup`; `wildcard` is not reset between the blocks. -/
def wildLoop (s : TcpSystem N) (faddr : BitVec 32) (fport : BitVec 16) (laddr : BitVec 32)
    (lport : BitVec 16) : Wild N → List (Fin N) → Option (Fin N)
  | w, [] => w.found
  | w, i :: rest =>
    let p := s.pcb i
    if p.lport ≠ lport then wildLoop s faddr fport laddr lport w rest
    else if p.laddr ≠ 0 ∧ laddr ≠ 0 ∧ p.laddr ≠ laddr then
      wildLoop s faddr fport laddr lport w rest
    else
      let w := { w with wildcard := countWild p.laddr laddr w.wildcard }
      if p.faddr ≠ 0 ∧ faddr ≠ 0 ∧ (p.faddr ≠ faddr ∨ p.fport ≠ fport) then
        wildLoop s faddr fport laddr lport w rest
      else
        let w := { w with wildcard := countWild p.faddr faddr w.wildcard }
        if w.wildcard < w.matchwild then
          if w.wildcard = 0 then some i
          else wildLoop s faddr fport laddr lport
            { w with found := some i, matchwild := w.wildcard } rest
        else wildLoop s faddr fport laddr lport w rest

/-- `pcb_wildlookup`. -/
def pcbWildlookup (s : TcpSystem N) (faddr : BitVec 32) (fport : BitVec 16) (laddr : BitVec 32)
    (lport : BitVec 16) (h : PcbHead) : Option (Fin N) :=
  wildLoop s faddr fport laddr lport ⟨none, 3, 0⟩ (s.list h)

/-- `can_bind`. -/
def canBind (s : TcpSystem N) (addr : BitVec 32) (port : BitVec 16) : Bool :=
  (s.pcbLookup 0 0 addr port .listen).isNone && (s.pcbLookup 0 0 addr port .closed).isNone

/-- `tcp_bind` to a port, or to the ephemeral port that its loop finds. -/
def tcpBind (s : TcpSystem N) (i : Fin N) (addr : BitVec 32) (port : BitVec 16) : TcpSystem N :=
  if i ∈ s.list .closed ∧ s.canBind addr port then
    s.setPcb i { s.pcb i with lport := port, laddr := addr }
  else s

/-- `TCP_BACKLOG_MAX`. -/
def tcpBacklogMax : Nat := 11

/-- `tcp_listen`; `sem` is whether a semaphore can be allocated. The backlog is compared as
an unsigned word. -/
def tcpListen (s : TcpSystem N) (i : Fin N) (backlog : BitVec 32) (sem : Bool) : TcpSystem N :=
  let max := if backlog.toNat > tcpBacklogMax - 1 then tcpBacklogMax else backlog.toNat + 1
  if (s.pcbWildlookup 0 0 (s.pcb i).laddr (s.pcb i).lport .listen).isSome then s
  else
    match (s.pcb i).tState with
    | .closed =>
      if sem then
        ((s.setPcb i { s.pcb i with tState := .listen }).setMux i
          { s.mux i with max := max, tail := 0, head := 0 }).pcbMove i .closed .listen
      else s
    | .listen => s.pcbInsert .listen i
    | _ => s

/-- The addresses and ports of a datagram. -/
structure Endpoints where
  saddr : BitVec 32
  sport : BitVec 16
  daddr : BitVec 32
  dport : BitVec 16

/-- `tcp_passive_open` for the listener `mux`; `cond` is whether a condition variable can
be allocated. -/
def tcpPassiveOpen (s : TcpSystem N) (mux : Fin N) (e : Endpoints) (route : Option Ifnet)
    (cond : Bool) (seg : Segment) : TcpSystem N :=
  let m := s.mux mux
  if m.tail = m.after m.head then s
  else if !cond then s
  else
    match s.tcpPcbNew .active with
    | none => s
    | some (i, s) =>
      let p := Tcp.tcpPassiveOpen (e.saddr, e.sport) (e.daddr, e.dport) route s.iss seg
      { s.setPcb i p.sched with iss := s.iss + 1 }.setMux mux
        { s.mux mux with
          backlog := Function.update (s.mux mux).backlog m.head (some i)
          head := m.after m.head }

/-- `tcp_input`: the lookups and the lists, around the processing of a connection. -/
def tcpInput (s : TcpSystem N) (e : Endpoints) (route : Option Ifnet) (cond : Bool)
    (seg : Segment) (avail : Nat) : TcpSystem N :=
  match s.pcbLookup e.saddr e.sport e.daddr e.dport .active with
  | some i =>
    let r := Tcp.tcpInput (s.pcb i) seg avail
    let s := s.setPcb i r.pcb
    match r.list with
    | .active => s
    | .closed => s.pcbMove i .active .closed
    | .free => s.pcbMove i .active .free
  | none =>
    match s.pcbWildlookup e.saddr e.sport e.daddr e.dport .listen with
    | none => s
    | some mux =>
      if seg.flags.ack || seg.data ≠ [] || !seg.flags.syn || seg.flags.rst then s
      else s.tcpPassiveOpen mux e route cond seg

/-- `tcp_accept`: the caller waits while the backlog is empty. -/
def tcpAccept (s : TcpSystem N) (i : Fin N) : Option (TcpSystem N) :=
  let m := s.mux i
  if (s.pcb i).tState ≠ .listen then some s
  else if m.head = m.tail then none
  else some (s.setMux i { m with tail := m.after m.tail })

/-- `tcp_close`. -/
def tcpClose (s : TcpSystem N) (i : Fin N) : Option (TcpSystem N) :=
  match (s.pcb i).tState with
  | .listen | .timeWait | .closed | .synSent => tcpPcbFree (freeFuel N) s i
  | _ => some (s.setPcb i (Tcp.tcpClose (s.pcb i)).1)

/-- `tcp_idle_tmr` from the link word `x` on. The walk goes on through the link of the
block, also when the block has moved to another list. -/
def tcpIdleTmr : Nat → TcpSystem N → Link PcbHead (Fin N) → TcpSystem N
  | 0, s, _ => s
  | fuel + 1, s, x =>
    match s.heap.next x with
    | none => s
    | some i =>
      let (p, list) := (s.pcb i).idleTmr
      let s := s.setPcb i p
      tcpIdleTmr fuel (if list = .active then s else s.pcbMove i .active list.head) (.node i)

/-- `tcp_init`; the blocks hold what the memory holds. -/
def tcpInit (N : Nat) (pcb : Fin N → Pcb) (iss : BitVec 32) : TcpSystem N where
  heap :=
    { next := linkAll (fun _ => none) (.head .free) (List.finRange N)
      last := fun h =>
        match h with
        | .free => lastLink (.head .free) (List.finRange N)
        | h => .head h }
  pcb := pcb
  mux := fun _ => zeroMux N
  iss := iss

/-- The calls on the TCP system. `call` stands for the calls and timers that work on one
connection and do not move its block. -/
inductive Call (N : Nat)
  | alloc
  | bind (i : Fin N) (addr : BitVec 32) (port : BitVec 16)
  | listen (i : Fin N) (backlog : BitVec 32) (sem : Bool)
  | input (e : Endpoints) (route : Option Ifnet) (cond : Bool) (seg : Segment) (avail : Nat)
  | accept (i : Fin N)
  | close (i : Fin N)
  | idleTmr
  | call (i : Fin N) (a : Action)

/-- A call on the block of a connection. -/
def callPcb (p : Pcb) : Action → Pcb
  | .output es => (tcpOutput p es).1.unsched
  | .send src len nowait offs avail => (tcpSend p src len nowait offs avail).1
  | .recv len => tcpRecv p len
  | .rxmtTmr => tcpRxmtTmr p
  | .fastTmr => tcpFastTmr p
  | .input _ _ | .close => p

/-- A call of the application names a block that has been handed out. -/
def ifOut (s : TcpSystem N) (i : Fin N) (r : Option (TcpSystem N)) : Option (TcpSystem N) :=
  if i ∈ s.list .free then none else r

/-- A step of the system. -/
def step (s : TcpSystem N) : Call N → Option (TcpSystem N)
  | .alloc => some s.tcpAlloc
  | .bind i addr port => s.ifOut i (some (s.tcpBind i addr port))
  | .listen i backlog sem => s.ifOut i (some (s.tcpListen i backlog sem))
  | .input e route cond seg avail => some (s.tcpInput e route cond seg avail)
  | .accept i => s.ifOut i (s.tcpAccept i)
  | .close i => s.ifOut i (s.tcpClose i)
  | .idleTmr => some (tcpIdleTmr (N + 1) s (.head .active))
  | .call i a => s.ifOut i (some (s.setPcb i (callPcb (s.pcb i) a)))

end TcpSystem

end YardIce.Tcp
