import Mathlib.Data.List.Basic

/-!
# TCP control blocks and segments

The data of `libtcpip/tcp` that one connection works on: the control block, the
fields of a received segment and the constants of `tcp.c` and `tcp_tmr.c`.

## Implementation notes

Sequence numbers are 32-bit words, the offsets and the send window of a control
block 16-bit words. The other small fields are natural numbers. A queue is the list
of its bytes. The flag bits of `t_flags` and `th_flags` that the code reads are
fields of their own.
-/

namespace YardIce.Tcp

/-- `tcp_seq`. -/
abbrev Seq := BitVec 32

/-- `SEQ_LT`. -/
def seqLt (a b : Seq) : Prop := (a - b).toInt < 0

/-- `SEQ_LEQ`. -/
def seqLeq (a b : Seq) : Prop := (a - b).toInt ≤ 0

/-- `SEQ_GT`. -/
def seqGt (a b : Seq) : Prop := (a - b).toInt > 0

instance (a b : Seq) : Decidable (seqLt a b) := inferInstanceAs (Decidable ((a - b).toInt < 0))

instance (a b : Seq) : Decidable (seqLeq a b) := inferInstanceAs (Decidable ((a - b).toInt ≤ 0))

instance (a b : Seq) : Decidable (seqGt a b) := inferInstanceAs (Decidable ((a - b).toInt > 0))

/-- The states of a connection, in the order of their numbers. -/
inductive TcpState
  | closed
  | listen
  | synSent
  | synRcvd
  | established
  | closeWait
  | finWait1
  | closing
  | lastAck
  | finWait2
  | timeWait
  deriving DecidableEq, Repr

/-- `TCPS_CLOSED` to `TCPS_TIME_WAIT`. -/
def TcpState.num : TcpState → Nat
  | .closed => 0
  | .listen => 1
  | .synSent => 2
  | .synRcvd => 3
  | .established => 4
  | .closeWait => 5
  | .finWait1 => 6
  | .closing => 7
  | .lastAck => 8
  | .finWait2 => 9
  | .timeWait => 10

/-- `TCPS_HAVERCVDFIN`. -/
def TcpState.haveRcvdFin (s : TcpState) : Bool := s.num ≥ TcpState.timeWait.num

/-- The flags of a TCP header that the code reads or sets. -/
structure ThFlags where
  fin : Bool
  syn : Bool
  rst : Bool
  psh : Bool
  ack : Bool
  urg : Bool
  deriving DecidableEq, Repr

/-- An interface; its datagrams have room for the two headers. -/
structure Ifnet where
  mtu : Nat
  hdr_le : 40 ≤ mtu
  mtu_lt : mtu < 65536
  deriving DecidableEq

/-- `struct tcp_pcb`. Addresses and ports are the words in memory, in network order. -/
structure Pcb where
  faddr : BitVec 32
  laddr : BitVec 32
  fport : BitVec 16
  lport : BitVec 16
  acknow : Bool
  delack : Bool
  sentfin : Bool
  idle : Bool
  needoutput : Bool
  tState : TcpState
  count : Nat
  rxmtTmr : Nat
  connTmr : Nat
  maxseg : Nat
  route : Option Ifnet
  sndSeq : Seq
  sndOff : BitVec 16
  sndMax : BitVec 16
  sndWnd : BitVec 16
  rcvAdvWnd : Nat
  rcvNxt : Seq
  rcvQ : List UInt8
  sndQ : List UInt8

/-- The fields that say where a connection stands: its state, its sequence numbers,
the send window and the queues. -/
@[ext]
structure Core where
  tState : TcpState
  sentfin : Bool
  sndSeq : Seq
  sndOff : BitVec 16
  sndMax : BitVec 16
  sndWnd : BitVec 16
  rcvNxt : Seq
  rcvQ : List UInt8
  sndQ : List UInt8

/-- Timers, pending acknowledgements and addresses are forgotten. -/
def Pcb.core (p : Pcb) : Core where
  tState := p.tState
  sentfin := p.sentfin
  sndSeq := p.sndSeq
  sndOff := p.sndOff
  sndMax := p.sndMax
  sndWnd := p.sndWnd
  rcvNxt := p.rcvNxt
  rcvQ := p.rcvQ
  sndQ := p.sndQ

/-- A received segment, with its options and text. -/
structure Segment where
  flags : ThFlags
  seq : Seq
  ack : Seq
  win : BitVec 16
  opt : List UInt8
  data : List UInt8
  data_lt : data.length < 65536
  deriving DecidableEq

/-- `tcp_maxrcv`. -/
def tcpMaxrcv : Nat := 2920

/-- `tcp_maxsnd`. -/
def tcpMaxsnd : Nat := 2920

/-- `tcp_maxwin`. -/
def tcpMaxwin : Nat := 2920

/-- `tcp_defmss`. -/
def tcpDefmss : Nat := 1460

/-- `tcp_maxmss`. -/
def tcpMaxmss : Nat := 2920

/-- `tcp_rxmtintvl`. -/
def tcpRxmtintvl : List Nat := [3, 6, 12, 24, 48, 96, 128, 128, 128, 128, 128, 128]

/-- `TCP_MAXRXMTS`. -/
def tcpMaxrxmts : Nat := 6

/-- `tcp_msl`. -/
def tcpMsl : Nat := 2

/-- `tcp_conn_est_tmo`. -/
def tcpConnEstTmo : Nat := 10

/-- `tcp_idle_det_tmo`. -/
def tcpIdleDetTmo : Nat := 60

/-- The local copy `snd_nxt` of the code. -/
def Pcb.sndNxt (p : Pcb) : Seq := p.sndSeq + p.sndOff.setWidth 32

/-- The local copy `snd_max` of the code. -/
def Pcb.sndLast (p : Pcb) : Seq := p.sndSeq + p.sndMax.setWidth 32

/-- `tcp_output_sched`, as far as it marks the block. -/
def Pcb.sched (p : Pcb) : Pcb := { p with needoutput := true }

/-- `mbuf_queue_free` on both queues. -/
def Pcb.discard (p : Pcb) : Pcb := { p with sndQ := [], rcvQ := [] }

/-- `tcp_parse_options` from an option on: `mem` is the memory that starts there and
`len` what is left of the options. The source moves on by the length byte even past
the end of the options; memory that is not known ends them. -/
def parseOptions (syn : Bool) : Nat → List UInt8 → Int → Nat → Nat
  | 0, _, _, maxseg => maxseg
  | _ + 1, [], _, maxseg => maxseg
  | fuel + 1, opt :: mem, len, maxseg =>
    if len = 0 then maxseg
    else if opt = 0 then maxseg
    else if opt = 1 then parseOptions syn fuel mem (len - 1) maxseg
    else
      let n := (mem.getD 0 0).toNat
      if n = 0 then maxseg
      else
        let val := (mem.getD 1 0).toNat * 256 + (mem.getD 2 0).toNat
        let maxseg := if opt = 2 ∧ n = 4 ∧ syn ∧ val < maxseg then val else maxseg
        parseOptions syn fuel ((opt :: mem).drop n) (len - n) maxseg

/-- `tcp_parse_options` on the options of a segment, which the text follows in memory. -/
def Pcb.tcpParseOptions (p : Pcb) (s : Segment) : Pcb :=
  let mem := s.opt ++ s.data
  { p with maxseg := parseOptions s.flags.syn (mem.length + 1) mem s.opt.length p.maxseg }

end YardIce.Tcp
