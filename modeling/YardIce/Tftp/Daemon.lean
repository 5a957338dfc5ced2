import YardIce.Tftp.Request
import Mathlib.Data.BitVec

/-!
# The TFTP server

`tftp_daemon_task` of `tftp.c` with the functions it calls. The task has two places at
which it waits for a datagram: the outer loop takes a request and connects to its
sender, the inner loop serves that sender until the state is `TFTPD_IDLE` or no datagram
comes in time.

## Implementation notes

A step of the task runs from one reception to the next. The steps give the calls of
`udp_sendto` and `target_mem_write` in their order. `target_mem_read`,
`target_mem_write`, `exec` and `target_strerror` are parameters; what the results of
`udp_connect` and `udp_sendto` are during a step is part of the datagram that starts it.
Only datagrams that the socket delivers to the task appear, so that the peer's address is
left out. What `exec` does to the text of its line is left out. A step in which the code
reads or writes past the message buffer has no value.
-/

namespace YardIce.Tftp

open IceDrv (Word)

/-! ## The message buffer -/

/-- `MAX_TFTP_MSG`. -/
def maxTftpMsg : Nat := maxTftpSegsize + 4

/-- The message buffer `buf` of the task. -/
structure Buf where
  bytes : List Byte
  length_eq : bytes.length = maxTftpMsg

/-- Bytes are stored from a position on; none is stored past the end. -/
def Buf.store (buf : Buf) (pos : Nat) (bs : List Byte) : Buf where
  bytes := (buf.bytes.take pos ++ (bs ++ buf.bytes.drop (pos + bs.length))).take maxTftpMsg
  length_eq := by
    have h := buf.length_eq
    simp only [List.length_take, List.length_append, List.length_drop]
    omega

/-- A number in network order. -/
def be16 (n : Nat) : List Byte := [BitVec.ofNat 8 (n / 256), BitVec.ofNat 8 n]

/-- The number in network order at a position. -/
def Buf.field (buf : Buf) (pos : Nat) : Nat :=
  (buf.bytes.getD pos 0).toNat * 256 + (buf.bytes.getD (pos + 1) 0).toNat

/-- The bytes from `th_stuff` on. -/
def Buf.stuff (buf : Buf) : List Byte := buf.bytes.drop 2

/-- The bytes from `th_data` on. -/
def Buf.data (buf : Buf) : List Byte := buf.bytes.drop 4

/-! ## The packets sent -/

def opcRrq : Nat := 1
def opcWrq : Nat := 2
def opcData : Nat := 3
def opcAck : Nat := 4
def opcError : Nat := 5
def opcOack : Nat := 6

/-- The error codes in use. -/
inductive ErrCode
  | eundef
  | enotfound
  | eaccess

def ErrCode.num : ErrCode → Nat
  | eundef => 0
  | enotfound => 1
  | eaccess => 2

/-- What a step does to the network and to the target: a call of `udp_sendto` with its
packet, and a call of `target_mem_write` with its address and bytes. -/
inductive Action
  | sendto (pkt : List Byte)
  | memWrite (addr : Word) (data : List Byte)
  deriving DecidableEq

/-- The packet of `tftp_error`, with at most `TFTP_ERR_MSG_MAX` bytes of text. -/
def tftpError (code : ErrCode) (msg : List Byte) : Action :=
  .sendto (be16 opcError ++ be16 code.num ++ msg.take 63 ++ [0])

/-- The packet of `tftp_ack`. -/
def tftpAck (block : Nat) : Action := .sendto (be16 opcAck ++ be16 block)

/-- `tftp_oack`, which takes at most `TFTP_OACK_OPT_MAX` bytes. -/
def tftpOack (opt : List Byte) : List Action :=
  if 64 < opt.length then [] else [.sendto (be16 opcOack ++ opt)]

/-- `tftp_err[TFTP_EUNDEF]`. -/
def eundefText : List Byte := text "EUNDEF"

/-- `hextab`. -/
def hextab (d : Byte) : Byte := if d < 10 then 0x30 + d else 0x57 + d

/-- The conversion `%08x`. -/
def hex8 (w : Word) : List Byte :=
  (List.range 8).map fun i => hextab ((w >>> (4 * (7 - i))).setWidth 8 &&& 0xf)

/-! ## The server -/

/-- The values of `state`. -/
inductive State
  | idle
  | recvNetascii
  | recvOctet
  | sendNetascii
  | sendOctet
  | recvError
  deriving DecidableEq

/-- The variables of the task. `connected` says at which of its two places it waits. -/
structure Server (σ : Type) where
  buf : Buf
  req : Req
  dbg : Debugger σ
  state : State
  addrStart : Word
  addrEnd : Word
  block : Nat
  blksize : Nat
  connected : Bool

/-- The functions of the debugger. A read gives its value and the bytes it stored. -/
structure Target (σ : Type) where
  memRead : Word → Int → σ → Int × List Byte × σ
  memWrite : Word → List Byte → Int → σ → Int × σ
  exec : List Byte → Debugger σ → Int × Debugger σ
  strerror : Int → List Byte

variable {σ : Type}

/-- The server as the task starts; the buffer and the request are not initialised. -/
def Server.init (buf : Buf) (req : Req) (dbg : Debugger σ) : Server σ where
  buf := buf
  req := req
  dbg := dbg
  state := .idle
  addrStart := 0
  addrEnd := 0
  block := 0
  blksize := tftpSegsize
  connected := false

/-- The target after an access. -/
def Server.setTarget (s : Server σ) (target : σ) : Server σ :=
  { s with dbg := { s.dbg with target := target } }

/-! ## Data sent to the client -/

/-- `send_data`: the packet of `len` bytes in the buffer, with the value of `udp_sendto`. -/
def sendData (sent : Int) (len : Int) (s : Server σ) : Server σ × List Action :=
  let buf := s.buf.store 0 (be16 opcData ++ be16 (s.block + 1))
  let state := if sent < 0 then .idle else s.state
  ({ s with buf := buf, state := state }, [.sendto (buf.bytes.take (4 + len.toNat))])

/-- `send_octet`. -/
def sendOctet (t : Target σ) (sent : Int) (s : Server σ) : Server σ × List Action :=
  let addr := s.addrStart + BitVec.ofNat 32 (s.block * s.blksize)
  let rem := (s.addrEnd - addr).toInt
  if rem < 0 then ({ s with state := .idle }, [])
  else
    let n := if rem < s.blksize then rem else s.blksize
    let (len, bytes, target) := t.memRead addr n s.dbg.target
    let s := { s.setTarget target with buf := s.buf.store 4 (bytes.take n.toNat) }
    sendData sent (if len < 0 then 0 else len) s

/-- The loop of `tftp_hex` at `i`, with the number of bytes left: the byte at `256 + i` of
the data becomes the two digits at `2 * i`. -/
def hexLoop : Nat → Nat → Buf → Buf
  | 0, _, buf => buf
  | left + 1, i, buf =>
      let hi := hextab ((buf.data.getD (256 + i) 0 >>> 4) &&& 0xf)
      let buf := buf.store (4 + 2 * i) [hi]
      let lo := hextab (buf.data.getD (256 + i) 0 &&& 0xf)
      hexLoop left (i + 1) (buf.store (4 + (2 * i + 1)) [lo])

/-- `tftp_hex`: the value returned, and the server with the buffer. -/
def tftpHex (t : Target σ) (addr : Word) (size : Int) (s : Server σ) : Int × Server σ :=
  let (n, bytes, target) := t.memRead addr size s.dbg.target
  let n := if n < 0 then 0 else n
  let buf := s.buf.store (4 + 256) (bytes.take size.toNat)
  (n * 2, { s.setTarget target with buf := hexLoop n.toNat 0 buf })

/-- `send_netascii`. -/
def sendNetascii (t : Target σ) (sent : Int) (s : Server σ) : Server σ × List Action :=
  let addr := s.addrStart + BitVec.ofNat 32 (s.block * 256)
  let rem := (s.addrEnd - addr).toInt
  if rem < 0 then ({ s with state := .idle }, [])
  else
    let n := if rem < 256 then rem else 256
    let (len, s) := tftpHex t addr n s
    sendData sent len s

/-! ## Requests -/

/-- What a read and a write request begin with: whether the name was accepted, and the
server with the range of the transfer. -/
def startTransfer (s : Server σ) : Option (Bool × Server σ) := do
  let (_, req) ← tftpReqParse s.buf.stuff s.req
  let (ret, dbg, fname) ← tftpDecodeFname s.dbg s.buf.stuff
  let s := { s with req := req, blksize := req.blksize, dbg := dbg, buf := s.buf.store 2 fname }
  if ret < 0 then return (false, s)
  let addrEnd := dbg.transf.base + dbg.transf.size
  return (true, { s with addrStart := dbg.transf.base, addrEnd := addrEnd, block := 0 })

/-- `BAD ADDR.` -/
def badAddr : Action := tftpError .enotfound (text "BAD ADDR.")

/-- `TFTP_RRQ`. -/
def readRequest (t : Target σ) (sent : Int) (s : Server σ) :
    Option (Server σ × List Action) := do
  let (accepted, s) ← startTransfer s
  if !accepted then return (s, [badAddr])
  match s.req.mode with
  | .unset => return (s, [tftpError .eundef eundefText])
  | .netascii =>
      let s := { s with state := .sendNetascii }
      if s.req.opt ≠ [] then return (s, tftpOack s.req.opt)
      return sendNetascii t sent s
  | .octet =>
      let s := { s with state := .sendOctet }
      if s.req.opt ≠ [] then return (s, tftpOack s.req.opt)
      return sendOctet t sent s

/-- The answer to a write request. -/
def acceptWrite (state : State) (s : Server σ) : Server σ × List Action :=
  ({ s with state := state },
    if s.req.opt ≠ [] then tftpOack s.req.opt else [tftpAck s.block])

/-- `TFTP_WRQ`. -/
def writeRequest (s : Server σ) : Option (Server σ × List Action) := do
  let (accepted, s) ← startTransfer s
  if !accepted then return (s, [badAddr])
  match s.req.mode with
  | .unset => return (s, [tftpError .eundef eundefText])
  | .netascii => return acceptWrite .recvNetascii s
  | .octet => return acceptWrite .recvOctet s

/-- `TFTP_ACK`. -/
def ackPacket (t : Target σ) (sent : Int) (s : Server σ) : Server σ × List Action :=
  let s := { s with block := s.buf.field 2 }
  match s.state with
  | .sendNetascii => sendNetascii t sent s
  | .sendOctet => sendOctet t sent s
  | _ => (s, [])

/-! ## Data from the client -/

/-- The texts of a failed write of `len` bytes whose value is `n`. -/
def writeFailText (addr : Word) (n : Int) : List Byte :=
  if n < 0 then
    text "TARGET WRITE FAIL: " ++ hex8 addr
  else
    text "TARGET SHORT WRITE: " ++ hex8 (addr + BitVec.ofInt 32 n)

/-- A block of data in the state `TFTPD_RECV_OCTET`. A full block is acknowledged before
it is written, the last one after it. -/
def recvOctet (t : Target σ) (len : Int) (s : Server σ) : Server σ × List Action :=
  let addr := s.addrStart + BitVec.ofNat 32 (s.block * s.blksize)
  let s := { s with block := s.block + 1 }
  if len ≠ s.blksize ∧ len = 0 then ({ s with state := .idle }, [tftpAck s.block])
  else
    let early := if len ≠ s.blksize then [] else [tftpAck s.block]
    let s := { s with state := if len ≠ s.blksize then .idle else s.state }
    let data := s.buf.data.take len.toNat
    let (n, target) := t.memWrite addr data len s.dbg.target
    let s := s.setTarget target
    if n < len then
      let msg := writeFailText addr n
      ({ s with state := .recvError, buf := s.buf.store 0 (msg ++ [0]) },
        early ++ [.memWrite addr data, tftpError .eundef msg])
    else
      (s, early ++ .memWrite addr data :: if s.state = .idle then [tftpAck s.block] else [])

/-- The search of `tftp_recv_netascii` for the end of a line, from position `i` of the
data, with the number of bytes left: the position of the next line. -/
def lineEnd : Nat → Nat → Buf → Option (Nat × Buf)
  | 0, i, buf => some (i, buf)
  | left + 1, i, buf => do
      let c ← buf.data[i]?
      if c = 0x0d ∨ c = 0x0a then
        let buf := buf.store (4 + i) [0]
        let d ← buf.data[i + 1]?
        return (if d = (if c = 0x0d then 0x0a else 0x0d) then i + 2 else i + 1, buf)
      else lineEnd left (i + 1) buf

/-- The loop of `tftp_recv_netascii` over the lines, with a bound on their number: the
value of the last command, the number of the line, the debugger and the buffer. -/
def lineLoop (t : Target σ) (len : Nat) :
    Nat → Nat → Nat → Debugger σ → Buf → Option (Int × Nat × Debugger σ × Buf)
  | 0, _, n, dbg, buf => some (0, n, dbg, buf)
  | fuel + 1, i, n, dbg, buf =>
      if i < len then do
        let (next, buf) ← lineEnd (len - i) i buf
        -- the zero after the last line has to lie in the buffer
        if next = len ∧ maxTftpMsg ≤ 4 + len then none
        let buf := if next = len then buf.store (4 + len) [0] else buf
        let (line, _) ← cstring (buf.data.drop i)
        let (ret, dbg) := t.exec line dbg
        if ret < 0 then return (ret, n, dbg, buf)
        lineLoop t len fuel next (n + 1) dbg buf
      else some (0, n, dbg, buf)

/-- `tftp_recv_netascii`. -/
def tftpRecvNetascii (t : Target σ) (len : Int) (s : Server σ) :
    Option (Server σ × List Action) := do
  let (ret, n, dbg, buf) ← lineLoop t len.toNat len.toNat 0 1 s.dbg s.buf
  if ret < 0 then
    let msg := text "ERROR " ++ decimal ret.natAbs ++ text " on line " ++
      decimal n ++ text ": " ++ t.strerror ret
    return ({ s with dbg := dbg, buf := buf.store 4 (msg ++ [0]) }, [tftpError .eaccess msg])
  return ({ s with dbg := dbg, buf := buf }, [tftpAck s.block])

/-- A block of data in the state `TFTPD_RECV_NETASCII`. -/
def recvNetascii (t : Target σ) (len : Int) (s : Server σ) : Option (Server σ × List Action) :=
  let s := { s with block := s.block + 1 }
  let s := { s with state := if len ≠ s.blksize then .idle else s.state }
  if len ≠ s.blksize ∧ len = 0 then some (s, [tftpAck s.block])
  else tftpRecvNetascii t len s

/-- `TFTP_DATA`, with the length of the datagram. -/
def dataPacket (t : Target σ) (len : Int) (s : Server σ) : Option (Server σ × List Action) :=
  let len := len - 4
  -- retransmission, just ack
  if s.buf.field 2 ≠ s.block + 1 then some (s, [tftpAck s.block])
  else
    match s.state with
    | .recvOctet => some (recvOctet t len s)
    | .recvError => some ({ s with state := .idle }, [])
    | .recvNetascii => recvNetascii t len s
    | _ => some (s, [tftpError .eundef eundefText])

/-! ## The task -/

/-- A datagram and the values of `udp_connect` and `udp_sendto` while it is handled. -/
structure Datagram where
  bytes : List Byte
  connect : Int
  sent : Int

/-- What a reception ends with: a datagram, or a negative value. -/
inductive Event
  | datagram (d : Datagram)
  | failed

/-- The `switch` of the inner loop on the operation code. -/
def dispatch (t : Target σ) (d : Datagram) (len : Int) (s : Server σ) :
    Option (Server σ × List Action) :=
  let opc := s.buf.field 0
  if opc = opcRrq then readRequest t d.sent s
  else if opc = opcWrq then writeRequest s
  else if opc = opcAck then some (ackPacket t d.sent s)
  else if opc = opcData then dataPacket t len s
  else some (s, [])

/-- The body of the inner loop: it is left in the state `TFTPD_IDLE`. -/
def serve (t : Target σ) (d : Datagram) (len : Int) (s : Server σ) :
    Option (Server σ × List Action) :=
  (dispatch t d len s).map fun r => ({ r.1 with connected := r.1.state ≠ .idle }, r.2)

/-- `udp_recv` into the message buffer, which takes at most `MAX_TFTP_MSG` bytes. -/
def Server.load (s : Server σ) (d : Datagram) : Server σ :=
  { s with buf := s.buf.store 0 (d.bytes.take maxTftpMsg) }

/-- `tftp_daemon_task` from one reception to the next. -/
def tftpDaemonTask (t : Target σ) (s : Server σ) : Event → Option (Server σ × List Action)
  | .failed => some ({ s with connected := false }, [])
  | .datagram d =>
      let len := (d.bytes.take maxTftpMsg).length
      let s := s.load d
      if s.connected then serve t d len s
      else if s.buf.field 0 ≠ opcRrq ∧ s.buf.field 0 ≠ opcWrq then some (s, [])
      else if d.connect < 0 then some (s, [])
      else serve t d len s

end YardIce.Tftp
