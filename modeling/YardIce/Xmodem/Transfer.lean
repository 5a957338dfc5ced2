import Mathlib.Data.BitVec
import Mathlib.Data.List.Basic

/-!
# XMODEM transfers

`xmodem_snd_loop` and `xmodem_snd_eot` on one end of a serial link and `xmodem_rcv_loop` on the
other. A step is a call, a packet or a control byte that is sent, a byte that is received, or a
timeout.

## Implementation notes

`down` holds what was sent to the receiver and is not read yet, with a gap where the rest of a
packet is missing; `up` holds the control bytes on their way to the sender. The link takes all
that is sent, so `send` does not fail and `recv` returns a byte or times out. A timeout of the
sender ends its call: the test for another try compares with the `ETIMEDOUT` of `errno.h`, which
is 110, and a timeout is `THINKOS_ETIMEDOUT`, which is -1. After a call that failed, and after the
end of the transmission, no more calls are made.
-/

namespace YardIce.Xmodem

abbrev Byte := BitVec 8

/-- `SOH` -/
def soh : Byte := 0x01
/-- `STX` -/
def stx : Byte := 0x02
/-- `EOT` -/
def eot : Byte := 0x04
/-- `ACK` -/
def ack : Byte := 0x06
/-- `NAK` -/
def nak : Byte := 0x15
/-- `CAN` -/
def can : Byte := 0x18
/-- `'C'` -/
def charC : Byte := 0x43

/-! ## Check sequences -/

/-- `CRC16CCITT` -/
def crc16ccitt (crc : BitVec 16) (c : Byte) : BitVec 16 :=
  let crc := (crc >>> 8) ||| ((crc &&& 0xff) <<< 8)
  let crc := crc ^^^ c.setWidth 16
  let crc := crc ^^^ ((crc &&& 0xff) >>> 4)
  let crc := crc ^^^ ((crc &&& 0x0f) <<< 12)
  crc ^^^ ((crc &&& 0xff) <<< 5)

/-- The CRC of the data of a packet. -/
def crcOf (data : List Byte) : BitVec 16 := data.foldl crc16ccitt 0

/-- The checksum of the data of a packet. -/
def cksOf (data : List Byte) : Byte := data.foldl (· + ·) 0

/-- `fcs`, with `fcs_len` bytes -/
def fcs (crc : Bool) (data : List Byte) : List Byte :=
  if crc then [(crcOf data >>> 8).setWidth 8, (crcOf data).setWidth 8] else [cksOf data]

/-- The number of bytes of the check sequence. -/
def fcsLen (crc : Bool) : Nat := if crc then 2 else 1

/-- The bytes of a packet. -/
def frame (crc : Bool) (seq : Byte) (data : List Byte) : List Byte :=
  (if data.length = 1024 then stx else soh) :: seq :: ~~~seq :: (data ++ fcs crc data)

/-- Whether the receiver finds an error in the data; `cp` is what follows the sequence numbers. -/
def fcsError (crc : Bool) (cnt : Nat) (cp : List Byte) : Bool :=
  if crc then
    (cp.getD cnt 0).setWidth 16 <<< 8 ||| (cp.getD (cnt + 1) 0).setWidth 16 ≠ crcOf (cp.take cnt)
  else cp.getD cnt 0 ≠ cksOf (cp.take cnt)

/-! ## The sender -/

inductive SndState where
  | idle
  | crc
  | cks
  deriving DecidableEq

/-- Where a call goes on behind a packet: with the rest of `data` in `xmodem_snd_loop`, or with
what is not yet sent of the buffer in `xmodem_snd_eot`. -/
inductive Rest where
  | loop (src : List Byte)
  | eot (data : List Byte) (dataMax : Nat)

/-- The place in the sender's program. -/
inductive SndPc where
  | ready
  | opening (data : List Byte) (rest : Rest)
  | sending (pkt : List Byte) (retry : Nat) (rest : Rest)
  | awaiting (pkt : List Byte) (retry : Nat) (rest : Rest)
  | closing
  | closed
  | failed

/-- `struct xmodem_snd`; `data` holds the first `data_len` bytes of `pkt.data`. -/
structure Sender where
  oneK : Bool
  state : SndState
  seq : Byte
  data : List Byte
  pc : SndPc

namespace Sender

/-- `data_max` -/
def dataMax (s : Sender) : Nat := if s.oneK then 1024 else 128

/-- `xmodem_send_pkt`, up to the first `recv` or `send` -/
def sendPkt (s : Sender) (data : List Byte) (rest : Rest) : Sender :=
  if s.state = .idle then { s with pc := .opening data rest }
  else { s with pc := .sending (frame (s.state = .crc) s.seq data) 0 rest }

/-- A turn of the loop of `xmodem_snd_loop`; without a packet it is the last one. -/
def loopTurn (s : Sender) (src : List Byte) : Sender :=
  let n := min src.length (s.dataMax - s.data.length)
  let data := s.data ++ src.take n
  if data.length = s.dataMax then { s with data := data }.sendPkt data (.loop (src.drop n))
  else { s with data := data, pc := .ready }

/-- A turn of the loop of `xmodem_snd_eot` -/
def eotTurn (s : Sender) (data : List Byte) (dataMax : Nat) : Sender :=
  if data.length > 0 then
    let len := min data.length dataMax
    s.sendPkt (data.take len ++ List.replicate (dataMax - len) 0) (.eot (data.drop len) dataMax)
  else { s with pc := .closing }

/-- `xmodem_snd_eot`, up to the first packet -/
def eotCall (s : Sender) : Sender :=
  s.eotTurn s.data (if s.data.length ≤ 1024 - 128 then 128 else s.dataMax)

/-- The packet is acknowledged. -/
def acked (s : Sender) : Rest → Sender
  | .loop src =>
      let s := { s with seq := s.seq + 1, data := [] }
      if src = [] then { s with pc := .ready } else s.loopTurn src
  | .eot data dataMax => { s with seq := s.seq + 1 }.eotTurn data dataMax

/-- The fields that `xmodem_snd_eot` leaves. -/
def reset (s : Sender) : Sender := { s with state := .idle, seq := 1, data := [], pc := .closed }

end Sender

/-! ## The receiver -/

/-- The place in the receiver's program; `len` is the room of the caller's buffer. -/
inductive RcvPc where
  | idle
  | answering (len : Nat)
  | waiting (len : Nat)
  | packet (len cnt : Nat) (body : List Byte)
  | flushing (len : Nat)
  | ended (ret : Int)

/-- `struct xmodem_rcv`; `data` holds the bytes of `pkt.data` from `data_pos` to `data_len`. -/
structure Receiver where
  crc : Bool
  sync : Byte
  pktno : Byte
  retry : Byte
  data : List Byte
  pc : RcvPc

/-- What `xmodem_rcv_pkt` makes of a packet. -/
inductive Verdict where
  | error
  | again
  | good
  deriving DecidableEq

namespace Receiver

/-- The checks of a packet; `body` is what follows its first byte. -/
def check (r : Receiver) (cnt : Nat) (body : List Byte) : Verdict :=
  let seq := body.getD 0 0
  if seq ≠ ~~~body.getD 1 0 then .error
  else if fcsError r.crc cnt (body.drop 2) then .error
  else if seq = r.pktno - 1 then .again
  else if seq ≠ r.pktno then .error
  else .good

end Receiver

/-! ## Both ends and the link -/

/-- A byte, or a silence in which a byte of the packet is missing. -/
inductive Sig where
  | byte (b : Byte)
  | gap
  deriving DecidableEq

/-- The two ends and the link. `whole` tells how the packet sent last arrived; `given` and
`delivered` are what went through the calls of the two ends. -/
structure Sys where
  snd : Sender
  rcv : Receiver
  down : List Sig
  up : List Byte
  whole : Bool
  given : List Byte
  delivered : List Byte

/-- `xmodem_snd_init` and `xmodem_rcv_init` -/
def start (oneK crc : Bool) : Sys where
  snd := ⟨oneK, .idle, 1, [], .ready⟩
  rcv := ⟨crc, if crc then charC else nak, 1, 30, [], .idle⟩
  down := []
  up := []
  whole := true
  given := []
  delivered := []

/-- What may happen to a packet. -/
inductive Fault where
  | none
  | short (n : Nat)
  | garbled (cp : List Byte)
  deriving DecidableEq

/-- What arrives of a packet. A garbled one has other data or another check sequence, and the
check sequence tells. -/
def Fault.arrive (crc : Bool) (pkt : List Byte) : Fault → Option (List Sig)
  | .none => some (pkt.map .byte)
  | .short n =>
      if 0 < n ∧ n < pkt.length then some ((pkt.take n).map .byte ++ [.gap]) else Option.none
  | .garbled cp =>
      if cp.length + 3 = pkt.length ∧ fcsError crc (cp.length - fcsLen crc) cp then
        some ((pkt.take 3 ++ cp).map .byte)
      else Option.none

inductive Act where
  | sndLoop (src : List Byte)
  | sndEot
  | sndPkt (f : Fault)
  | sndRecv
  | sndTimeout
  | sendEot (arrives : Bool)
  | rcvLoop (len : Nat)
  | sendSync (arrives : Bool)
  | rcvByte (arrives : Bool)
  | rcvTimeout (cans : Nat)

namespace Sys

variable (s : Sys)

/-- The sender is given up; the errors that flush the line also take what is on its way. -/
def sndFail (up : List Byte) : Sys := { s with snd := { s.snd with pc := .failed }, up := up }

/-- The byte that the sender waits for. -/
def sndRecv (c : Byte) (up : List Byte) : Option Sys :=
  match s.snd.pc with
  | .opening data rest =>
      if c = can then some (s.sndFail up)
      else if c = charC then
        some { s with snd := { s.snd with state := .crc }.sendPkt data rest, up := up }
      else if c = nak then
        some { s with snd := { s.snd with state := .cks }.sendPkt data rest, up := up }
      else some { s with up := up }
  | .awaiting pkt retry rest =>
      if c = ack then some { s with snd := s.snd.acked rest, up := up }
      else if c = can then some (s.sndFail [])
      else if c ≠ nak then some (s.sndFail [])
      else if retry + 1 = 10 then some (s.sndFail [])
      else
        -- the answer was read into the first byte of the packet
        some { s with
          snd := { s.snd with pc := .sending (c :: pkt.tail) (retry + 1) rest }, up := up }
  | _ => none

/-- The label `timeout` of `xmodem_rcv_pkt`; `cans` of the three `CAN` arrive. -/
def rcvRetry (len cans : Nat) : Sys :=
  let retry := s.rcv.retry - 1
  if retry = 0 then
    { s with rcv := { s.rcv with retry := retry, pc := .ended (-1) },
             up := s.up ++ List.replicate (min cans 3) can }
  else { s with rcv := { s.rcv with retry := retry, pc := .answering len } }

/-- A packet is complete. -/
def rcvPacket (len cnt : Nat) (body : List Byte) : Sys :=
  match s.rcv.check cnt body with
  | .error => { s with rcv := { s.rcv with pc := .flushing len } }
  | .again => { s with rcv := { s.rcv with sync := ack, pc := .answering len } }
  | .good =>
      -- `xmodem_rcv_loop` goes on with what `xmodem_rcv_pkt` returned
      let data := (body.drop 2).take cnt
      { s with
        rcv := { s.rcv with
          pktno := s.rcv.pktno + 1, retry := 10, sync := ack, data := data.drop len, pc := .idle }
        delivered := s.delivered ++ data.take len }

/-- The receiver reads a byte; `arrives` is for the answer to `EOT`. -/
def rcvByte (arrives : Bool) (b : Byte) : Option Sys :=
  match s.rcv.pc with
  | .waiting len =>
      if b = stx then some { s with rcv := { s.rcv with pc := .packet len 1024 [] } }
      else if b = soh then some { s with rcv := { s.rcv with pc := .packet len 128 [] } }
      else if b = eot then
        some { s with
          rcv := { s.rcv with pc := .ended 0 }, up := s.up ++ if arrives then [ack] else [] }
      else some s
  | .packet len cnt body =>
      let body := body ++ [b]
      if body.length = cnt + 2 + fcsLen s.rcv.crc then some (s.rcvPacket len cnt body)
      else some { s with rcv := { s.rcv with pc := .packet len cnt body } }
  | .flushing _ => some s
  | _ => none

/-- What is behind a silence; a byte there is read before the time is over. -/
def silence : List Sig → Option (List Sig)
  | [] => some []
  | .gap :: down => some down
  | .byte _ :: _ => none

/-- `recv` of the receiver returns `THINKOS_ETIMEDOUT`. -/
def rcvTimeout (cans : Nat) : Option Sys :=
  match s.rcv.pc with
  -- what was sent may come only after the time for the first byte
  | .waiting len => some ({ s with down := (silence s.down).getD s.down }.rcvRetry len cans)
  | .packet len _ _ => (silence s.down).map fun down => { s with down := down }.rcvRetry len cans
  | .flushing len =>
      (silence s.down).map fun down =>
        { s with down := down, rcv := { s.rcv with sync := nak } }.rcvRetry len cans
  | _ => none

/-- `xmodem_rcv_loop` -/
def rcvLoop (len : Nat) : Sys :=
  if s.rcv.data ≠ [] then
    { s with
      rcv := { s.rcv with data := s.rcv.data.drop len }
      delivered := s.delivered ++ s.rcv.data.take len }
  else { s with rcv := { s.rcv with pc := .answering len } }

def step (s : Sys) : Act → Option Sys
  | .sndLoop src =>
      match s.snd.pc with
      | .ready => some { s with snd := s.snd.loopTurn src, given := s.given ++ src }
      | _ => none
  | .sndEot =>
      match s.snd.pc with
      | .ready => some { s with snd := s.snd.eotCall }
      | _ => none
  | .sndPkt f =>
      match s.snd.pc with
      | .sending pkt retry rest =>
          (f.arrive s.rcv.crc pkt).map fun sigs =>
            { s with
              snd := { s.snd with pc := .awaiting pkt retry rest }
              down := s.down ++ sigs
              whole := f = .none }
      | _ => none
  | .sndRecv =>
      match s.up with
      | [] => none
      | c :: up => s.sndRecv c up
  | .sndTimeout =>
      match s.snd.pc with
      | .opening _ _ => some (s.sndFail s.up)
      | .awaiting _ _ _ => some (s.sndFail s.up)
      | _ => none
  | .sendEot arrives =>
      match s.snd.pc with
      | .closing =>
          some { s with snd := s.snd.reset, down := s.down ++ if arrives then [.byte eot] else [] }
      | _ => none
  | .rcvLoop len =>
      match s.rcv.pc with
      | .idle => if 0 < len then some (s.rcvLoop len) else none
      | _ => none
  | .sendSync arrives =>
      match s.rcv.pc with
      | .answering len =>
          some { s with
            rcv := { s.rcv with pc := .waiting len }
            up := s.up ++ if arrives then [s.rcv.sync] else [] }
      | _ => none
  | .rcvByte arrives =>
      match s.down with
      | .byte b :: down => { s with down := down }.rcvByte arrives b
      | _ => none
  | .rcvTimeout cans => s.rcvTimeout cans

end Sys

end YardIce.Xmodem
