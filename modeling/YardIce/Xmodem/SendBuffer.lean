import YardIce.Lib.Windows
import YardIce.Xmodem.Agreement

/-!
# The packet buffer of the XMODEM sender

The sender as it works on the bytes of `pkt` in `struct xmodem_snd`. The header of a packet is built
in the three bytes before its data, which are the last bytes of the packet before when
`xmodem_snd_eot` sends what is left in short packets. The answer of the peer is read into the first
byte of the header.

## Implementation notes

`pkt` is indexed from the first byte of `hdr`, so that `pkt.data` begins at 3. `recv` returns a
byte, nothing or an error, which may be a timeout; a timeout does not lead to another try, since
the code compares with the positive `ETIMEDOUT`. After a call that failed the next one may be made.
-/

namespace YardIce.Xmodem

open YardIce.Lib

/-! ## Blocks -/

/-- The size of the next packet, with `rem` bytes left. -/
def blockSize (oneK : Bool) (rem : Nat) : Nat :=
  if oneK = true ∧ 1024 - 128 < rem then 1024 else 128

/-- Where a block begins in the data of a transmission. -/
def blockStart (oneK : Bool) (len : Nat) : Nat → Nat
  | 0 => 0
  | k + 1 => blockStart oneK len k + blockSize oneK (len - blockStart oneK len k)

/-- A block of the padded data, counted from 0. -/
def block (oneK : Bool) (given : List Byte) (k : Nat) : List Byte :=
  ((padded given).drop (blockStart oneK given.length k)).take
    (blockSize oneK (given.length - blockStart oneK given.length k))

/-! ## The program -/

/-- Who called `xmodem_send_pkt`: `xmodem_snd_loop`, with what it has not copied yet, or
`xmodem_snd_eot` with its `data_len` and `len`. -/
inductive Caller where
  | loop (src : List Byte)
  | eot (dataLen len : Nat)

/-- The arguments of `xmodem_send_pkt`; `data` is an offset into `pkt.data`. -/
structure Packet where
  data : Nat
  len : Nat
  caller : Caller

/-- The place in the program. -/
inductive BufPc where
  | ready
  | opening (p : Packet)
  | sending (p : Packet) (fcs : List Byte) (retry : Nat)
  | answer (p : Packet) (fcs : List Byte) (retry : Nat)
  | flushing (p : Packet)
  | closing

/-- `struct xmodem_snd` and three fields for the statements: the bytes stored since the transmission
began, the number of its packets that are done, and whether the buffer and the count have gone
apart from them. -/
structure XmodemSnd where
  oneK : Bool
  seq : Byte
  state : SndState
  dataLen : Nat
  pkt : Nat → Byte
  pc : BufPc
  given : List Byte
  done : Nat
  spoiled : Bool

/-- What `recv` returns when it is asked for a byte. -/
inductive Answer where
  | byte (c : Byte)
  | nothing
  | error

/-- What is in the buffer behind an answer. -/
def Answer.into (buf : Nat → Byte) (i : Nat) : Answer → Nat → Byte
  | .byte c => store buf i [c]
  | .nothing => buf
  | .error => buf

namespace XmodemSnd

variable (s : XmodemSnd)

/-- `data_max` -/
def dataMax : Nat := if s.oneK then 1024 else 128

/-- The header and the check sequence of a packet. -/
def build (p : Packet) : XmodemSnd :=
  let pkt := store s.pkt p.data [if p.len = 1024 then stx else soh, s.seq, ~~~s.seq]
  { s with
    pkt := pkt
    pc := .sending p (fcs (s.state = .crc) (window pkt (3 + p.data) p.len)) 0 }

/-- `xmodem_send_pkt`, up to the first `recv` or `send` -/
def sendPkt (p : Packet) : XmodemSnd :=
  if s.state = .idle then { s with pc := .opening p } else s.build p

/-- `xmodem_snd_loop` has copied bytes into the buffer. -/
def copied (bytes : List Byte) : XmodemSnd :=
  { s with
    pkt := store s.pkt (3 + s.dataLen) bytes
    dataLen := s.dataLen + bytes.length
    given := s.given ++ bytes }

/-- A turn of the loop of `xmodem_snd_loop`; without a packet it is the last one. -/
def loopTurn (src : List Byte) : XmodemSnd :=
  let n := min src.length (s.dataMax - s.dataLen)
  let s := s.copied (src.take n)
  if s.dataLen = s.dataMax then s.sendPkt ⟨0, s.dataLen, .loop (src.drop n)⟩
  else { s with pc := .ready }

/-- The padding of the packet at `data` -/
def pad (data len dataMax : Nat) : XmodemSnd :=
  { s with pkt := store s.pkt (3 + data + len) (List.replicate (dataMax - len) 0) }

/-- A turn of the loop of `xmodem_snd_eot` -/
def eotTurn (data dataLen dataMax : Nat) : XmodemSnd :=
  if 0 < dataLen then
    let len := min dataLen dataMax
    (s.pad data len dataMax).sendPkt ⟨data, dataMax, .eot dataLen len⟩
  else { s with pc := .closing }

/-- `xmodem_snd_eot`, up to the first packet -/
def eotCall : XmodemSnd :=
  s.eotTurn 0 s.dataLen (if s.dataLen ≤ 1024 - 128 then 128 else s.dataMax)

/-- `xmodem_send_pkt` returns 0. -/
def proceed (p : Packet) : XmodemSnd :=
  let s := { s with done := s.done + 1 }
  match p.caller with
  | .loop src =>
      let s := { s with dataLen := 0 }
      if src = [] then { s with pc := .ready } else s.loopTurn src
  | .eot dataLen len => s.eotTurn (p.data + len) (dataLen - len) p.len

/-- The call returns an error; behind its first packet `xmodem_snd_eot` leaves `data_len`. -/
def fail (p : Packet) : XmodemSnd :=
  { s with pc := .ready, spoiled := s.spoiled || p.data != 0 }

/-- The byte that the sender waits for. -/
def recv (a : Answer) : Option XmodemSnd :=
  match s.pc, a with
  | .opening p, .error => some (s.fail p)
  | .opening p, a =>
      let s := { s with pkt := a.into s.pkt p.data }
      let c := s.pkt p.data
      if c = can then some (s.fail p)
      else if c = charC then some ({ s with state := .crc }.build p)
      else if c = nak then some ({ s with state := .cks }.build p)
      else some s
  | .answer p _ _, .error => some (s.fail p)
  | .answer p _ _, .nothing =>
      -- no error, but the packet number stays
      some ({ s with spoiled := true }.proceed p)
  | .answer p fcs retry, .byte c =>
      let s := { s with pkt := store s.pkt p.data [c] }
      if c = ack then some ({ s with seq := s.seq + 1 }.proceed p)
      else if c = can ∨ c ≠ nak ∨ retry + 1 = 10 then some { s with pc := .flushing p }
      else some { s with pc := .sending p fcs (retry + 1), spoiled := true }
  | _, _ => none

/-- A turn of the loop that flushes the line into `pkt.data`. -/
def flush (bytes : List Byte) : Option XmodemSnd :=
  match s.pc with
  | .flushing p =>
      if bytes = [] then some (s.fail p)
      else if bytes.length ≤ 1024 then
        some { s with pkt := store s.pkt 3 bytes, spoiled := true }
      else none
  | _ => none

/-- The end of `xmodem_snd_eot` -/
def reset : XmodemSnd :=
  { s with
    seq := 1, state := .idle, dataLen := 0, pc := .ready
    given := [], done := 0, spoiled := false }

/-- The two `send` of a packet, or that of `EOT`; `sent` is false when one of them fails. -/
def send (sent : Bool) : Option XmodemSnd :=
  match s.pc with
  | .sending p fcs retry =>
      some (if sent then { s with pc := .answer p fcs retry } else s.fail p)
  | .closing => some s.reset
  | _ => none

end XmodemSnd

inductive BufAct where
  | loop (src : List Byte)
  | eot
  | recv (a : Answer)
  | send (sent : Bool)
  | flush (bytes : List Byte)

namespace XmodemSnd

/-- `xmodem_snd_init` -/
def init (oneK : Bool) (pkt : Nat → Byte) : XmodemSnd :=
  ⟨oneK, 1, .idle, 0, pkt, .ready, [], 0, false⟩

/-- The program is between two calls. -/
def idle (s : XmodemSnd) : Bool :=
  match s.pc with
  | .ready => true
  | _ => false

def step (s : XmodemSnd) : BufAct → Option XmodemSnd
  | .loop src => if s.idle = true then some (s.loopTurn src) else none
  | .eot => if s.idle = true then some s.eotCall else none
  | .recv a => s.recv a
  | .send sent => s.send sent
  | .flush bytes => s.flush bytes

/-- The bytes of an attempt to send a packet. -/
def attempt (s : XmodemSnd) : Option (List Byte) :=
  match s.pc with
  | .sending p fcs _ => some (window s.pkt p.data (p.len + 3) ++ fcs)
  | _ => none

/-- An attempt sends the next packet, with its number, its block and the check sequence. -/
def WellFormed (s : XmodemSnd) : Prop :=
  ∀ bytes, s.attempt = some bytes →
    Size (block s.oneK s.given s.done) ∧
      bytes = frame (s.state = .crc) (BitVec.ofNat 8 (s.done + 1)) (block s.oneK s.given s.done)

end XmodemSnd

end YardIce.Xmodem
