import Mathlib.Data.BitVec
import Mathlib.Logic.Function.Basic

/-!
# The trace channel

The communication block of a target, `struct ice_comm_blk`, with the functions of the
target that send through it (`libice-comm`), and the two threads of the debugger that
receive: `cm3ice_comm_poll`, which reads the block through the debug port into the
queue of `ice_comm_t`, and `ice_comm_read`, which empties that queue.

## Implementation notes

Every access of the target to the block is a step, and so is every access of the poll
thread through the debug port and every access of either thread to the queue; what a
party computes between two accesses belongs to the step before it. The direction from
the debugger to the target is left out. A call of `ice_comm_read` has a length that is
not negative, and calls do not overlap.
-/

namespace YardIce.IceComm

abbrev Byte := BitVec 8

abbrev Word := BitVec 32

/-- `DEV_SYNC`. -/
def devSync : Byte := 0x43

/-- `DEV_CONNECTED`. -/
def devConnected : Byte := 0x65

/-- `DBG_CONNECTED`. -/
def dbgConnected : Byte := 1

/-- `DBG_SYNC`. -/
def dbgSync : Byte := 2

/-! ## The block -/

/-- `tx_buf`, by bytes. -/
abbrev TxBuf := BitVec 6 → Byte

/-- `struct ice_comm_blk`. -/
structure CommBlk where
  txHead : BitVec 16
  dev : Byte
  txTail : BitVec 16
  dbg : Byte
  txBuf : TxBuf

/-- The byte of a word, the least significant one first. -/
def byteOf (w : Word) (i : BitVec 2) : Byte := w.extractLsb' (8 * i.toNat) 8

/-- The word made of four bytes, the least significant one first. -/
def ofBytes (b₀ b₁ b₂ b₃ : Byte) : Word := b₃ ++ b₂ ++ b₁ ++ b₀

/-- The place in the buffer of a byte of a word. -/
def place (j : BitVec 4) (i : BitVec 2) : BitVec 6 := j ++ i

/-- `tx_buf.u32[j]`. -/
def TxBuf.u32 (buf : TxBuf) (j : BitVec 4) : Word :=
  ofBytes (buf (place j 0)) (buf (place j 1)) (buf (place j 2)) (buf (place j 3))

/-- A store of the target into `tx_buf`. -/
inductive Store
  | u32 (j : BitVec 4) (w : Word)
  | u8 (p : BitVec 6) (b : Byte)

def TxBuf.store (buf : TxBuf) : Store → TxBuf
  | .u32 j w => fun p =>
      if p.extractLsb' 2 4 = j then byteOf w (p.extractLsb' 0 2) else buf p
  | .u8 p b => Function.update buf p b

/-! ## The target -/

/-- A call of the target: the words that one of the `ice_trace` functions pushes, with
the room it waits for, or the characters given to `ice_io_comm_write`. -/
inductive Job
  | trace (room : Word) (ws : List Word)
  | write (cp : List Byte)

def iceTrace0 (entry : Word) : Job := .trace 1 [entry]

def iceTrace1 (entry a : Word) : Job := .trace 2 [entry, a]

def iceTrace2 (entry a b : Word) : Job := .trace 3 [entry, a, b]

def iceTrace3 (entry a b c : Word) : Job := .trace 4 [entry, a, b, c]

def iceTrace4 (entry a b c d : Word) : Job := .trace 5 [entry, a, b, c, d]

def iceTrace5 (entry a b c d e : Word) : Job := .trace 6 [entry, a, b, c, d, e]

def iceTrace6 (entry a b c d e f : Word) : Job := .trace 7 [entry, a, b, c, d, e, f]

def iceTrace7 (entry a b c d e f g : Word) : Job := .trace 8 [entry, a, b, c, d, e, f, g]

def iceTrace8 (entry a b c d e f g h : Word) : Job :=
  .trace 9 [entry, a, b, c, d, e, f, g, h]

def iceTrace9 (entry a b c d e f g h i : Word) : Job :=
  .trace 10 [entry, a, b, c, d, e, f, g, h, i]

def iceTrace10 (entry a b c d e f g h i j : Word) : Job :=
  .trace 11 [entry, a, b, c, d, e, f, g, h, i, j]

def iceIoCommWrite (buf : List Byte) : Job := .write buf

/-- The calls of the target. -/
inductive Call
  | trace0 (entry : Word)
  | trace1 (entry a : Word)
  | trace2 (entry a b : Word)
  | trace3 (entry a b c : Word)
  | trace4 (entry a b c d : Word)
  | trace5 (entry a b c d e : Word)
  | trace6 (entry a b c d e f : Word)
  | trace7 (entry a b c d e f g : Word)
  | trace8 (entry a b c d e f g h : Word)
  | trace9 (entry a b c d e f g h i : Word)
  | trace10 (entry a b c d e f g h i j : Word)
  | ioWrite (buf : List Byte)

def Call.job : Call → Job
  | .trace0 e => iceTrace0 e
  | .trace1 e a => iceTrace1 e a
  | .trace2 e a b => iceTrace2 e a b
  | .trace3 e a b c => iceTrace3 e a b c
  | .trace4 e a b c d => iceTrace4 e a b c d
  | .trace5 e a b c d x => iceTrace5 e a b c d x
  | .trace6 e a b c d x f => iceTrace6 e a b c d x f
  | .trace7 e a b c d x f g => iceTrace7 e a b c d x f g
  | .trace8 e a b c d x f g h => iceTrace8 e a b c d x f g h
  | .trace9 e a b c d x f g h i => iceTrace9 e a b c d x f g h i
  | .trace10 e a b c d x f g h i j => iceTrace10 e a b c d x f g h i j
  | .ioWrite buf => iceIoCommWrite buf

/-- The stores of an `ice_trace` function, from a head on. -/
def traceStores (head : BitVec 16) : List Word → List Store
  | [] => []
  | w :: ws => .u32 (head.setWidth 4) w :: traceStores (head + 1) ws

/-- The copy loop of `ice_io_comm_write`: the characters it places while its index `i`
is below the bound, and those that remain. -/
def ioCopy (bound : Nat) : Nat → List Byte → List Byte × List Byte
  | _, [] => ([], [])
  | i, c :: cp =>
      if i < bound then
        if c = 0x0a then
          ((0x0d :: c :: (ioCopy bound (i + 2) cp).1), (ioCopy bound (i + 2) cp).2)
        else (c :: (ioCopy bound (i + 1) cp).1, (ioCopy bound (i + 1) cp).2)
      else ([], c :: cp)

/-- The number of words that `n` bytes use. -/
def wordsOf (n : Nat) : Nat := (n + 3) / 4

/-- Bytes filled up with zeros to whole words. -/
def padded (bs : List Byte) : List Byte :=
  bs ++ List.replicate (4 * wordsOf bs.length - bs.length) 0

/-- The stores of bytes from the index `i` of the buffer on. -/
def ioStores (i : BitVec 6) : List Byte → List Store
  | [] => []
  | b :: bs => .u8 i b :: ioStores (i + 1) bs

/-- The words that bytes make. -/
def wordsOfBytes : List Byte → List Word
  | b₀ :: b₁ :: b₂ :: b₃ :: bs => ofBytes b₀ b₁ b₂ b₃ :: wordsOfBytes bs
  | _ => []

/-- What the target is about to do: before an access it needs to know the head it has
loaded, the words it is going to publish, and what remains of the call. -/
inductive Device
  | idle
  /-- Before `ice_comm_blk.dbg != DBG_CONNECTED`. -/
  | testConnected (job : Job)
  /-- Before `ice_comm_blk.dbg == DBG_SYNC`. -/
  | testSync
  | setConnected
  | loadHead (job : Job)
  /-- In the loop that waits for room. -/
  | wait (job : Job) (head : BitVec 16)
  | fill (stores : List Store) (ws : List Word) (head : BitVec 16) (rest : List Byte)
  /-- Before `tx_head` is written. -/
  | publish (ws : List Word) (head : BitVec 16) (rest : List Byte)

/-- The test for room in the `ice_trace` functions, on unsigned words. -/
def noRoom (head tail : BitVec 16) (room : Word) : Bool :=
  (16 - (head - tail).setWidth 32).ult room

/-- The room that `ice_io_comm_write` finds, as a signed number. -/
def ioRoom (head tail : BitVec 16) : Int := 16 - ((head - tail).toNat : Int)

/-- `rem`, the number of the characters that remain as a signed number. -/
def ioRem (cp : List Byte) : Int := (BitVec.ofNat 32 cp.length).toInt

/-- The end of the loop that waits, once `tx_tail` has been read. -/
def waited (head tail : BitVec 16) : Job → Device
  | .trace room ws =>
      if noRoom head tail room then .wait (.trace room ws) head
      else .fill (traceStores head ws) ws (head + BitVec.ofNat 16 ws.length) []
  | .write cp =>
      if ioRoom head tail ≤ 0 then .wait (.write cp) head
      else
        let copied := ioCopy (min (ioRoom head tail * 4 - 1) (ioRem cp)).toNat 0 cp
        .fill (ioStores ((head.setWidth 4 : BitVec 4) ++ 0#2) (padded copied.1))
          (wordsOfBytes (padded copied.1))
          (head + BitVec.ofNat 16 (wordsOf copied.1.length)) copied.2

/-- The call goes on with the head it holds: the loop `while (rem)`. -/
def loaded (head : BitVec 16) : Job → Device
  | .trace room ws => .wait (.trace room ws) head
  | .write [] => .idle
  | .write (c :: cp) => .wait (.write (c :: cp)) head

/-- An access of the target: the block after it, what comes next, and the words that it
publishes. -/
def Device.step (blk : CommBlk) : Device → Option (CommBlk × Device × List Word)
  | .idle => none
  | .testConnected job =>
      some (blk, if blk.dbg = dbgConnected then .loadHead job else .testSync, [])
  | .testSync => some (blk, if blk.dbg = dbgSync then .setConnected else .idle, [])
  | .setConnected => some ({ blk with dev := devConnected }, .idle, [])
  | .loadHead job => some (blk, loaded blk.txHead job, [])
  | .wait job head => some (blk, waited head blk.txTail job, [])
  | .fill [] ws head rest => some (blk, .publish ws head rest, [])
  | .fill (s :: stores) ws head rest =>
      some ({ blk with txBuf := blk.txBuf.store s }, .fill stores ws head rest, [])
  | .publish ws head rest =>
      some ({ blk with txHead := head }, loaded head (.write rest), ws)

/-! ## The debugger -/

/-- The copy of the block that the debugger keeps, `ctrl->cc`. -/
structure CommCopy where
  txHead : BitVec 16
  dev : Byte
  txTail : BitVec 16
  dbg : Byte

/-- `ICE_COMM_RX_BUF_LEN`. -/
def iceCommRxBufLen : Word := 512

/-- The queue from the device in `ice_comm_t`. -/
structure RxQueue where
  isOpen : Bool
  head : Word
  tail : Word
  buf : BitVec 9 → Word

/-- What the debug port answers: the access is performed, it fails, or it is performed
and leaves the sticky error flag set. -/
inductive Ack
  | ok
  | fault
  | sticky
  deriving DecidableEq

/-- What the poll thread is about to do. In the loop over the words it holds `head` and
`rem` of the queue and the number of words that are left. -/
inductive Poll
  | idle
  /-- Before the word of the block with `tx_head` is read. -/
  | readHead
  | readWord (head rem : Word) (left : Nat)
  /-- Before a word is stored in the queue. -/
  | put (data head rem : Word) (left : Nat)
  /-- Before `comm->rx.head` is written. -/
  | advance (head rem : Word) (left : Nat)
  | writeTail
  /-- Before `DBG_SYNC` is written because too many words are there. -/
  | resync
  /-- `cm3ice_comm_sync`, before its accesses. -/
  | syncAddr
  | syncRo
  | syncRw
  | syncWrite

/-- The loop over the words, or its end. -/
def wordLoop (head rem : Word) (left : Nat) : Poll :=
  if left = 0 ∨ rem = 0 then .writeTail else .readWord head rem left

/-- `while (ctrl->poll_enabled)`. -/
def pollLoop (enabled : Bool) : Poll := if enabled then .readHead else .idle

/-- `cm3ice_comm_poll` once the word with `tx_head` is read. -/
def headRead (cc : CommCopy) (rx : RxQueue) : CommCopy × Poll :=
  if cc.dev ≠ devConnected ∨ cc.dbg ≠ dbgConnected then (cc, .syncAddr)
  else
    let rem := iceCommRxBufLen - (rx.head - rx.tail)
    let cnt := (cc.txHead - cc.txTail).toNat
    if rem = 0 then (cc, .idle)
    else if cnt = 0 then (cc, .idle)
    else if 16 < cnt then ({ cc with txTail := cc.txHead, dbg := dbgSync }, .resync)
    else (cc, wordLoop rx.head rem cnt)

/-- `cm3ice_comm_sync` once the block is read. -/
def syncRead (cc : CommCopy) : CommCopy × Poll :=
  if cc.dev = devConnected then
    if cc.dbg = dbgConnected then (cc, .idle)
    else if cc.dbg ≠ dbgSync then (cc, .idle)
    else ({ cc with dbg := dbgConnected }, .syncWrite)
  else if cc.dev = devSync then
    if cc.dbg = dbgSync then (cc, .idle)
    else ({ cc with dbg := dbgSync, txTail := 0 }, .syncWrite)
  else (cc, .idle)

/-- The numbers of words that `ice_comm_read` copies from its tail on and from the start
of the buffer, for masked indices and room for `max` words. -/
def span (tail head max : Nat) : Nat × Nat :=
  let n := if tail < head then head - tail else 512 - tail
  let m := if tail < head then 0 else head
  if max < n then (max, 0) else if max < n + m then (n, max - n) else (n, m)

/-- The words that `ice_comm_read` copies. -/
def copied (buf : BitVec 9 → Word) (tail head : Word) (len : Nat) : List Word :=
  let nm := span (tail.setWidth 9).toNat (head.setWidth 9).toNat (len / 4)
  (List.range nm.1).map (fun i => buf (tail.setWidth 9 + BitVec.ofNat 9 i)) ++
    (List.range nm.2).map fun i => buf (BitVec.ofNat 9 i)

/-- What `ice_comm_read` is about to do. -/
inductive Reader
  | idle
  /-- The queue was empty: before its head is read again, after the wait. -/
  | waiting (tail : Word) (len : Nat)
  | copy (tail head : Word) (len : Nat)
  /-- Before `comm->rx.tail` is written and the words are returned. -/
  | commit (ws : List Word)

/-! ## The system -/

/-- Both sides, with the words that were published and those that were returned. -/
structure Link where
  blk : CommBlk
  device : Device
  cc : CommCopy
  /-- `ctrl->comm_addr` is not zero. -/
  commAddr : Bool
  poll : Poll
  rx : RxQueue
  reader : Reader
  sent : List Word
  received : List Word

/-- The write of the debugger's word of the block. -/
def Link.writeRw (s : Link) (next : Poll) : Link :=
  { s with blk := { s.blk with txTail := s.cc.txTail, dbg := s.cc.dbg }, poll := next }

/-- An access of the poll thread. -/
def Link.pollStep (s : Link) (enabled : Bool) (ack : Ack) : Option Link :=
  match s.poll with
  | .idle => none
  | .readHead =>
      let cc := { s.cc with txHead := s.blk.txHead, dev := s.blk.dev }
      match ack with
      | .fault => some { s with poll := .idle }
      | .sticky => some { s with cc := cc, commAddr := false, poll := .idle }
      | .ok => some { s with cc := (headRead cc s.rx).1, poll := (headRead cc s.rx).2 }
  | .readWord head rem left =>
      if ack = .fault then some { s with poll := .idle }
      else
        some { s with
          cc := { s.cc with txTail := s.cc.txTail + 1 }
          poll := .put (s.blk.txBuf.u32 (s.cc.txTail.setWidth 4)) head rem left }
  | .put data head rem left =>
      some { s with
        rx := { s.rx with buf := Function.update s.rx.buf (head.setWidth 9) data }
        poll := .advance (head + 1) (rem - 1) (left - 1) }
  | .advance head rem left =>
      some { s with rx := { s.rx with head := head }, poll := wordLoop head rem left }
  | .writeTail =>
      if ack = .fault then some { s with poll := .idle }
      else some (s.writeRw (pollLoop enabled))
  | .resync => some (if ack = .fault then { s with poll := .idle } else s.writeRw .idle)
  | .syncAddr =>
      some { s with poll := if ack = .fault then .idle else .syncRo }
  | .syncRo =>
      some { s with
        cc := if ack = .fault then s.cc
          else { s.cc with txHead := s.blk.txHead, dev := s.blk.dev }
        poll := .syncRw }
  | .syncRw =>
      let cc := if ack = .fault then s.cc
        else { s.cc with txTail := s.blk.txTail, dbg := s.blk.dbg }
      some { s with cc := (syncRead cc).1, poll := (syncRead cc).2 }
  | .syncWrite => some (if ack = .fault then { s with poll := .idle } else s.writeRw .idle)

/-- An access of `ice_comm_read`. -/
def Link.readerStep (s : Link) : Option Link :=
  match s.reader with
  | .idle => none
  | .waiting tail len =>
      some { s with
        reader := if s.rx.head = tail then .idle else .copy tail s.rx.head len }
  | .copy tail head len => some { s with reader := .commit (copied s.rx.buf tail head len) }
  | .commit ws =>
      some { s with
        rx := { s.rx with tail := s.rx.tail + BitVec.ofNat 32 ws.length }
        reader := .idle
        received := s.received ++ ws }

/-- The start of `ice_comm_read`. -/
def Link.iceCommRead (s : Link) (len : Nat) : Link :=
  if !s.rx.isOpen then s
  else if s.rx.head = s.rx.tail then { s with reader := .waiting s.rx.tail len }
  else { s with reader := .copy s.rx.tail s.rx.head len }

/-- A step: a call begins, or a party makes its next access. -/
inductive Act
  | call (c : Call)
  | device
  | pollStart (enabled : Bool)
  | poll (enabled : Bool) (ack : Ack)
  | read (len : Nat)
  | reader

def Link.step (s : Link) : Act → Option Link
  | .call c =>
      match s.device with
      | .idle => some { s with device := .testConnected c.job }
      | _ => none
  | .device =>
      (s.device.step s.blk).map fun r =>
        { s with blk := r.1, device := r.2.1, sent := s.sent ++ r.2.2 }
  | .pollStart enabled =>
      match s.poll with
      | .idle => some { s with poll := if s.commAddr then pollLoop enabled else .idle }
      | _ => none
  | .poll enabled ack => s.pollStep enabled ack
  | .read len =>
      match s.reader with
      | .idle => some (s.iceCommRead len)
      | _ => none
  | .reader => s.readerStep

/-- Both sides are `CONNECTED` and nothing is under way. -/
structure Link.Connected (s : Link) : Prop where
  dev : s.blk.dev = devConnected
  dbg : s.blk.dbg = dbgConnected
  copy : s.cc.dbg = dbgConnected
  head : s.blk.txHead = s.blk.txTail
  tail : s.cc.txTail = s.blk.txTail
  empty : s.rx.head = s.rx.tail
  device : s.device = .idle
  poll : s.poll = .idle
  reader : s.reader = .idle
  sent : s.sent = []
  received : s.received = []

end YardIce.IceComm
