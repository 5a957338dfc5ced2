import YardIce.Gdb.PktRecv

/-!
# Replies to the debugger

The functions of `gdb-rsp.c` that build a reply by hand and send it: `rsp_error`,
`rsp_msg`, `rsp_send_pkt`, `rsp_signal`, `rsp_write`, `rsp_all_registers_get`,
`rsp_register_get`, `rsp_memory_read`, `rsp_step` and the notification of
`gdb_brk_task`.

## Implementation notes

A packet buffer is a function from positions with any contents at the start; what is
sent are its first bytes, as many as the call of `tcp_send` says. The numbers that
`strtoul` reads in the request and the results of the debugger are arguments. The
strings and the byte counts given to `rsp_msg` and `rsp_write` fit their buffers; a
reply of `rsp_memory_read` that leaves its buffers has no result. `char` is unsigned.
-/

namespace YardIce.Gdb

abbrev Word := BitVec 32

/-- `$`. -/
def dollar : Byte := 0x24

/-- `hextab`. -/
def hextab (i : Word) : Byte :=
  [0x30, 0x31, 0x32, 0x33, 0x34, 0x35, 0x36, 0x37,
    0x38, 0x39, 0x61, 0x62, 0x63, 0x64, 0x65, 0x66].getD i.toNat 0

/-- `tcp_send`: the first `n` bytes of the buffer. -/
def tcpSend (pkt : Buf) (n : Nat) : List Byte := (List.range n).map pkt

/-- A packet under construction: `pkt`, `n` and `sum`. -/
structure Builder where
  pkt : Buf
  n : Nat
  sum : Word

namespace Builder

/-- `pkt[0] = '$'; n = 1`, with the sum at zero. -/
def start (pkt : Buf) : Builder := ⟨Function.update pkt 0 dollar, 1, 0⟩

/-- `pkt[n++] = c`. -/
def raw (b : Builder) (c : Byte) : Builder :=
  { b with pkt := Function.update b.pkt b.n c, n := b.n + 1 }

/-- `sum += pkt[n++] = c`. -/
def put (b : Builder) (c : Byte) : Builder := { b.raw c with sum := b.sum + c.setWidth 32 }

/-- The `#` and the two digits of the sum. -/
def close (b : Builder) : Builder :=
  ((b.raw hash).raw (hextab ((b.sum >>> 4) &&& 0xf))).raw (hextab (b.sum &&& 0xf))

/-- The two digits of a byte. -/
def putByte (b : Builder) (v : Word) : Builder :=
  (b.put (hextab ((v >>> 4) &&& 0xf))).put (hextab (v &&& 0xf))

/-- The eight digits of a register, least significant byte first. -/
def putRegister (b : Builder) (v : Word) : Builder :=
  (((b.putByte v).putByte (v >>> 8)).putByte (v >>> 16)).putByte (v >>> 24)

/-- Two digits for each byte of a buffer. -/
def putBytes (b : Builder) (bytes : List Byte) : Builder :=
  bytes.foldl (fun b c => b.putByte (c.setWidth 32)) b

/-- Bytes as they are. -/
def putAll (b : Builder) (bytes : List Byte) : Builder := bytes.foldl put b

end Builder

/-! ## The functions -/

/-- `rsp_empty`. -/
def rspEmpty : List Byte := [0x24, 0x23, 0x30, 0x30]

def rspError (err : Word) (pkt : Buf) : List Byte :=
  let b := (((Builder.start pkt).put 0x45).putByte err).close
  tcpSend b.pkt 7

def rspSignal (sig : Word) (pkt : Buf) : List Byte :=
  let b := (((Builder.start pkt).put 0x53).putByte sig).close
  tcpSend b.pkt 7

/-- `rsp_msg`, with the characters of the string. -/
def rspMsg (s : List Byte) (pkt : Buf) : List Byte :=
  let b := (((Builder.start pkt).put 0x4f).putBytes s).close
  tcpSend b.pkt b.n

def rspWrite (buf : List Byte) (pkt : Buf) : List Byte :=
  let b := (((Builder.start pkt).put 0x4f).putBytes buf).close
  tcpSend b.pkt b.n

def rspSendPkt (buf : List Byte) (pkt : Buf) : List Byte :=
  let b := ((Builder.start pkt).putAll buf).close
  tcpSend b.pkt b.n

/-- `PacketSize=1ff;qXfer:features:read-;QStartNoAckMode+`: what `rsp_query` gives to
`rsp_send_pkt`, its only caller. -/
def supported : List Byte :=
  [0x50, 0x61, 0x63, 0x6b, 0x65, 0x74, 0x53, 0x69, 0x7a, 0x65, 0x3d, 0x31, 0x66, 0x66, 0x3b,
    0x71, 0x58, 0x66, 0x65, 0x72, 0x3a, 0x66, 0x65, 0x61, 0x74, 0x75, 0x72, 0x65, 0x73, 0x3a,
    0x72, 0x65, 0x61, 0x64, 0x2d, 0x3b, 0x51, 0x53, 0x74, 0x61, 0x72, 0x74, 0x4e, 0x6f, 0x41,
    0x63, 0x6b, 0x4d, 0x6f, 0x64, 0x65, 0x2b]

/-- The floating point registers, each the digit of its number repeated. -/
def fpRegisters : List Byte :=
  (List.range 8).flatMap fun r => [0x30 + BitVec.ofNat 8 r, 0x2a, 0x20 + 20]

/-- The floating point status. -/
def fps : List Byte := [0x30, 0x2a, 0x20 + 4]

/-- `rsp_all_registers_get`; `val r` is what `target_register_get` leaves for `r`. -/
def rspAllRegistersGet (val : Nat → Word) (pkt : Buf) : List Byte :=
  let b := (List.range 16).foldl (fun b r => b.putRegister (val r)) (Builder.start pkt)
  let b := ((b.putAll fpRegisters).putAll fps).putRegister (val 16)
  tcpSend b.close.pkt b.close.n

/-- `rsp_register_get` for the number in the request. -/
def rspRegisterGet (reg : Word) (val : Nat → Word) (pkt : Buf) : List Byte :=
  if 25 < reg.toInt then rspEmpty
  else
    let v :=
      if reg.toInt = 25 then val 16
      else if 15 < reg.toInt then 0
      else val reg.toNat
    let b := ((Builder.start pkt).putRegister v).close
    tcpSend b.pkt b.n

/-- `sizeof(buf)` of `rsp_memory_read`. -/
def memoryReadMax : Nat := (rspBufferLen - 5) / 2

/-- The size that `rsp_memory_read` asks for. -/
def memoryReadSize (size : Word) : Int :=
  if (memoryReadMax : Int) < size.toInt then (memoryReadMax : Int) else size.toInt

/-- `rsp_memory_read`; `mem` gives the value of `target_mem_read` for a size, and what it
stores. -/
def rspMemoryRead (size : Word) (mem : Int → Word × Buf) (pkt : Buf) : Option (List Byte) :=
  let (ret, buf) := mem (memoryReadSize size)
  if ret.msb then
    let b := (((Builder.start pkt).put 0x45).putByte (-ret)).close
    some (tcpSend b.pkt b.n)
  else if memoryReadMax < ret.toNat then none
  else
    let b := ((Builder.start pkt).putBytes ((List.range ret.toNat).map buf)).close
    some (tcpSend b.pkt b.n)

/-- `rsp_step`, with whether `target_step` fails. -/
def rspStep (fails : Bool) (pkt : Buf) : List Byte :=
  if fails then rspError 1 pkt
  else
    let b := (((Builder.start pkt).put 0x54).putByte 5).close
    tcpSend b.pkt b.n

/-- The notification of `gdb_brk_task`, which is sent if the target has halted and a
client is connected. -/
def gdbBrkTask (halted connected : Bool) (pkt : Buf) : List Byte :=
  if halted && connected then
    let b := (((Builder.start pkt).put 0x53).putByte 5).close
    tcpSend b.pkt 8
  else []

end YardIce.Gdb
