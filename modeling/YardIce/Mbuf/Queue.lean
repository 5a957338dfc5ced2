import YardIce.Mbuf.Pool

/-!
# Byte queues over the mbuf pool

The functions `mbuf_queue_*` of `libtcpip/mbuf`. The bytes of a queue start
`offs` bytes into its first buffer and run over whole buffers to its last one.

## Implementation notes

Lengths and offsets are natural numbers: a negative argument is only logged by
the source and is no length. Loops take their bound from the byte count, which
every round decreases while `offs` is below the buffer size.
-/

namespace YardIce.MbufPool

open Lib

variable {Q : Type} [DecidableEq Q]

/-- `memcpy` of `src` into a buffer from byte `offs` on. -/
def writeBytes (data : Mbuf → Nat → UInt8) (m : Mbuf) (offs : Nat) (src : List UInt8) :
    Mbuf → Nat → UInt8 :=
  fun b i => if b = m ∧ offs ≤ i ∧ i < offs + src.length then src.getD (i - offs) 0 else data b i

/-- `memcpy` of `n` bytes out of a buffer from byte `offs` on. -/
def readBytes (data : Mbuf → Nat → UInt8) (m : Mbuf) (offs n : Nat) : List UInt8 :=
  (List.range n).map fun i => data m (offs + i)

/-- Write the counters of one queue. -/
def setQueue (s : MbufSys Q) (q : Q) (offs len : Nat) : MbufSys Q :=
  { s with queue := Function.update s.queue q ⟨offs % 65536, len % 65536⟩ }

/-- `mbuf_queue_init`. -/
def mbufQueueInit (s : MbufSys Q) (q : Q) : MbufSys Q :=
  setQueue { s with heap := s.heap.initList (.queue q) } q 0 0

/-- The first part of `mbuf_queue_add`: fill up the last buffer. -/
def addTail (s : MbufSys Q) (q : Q) (src : List UInt8) :
    Except Stop (List UInt8 × MbufSys Q) :=
  let offs := ((s.queue q).offs + (s.queue q).len) % mbufDataSize
  if offs ≠ 0 then
    match s.heap.last (.queue q) with
    | .head _ => .error .null
    | .node m =>
      let n := min src.length (mbufDataSize - offs)
      let s := { s with data := writeBytes s.data m offs (src.take n) }
      .ok (src.drop n, setQueue s q (s.queue q).offs ((s.queue q).len + n))
  else .ok (src, s)

/-- The loop of `mbuf_queue_add`: one new buffer per round, until the data or the
pool is used up. The result is the data that was not stored. -/
def addLoop : Nat → MbufSys Q → Q → List UInt8 → Except Stop (List UInt8 × MbufSys Q)
  | _, s, _, [] => .ok ([], s)
  | 0, _, _, _ :: _ => .error .stuck
  | fuel + 1, s, q, b :: src => do
    let (m, s) ← mbufTryAlloc s
    match m with
    | none => return (b :: src, s)
    | some m =>
      let n := min (b :: src).length mbufDataSize
      let s := { s with
        heap := s.heap.insertTail (.queue q) m
        data := writeBytes s.data m 0 ((b :: src).take n) }
      addLoop fuel (setQueue s q (s.queue q).offs ((s.queue q).len + n)) q ((b :: src).drop n)

/-- `mbuf_queue_add`: the number of bytes stored. -/
def mbufQueueAdd (s : MbufSys Q) (q : Q) (buf : List UInt8) :
    Except Stop (Nat × MbufSys Q) :=
  if buf.length = 0 then .ok (0, s)
  else do
    let (rem, s) ← addTail s q buf
    let (rem, s) ← addLoop rem.length s q rem
    return (buf.length - rem.length, s)

/-- The first loop of `mbuf_queue_get`: the buffer and the offset in it after
`pos` bytes. -/
def seekLoop (s : MbufSys Q) : Nat → Option Mbuf → Nat → Nat →
    Except Stop (Option Mbuf × Nat)
  | _, m, offs, 0 => .ok (m, offs)
  | 0, _, _, _ + 1 => .error .stuck
  | fuel + 1, m, offs, pos + 1 =>
    let n := min (pos + 1) (mbufDataSize - offs)
    if offs + n = mbufDataSize then
      match m with
      | none => .error .null
      | some b => seekLoop s fuel (s.heap.next (.node b)) 0 (pos + 1 - n)
    else seekLoop s fuel m (offs + n) (pos + 1 - n)

/-- The second loop of `mbuf_queue_get`: `rem` bytes from the buffer `m` on. -/
def copyLoop (s : MbufSys Q) : Nat → Option Mbuf → Nat → Nat → Except Stop (List UInt8)
  | _, _, _, 0 => .ok []
  | 0, _, _, _ + 1 => .error .stuck
  | _ + 1, none, _, _ + 1 => .error .null
  | fuel + 1, some m, offs, rem + 1 => do
    let n := min (rem + 1) (mbufDataSize - offs)
    let rest ← copyLoop s fuel (s.heap.next (.node m)) 0 (rem + 1 - n)
    return readBytes s.data m offs n ++ rest

/-- `mbuf_queue_get`: up to `len` bytes from byte `offs` of the queue on. -/
def mbufQueueGet (s : MbufSys Q) (q : Q) (offs len : Nat) : Except Stop (List UInt8) :=
  if offs > (s.queue q).len then .ok []
  else
    let rem := min len ((s.queue q).len - offs)
    if rem = 0 then .ok []
    else do
      let (m, o) ← seekLoop s offs (s.heap.next (.head (.queue q))) (s.queue q).offs offs
      copyLoop s rem m o rem

/-- The copy of one round of `mbuf_queue_remove`; `mbuf_queue_trim` makes none. -/
def headBytes (s : MbufSys Q) (copy : Bool) (m : Option Mbuf) (offs n : Nat) :
    Except Stop (List UInt8) :=
  if copy then
    match m with
    | none => .error .null
    | some b => .ok (readBytes s.data b offs n)
  else .ok []

/-- Unlink the first buffer `m` of a queue; with `all` the tail pointer is reset too. -/
def unlinkHead (s : MbufSys Q) (q : Q) (m : Mbuf) (all : Bool) : MbufSys Q :=
  { s with heap :=
      { next := Function.update s.heap.next (.head (.queue q)) (s.heap.next (.node m))
        last :=
          if all then Function.update s.heap.last (.queue q) (.head (.queue q))
          else s.heap.last } }

/-- The loop shared by `mbuf_queue_trim` and `mbuf_queue_remove`: `rem` bytes leave
the front. The result is the byte count and, with `copy`, the bytes. -/
def consumeLoop (copy : Bool) : Nat → MbufSys Q → Q → Option Mbuf → Nat →
    Except Stop (Nat × List UInt8 × MbufSys Q)
  | _, s, _, _, 0 => .ok (0, [], s)
  | 0, _, _, _, _ + 1 => .error .stuck
  | fuel + 1, s, q, m, rem + 1 => do
    let offs := (s.queue q).offs
    let n := min (rem + 1) (mbufDataSize - offs)
    let out ← headBytes s copy m offs n
    let len := ((s.queue q).len + 65536 - n) % 65536
    if len = 0 then
      match m with
      | none => .error .null
      | some b =>
        let s ← mbufFree (unlinkHead (setQueue s q 0 len) q b true) b
        return (n, out, s)
    else if offs + n = mbufDataSize then
      match m with
      | none => .error .null
      | some b =>
        let s ← mbufFree (unlinkHead (setQueue s q 0 len) q b false) b
        let (cnt, more, s) ←
          consumeLoop copy fuel s q (s.heap.next (.head (.queue q))) (rem + 1 - n)
        return (n + cnt, out ++ more, s)
    else
      let (cnt, more, s) ← consumeLoop copy fuel (setQueue s q (offs + n) len) q m (rem + 1 - n)
      return (n + cnt, out ++ more, s)

/-- The common body of `mbuf_queue_trim` and `mbuf_queue_remove`. -/
def consume (copy : Bool) (s : MbufSys Q) (q : Q) (len : Nat) :
    Except Stop (Nat × List UInt8 × MbufSys Q) :=
  let rem := min len (s.queue q).len
  if rem = 0 then .ok (0, [], s)
  else consumeLoop copy rem s q (s.heap.next (.head (.queue q))) rem

/-- `mbuf_queue_trim`: the number of bytes dropped. -/
def mbufQueueTrim (s : MbufSys Q) (q : Q) (len : Nat) : Except Stop (Nat × MbufSys Q) := do
  let (cnt, _, s) ← consume false s q len
  return (cnt, s)

/-- `mbuf_queue_remove`: the bytes returned, as many as its result says. -/
def mbufQueueRemove (s : MbufSys Q) (q : Q) (len : Nat) :
    Except Stop (Nat × List UInt8 × MbufSys Q) :=
  consume true s q len

/-- `mbuf_queue_free`. -/
def mbufQueueFree (s : MbufSys Q) (q : Q) : Except Stop (MbufSys Q) := do
  let m := s.heap.next (.head (.queue q))
  let s ← mutexLock s
  let s ← releaseLoop mbufPoolSize s m
  let s := mutexUnlock s
  return mbufQueueInit s q

end YardIce.MbufPool
