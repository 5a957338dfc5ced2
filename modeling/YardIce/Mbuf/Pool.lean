import YardIce.Lib.ListPool
import Mathlib.Data.List.FinRange

/-!
# The mbuf pool

The functions of `libtcpip/mbuf` that allocate and release buffers. The free
list and every queue are linked through the first word of a buffer; the casts
of `&free.first` and `&q->first` to a buffer pointer make each of them a link
word of the same heap.

## Implementation notes

A call ends with a result, or stops: on a null pointer, in a wait that another
thread has to end, or in a loop that does not end. The 8-bit and 16-bit fields
are natural numbers with explicit reduction at every write.
-/

namespace YardIce.MbufPool

open Lib

/-- `MBUF_DATA_SIZE`: payload bytes of one buffer. -/
def mbufDataSize : Nat := 124

/-- `MBUF_POOL_SIZE`: buffers of the pool. -/
def mbufPoolSize : Nat := 64

/-- A buffer of `__mbufs__.pool`. -/
abbrev Mbuf := Fin mbufPoolSize

/-- Words that are cast to a buffer because they hold a first-buffer pointer. -/
inductive MbufHead (Q : Type)
  | free
  | queue (q : Q)
  deriving DecidableEq

/-- `struct mbuf_queue` without its two pointers, which live in the heap. -/
structure MbufQueue where
  offs : Nat
  len : Nat
  deriving DecidableEq

/-- `struct mbuf_sys`, together with the queues linked through its buffers. -/
structure MbufSys (Q : Type) where
  heap : ListHeap (MbufHead Q) Mbuf
  data : Mbuf → Nat → UInt8
  max : Nat
  used : Nat
  queue : Q → MbufQueue
  locked : Bool

/-- Why a call does not return. -/
inductive Stop
  | null
  | blocked
  | stuck
  deriving DecidableEq

variable {Q : Type} [DecidableEq Q]

/-- `mbuf_init`, with every queue passed through `mbuf_queue_init`. -/
def mbufInit (Q : Type) [DecidableEq Q] (data : Mbuf → Nat → UInt8) : MbufSys Q where
  heap :=
    { next := linkAll (fun _ => none) (.head .free) (List.finRange mbufPoolSize)
      last := fun h =>
        match h with
        | .free => lastLink (.head .free) (List.finRange mbufPoolSize)
        | .queue q => .head (.queue q) }
  data := data
  max := mbufPoolSize
  used := 0
  queue := fun _ => ⟨0, 0⟩
  locked := false

/-- `__os_mutex_lock` on the pool mutex. -/
def mutexLock (s : MbufSys Q) : Except Stop (MbufSys Q) :=
  if s.locked then .error .blocked else .ok { s with locked := true }

/-- `__os_mutex_unlock` on the pool mutex. -/
def mutexUnlock (s : MbufSys Q) : MbufSys Q := { s with locked := false }

/-- The lines shared by the allocators: take `m` off the free list and count it. -/
def takeFirst (s : MbufSys Q) (m : Mbuf) : MbufSys Q :=
  { s with heap := s.heap.popHead .free m, used := (s.used + 1) % 256 }

/-- `mbuf_try_alloc`: null when the free list is empty. -/
def mbufTryAlloc (s : MbufSys Q) : Except Stop (Option Mbuf × MbufSys Q) := do
  let s ← mutexLock s
  match s.heap.next (.head .free) with
  | some m => return (some m, mutexUnlock (takeFirst s m))
  | none => return (none, mutexUnlock s)

/-- `mbuf_alloc`: waits on the pool condition while the free list is empty. -/
def mbufAlloc (s : MbufSys Q) : Except Stop (Mbuf × MbufSys Q) := do
  let s ← mutexLock s
  match s.heap.next (.head .free) with
  | some m => return (m, mutexUnlock (takeFirst s m))
  | none => .error .blocked

/-- `__mbuf_release`: append to the free list. -/
def mbufRelease (s : MbufSys Q) (p : Mbuf) : MbufSys Q :=
  { s with heap := s.heap.insertTail .free p, used := (s.used + 255) % 256 }

/-- `mbuf_free`. -/
def mbufFree (s : MbufSys Q) (p : Mbuf) : Except Stop (MbufSys Q) := do
  let s ← mutexLock s
  return mutexUnlock (mbufRelease s p)

/-- The loop of `mbuf_list_alloc`: `p` after `n` steps and the buffer before it. -/
def listWalk (s : MbufSys Q) : Nat → Option Mbuf → Option Mbuf →
    Except Stop (Option Mbuf × Option Mbuf)
  | 0, p, q => .ok (p, q)
  | _ + 1, none, _ => .error .null
  | n + 1, some m, _ => listWalk s n (s.heap.next (.node m)) (some m)

/-- `mbuf_list_alloc`. The early return for a short pool comes before the unlock.
The chain is cut after `q` and the rest `p` stays in the free list. -/
def mbufListAlloc (s : MbufSys Q) (len : Nat) : Except Stop (Option Mbuf × MbufSys Q) := do
  let n := (len + (mbufDataSize - 1)) / mbufDataSize
  let s ← mutexLock s
  if (n : Int) > (s.max : Int) - s.used then
    return (none, s)
  let m := s.heap.next (.head .free)
  let (p, q) ← listWalk s n m m
  match q with
  | none => .error .null
  | some q =>
    return (m, mutexUnlock { s with heap := s.heap.cutAfter .free q p, used := (s.used + n) % 256 })

/-- The loop that releases a chain buffer by buffer. -/
def releaseLoop : Nat → MbufSys Q → Option Mbuf → Except Stop (MbufSys Q)
  | _, s, none => .ok s
  | 0, _, some _ => .error .stuck
  | fuel + 1, s, some m => releaseLoop fuel (mbufRelease s m) (s.heap.next (.node m))

/-- `mbuf_list_free`. -/
def mbufListFree (s : MbufSys Q) (m : Option Mbuf) : Except Stop (MbufSys Q) := do
  let s ← mutexLock s
  let s ← releaseLoop mbufPoolSize s m
  return mutexUnlock s

end YardIce.MbufPool
