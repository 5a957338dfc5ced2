import YardIce.Lib.Runs
import Mathlib.Data.BitVec

/-!
# The run time block of ThinkOS

`struct thinkos_rt`, and the inline functions of `thinkos_sys.h` that move threads between the
queues. `Sched` has the fields of the queues, of the clock and of the time sharing, `Machine`
the others and what the processor keeps: the frames on the stacks of the threads, the pending
scheduler interrupt, the enabled interrupts, and what the code of each thread is doing.

## Implementation notes

Threads and queues are numbers as in the source; a queue is the map of its bits. The frame of a
thread is given by the address that its context pointer has once the scheduler has saved it, and
frames at different addresses are apart from each other.
-/

namespace YardIce.Thinkos

/-- The options of a build. -/
structure Config where
  threadsMax : Nat
  mutexMax : Nat
  condMax : Nat
  semMax : Nat
  eventMax : Nat
  flagMax : Nat
  irqMax : Nat
  timeshare : Bool
  threads_pos : 0 < threadsMax
  threads_lt : threadsMax < 32
  fits : 5 + mutexMax + condMax + semMax + eventMax + flagMax + threadsMax ≤ 128

/-- The options that `thinkos_sys.h` sets. -/
def Config.default : Config := 
  ⟨8, 8, 8, 8, 8, 8, 80, true, by decide, by decide, by decide⟩

/-! ## The queues -/

def wqReady : Nat := 0

def wqTmshare : Nat := 1

section Bases

variable (cfg : Config)

def Config.wqCanceled : Nat := if cfg.timeshare then 2 else 1

def Config.wqPaused : Nat := cfg.wqCanceled + 1

def Config.wqClock : Nat := cfg.wqPaused + 1

def Config.mutexBase : Nat := cfg.wqClock + 1

def Config.condBase : Nat := cfg.mutexBase + cfg.mutexMax

def Config.semBase : Nat := cfg.condBase + cfg.condMax

def Config.eventBase : Nat := cfg.semBase + cfg.semMax

def Config.flagBase : Nat := cfg.eventBase + cfg.eventMax

def Config.joinBase : Nat := cfg.flagBase + cfg.flagMax

def Config.wqEnd : Nat := cfg.joinBase + cfg.threadsMax

end Bases

/-- A map with another value at one place. -/
def set2 {α : Type} (f : Nat → Nat → α) (p u : Nat) (v : α) : Nat → Nat → α := fun q t =>
  if q = p ∧ t = u then v else f q t

/-- A map with another value at one place. -/
def set1 {α : Type} (f : Nat → α) (u : Nat) (v : α) : Nat → α := fun t => if t = u then v else f t

/-- The queues, the states of the threads, the time sharing and the clock. -/
structure Sched where
  wq : Nat → Nat → Bool
  thStat : Nat → Nat
  schedVal : Nat → Int
  schedPri : Nat → Int
  schedLimit : Int
  ticks : BitVec 32
  clock : Nat → BitVec 32

namespace Sched

variable (cfg : Config) (σ : Sched)

/-- `__bit_mem_wr` to a queue. -/
def bit (p u : Nat) (b : Bool) : Sched := { σ with wq := set2 σ.wq p u b }

/-- `__thinkos_wq_head`: the first thread of a queue. -/
def head (p : Nat) : Option Nat := (List.range 32).find? (σ.wq p)

/-- `__thinkos_wq_insert`. -/
def wqInsert (p u : Nat) : Sched :=
  { σ.bit p u true with thStat := set1 σ.thStat u (p * 2 % 256) }

/-- `__thinkos_tmdwq_insert`. -/
def tmdwqInsert (p u : Nat) (ms : BitVec 32) : Sched :=
  { (σ.bit p u true).bit cfg.wqClock u true with
    clock := set1 σ.clock u (σ.ticks + ms)
    thStat := set1 σ.thStat u ((p * 2 + 1) % 256) }

/-- The threads of the time share queue become ready. -/
def collected : Sched :=
  { σ with wq := fun p u =>
      if p = wqReady then σ.wq wqReady u || σ.wq wqTmshare u
      else if p = wqTmshare then false else σ.wq p u }

/-- Only the idle thread is ready. -/
def OnlyIdle : Prop := ∀ t < 32, σ.wq wqReady t = decide (t = cfg.threadsMax)

instance : Decidable (σ.OnlyIdle cfg) := Nat.decidableBallLT _ _

/-- No thread is ready. -/
def NoneReady : Prop := ∀ t < 32, σ.wq wqReady t = false

instance : Decidable σ.NoneReady := Nat.decidableBallLT _ _

/-- The refill of the ready queue: `wq_ready == (1 << THINKOS_THREADS_MAX)`. -/
def collect : Sched := if cfg.timeshare ∧ σ.OnlyIdle cfg then σ.collected else σ

/-- The refill with the other test: `wq_ready == 0`. -/
def collectZero : Sched := if cfg.timeshare ∧ σ.NoneReady then σ.collected else σ

/-- The queues after `__thinkos_wait`. -/
def leave (u : Nat) : Sched := (σ.bit wqReady u false).collect cfg

/-- The queues after the wait of a semaphore or an event set. -/
def leaveZero (u : Nat) : Sched := (σ.bit wqReady u false).collectZero cfg

/-- The queues after `__thinkos_wakeup` and `__thinkos_wakeup_return`. -/
def wakeup (p u : Nat) : Sched :=
  { ((σ.bit wqReady u true).bit p u false).bit cfg.wqClock u false with
    thStat := set1 σ.thStat u 0 }

end Sched

/-! ## System calls -/

/-- A system call with its arguments. -/
inductive Svc where
  | threadSelf
  | threadCreate (arg : Int) (stackPtr stackSize priority id : Nat) (paused : Bool)
  | clock
  | alarm (ms : BitVec 32)
  | sleep (ms : BitVec 32)
  | mutexLock (wq : Nat)
  | mutexTrylock (wq : Nat)
  | mutexTimedlock (wq : Nat) (ms : BitVec 32)
  | mutexUnlock (wq : Nat)
  | semInit (wq : Nat) (value : BitVec 32)
  | semWait (wq : Nat)
  | semTrywait (wq : Nat)
  | semTimedwait (wq : Nat) (ms : BitVec 32)
  | semPost (wq : Nat)
  | condWait (cwq mwq : Nat)
  | condTimedwait (cwq mwq : Nat) (ms : BitVec 32)
  | condSignal (cwq : Nat)
  | condBroadcast (cwq : Nat)
  | flagClr (wq : Nat)
  | flagSet (wq : Nat)
  | flagWait (wq : Nat)
  | flagTimedwait (wq : Nat) (ms : BitVec 32)
  | flagRelease (wq : Nat) (sig : Bool)
  | flagTake (wq : Nat)
  | flagTimedtake (wq : Nat) (ms : BitVec 32)
  | flagGive (wq : Nat)
  | evWait (wq : Nat)
  | evTimedwait (wq : Nat) (ms : BitVec 32)
  | evRaise (wq ev : Nat)
  | evMask (wq : Nat) (mask : BitVec 32)
  | evUnmask (wq : Nat) (mask : BitVec 32)
  | irqWait (irq : Nat)
  | mutexAlloc
  | mutexFree (wq : Nat)
  | semAlloc (value : BitVec 32)
  | semFree (wq : Nat)
  | condAlloc
  | condFree (wq : Nat)
  | flagAlloc
  | flagFree (wq : Nat)
  | evAlloc
  | evFree (wq : Nat)
  | yield
  | pause (th : Nat)
  | resume (th : Nat)
  | cancel (th : Nat) (code : Int)
  | join (th : Nat)
  | exit (code : Int)
deriving DecidableEq

/-! ## The machine -/

/-- The part of a frame that the system writes to: `r0`, and whether `pc` was set to
`thinkos_thread_exit`. -/
structure Frame where
  r0 : Int
  exits : Bool
deriving DecidableEq

/-- What the code of a thread is doing: its own work, a system call from which it has not
returned, or `thinkos_thread_exit` before one of its parts. -/
inductive Status where
  | user
  | call (c : Svc)
  | exiting (part : Nat) (code : Int)
deriving DecidableEq

/-- The rest of `struct thinkos_rt`, and the processor. -/
structure Machine where
  sched : Sched
  active : Nat
  ctx : Nat → Nat
  semVal : Nat → BitVec 32
  evPend : Nat → Nat → Bool
  evMask : Nat → Nat → Bool
  flagSig : Nat → Bool
  flagLock : Nat → Bool
  lock : Nat → Option Nat
  irqTh : Nat → Option Nat
  thAlloc : Nat → Bool
  mutexAlloc : Nat → Bool
  condAlloc : Nat → Bool
  semAlloc : Nat → Bool
  evAlloc : Nat → Bool
  flagAlloc : Nat → Bool
  frames : Nat → Nat → Frame
  psp : Nat
  pendsv : Bool
  irqOn : Nat → Bool
  status : Nat → Status

/-! ## The results -/

def etimedout : Int := -1

def einval : Int := -3

def eagain : Int := -4

def edeadlk : Int := -5

def eperm : Int := -6

namespace Machine

variable (cfg : Config) (m : Machine)

/-- `thinkos_rt.ctx[th]->r0 = v`. -/
def storeR0 (u : Nat) (v : Int) : Machine :=
  { m with frames := set2 m.frames u (m.ctx u) { m.frames u (m.ctx u) with r0 := v } }

/-- `arg[0] = v`. -/
def setArg0 (v : Int) : Machine :=
  { m with frames := set2 m.frames m.active m.psp { m.frames m.active m.psp with r0 := v } }

/-- `__thinkos_defer_sched`. -/
def deferSched : Machine := { m with pendsv := true }

/-- `__thinkos_wq_insert`. -/
def wqInsert (p u : Nat) : Machine := { m with sched := m.sched.wqInsert p u }

/-- `__thinkos_tmdwq_insert`. -/
def tmdwqInsert (p u : Nat) (ms : BitVec 32) : Machine :=
  { m with sched := m.sched.tmdwqInsert cfg p u ms }

/-- `__thinkos_wait`. -/
def wait (u : Nat) : Machine := ({ m with sched := m.sched.leave cfg u } : Machine).deferSched

/-- The lines that a semaphore or an event set has in place of `__thinkos_wait`. -/
def waitZero (u : Nat) : Machine :=
  ({ m with sched := m.sched.leaveZero cfg u } : Machine).deferSched

/-- `__thinkos_wakeup_return`. -/
def wakeupReturn (p u : Nat) (v : Int) : Machine :=
  ({ m with sched := m.sched.wakeup cfg p u } : Machine).storeR0 u v

/-- `__thinkos_wakeup`. -/
def wakeup (p u : Nat) : Machine := m.wakeupReturn cfg p u 0

end Machine

end YardIce.Thinkos
