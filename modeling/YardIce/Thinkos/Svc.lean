import YardIce.Thinkos.Rt

/-!
# The system calls of ThinkOS

The calls of `thinkos.c`, `thinkos_pause.c`, `thinkos_sleep.c`, `thinkos_mutex.c`,
`thinkos_cond.c`, `thinkos_semaphore.c`, `thinkos_event.c`, `thinkos_flag.c` and
`thinkos_irq.c`. The caller is the active thread; its frame has the arguments and takes the
result.
-/

namespace YardIce.Thinkos

/-- The index of an object, if the number is that of one. -/
def objIdx (base max wq : Nat) : Option Nat :=
  if base ≤ wq ∧ wq < base + max then some (wq - base) else none

/-- `thinkos_bmp_alloc`: the first free index. -/
def bmpAlloc (alloc : Nat → Bool) (max : Nat) : Option Nat :=
  (List.range max).find? fun i => !alloc i

namespace Machine

variable (cfg : Config) (m : Machine)

/-- The check of an argument, and the rest of the call. -/
def checked (o : Option Nat) (f : Nat → Machine) : Machine :=
  match o with
  | some i => f i
  | none => m.setArg0 einval

/-- The allocation of an object: the number of its queue, or -1. -/
def alloced (o : Option Nat) (base : Nat) (f : Nat → Machine) : Machine :=
  match o with
  | some i => (f i).setArg0 (base + i : Nat)
  | none => m.setArg0 (-1)

/-! ## Mutexes -/

def mutexIdx (wq : Nat) : Option Nat :=
  (objIdx cfg.mutexBase cfg.mutexMax wq).filter m.mutexAlloc

def mutexAllocSvc : Machine :=
  m.alloced (bmpAlloc m.mutexAlloc cfg.mutexMax) cfg.mutexBase fun i =>
    { m with mutexAlloc := set1 m.mutexAlloc i true, lock := set1 m.lock i none }

def mutexFreeSvc (wq : Nat) : Machine :=
  m.checked (objIdx cfg.mutexBase cfg.mutexMax wq) fun i =>
    { m with mutexAlloc := set1 m.mutexAlloc i false }

def mutexLockSvc (wq : Nat) : Machine :=
  m.checked (m.mutexIdx cfg wq) fun mutex =>
    if m.lock mutex = none then
      ({ m with lock := set1 m.lock mutex (some m.active) } : Machine).setArg0 0
    else if m.lock mutex = some m.active then m.setArg0 edeadlk
    else ((m.wqInsert wq m.active).setArg0 0).wait cfg m.active

def mutexTrylockSvc (wq : Nat) : Machine :=
  m.checked (m.mutexIdx cfg wq) fun mutex =>
    if m.lock mutex = none then
      ({ m with lock := set1 m.lock mutex (some m.active) } : Machine).setArg0 0
    else if m.lock mutex = some m.active then m.setArg0 edeadlk
    else m.setArg0 eagain

def mutexTimedlockSvc (wq : Nat) (ms : BitVec 32) : Machine :=
  m.checked (m.mutexIdx cfg wq) fun mutex =>
    if m.lock mutex = none then
      ({ m with lock := set1 m.lock mutex (some m.active) } : Machine).setArg0 0
    else if m.lock mutex = some m.active then m.setArg0 edeadlk
    else ((m.tmdwqInsert cfg wq m.active ms).setArg0 etimedout).wait cfg m.active

/-- The lock goes to the first waiting thread, or is released. -/
def passLock (wq mutex : Nat) : Machine :=
  match m.sched.head wq with
  | none => { m with lock := set1 m.lock mutex none }
  | some th => ({ m with lock := set1 m.lock mutex (some th) } : Machine).wakeup cfg wq th

def mutexUnlockSvc (wq : Nat) : Machine :=
  m.checked (m.mutexIdx cfg wq) fun mutex =>
    if m.lock mutex ≠ some m.active then m.setArg0 eperm
    else
      (if (m.sched.head wq).isSome then (m.passLock cfg wq mutex).deferSched
        else m.passLock cfg wq mutex).setArg0 0

/-! ## Conditional variables -/

def condIdx (wq : Nat) : Option Nat :=
  (objIdx cfg.condBase cfg.condMax wq).filter m.condAlloc

def condAllocSvc : Machine :=
  m.alloced (bmpAlloc m.condAlloc cfg.condMax) cfg.condBase fun i =>
    { m with condAlloc := set1 m.condAlloc i true }

def condFreeSvc (wq : Nat) : Machine :=
  m.checked (objIdx cfg.condBase cfg.condMax wq) fun i =>
    { m with condAlloc := set1 m.condAlloc i false }

def condWaitSvc (cwq mwq : Nat) : Machine :=
  m.checked (m.condIdx cfg cwq) fun _ => m.checked (m.mutexIdx cfg mwq) fun mutex =>
    if m.lock mutex ≠ some m.active then m.setArg0 eperm
    else (((m.wqInsert cwq m.active).passLock cfg mwq mutex).setArg0 0).wait cfg m.active

def condTimedwaitSvc (cwq mwq : Nat) (ms : BitVec 32) : Machine :=
  m.checked (m.mutexIdx cfg mwq) fun mutex => m.checked (m.condIdx cfg cwq) fun _ =>
    if m.lock mutex ≠ some m.active then m.setArg0 eperm
    else
      (((m.tmdwqInsert cfg cwq m.active ms).passLock cfg mwq mutex).setArg0 etimedout).wait cfg
        m.active

def condSignalSvc (cwq : Nat) : Machine :=
  m.checked (m.condIdx cfg cwq) fun _ =>
    match m.sched.head cwq with
    | some th => ((m.wakeup cfg cwq th).deferSched).setArg0 0
    | none => m.setArg0 0

/-- `while` there is a first thread in the queue, wake it up. -/
def wakeLoop (wq : Nat) : Nat → Machine → Machine
  | 0, m => m
  | n + 1, m =>
      match m.sched.head wq with
      | some th => wakeLoop wq n (m.wakeup cfg wq th)
      | none => m

/-- All the threads of a queue are waked up; a queue has at most 32. -/
def wakeAll (wq : Nat) : Machine :=
  if (m.sched.head wq).isSome then (wakeLoop cfg wq 32 m).deferSched else m

def condBroadcastSvc (cwq : Nat) : Machine :=
  m.checked (m.condIdx cfg cwq) fun _ => (m.wakeAll cfg cwq).setArg0 0

/-! ## Semaphores -/

def semIdx (wq : Nat) : Option Nat :=
  (objIdx cfg.semBase cfg.semMax wq).filter m.semAlloc

def semAllocSvc (value : BitVec 32) : Machine :=
  m.alloced (bmpAlloc m.semAlloc cfg.semMax) cfg.semBase fun i =>
    { m with semAlloc := set1 m.semAlloc i true, semVal := set1 m.semVal i value }

def semFreeSvc (wq : Nat) : Machine :=
  m.checked (objIdx cfg.semBase cfg.semMax wq) fun i =>
    { m with semAlloc := set1 m.semAlloc i false }

def semInitSvc (wq : Nat) (value : BitVec 32) : Machine :=
  m.checked (m.semIdx cfg wq) fun sem =>
    ({ m with semVal := set1 m.semVal sem value } : Machine).setArg0 0

def semWaitSvc (wq : Nat) : Machine :=
  m.checked (m.semIdx cfg wq) fun sem =>
    if 0 < m.semVal sem then
      ({ m with semVal := set1 m.semVal sem (m.semVal sem - 1) } : Machine).setArg0 0
    else ((m.setArg0 0).wqInsert wq m.active).waitZero cfg m.active

def semTrywaitSvc (wq : Nat) : Machine :=
  m.checked (m.semIdx cfg wq) fun sem =>
    if 0 < m.semVal sem then
      ({ m with semVal := set1 m.semVal sem (m.semVal sem - 1) } : Machine).setArg0 0
    else m.setArg0 eagain

def semTimedwaitSvc (wq : Nat) (ms : BitVec 32) : Machine :=
  m.checked (m.semIdx cfg wq) fun sem =>
    if 0 < m.semVal sem then
      (({ m with semVal := set1 m.semVal sem (m.semVal sem - 1) } : Machine).setArg0 0).deferSched
    else ((m.tmdwqInsert cfg wq m.active ms).waitZero cfg m.active).setArg0 etimedout

/-- The part of a post behind the checks. -/
def semPostTo (wq sem : Nat) : Machine :=
  match m.sched.head wq with
  | none => { m with semVal := set1 m.semVal sem (m.semVal sem + 1) }
  | some th => (m.wakeup cfg wq th).deferSched

def semPostSvc (wq : Nat) : Machine :=
  m.checked (m.semIdx cfg wq) fun sem => (m.setArg0 0).semPostTo cfg wq sem

/-! ## Event sets -/

def evIdx (wq : Nat) : Option Nat :=
  (objIdx cfg.eventBase cfg.eventMax wq).filter m.evAlloc

def evAllocSvc : Machine :=
  m.alloced (bmpAlloc m.evAlloc cfg.eventMax) cfg.eventBase fun i =>
    { m with evAlloc := set1 m.evAlloc i true
             evMask := fun no ev => if no = i then true else m.evMask no ev
             evPend := fun no ev => if no = i then false else m.evPend no ev }

def evFreeSvc (wq : Nat) : Machine :=
  m.checked (objIdx cfg.eventBase cfg.eventMax wq) fun i =>
    { m with evAlloc := set1 m.evAlloc i false }

/-- The first pending event that is not masked. -/
def evReady (no : Nat) : Option Nat :=
  (List.range 32).find? fun ev => m.evPend no ev && m.evMask no ev

def evWaitSvc (wq : Nat) : Machine :=
  m.checked (m.evIdx cfg wq) fun no =>
    match m.evReady no with
    | some ev => ({ m with evPend := set2 m.evPend no ev false } : Machine).setArg0 ev
    | none => (m.wqInsert wq m.active).waitZero cfg m.active

def evTimedwaitSvc (wq : Nat) (ms : BitVec 32) : Machine :=
  m.checked (m.evIdx cfg wq) fun no =>
    match m.evReady no with
    | some ev => ({ m with evPend := set2 m.evPend no ev false } : Machine).setArg0 ev
    | none => ((m.tmdwqInsert cfg wq m.active ms).waitZero cfg m.active).setArg0 etimedout

/-- The part of raising an event behind the checks. -/
def evRaiseTo (wq no ev : Nat) : Machine :=
  match if m.evMask no ev then m.sched.head wq else none with
  | some th => (m.wakeupReturn cfg wq th ev).deferSched
  | none => { m with evPend := set2 m.evPend no ev true }

def evRaiseSvc (wq ev : Nat) : Machine :=
  if 31 < ev then m.setArg0 einval
  else m.checked (m.evIdx cfg wq) fun no => m.evRaiseTo cfg wq no ev

def evMaskSvc (wq : Nat) (mask : BitVec 32) : Machine :=
  m.checked (m.evIdx cfg wq) fun no =>
    { m with evMask := fun n ev =>
        if n = no then m.evMask n ev && !mask.getLsbD ev else m.evMask n ev }

/-- The first pending event of the mask. -/
def evPending (no : Nat) (mask : BitVec 32) : Option Nat :=
  (List.range 32).find? fun ev => m.evPend no ev && mask.getLsbD ev

/-- `while` an event of the mask is pending and a thread waits, wake it up; there are 32 events. -/
def evLoop (wq no : Nat) (mask : BitVec 32) : Nat → Machine → Machine
  | 0, m => m
  | n + 1, m =>
      match m.evPending no mask, m.sched.head wq with
      | some ev, some th =>
          evLoop wq no mask n
            (({ m with evPend := set2 m.evPend no ev false } : Machine).wakeupReturn cfg wq th ev)
      | _, _ => m

def evUnmaskSvc (wq : Nat) (mask : BitVec 32) : Machine :=
  m.checked (m.evIdx cfg wq) fun no =>
    let m : Machine :=
      { m with evMask := fun n ev =>
          if n = no then m.evMask n ev || mask.getLsbD ev else m.evMask n ev }
    if (m.evPending no mask).isSome ∧ (m.sched.head wq).isSome then
      (evLoop cfg wq no mask 32 m).deferSched
    else m

/-! ## Flags -/

def flagIdx (wq : Nat) : Option Nat :=
  (objIdx cfg.flagBase cfg.flagMax wq).filter m.flagAlloc

def flagAllocSvc : Machine :=
  m.alloced (bmpAlloc m.flagAlloc cfg.flagMax) cfg.flagBase fun i =>
    { m with flagAlloc := set1 m.flagAlloc i true, flagSig := set1 m.flagSig i false
             flagLock := set1 m.flagLock i false }

def flagFreeSvc (wq : Nat) : Machine :=
  m.checked (objIdx cfg.flagBase cfg.flagMax wq) fun i =>
    { m with flagAlloc := set1 m.flagAlloc i false }

def flagWaitSvc (wq : Nat) : Machine :=
  m.checked (m.flagIdx cfg wq) fun i =>
    if m.flagSig i = true ∧ m.flagLock i = false then
      ({ m with flagLock := set1 m.flagLock i true, flagSig := set1 m.flagSig i false } :
        Machine).setArg0 0
    else (m.wqInsert wq m.active).wait cfg m.active

def flagTimedwaitSvc (wq : Nat) (ms : BitVec 32) : Machine :=
  m.checked (m.flagIdx cfg wq) fun i =>
    if m.flagSig i = true ∧ m.flagLock i = false then
      ({ m with flagLock := set1 m.flagLock i true, flagSig := set1 m.flagSig i false } :
        Machine).setArg0 0
    else ((m.setArg0 etimedout).tmdwqInsert cfg wq m.active ms).wait cfg m.active

def flagReleaseSvc (wq : Nat) (sig : Bool) : Machine :=
  m.checked (m.flagIdx cfg wq) fun i =>
    let m : Machine :=
      { m.setArg0 0 with flagLock := set1 m.flagLock i false
                         flagSig := if sig then set1 m.flagSig i true else m.flagSig }
    if m.flagSig i = false then m
    else
      match m.sched.head wq with
      | none => m
      | some th =>
          ({ m.wakeup cfg wq th with flagSig := set1 m.flagSig i false
                                     flagLock := set1 m.flagLock i true } : Machine).deferSched

def flagTakeSvc (wq : Nat) : Machine :=
  m.checked (m.flagIdx cfg wq) fun i =>
    if m.flagSig i then
      ({ m with flagSig := set1 m.flagSig i false } : Machine).setArg0 0
    else (m.wqInsert wq m.active).wait cfg m.active

def flagTimedtakeSvc (wq : Nat) (ms : BitVec 32) : Machine :=
  m.checked (m.flagIdx cfg wq) fun i =>
    if m.flagSig i then
      ({ m with flagSig := set1 m.flagSig i false } : Machine).setArg0 0
    else ((m.setArg0 etimedout).tmdwqInsert cfg wq m.active ms).wait cfg m.active

/-- The part of giving a flag behind the checks. -/
def flagGiveTo (wq i : Nat) : Machine :=
  if m.flagSig i then m
  else
    match m.sched.head wq with
    | none => { m with flagSig := set1 m.flagSig i true }
    | some th => (m.wakeup cfg wq th).deferSched

def flagGiveSvc (wq : Nat) : Machine :=
  m.checked (m.flagIdx cfg wq) fun i =>
    (m.setArg0 (if m.flagSig i then 1 else 0)).flagGiveTo cfg wq i

def flagClrSvc (wq : Nat) : Machine :=
  m.checked (m.flagIdx cfg wq) fun i =>
    { m.setArg0 (if m.flagSig i then 1 else 0) with flagSig := set1 m.flagSig i false }

/-- The part of setting a flag behind the checks. -/
def flagSetTo (wq i : Nat) : Machine :=
  ({ m with flagSig := set1 m.flagSig i true } : Machine).wakeAll cfg wq

def flagSetSvc (wq : Nat) : Machine :=
  m.checked (m.flagIdx cfg wq) fun i =>
    (m.setArg0 (if m.flagSig i then 1 else 0)).flagSetTo cfg wq i

/-! ## Sleeping, and waiting for an interrupt -/

/-- The clock of the caller is set, and it waits. -/
def sleepUntil (clock : BitVec 32) : Machine :=
  ({ m with sched := { m.sched.bit cfg.wqClock m.active true with
      clock := set1 m.sched.clock m.active clock
      thStat := set1 m.sched.thStat m.active ((cfg.wqClock * 2 + 1) % 256) } } :
    Machine).wait cfg m.active

def sleepSvc (ms : BitVec 32) : Machine := m.sleepUntil cfg (m.sched.ticks + ms)

def alarmSvc (ms : BitVec 32) : Machine := m.sleepUntil cfg ms

def irqWaitSvc (irq : Nat) : Machine :=
  if cfg.irqMax ≤ irq then m.setArg0 einval
  else
    ({ m with irqTh := set1 m.irqTh irq (some m.active), irqOn := set1 m.irqOn irq true } :
      Machine).wait cfg m.active

/-! ## Threads -/

/-- A thread that is allocated. -/
def threadIdx (th : Nat) : Option Nat :=
  (if th < cfg.threadsMax then some th else none).filter m.thAlloc

def resumeSvc (th : Nat) : Machine :=
  m.checked (m.threadIdx cfg th) fun th =>
    let m := m.setArg0 0
    if m.sched.wq cfg.wqPaused th = false then m
    else
      let stat := m.sched.thStat th
      let σ := (m.sched.bit cfg.wqPaused th false).bit (stat / 2) th true
      ({ m with sched := σ.bit cfg.wqClock th true } : Machine).deferSched

/-- Removal from the time share queue, if there is one. -/
def offTmshare (σ : Sched) (th : Nat) : Sched :=
  if cfg.timeshare then σ.bit wqTmshare th false else σ

def pauseSvc (th : Nat) : Machine :=
  m.checked (m.threadIdx cfg th) fun th =>
    let m := m.setArg0 0
    if m.sched.wq cfg.wqPaused th = true then m
    else
      let stat := m.sched.thStat th
      let σ := (m.sched.bit cfg.wqPaused th true).bit (stat / 2) th false
      ({ m with sched := (offTmshare cfg σ th).bit cfg.wqClock th false } : Machine).deferSched

def cancelSvc (th : Nat) (code : Int) : Machine :=
  m.checked (m.threadIdx cfg th) fun th =>
    let stat := m.sched.thStat th
    let σ := (m.sched.bit (stat / 2) th false).wqInsert cfg.wqCanceled th
    ({ m with sched := (offTmshare cfg σ th).bit cfg.wqClock th false
              frames := set2 m.frames th (m.ctx th) ⟨code, true⟩ } : Machine).setArg0 0

def joinSvc (th : Nat) : Machine :=
  m.checked (m.threadIdx cfg th) fun th =>
    let m : Machine :=
      if m.sched.wq cfg.wqCanceled th = true then
        { m with sched := (m.sched.bit cfg.wqCanceled th false).bit wqReady th true }
      else m
    ((m.wqInsert (cfg.joinBase + th) m.active).wait cfg m.active).setArg0 (-1)

def exitSvc (code : Int) : Machine :=
  ({ m.wqInsert cfg.wqCanceled m.active with
      frames := set2 m.frames m.active m.psp ⟨code, true⟩ } : Machine).deferSched

/-- `thinkos_alloc_lo`. -/
def allocLo (alloc : Nat → Bool) (start : Nat) : Option Nat :=
  (List.range 32).find? fun i => decide (start ≤ i) && !alloc i

/-- `thinkos_alloc_hi`. -/
def allocHi (alloc : Nat → Bool) (start : Nat) : Option Nat :=
  (List.range (min start 31 + 1)).reverse.find? fun i => !alloc i

/-- The slot for a new thread. -/
def threadSlot (id : Nat) : Option Nat :=
  if cfg.threadsMax ≤ id then allocHi m.thAlloc cfg.threadsMax
  else (allocLo m.thAlloc id).or (allocHi m.thAlloc id)

/-- `THINKOS_SCHED_LIMIT_MAX`. -/
def schedLimitMax : Nat := 32

/-- `sizeof(struct thinkos_context)`. -/
def contextSize : Nat := 64

/-- The time sharing values of a new thread. -/
def shareInit (σ : Sched) (th priority : Nat) : Sched :=
  if cfg.timeshare then
    let limit := max σ.schedLimit (min priority schedLimitMax : Nat)
    { σ with schedPri := set1 σ.schedPri th (min priority schedLimitMax : Nat)
             schedLimit := limit, schedVal := set1 σ.schedVal th (limit / 2) }
  else σ

def threadCreateSvc (arg : Int) (stackPtr stackSize priority id : Nat) (paused : Bool) : Machine :=
  match m.threadSlot cfg id with
  | none => m.setArg0 einval
  | some th =>
      let m := { m with thAlloc := set1 m.thAlloc th true }
      if stackSize < contextSize then m.setArg0 einval
      else
        let ctx := (stackPtr + stackSize) / 8 * 8 - contextSize
        let m : Machine :=
          { m with ctx := set1 m.ctx th ctx, frames := set2 m.frames th ctx ⟨arg, false⟩
                   sched := shareInit cfg m.sched th priority, status := set1 m.status th .user }
        (if paused then { m with sched := m.sched.bit cfg.wqPaused th true }
          else ({ m with sched := m.sched.bit wqReady th true } : Machine).deferSched).setArg0 th

/-! ## The dispatch -/

/-- What the caller has in `r0`. -/
def callArg0 : Svc → Int
  | .threadCreate arg .. => arg
  | .alarm ms | .sleep ms => ms.toInt
  | .mutexLock wq | .mutexTrylock wq | .mutexTimedlock wq _ | .mutexUnlock wq | .mutexFree wq
  | .semInit wq _ | .semWait wq | .semTrywait wq | .semTimedwait wq _ | .semPost wq | .semFree wq
  | .condWait wq _ | .condTimedwait wq _ _ | .condSignal wq | .condBroadcast wq | .condFree wq
  | .flagClr wq | .flagSet wq | .flagWait wq | .flagTimedwait wq _ | .flagRelease wq _
  | .flagTake wq | .flagTimedtake wq _ | .flagGive wq | .flagFree wq
  | .evWait wq | .evTimedwait wq _ | .evRaise wq _ | .evMask wq _ | .evUnmask wq _ | .evFree wq =>
      wq
  | .irqWait irq => irq
  | .semAlloc value => value.toInt
  | .pause th | .resume th | .cancel th _ | .join th => th
  | .exit code => code
  | .threadSelf | .clock | .mutexAlloc | .condAlloc | .flagAlloc | .evAlloc | .yield => 0

/-- `cm3_svc_isr`, behind the choice of the call. -/
def svcIsr : Svc → Machine
  | .threadSelf => m.setArg0 m.active
  | .threadCreate arg stackPtr stackSize priority id paused =>
      m.threadCreateSvc cfg arg stackPtr stackSize priority id paused
  | .clock => m.setArg0 m.sched.ticks.toInt
  | .alarm ms => m.alarmSvc cfg ms
  | .sleep ms => m.sleepSvc cfg ms
  | .mutexLock wq => m.mutexLockSvc cfg wq
  | .mutexTrylock wq => m.mutexTrylockSvc cfg wq
  | .mutexTimedlock wq ms => m.mutexTimedlockSvc cfg wq ms
  | .mutexUnlock wq => m.mutexUnlockSvc cfg wq
  | .semInit wq value => m.semInitSvc cfg wq value
  | .semWait wq => m.semWaitSvc cfg wq
  | .semTrywait wq => m.semTrywaitSvc cfg wq
  | .semTimedwait wq ms => m.semTimedwaitSvc cfg wq ms
  | .semPost wq => m.semPostSvc cfg wq
  | .condWait cwq mwq => m.condWaitSvc cfg cwq mwq
  | .condTimedwait cwq mwq ms => m.condTimedwaitSvc cfg cwq mwq ms
  | .condSignal cwq => m.condSignalSvc cfg cwq
  | .condBroadcast cwq => m.condBroadcastSvc cfg cwq
  | .flagClr wq => m.flagClrSvc cfg wq
  | .flagSet wq => m.flagSetSvc cfg wq
  | .flagWait wq => m.flagWaitSvc cfg wq
  | .flagTimedwait wq ms => m.flagTimedwaitSvc cfg wq ms
  | .flagRelease wq sig => m.flagReleaseSvc cfg wq sig
  | .flagTake wq => m.flagTakeSvc cfg wq
  | .flagTimedtake wq ms => m.flagTimedtakeSvc cfg wq ms
  | .flagGive wq => m.flagGiveSvc cfg wq
  | .evWait wq => m.evWaitSvc cfg wq
  | .evTimedwait wq ms => m.evTimedwaitSvc cfg wq ms
  | .evRaise wq ev => m.evRaiseSvc cfg wq ev
  | .evMask wq mask => m.evMaskSvc cfg wq mask
  | .evUnmask wq mask => m.evUnmaskSvc cfg wq mask
  | .irqWait irq => m.irqWaitSvc cfg irq
  | .mutexAlloc => m.mutexAllocSvc cfg
  | .mutexFree wq => m.mutexFreeSvc cfg wq
  | .semAlloc value => m.semAllocSvc cfg value
  | .semFree wq => m.semFreeSvc cfg wq
  | .condAlloc => m.condAllocSvc cfg
  | .condFree wq => m.condFreeSvc cfg wq
  | .flagAlloc => m.flagAllocSvc cfg
  | .flagFree wq => m.flagFreeSvc cfg wq
  | .evAlloc => m.evAllocSvc cfg
  | .evFree wq => m.evFreeSvc cfg wq
  | .yield => m.deferSched
  | .pause th => m.pauseSvc cfg th
  | .resume th => m.resumeSvc cfg th
  | .cancel th code => m.cancelSvc cfg th code
  | .join th => m.joinSvc cfg th
  | .exit code => m.exitSvc cfg code

end Machine

end YardIce.Thinkos
