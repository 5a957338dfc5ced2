import YardIce.Thinkos.Svc

/-!
# The core of ThinkOS

The clock interrupt, the scheduler, the calls of interrupt handlers, the end of a thread and the
start of the system, as steps of a machine: each of them is one step, and `thinkos_thread_exit`,
which runs as a part of the thread, is one step for each of its parts.
-/

namespace YardIce.Thinkos

/-! ## The clock interrupt -/

namespace Sched

variable (cfg : Config) (σ : Sched)

/-- `(int32_t)(thinkos_rt.clock[j] - ticks) <= 0`. -/
def expired (j : Nat) : Bool := (σ.clock j - σ.ticks).toInt ≤ 0

/-- The time of a thread has come. -/
def expire (j : Nat) : Sched :=
  (({ σ.bit (σ.thStat j / 2) j false with thStat := set1 σ.thStat j 0 }).bit
    cfg.wqClock j false).bit wqReady j true

/-- The threads of the clock queue whose time has come. -/
def due : List Nat := (List.range 32).filter fun j => σ.wq cfg.wqClock j && σ.expired j

/-- The clock part of `cm3_systick_isr`. -/
def clockTick : Sched := (due cfg σ).foldl (expire cfg) σ

/-- The time of the active thread has run out. -/
def OutOfTime (active : Nat) : Prop :=
  cfg.timeshare ∧ σ.schedVal active - σ.schedPri active < 0

instance (active : Nat) : Decidable (σ.OutOfTime cfg active) := instDecidableAnd

/-- The time share part of `cm3_systick_isr`. -/
def shareTick (active : Nat) : Sched :=
  if cfg.timeshare then
    let val := σ.schedVal active - σ.schedPri active
    if val < 0 then
      (({ σ with schedVal := set1 σ.schedVal active (val + σ.schedLimit) }.bit
        wqTmshare active true).bit wqReady active false).collect cfg
    else { σ with schedVal := set1 σ.schedVal active val }
  else σ

/-- The clock of the system. -/
def nextTick : Sched := { σ with ticks := σ.ticks + 1 }

end Sched

/-! ## The end of a thread -/

/-- Thread `j` is waked up by the end of the active thread, for which it waits. -/
def joinerReady (cfg : Config) (self : Nat) (code : Int) (m : Machine) (j : Nat) : Machine :=
  if m.sched.wq (cfg.joinBase + self) j then
    ({ m with sched := (m.sched.bit wqReady j true).bit (cfg.joinBase + self) j false } :
      Machine).storeR0 j code
  else m

/-- One turn of the loop of `thinkos_thread_exit`. -/
def exitTurn (cfg : Config) (self : Nat) (code : Int) (m : Machine) (j : Nat) : Machine :=
  if m.thAlloc j then
    joinerReady cfg self code
      (if cfg.timeshare then
        { m with sched := { m.sched with
            schedLimit := max m.sched.schedLimit (m.sched.schedPri j) } }
      else m) j
  else m

namespace Machine

variable (cfg : Config) (m : Machine)

/-- The part of `thinkos_thread_exit` with the interrupts disabled. -/
def exitCritical (code : Int) : Machine :=
  let self := m.active
  let stat := m.sched.thStat self
  let m : Machine :=
    { m with sched := { m.sched.bit (stat / 2) self false with
        thStat := set1 m.sched.thStat self 0 } }
  (List.range cfg.threadsMax).foldl (exitTurn cfg self code) m

/-- The parts of `thinkos_thread_exit`; behind the last one it waits forever. -/
def exitPart (code : Int) : Nat → Machine
  | 0 => { m with sched := offTmshare cfg m.sched m.active }
  | 1 => m.exitCritical cfg code
  | 2 => { m with thAlloc := set1 m.thAlloc m.active false }
  | 3 => { m with ctx := set1 m.ctx m.active 0 }
  | 4 => { m with sched := m.sched.bit wqReady m.active false }
  | 5 => { m with sched := m.sched.collect cfg }
  | 6 => m.deferSched
  | _ => m

end Machine

/-! ## Interrupt handlers -/

/-- The calls of an interrupt handler, and an interrupt that a thread waits for. -/
inductive Isr where
  | evRaise (wq ev : Nat)
  | flagGive (wq : Nat)
  | flagClr (wq : Nat)
  | flagSet (wq : Nat)
  | semPost (wq : Nat)
  | irq (irq : Nat)
deriving DecidableEq

namespace Machine

variable (cfg : Config) (m : Machine)

/-- `cm3_default_isr`, for an interrupt that is enabled. -/
def defaultIsr (irq : Nat) : Option Machine :=
  if m.irqOn irq then
    (m.irqTh irq).map fun th =>
      ({ m with irqOn := set1 m.irqOn irq false, sched := m.sched.bit wqReady th true } :
        Machine).deferSched
  else none

/-- The calls of interrupt handlers, which do not check the number of the object. -/
def isr : Isr → Option Machine
  | .evRaise wq ev =>
      if ev < 32 then (objIdx cfg.eventBase cfg.eventMax wq).map fun no => m.evRaiseTo cfg wq no ev
      else none
  | .flagGive wq => (objIdx cfg.flagBase cfg.flagMax wq).map fun i => m.flagGiveTo cfg wq i
  | .flagClr wq =>
      (objIdx cfg.flagBase cfg.flagMax wq).map fun i =>
        { m with flagSig := set1 m.flagSig i false }
  | .flagSet wq => (objIdx cfg.flagBase cfg.flagMax wq).map fun i => m.flagSetTo cfg wq i
  | .semPost wq => (objIdx cfg.semBase cfg.semMax wq).map fun sem => m.semPostTo cfg wq sem
  | .irq irq => m.defaultIsr irq

/-- `cm3_systick_isr`. -/
def systickIsr : Machine :=
  let σ := m.sched.nextTick
  let m' : Machine := { m with sched := (σ.clockTick cfg).shareTick cfg m.active }
  if σ.due cfg ≠ [] ∨ m.sched.OutOfTime cfg m.active then m'.deferSched else m'

/-! ## The scheduler -/

/-- The frame of the active thread is on its stack: there is one of a system call, or one that
the interrupt makes, at `sp` and with `r0`. -/
def framed (sp : Nat) (r0 : Int) : Machine :=
  match m.status m.active with
  | .call _ => m
  | _ => { m with psp := sp, frames := set2 m.frames m.active sp ⟨r0, false⟩ }

/-- What a thread does when it is taken up again. -/
def resumed (st : Status) (f : Frame) : Status :=
  match st with
  | .call c => .call c
  | st => if f.exits then .exiting 0 f.r0 else st

/-- `cm3_pendsv_isr`. -/
def pendsvIsr (sp : Nat) (r0 : Int) : Option Machine :=
  let m := m.framed sp r0
  let ctx := set1 m.ctx m.active m.psp
  (m.sched.head wqReady).map fun idx =>
    { m with ctx := ctx, active := idx, psp := ctx idx, pendsv := false
             status := set1 m.status idx (resumed (m.status idx) (m.frames idx (ctx idx))) }

/-! ## Steps -/

/-- A system call makes a frame at `sp`. -/
def called (c : Svc) (sp : Nat) : Machine :=
  { m with psp := sp, frames := set2 m.frames m.active sp ⟨callArg0 c, false⟩
           status := set1 m.status m.active (.call c) }

/-- The return from a system call. -/
def returned : Machine :=
  let f := m.frames m.active m.psp
  { m with status := set1 m.status m.active (if f.exits then .exiting 0 f.r0 else .user) }

end Machine

/-- What can happen. -/
inductive Event where
  /-- The active thread makes a system call, with its frame at `sp`. -/
  | svc (c : Svc) (sp : Nat)
  /-- A system call returns to the active thread. -/
  | ret
  /-- The function of the active thread returns. -/
  | taskReturn (v : Int)
  /-- The next part of `thinkos_thread_exit`. -/
  | exitStep
  | isr (i : Isr)
  | systick
  /-- The scheduler runs; a thread that is not in a system call gets a frame. -/
  | pendsv (sp : Nat) (r0 : Int)
deriving DecidableEq

/-- A thread runs: no scheduler interrupt is pending, and the thread is not the idle one. -/
def Machine.Running (cfg : Config) (m : Machine) : Prop :=
  m.pendsv = false ∧ m.active < cfg.threadsMax

instance (cfg : Config) (m : Machine) : Decidable (m.Running cfg) := instDecidableAnd

/-- One step. The idle thread does nothing. -/
def step (cfg : Config) (m : Machine) : Event → Option Machine
  | .svc c sp =>
      if m.Running cfg ∧ m.status m.active = .user then some ((m.called c sp).svcIsr cfg c)
      else none
  | .ret =>
      if m.Running cfg then
        match m.status m.active with
        | .call _ => some m.returned
        | _ => none
      else none
  | .taskReturn v =>
      if m.Running cfg ∧ m.status m.active = .user then
        some { m with status := set1 m.status m.active (.exiting 0 v) }
      else none
  | .exitStep =>
      if m.Running cfg then
        match m.status m.active with
        | .exiting part code =>
            let m' := m.exitPart cfg code part
            some { m' with status := set1 m'.status m.active (.exiting (part + 1) code) }
        | _ => none
      else none
  | .isr i => m.isr cfg i
  | .systick => some (m.systickIsr cfg)
  | .pendsv sp r0 => if m.pendsv then m.pendsvIsr sp r0 else none

/-! ## The start -/

/-- `thinkos_init` for a main thread with the options. -/
def start (cfg : Config) (id priority : Nat) (paused : Bool) : Machine :=
  let self := min id (cfg.threadsMax - 1)
  let pri : Int := (min priority Machine.schedLimitMax : Nat)
  let none2 : Nat → Nat → Bool := fun _ _ => false
  let ready := set2 (set2 none2 wqReady self true) wqReady cfg.threadsMax true
  { sched :=
      { wq := if paused then set2 ready cfg.wqPaused self true else ready
        thStat := fun _ => 0
        schedVal := if cfg.timeshare then set1 (fun _ => 0) self (pri / 2) else fun _ => 0
        schedPri := if cfg.timeshare then set1 (fun _ => 0) self pri else fun _ => 0
        schedLimit := if cfg.timeshare then max pri 1 else 0
        ticks := 0
        clock := fun _ => 0 }
    active := self
    ctx := fun _ => 0
    semVal := fun _ => 0
    evPend := none2
    evMask := fun _ _ => true
    flagSig := fun _ => false
    flagLock := fun _ => false
    lock := fun _ => none
    irqTh := fun _ => none
    thAlloc := fun i => decide (cfg.threadsMax ≤ i) || decide (i = self)
    mutexAlloc := fun _ => false
    condAlloc := fun _ => false
    semAlloc := fun _ => false
    evAlloc := fun _ => false
    flagAlloc := fun _ => false
    frames := fun _ _ => ⟨0, false⟩
    psp := 0
    pendsv := paused
    irqOn := fun _ => false
    status := fun _ => .user }

/-- The states that runs from the start reach. -/
def Reached (cfg : Config) (es : List Event) (m : Machine) : Prop :=
  ∃ id priority paused, Lib.exec (step cfg) (start cfg id priority paused) es = some m

end YardIce.Thinkos
