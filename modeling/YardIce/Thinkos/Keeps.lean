import YardIce.Thinkos.Effects

/-!
# What a system call leaves alone

Apart from the calls that create, cancel or end a thread, no system call changes where the frames
are, what the threads do and which of them are to end. Only a wait for an interrupt changes who
waits for interrupts.
-/

namespace YardIce.Thinkos

/-- The part of a machine that few steps change. -/
structure Fixed where
  active : Nat
  psp : Nat
  ctx : Nat → Nat
  status : Nat → Status
  irqTh : Nat → Option Nat
  irqOn : Nat → Bool
  exits : Nat → Nat → Bool

/-- The calls that change this part. -/
def Svc.Moves : Svc → Prop
  | .threadCreate .. | .irqWait _ | .cancel .. | .exit _ => True
  | _ => False

namespace Machine

def fixed (m : Machine) : Fixed :=
  ⟨m.active, m.psp, m.ctx, m.status, m.irqTh, m.irqOn, fun t a => (m.frames t a).exits⟩

/-- A step within the same thread that leaves the frames and the other threads as they are. -/
def Keeps (m m' : Machine) : Prop := m'.fixed = m.fixed

namespace Keeps

variable {cfg : Config} {m m' m'' : Machine}

theorem active (h : m.Keeps m') : m'.active = m.active := congrArg Fixed.active h

theorem psp (h : m.Keeps m') : m'.psp = m.psp := congrArg Fixed.psp h

theorem ctx (h : m.Keeps m') : m'.ctx = m.ctx := congrArg Fixed.ctx h

theorem status (h : m.Keeps m') : m'.status = m.status := congrArg Fixed.status h

theorem irqTh (h : m.Keeps m') : m'.irqTh = m.irqTh := congrArg Fixed.irqTh h

theorem irqOn (h : m.Keeps m') : m'.irqOn = m.irqOn := congrArg Fixed.irqOn h

theorem exits (h : m.Keeps m') (t a : Nat) : (m'.frames t a).exits = (m.frames t a).exits :=
  congrFun (congrFun (congrArg Fixed.exits h) t) a

theorem trans (h : m.Keeps m') (h' : m'.Keeps m'') : m.Keeps m'' := Eq.trans h' h

/-- A result in a frame. -/
theorem frames (m : Machine) (u p : Nat) (v : Int) :
    m.Keeps { m with frames := set2 m.frames u p { m.frames u p with r0 := v } } := by
  have hexits : (fun t a => (set2 m.frames u p { m.frames u p with r0 := v } t a).exits) =
      fun t a => (m.frames t a).exits := by
    funext t a
    unfold set2
    split_ifs with hta
    · rw [hta.1, hta.2]
    · rfl
  unfold Keeps fixed
  dsimp only
  rw [hexits]

theorem setArg0 (h : m.Keeps m') (v : Int) : m.Keeps (m'.setArg0 v) :=
  h.trans (frames m' m'.active m'.psp v)

theorem arg0 (m : Machine) (v : Int) : m.Keeps (m.setArg0 v) := setArg0 rfl v

theorem wakeupReturn (h : m.Keeps m') (p u : Nat) (v : Int) :
    m.Keeps (m'.wakeupReturn cfg p u v) :=
  h.trans (frames { m' with sched := m'.sched.wakeup cfg p u } u (m'.ctx u) v)

theorem checked {o : Option Nat} {f : Nat → Machine} (h : ∀ i, m.Keeps (f i)) :
    m.Keeps (m.checked o f) := by
  cases o with
  | none => exact arg0 m einval
  | some i => exact h i

theorem alloced {o : Option Nat} {base : Nat} {f : Nat → Machine} (h : ∀ i, m.Keeps (f i)) :
    m.Keeps (m.alloced o base f) := by
  cases o with
  | none => exact arg0 m (-1)
  | some i => exact (h i).setArg0 _

theorem mutexLock (wq : Nat) : m.Keeps (m.mutexLockSvc cfg wq) := by
  refine checked fun i => ?_
  split_ifs
  · exact arg0 m 0
  · exact arg0 m edeadlk
  · exact arg0 m 0

theorem mutexTrylock (wq : Nat) : m.Keeps (m.mutexTrylockSvc cfg wq) := by
  refine checked fun i => ?_
  split_ifs
  · exact arg0 m 0
  · exact arg0 m edeadlk
  · exact arg0 m eagain

theorem mutexTimedlock (wq : Nat) (ms : BitVec 32) : m.Keeps (m.mutexTimedlockSvc cfg wq ms) := by
  refine checked fun i => ?_
  split_ifs
  · exact arg0 m 0
  · exact arg0 m edeadlk
  · exact arg0 m etimedout

theorem passLock (h : m.Keeps m') (wq i : Nat) : m.Keeps (m'.passLock cfg wq i) := by
  unfold Machine.passLock
  cases m'.sched.head wq with
  | none => exact h
  | some u => exact h.trans (wakeupReturn rfl wq u 0)

theorem mutexUnlock (wq : Nat) : m.Keeps (m.mutexUnlockSvc cfg wq) := by
  refine checked fun i => ?_
  split_ifs
  · exact arg0 m eperm
  · exact setArg0 (passLock rfl wq i) 0
  · exact (passLock rfl wq i).setArg0 0

theorem condWait (cwq mwq : Nat) : m.Keeps (m.condWaitSvc cfg cwq mwq) := by
  refine checked fun _ => checked fun i => ?_
  split_ifs
  · exact arg0 m eperm
  · exact (passLock rfl mwq i).setArg0 0

theorem condTimedwait (cwq mwq : Nat) (ms : BitVec 32) :
    m.Keeps (m.condTimedwaitSvc cfg cwq mwq ms) := by
  refine checked fun i => checked fun _ => ?_
  split_ifs
  · exact arg0 m eperm
  · exact (passLock rfl mwq i).setArg0 etimedout

theorem condSignal (cwq : Nat) : m.Keeps (m.condSignalSvc cfg cwq) := by
  refine checked fun _ => ?_
  cases m.sched.head cwq with
  | none => exact arg0 m 0
  | some u =>
      have hwake : m.Keeps (m.wakeup cfg cwq u) := wakeupReturn rfl cwq u 0
      exact hwake.setArg0 0

theorem wakeLoop (wq : Nat) : ∀ (n : Nat) {m' : Machine}, m.Keeps m' →
    m.Keeps (Machine.wakeLoop cfg wq n m') := by
  intro n
  induction n with
  | zero => exact fun h => h
  | succ n ih =>
      intro m' h
      unfold Machine.wakeLoop
      cases m'.sched.head wq with
      | none => exact h
      | some u => exact ih (h.wakeupReturn wq u 0)

theorem wakeAll (h : m.Keeps m') (wq : Nat) : m.Keeps (m'.wakeAll cfg wq) := by
  unfold Machine.wakeAll
  split_ifs
  · exact wakeLoop wq 32 h
  · exact h

theorem semWait (wq : Nat) : m.Keeps (m.semWaitSvc cfg wq) := by
  refine checked fun i => ?_
  split_ifs
  · exact arg0 m 0
  · exact arg0 m 0

theorem semTrywait (wq : Nat) : m.Keeps (m.semTrywaitSvc cfg wq) := by
  refine checked fun i => ?_
  split_ifs
  · exact arg0 m 0
  · exact arg0 m eagain

theorem semTimedwait (wq : Nat) (ms : BitVec 32) : m.Keeps (m.semTimedwaitSvc cfg wq ms) := by
  refine checked fun i => ?_
  split_ifs
  · exact arg0 m 0
  · exact arg0 m etimedout

theorem semPostTo (h : m.Keeps m') (wq i : Nat) : m.Keeps (m'.semPostTo cfg wq i) := by
  unfold Machine.semPostTo
  cases m'.sched.head wq with
  | none => exact h
  | some u => exact h.wakeupReturn wq u 0

theorem evWait (wq : Nat) : m.Keeps (m.evWaitSvc cfg wq) := by
  refine checked fun i => ?_
  cases m.evReady i with
  | some ev => exact arg0 m ev
  | none => rfl

theorem evTimedwait (wq : Nat) (ms : BitVec 32) : m.Keeps (m.evTimedwaitSvc cfg wq ms) := by
  refine checked fun i => ?_
  cases m.evReady i with
  | some ev => exact arg0 m ev
  | none => exact arg0 m etimedout

theorem evRaiseTo (h : m.Keeps m') (wq no ev : Nat) : m.Keeps (m'.evRaiseTo cfg wq no ev) := by
  unfold Machine.evRaiseTo
  cases (if m'.evMask no ev = true then m'.sched.head wq else none) with
  | none => exact h
  | some u => exact h.wakeupReturn wq u ev

theorem evRaise (wq ev : Nat) : m.Keeps (m.evRaiseSvc cfg wq ev) := by
  unfold Machine.evRaiseSvc
  split_ifs
  · exact arg0 m einval
  · exact checked fun i => evRaiseTo rfl wq i ev

theorem evLoop (wq no : Nat) (mask : BitVec 32) : ∀ (n : Nat) {m' : Machine}, m.Keeps m' →
    m.Keeps (Machine.evLoop cfg wq no mask n m') := by
  intro n
  induction n with
  | zero => exact fun h => h
  | succ n ih =>
      intro m' h
      unfold Machine.evLoop
      cases m'.evPending no mask with
      | none => exact h
      | some ev =>
          cases m'.sched.head wq with
          | none => exact h
          | some u =>
              have hev : m.Keeps { m' with evPend := set2 m'.evPend no ev false } := h
              exact ih (hev.wakeupReturn wq u ev)

theorem evUnmask (wq : Nat) (mask : BitVec 32) : m.Keeps (m.evUnmaskSvc cfg wq mask) := by
  refine checked fun i => ?_
  dsimp only
  split_ifs
  · exact evLoop wq i mask 32 rfl
  · rfl

theorem flagWait (wq : Nat) : m.Keeps (m.flagWaitSvc cfg wq) := by
  refine checked fun i => ?_
  split_ifs
  · exact arg0 m 0
  · rfl

theorem flagTimedwait (wq : Nat) (ms : BitVec 32) : m.Keeps (m.flagTimedwaitSvc cfg wq ms) := by
  refine checked fun i => ?_
  split_ifs
  · exact arg0 m 0
  · exact arg0 m etimedout

theorem flagRelease (wq : Nat) (sig : Bool) : m.Keeps (m.flagReleaseSvc cfg wq sig) := by
  refine checked fun i => ?_
  have hwake : ∀ u, m.Keeps ((m.setArg0 0).wakeup cfg wq u) := fun u =>
    wakeupReturn (arg0 m 0) wq u 0
  dsimp only
  split_ifs
  · exact arg0 m 0
  · cases (m.setArg0 0).sched.head wq with
    | none => exact arg0 m 0
    | some u => exact hwake u
  · exact arg0 m 0
  · cases (m.setArg0 0).sched.head wq with
    | none => exact arg0 m 0
    | some u => exact hwake u

theorem flagTake (wq : Nat) : m.Keeps (m.flagTakeSvc cfg wq) := by
  refine checked fun i => ?_
  split_ifs
  · exact arg0 m 0
  · rfl

theorem flagTimedtake (wq : Nat) (ms : BitVec 32) : m.Keeps (m.flagTimedtakeSvc cfg wq ms) := by
  refine checked fun i => ?_
  split_ifs
  · exact arg0 m 0
  · exact arg0 m etimedout

theorem flagGiveTo (h : m.Keeps m') (wq i : Nat) : m.Keeps (m'.flagGiveTo cfg wq i) := by
  unfold Machine.flagGiveTo
  split_ifs
  · exact h
  · cases m'.sched.head wq with
    | none => exact h
    | some u => exact h.wakeupReturn wq u 0

theorem flagSetTo (h : m.Keeps m') (wq i : Nat) : m.Keeps (m'.flagSetTo cfg wq i) := by
  have hset : m.Keeps { m' with flagSig := set1 m'.flagSig i true } := h
  exact hset.wakeAll wq

theorem pause (th : Nat) : m.Keeps (m.pauseSvc cfg th) := by
  refine checked fun i => ?_
  dsimp only
  split_ifs
  · exact arg0 m 0
  · exact arg0 m 0

theorem resume (th : Nat) : m.Keeps (m.resumeSvc cfg th) := by
  refine checked fun i => ?_
  dsimp only
  split_ifs
  · exact arg0 m 0
  · exact arg0 m 0

theorem join (th : Nat) : m.Keeps (m.joinSvc cfg th) := by
  refine checked fun i => ?_
  dsimp only
  split_ifs
  · exact arg0 m (-1)
  · exact arg0 m (-1)

end Keeps

/-- A system call that neither creates, cancels or ends a thread nor waits for an interrupt. -/
theorem svcIsr_keeps {cfg : Config} (m : Machine) {c : Svc} (hc : ¬ c.Moves) :
    m.Keeps (m.svcIsr cfg c) := by
  cases c with
  | threadSelf => exact .setArg0 rfl _
  | threadCreate => exact absurd trivial hc
  | clock => exact .setArg0 rfl _
  | alarm => rfl
  | sleep => rfl
  | mutexLock wq => exact .mutexLock wq
  | mutexTrylock wq => exact .mutexTrylock wq
  | mutexTimedlock wq ms => exact .mutexTimedlock wq ms
  | mutexUnlock wq => exact .mutexUnlock wq
  | semInit => exact .checked fun _ => .setArg0 rfl 0
  | semWait wq => exact .semWait wq
  | semTrywait wq => exact .semTrywait wq
  | semTimedwait wq ms => exact .semTimedwait wq ms
  | semPost wq => exact .checked fun i => .semPostTo (.setArg0 rfl 0) wq i
  | condWait cwq mwq => exact .condWait cwq mwq
  | condTimedwait cwq mwq ms => exact .condTimedwait cwq mwq ms
  | condSignal cwq => exact .condSignal cwq
  | condBroadcast cwq => exact .checked fun _ => (Keeps.wakeAll rfl cwq).setArg0 0
  | flagClr => exact .checked fun _ => .arg0 m _
  | flagSet wq => exact .checked fun i => .flagSetTo (.setArg0 rfl _) wq i
  | flagWait wq => exact .flagWait wq
  | flagTimedwait wq ms => exact .flagTimedwait wq ms
  | flagRelease wq sig => exact .flagRelease wq sig
  | flagTake wq => exact .flagTake wq
  | flagTimedtake wq ms => exact .flagTimedtake wq ms
  | flagGive wq => exact .checked fun i => .flagGiveTo (.setArg0 rfl _) wq i
  | evWait wq => exact .evWait wq
  | evTimedwait wq ms => exact .evTimedwait wq ms
  | evRaise wq ev => exact .evRaise wq ev
  | evMask => exact .checked fun _ => rfl
  | evUnmask wq mask => exact .evUnmask wq mask
  | irqWait => exact absurd trivial hc
  | mutexAlloc => exact .alloced fun _ => rfl
  | mutexFree => exact .checked fun _ => rfl
  | semAlloc => exact .alloced fun _ => rfl
  | semFree => exact .checked fun _ => rfl
  | condAlloc => exact .alloced fun _ => rfl
  | condFree => exact .checked fun _ => rfl
  | flagAlloc => exact .alloced fun _ => rfl
  | flagFree => exact .checked fun _ => rfl
  | evAlloc => exact .alloced fun _ => rfl
  | evFree => exact .checked fun _ => rfl
  | yield => rfl
  | pause th => exact .pause th
  | resume th => exact .resume th
  | cancel => exact absurd trivial hc
  | join th => exact .join th
  | exit => exact absurd trivial hc

/-- A system call does not change who is active. -/
theorem svcIsr_active {cfg : Config} (m : Machine) (c : Svc) :
    (m.svcIsr cfg c).active = m.active := by
  cases c with
  | threadCreate arg stackPtr stackSize priority id paused =>
      show (m.threadCreateSvc cfg arg stackPtr stackSize priority id paused).active = m.active
      unfold threadCreateSvc
      cases m.threadSlot cfg id with
      | none => rfl
      | some th =>
          dsimp only
          split_ifs
          · rfl
          · rfl
          · rfl
  | irqWait irq =>
      show (m.irqWaitSvc cfg irq).active = m.active
      unfold irqWaitSvc
      split_ifs
      · rfl
      · rfl
  | cancel th code =>
      show (m.cancelSvc cfg th code).active = m.active
      unfold cancelSvc
      cases m.threadIdx cfg th with
      | none => rfl
      | some i => rfl
  | exit code => rfl
  | _ => exact (svcIsr_keeps m id).active

/-- Only a wait for an interrupt changes who waits for interrupts. -/
theorem svcIsr_irqs {cfg : Config} (m : Machine) {c : Svc} (hc : ∀ irq, c ≠ .irqWait irq) :
    (m.svcIsr cfg c).irqTh = m.irqTh ∧ (m.svcIsr cfg c).irqOn = m.irqOn := by
  cases c with
  | threadCreate arg stackPtr stackSize priority id paused =>
      show (m.threadCreateSvc cfg arg stackPtr stackSize priority id paused).irqTh = m.irqTh ∧
        (m.threadCreateSvc cfg arg stackPtr stackSize priority id paused).irqOn = m.irqOn
      unfold threadCreateSvc
      cases m.threadSlot cfg id with
      | none => exact ⟨rfl, rfl⟩
      | some th =>
          dsimp only
          split_ifs
          · exact ⟨rfl, rfl⟩
          · exact ⟨rfl, rfl⟩
          · exact ⟨rfl, rfl⟩
  | irqWait irq => exact absurd rfl (hc irq)
  | cancel th code =>
      show (m.cancelSvc cfg th code).irqTh = m.irqTh ∧ (m.cancelSvc cfg th code).irqOn = m.irqOn
      unfold cancelSvc
      cases m.threadIdx cfg th with
      | none => exact ⟨rfl, rfl⟩
      | some i => exact ⟨rfl, rfl⟩
  | exit code => exact ⟨rfl, rfl⟩
  | _ => exact ⟨(svcIsr_keeps m id).irqTh, (svcIsr_keeps m id).irqOn⟩

/-- A thread comes to wait for an interrupt by a call of its own. -/
theorem svcIsr_irqTh {cfg : Config} (m : Machine) (c : Svc) :
    (m.svcIsr cfg c).irqTh = m.irqTh ∨
      ∃ irq, (m.svcIsr cfg c).irqTh = set1 m.irqTh irq (some m.active) := by
  by_cases hirq : ∃ irq, c = .irqWait irq
  · obtain ⟨irq, rfl⟩ := hirq
    show (m.irqWaitSvc cfg irq).irqTh = m.irqTh ∨
      ∃ i, (m.irqWaitSvc cfg irq).irqTh = set1 m.irqTh i (some m.active)
    unfold irqWaitSvc
    split_ifs
    · exact Or.inl rfl
    · exact Or.inr ⟨irq, rfl⟩
  · exact Or.inl (m.svcIsr_irqs fun irq heq => hirq ⟨irq, heq⟩).1

end Machine

end YardIce.Thinkos
