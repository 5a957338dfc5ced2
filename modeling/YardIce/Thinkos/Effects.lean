import YardIce.Thinkos.Core

/-!
# What a system call does to the queues

About fifty system calls move threads between the queues in about ten ways. Every call is one of
these effects on the queues, on the allocation of the threads, and on the pending interrupt.
-/

namespace YardIce.Thinkos

/-- The queue of a mutex, a conditional variable, a semaphore, an event set or a flag. -/
def Config.IsObject (cfg : Config) (q : Nat) : Prop := cfg.mutexBase ≤ q ∧ q < cfg.joinBase

theorem Config.joinBase_le (cfg : Config) : cfg.joinBase + cfg.threadsMax ≤ 128 := by
  have hfits := cfg.fits
  unfold Config.joinBase Config.flagBase Config.eventBase Config.semBase Config.condBase
    Config.mutexBase Config.wqClock Config.wqPaused Config.wqCanceled
  split_ifs
  · omega
  · omega

namespace Sched

variable (cfg : Config) (σ : Sched)

/-- A thread is put into a queue, with a time or without. -/
def enqueue (q u : Nat) : Option (BitVec 32) → Sched
  | none => σ.wqInsert q u
  | some ms => σ.tmdwqInsert cfg q u ms

/-- A thread is put into the clock queue alone. -/
def asleep (u : Nat) (clock : BitVec 32) : Sched :=
  { σ.bit cfg.wqClock u true with
    clock := set1 σ.clock u clock, thStat := set1 σ.thStat u ((cfg.wqClock * 2 + 1) % 256) }

/-- A thread is paused. -/
def suspend (th : Nat) : Sched :=
  (Machine.offTmshare cfg ((σ.bit cfg.wqPaused th true).bit (σ.thStat th / 2) th false) th).bit
    cfg.wqClock th false

/-- A thread is put back to where it was when it was paused. -/
def takeUp (th : Nat) : Sched :=
  ((σ.bit cfg.wqPaused th false).bit (σ.thStat th / 2) th true).bit cfg.wqClock th true

/-- A thread is canceled. -/
def withdraw (th : Nat) : Sched :=
  (Machine.offTmshare cfg ((σ.bit (σ.thStat th / 2) th false).wqInsert cfg.wqCanceled th) th).bit
    cfg.wqClock th false

/-- A canceled thread may end. -/
def release (th : Nat) : Sched :=
  if σ.wq cfg.wqCanceled th = true then (σ.bit cfg.wqCanceled th false).bit wqReady th true else σ

/-- A new thread is put into a queue. -/
def enroll (th priority : Nat) (paused : Bool) : Sched :=
  (Machine.shareInit cfg σ th priority).bit (if paused then cfg.wqPaused else wqReady) th true

end Sched

/-- Some first threads of objects are waked up, one after the other. -/
inductive Wakes (cfg : Config) : Sched → Sched → Prop
  | refl {σ : Sched} : Wakes cfg σ σ
  | wake {σ τ : Sched} {q u : Nat} (h : Wakes cfg σ τ) (hq : cfg.IsObject q)
      (hu : τ.head q = some u) : Wakes cfg σ (τ.wakeup cfg q u)

/-- The queue in which a call waits, and its time. -/
def Svc.waits : Svc → Option (Nat × Option (BitVec 32))
  | .mutexLock wq | .semWait wq | .condWait wq _ | .flagWait wq | .flagTake wq | .evWait wq =>
      some (wq, none)
  | .mutexTimedlock wq ms | .semTimedwait wq ms | .condTimedwait wq _ ms | .flagTimedwait wq ms
  | .flagTimedtake wq ms | .evTimedwait wq ms => some (wq, some ms)
  | _ => none

/-- The calls that refill the ready queue by the other test. -/
def Svc.zeroTest : Svc → Bool
  | .semWait _ | .semTimedwait .. | .evWait _ | .evTimedwait .. => true
  | _ => false

/-- The effects of a system call of the thread `self`. -/
inductive Effect (cfg : Config) (c : Svc) (σ : Sched) (self : Nat) (alloc : Nat → Bool) :
    Sched → (Nat → Bool) → Bool → Prop
  | wakes {τ : Sched} (h : Wakes cfg σ τ) (d : Bool) : Effect cfg c σ self alloc τ alloc d
  | block {q : Nat} {ms : Option (BitVec 32)} (hq : cfg.IsObject q) (hc : c.waits = some (q, ms))
      (hz : c.zeroTest = false) :
      Effect cfg c σ self alloc ((σ.enqueue cfg q self ms).leave cfg self) alloc true
  | blockZero {q : Nat} {ms : Option (BitVec 32)} (hq : cfg.IsObject q)
      (hc : c.waits = some (q, ms)) (hz : c.zeroTest = true) :
      Effect cfg c σ self alloc ((σ.enqueue cfg q self ms).leaveZero cfg self) alloc true
  | blockWake {q p u : Nat} {ms : Option (BitVec 32)} (hq : cfg.IsObject q) (hp : cfg.IsObject p)
      (hne : q ≠ p) (hc : c.waits = some (q, ms)) (hz : c.zeroTest = false)
      (hu : (σ.enqueue cfg q self ms).head p = some u) :
      Effect cfg c σ self alloc (((σ.enqueue cfg q self ms).wakeup cfg p u).leave cfg self) alloc
        true
  | sleep {ms : BitVec 32} (hc : c = .sleep ms ∨ c = .alarm ms) (clock : BitVec 32) :
      Effect cfg c σ self alloc ((σ.asleep cfg self clock).leave cfg self) alloc true
  | irqWait {irq : Nat} (hc : c = .irqWait irq) :
      Effect cfg c σ self alloc (σ.leave cfg self) alloc true
  | pause {th : Nat} (hc : c = .pause th) (hth : th < cfg.threadsMax) (halloc : alloc th = true)
      (hp : σ.wq cfg.wqPaused th = false) :
      Effect cfg c σ self alloc (σ.suspend cfg th) alloc true
  | resume {th : Nat} (hc : c = .resume th) (hth : th < cfg.threadsMax) (halloc : alloc th = true)
      (hp : σ.wq cfg.wqPaused th = true) :
      Effect cfg c σ self alloc (σ.takeUp cfg th) alloc true
  | cancel {th : Nat} {code : Int} (hc : c = .cancel th code) (hth : th < cfg.threadsMax)
      (halloc : alloc th = true) (d : Bool) :
      Effect cfg c σ self alloc (σ.withdraw cfg th) alloc d
  | join {th : Nat} (hc : c = .join th) (hth : th < cfg.threadsMax) (halloc : alloc th = true) :
      Effect cfg c σ self alloc
        (((σ.release cfg th).wqInsert (cfg.joinBase + th) self).leave cfg self) alloc true
  | exit {code : Int} (hc : c = .exit code) :
      Effect cfg c σ self alloc (σ.wqInsert cfg.wqCanceled self) alloc true
  | createFails {arg : Int} {stackPtr stackSize priority id th : Nat} {paused : Bool}
      (hc : c = .threadCreate arg stackPtr stackSize priority id paused)
      (hsize : stackSize < Machine.contextSize) (hth : th < cfg.threadsMax)
      (hfree : alloc th = false) (d : Bool) : Effect cfg c σ self alloc σ (set1 alloc th true) d
  | create {arg : Int} {stackPtr stackSize priority id th : Nat} {paused : Bool}
      (hc : c = .threadCreate arg stackPtr stackSize priority id paused)
      (hth : th < cfg.threadsMax) (hfree : alloc th = false) (d : Bool) :
      Effect cfg c σ self alloc (σ.enroll cfg th priority paused) (set1 alloc th true) d

section Calls

variable {cfg : Config} {c : Svc} {m : Machine}

/-- A step of the machine has an effect of the call `c` by the active thread. -/
def Machine.Has (cfg : Config) (c : Svc) (m m' : Machine) : Prop :=
  Effect cfg c m.sched m.active m.thAlloc m'.sched m'.thAlloc m'.pendsv

theorem Has.quiet {m' : Machine} (hs : m'.sched = m.sched) (ha : m'.thAlloc = m.thAlloc) :
    m.Has cfg c m' := by
  unfold Machine.Has
  rw [hs, ha]
  exact .wakes .refl _

theorem Has.checked {o : Option Nat} {f : Nat → Machine}
    (h : ∀ i, o = some i → m.Has cfg c (f i)) : m.Has cfg c (m.checked o f) := by
  cases o with
  | none => exact Has.quiet rfl rfl
  | some i => exact h i rfl

theorem Has.alloced {o : Option Nat} {base : Nat} {f : Nat → Machine}
    (hs : ∀ i, (f i).sched = m.sched) (ha : ∀ i, (f i).thAlloc = m.thAlloc) :
    m.Has cfg c (m.alloced o base f) := by
  cases o with
  | none => exact Has.quiet rfl rfl
  | some i => exact Has.quiet (hs i) (ha i)

theorem objIdx_some {base max wq i : Nat} (h : objIdx base max wq = some i) :
    base ≤ wq ∧ wq < base + max ∧ i = wq - base := by
  unfold objIdx at h
  split_ifs at h with hwq
  exact ⟨hwq.1, hwq.2, (Option.some.inj h).symm⟩

theorem filter_some {α : Type} {o : Option α} {p : α → Bool} {a : α}
    (h : o.filter p = some a) : o = some a ∧ p a = true := by
  cases o with
  | none => cases h
  | some b =>
      rw [Option.filter_some] at h
      split_ifs at h with hp
      obtain rfl := Option.some.inj h
      exact ⟨rfl, hp⟩

/-- The queues of the objects, in their order. -/
theorem Config.bases (cfg : Config) : cfg.condBase = cfg.mutexBase + cfg.mutexMax ∧
    cfg.semBase = cfg.condBase + cfg.condMax ∧ cfg.eventBase = cfg.semBase + cfg.semMax ∧
    cfg.flagBase = cfg.eventBase + cfg.eventMax ∧ cfg.joinBase = cfg.flagBase + cfg.flagMax :=
  ⟨rfl, rfl, rfl, rfl, rfl⟩

theorem mutexIdx_object {wq i : Nat} (h : m.mutexIdx cfg wq = some i) : cfg.IsObject wq := by
  obtain ⟨hlo, hhi, -⟩ := objIdx_some (filter_some h).1
  obtain ⟨h₁, h₂, h₃, h₄, h₅⟩ := cfg.bases
  exact ⟨hlo, by omega⟩

theorem condIdx_object {wq i : Nat} (h : m.condIdx cfg wq = some i) : cfg.IsObject wq := by
  obtain ⟨hlo, hhi, -⟩ := objIdx_some (filter_some h).1
  obtain ⟨h₁, h₂, h₃, h₄, h₅⟩ := cfg.bases
  exact ⟨by omega, by omega⟩

theorem semBase_object {wq i : Nat} (h : objIdx cfg.semBase cfg.semMax wq = some i) :
    cfg.IsObject wq := by
  obtain ⟨hlo, hhi, -⟩ := objIdx_some h
  obtain ⟨h₁, h₂, h₃, h₄, h₅⟩ := cfg.bases
  exact ⟨by omega, by omega⟩

theorem semIdx_object {wq i : Nat} (h : m.semIdx cfg wq = some i) : cfg.IsObject wq :=
  semBase_object (filter_some h).1

theorem eventBase_object {wq i : Nat} (h : objIdx cfg.eventBase cfg.eventMax wq = some i) :
    cfg.IsObject wq := by
  obtain ⟨hlo, hhi, -⟩ := objIdx_some h
  obtain ⟨h₁, h₂, h₃, h₄, h₅⟩ := cfg.bases
  exact ⟨by omega, by omega⟩

theorem evIdx_object {wq i : Nat} (h : m.evIdx cfg wq = some i) : cfg.IsObject wq :=
  eventBase_object (filter_some h).1

theorem flagBase_object {wq i : Nat} (h : objIdx cfg.flagBase cfg.flagMax wq = some i) :
    cfg.IsObject wq := by
  obtain ⟨hlo, hhi, -⟩ := objIdx_some h
  obtain ⟨h₁, h₂, h₃, h₄, h₅⟩ := cfg.bases
  exact ⟨by omega, by omega⟩

theorem flagIdx_object {wq i : Nat} (h : m.flagIdx cfg wq = some i) : cfg.IsObject wq :=
  flagBase_object (filter_some h).1

theorem threadIdx_some {th i : Nat} (h : m.threadIdx cfg th = some i) :
    i = th ∧ th < cfg.threadsMax ∧ m.thAlloc th = true := by
  obtain ⟨hth, halloc⟩ := filter_some h
  split_ifs at hth with hlt
  obtain rfl := Option.some.inj hth
  exact ⟨rfl, hlt, halloc⟩

/-! ## The calls one by one -/

theorem has_mutexLock (wq : Nat) : m.Has cfg (.mutexLock wq) (m.mutexLockSvc cfg wq) := by
  refine Has.checked fun i hi => ?_
  split_ifs
  · exact Has.quiet rfl rfl
  · exact Has.quiet rfl rfl
  · exact Effect.block (c := .mutexLock wq) (mutexIdx_object hi) rfl rfl

theorem has_mutexTrylock (wq : Nat) : m.Has cfg (.mutexTrylock wq) (m.mutexTrylockSvc cfg wq) := by
  refine Has.checked fun i hi => ?_
  split_ifs
  · exact Has.quiet rfl rfl
  · exact Has.quiet rfl rfl
  · exact Has.quiet rfl rfl

theorem has_mutexTimedlock (wq : Nat) (ms : BitVec 32) :
    m.Has cfg (.mutexTimedlock wq ms) (m.mutexTimedlockSvc cfg wq ms) := by
  refine Has.checked fun i hi => ?_
  split_ifs
  · exact Has.quiet rfl rfl
  · exact Has.quiet rfl rfl
  · exact Effect.block (c := .mutexTimedlock wq ms) (mutexIdx_object hi) rfl rfl

/-- One thread is waked up. -/
theorem Has.wake {m' : Machine} {q u : Nat} (hq : cfg.IsObject q) (hu : m.sched.head q = some u)
    (hs : m'.sched = m.sched.wakeup cfg q u) (ha : m'.thAlloc = m.thAlloc) : m.Has cfg c m' := by
  unfold Machine.Has
  rw [hs, ha]
  exact .wakes (.wake .refl hq hu) _

theorem has_mutexUnlock (wq : Nat) : m.Has cfg (.mutexUnlock wq) (m.mutexUnlockSvc cfg wq) := by
  refine Has.checked fun i hi => ?_
  by_cases hlock : m.lock i ≠ some m.active
  · rw [if_pos hlock]
    exact Has.quiet rfl rfl
  · rw [if_neg hlock]
    unfold Machine.passLock
    cases hhead : m.sched.head wq with
    | none => exact Has.quiet rfl rfl
    | some u => exact Has.wake (mutexIdx_object hi) hhead rfl rfl

theorem condIdx_ne_mutexIdx {cwq mwq i j : Nat} (hi : m.condIdx cfg cwq = some i)
    (hj : m.mutexIdx cfg mwq = some j) : cwq ≠ mwq := by
  obtain ⟨hlo, -, -⟩ := objIdx_some (filter_some hi).1
  obtain ⟨-, hhi, -⟩ := objIdx_some (filter_some hj).1
  obtain ⟨h₁, -⟩ := cfg.bases
  omega

/-- The caller goes to the queue of a conditional variable, and its mutex to another thread. -/
theorem has_condBlock {cwq mwq i j : Nat} (hi : m.condIdx cfg cwq = some i)
    (hj : m.mutexIdx cfg mwq = some j) {ms : Option (BitVec 32)} (hc : c.waits = some (cwq, ms))
    (hz : c.zeroTest = false) (m' : Machine) {m'' : Machine}
    (hs : m'.sched = m.sched.enqueue cfg cwq m.active ms) (ha : m'.thAlloc = m.thAlloc)
    (hs' : m''.sched = (m'.passLock cfg mwq j).sched.leave cfg m.active)
    (ha' : m''.thAlloc = (m'.passLock cfg mwq j).thAlloc) (hp : m''.pendsv = true) :
    m.Has cfg c m'' := by
  unfold Machine.Has
  rw [hs', ha', hp]
  unfold Machine.passLock
  cases hhead : m'.sched.head mwq with
  | none =>
      show Effect cfg c m.sched m.active m.thAlloc (m'.sched.leave cfg m.active) m'.thAlloc true
      rw [hs, ha]
      exact .block (condIdx_object hi) hc hz
  | some u =>
      show Effect cfg c m.sched m.active m.thAlloc ((m'.sched.wakeup cfg mwq u).leave cfg m.active)
        m'.thAlloc true
      rw [hs] at hhead
      rw [hs, ha]
      exact .blockWake (condIdx_object hi) (mutexIdx_object hj) (condIdx_ne_mutexIdx hi hj) hc hz
        hhead

theorem has_condWait (cwq mwq : Nat) :
    m.Has cfg (.condWait cwq mwq) (m.condWaitSvc cfg cwq mwq) := by
  refine Has.checked fun i hi => Has.checked fun j hj => ?_
  by_cases hlock : m.lock j ≠ some m.active
  · rw [if_pos hlock]
    exact Has.quiet rfl rfl
  · rw [if_neg hlock]
    exact has_condBlock hi hj rfl rfl (m.wqInsert cwq m.active) rfl rfl rfl rfl rfl

theorem has_condTimedwait (cwq mwq : Nat) (ms : BitVec 32) :
    m.Has cfg (.condTimedwait cwq mwq ms) (m.condTimedwaitSvc cfg cwq mwq ms) := by
  refine Has.checked fun j hj => Has.checked fun i hi => ?_
  by_cases hlock : m.lock j ≠ some m.active
  · rw [if_pos hlock]
    exact Has.quiet rfl rfl
  · rw [if_neg hlock]
    exact has_condBlock hi hj rfl rfl (m.tmdwqInsert cfg cwq m.active ms) rfl rfl rfl rfl rfl

theorem has_condSignal (cwq : Nat) : m.Has cfg (.condSignal cwq) (m.condSignalSvc cfg cwq) := by
  refine Has.checked fun i hi => ?_
  cases hhead : m.sched.head cwq with
  | none => exact Has.quiet rfl rfl
  | some u => exact Has.wake (condIdx_object hi) hhead rfl rfl

theorem wakeLoop_wakes {q : Nat} (hq : cfg.IsObject q) {σ : Sched} : ∀ (n : Nat) {m : Machine},
    Wakes cfg σ m.sched → Wakes cfg σ (Machine.wakeLoop cfg q n m).sched ∧
      (Machine.wakeLoop cfg q n m).thAlloc = m.thAlloc := by
  intro n
  induction n with
  | zero => exact fun h => ⟨h, rfl⟩
  | succ n ih =>
      intro m h
      unfold Machine.wakeLoop
      cases hhead : m.sched.head q with
      | none => exact ⟨h, rfl⟩
      | some u => exact ih (m := m.wakeup cfg q u) (.wake h hq hhead)

theorem wakeAll_wakes {q : Nat} (hq : cfg.IsObject q) (m : Machine) :
    Wakes cfg m.sched (m.wakeAll cfg q).sched ∧ (m.wakeAll cfg q).thAlloc = m.thAlloc := by
  unfold Machine.wakeAll
  by_cases hhead : (m.sched.head q).isSome = true
  · rw [if_pos hhead]
    exact wakeLoop_wakes hq 32 .refl
  · rw [if_neg hhead]
    exact ⟨.refl, rfl⟩

theorem Has.of_wakes {m' : Machine} (h : Wakes cfg m.sched m'.sched ∧ m'.thAlloc = m.thAlloc) :
    m.Has cfg c m' := by
  unfold Machine.Has
  rw [h.2]
  exact .wakes h.1 _

theorem has_condBroadcast (cwq : Nat) :
    m.Has cfg (.condBroadcast cwq) (m.condBroadcastSvc cfg cwq) :=
  Has.checked fun _ hi => Has.of_wakes (wakeAll_wakes (condIdx_object hi) m)

theorem has_semWait (wq : Nat) : m.Has cfg (.semWait wq) (m.semWaitSvc cfg wq) := by
  refine Has.checked fun i hi => ?_
  split_ifs
  · exact Has.quiet rfl rfl
  · exact Effect.blockZero (c := .semWait wq) (semIdx_object hi) rfl rfl

theorem has_semTrywait (wq : Nat) : m.Has cfg (.semTrywait wq) (m.semTrywaitSvc cfg wq) := by
  refine Has.checked fun i hi => ?_
  split_ifs
  · exact Has.quiet rfl rfl
  · exact Has.quiet rfl rfl

theorem has_semTimedwait (wq : Nat) (ms : BitVec 32) :
    m.Has cfg (.semTimedwait wq ms) (m.semTimedwaitSvc cfg wq ms) := by
  refine Has.checked fun i hi => ?_
  split_ifs
  · exact Has.quiet rfl rfl
  · exact Effect.blockZero (c := .semTimedwait wq ms) (semIdx_object hi) rfl rfl

theorem semPostTo_wakes {wq sem : Nat} (hq : cfg.IsObject wq) (m : Machine) :
    Wakes cfg m.sched (m.semPostTo cfg wq sem).sched ∧
      (m.semPostTo cfg wq sem).thAlloc = m.thAlloc := by
  unfold Machine.semPostTo
  cases hhead : m.sched.head wq with
  | none => exact ⟨.refl, rfl⟩
  | some u => exact ⟨.wake .refl hq hhead, rfl⟩

theorem has_semPost (wq : Nat) : m.Has cfg (.semPost wq) (m.semPostSvc cfg wq) :=
  Has.checked fun _ hi => Has.of_wakes (semPostTo_wakes (semIdx_object hi) (m.setArg0 0))

theorem has_evWait (wq : Nat) : m.Has cfg (.evWait wq) (m.evWaitSvc cfg wq) := by
  refine Has.checked fun i hi => ?_
  cases m.evReady i with
  | some ev => exact Has.quiet rfl rfl
  | none => exact Effect.blockZero (c := .evWait wq) (evIdx_object hi) rfl rfl

theorem has_evTimedwait (wq : Nat) (ms : BitVec 32) :
    m.Has cfg (.evTimedwait wq ms) (m.evTimedwaitSvc cfg wq ms) := by
  refine Has.checked fun i hi => ?_
  cases m.evReady i with
  | some ev => exact Has.quiet rfl rfl
  | none => exact Effect.blockZero (c := .evTimedwait wq ms) (evIdx_object hi) rfl rfl

theorem evRaiseTo_wakes {wq no ev : Nat} (hq : cfg.IsObject wq) (m : Machine) :
    Wakes cfg m.sched (m.evRaiseTo cfg wq no ev).sched ∧
      (m.evRaiseTo cfg wq no ev).thAlloc = m.thAlloc := by
  unfold Machine.evRaiseTo
  by_cases hmask : m.evMask no ev = true
  · rw [if_pos hmask]
    cases hhead : m.sched.head wq with
    | none => exact ⟨.refl, rfl⟩
    | some u => exact ⟨.wake .refl hq hhead, rfl⟩
  · rw [if_neg hmask]
    exact ⟨.refl, rfl⟩

theorem has_evRaise (wq ev : Nat) : m.Has cfg (.evRaise wq ev) (m.evRaiseSvc cfg wq ev) := by
  unfold Machine.evRaiseSvc
  split_ifs
  · exact Has.quiet rfl rfl
  · exact Has.checked fun i hi => Has.of_wakes (evRaiseTo_wakes (evIdx_object hi) m)

theorem evLoop_wakes {q no : Nat} (hq : cfg.IsObject q) (mask : BitVec 32) {σ : Sched} :
    ∀ (n : Nat) {m : Machine}, Wakes cfg σ m.sched →
      Wakes cfg σ (Machine.evLoop cfg q no mask n m).sched ∧
        (Machine.evLoop cfg q no mask n m).thAlloc = m.thAlloc := by
  intro n
  induction n with
  | zero => exact fun h => ⟨h, rfl⟩
  | succ n ih =>
      intro m h
      unfold Machine.evLoop
      cases hev : m.evPending no mask with
      | none => exact ⟨h, rfl⟩
      | some ev =>
          cases hhead : m.sched.head q with
          | none => exact ⟨h, rfl⟩
          | some u => exact ih (.wake h hq hhead)

theorem has_evUnmask (wq : Nat) (mask : BitVec 32) :
    m.Has cfg (.evUnmask wq mask) (m.evUnmaskSvc cfg wq mask) := by
  refine Has.checked fun i hi => ?_
  dsimp only
  split_ifs
  · exact Has.of_wakes (evLoop_wakes (evIdx_object hi) mask 32 .refl)
  · exact Has.quiet rfl rfl

theorem has_flagWait (wq : Nat) : m.Has cfg (.flagWait wq) (m.flagWaitSvc cfg wq) := by
  refine Has.checked fun i hi => ?_
  split_ifs
  · exact Has.quiet rfl rfl
  · exact Effect.block (c := .flagWait wq) (flagIdx_object hi) rfl rfl

theorem has_flagTimedwait (wq : Nat) (ms : BitVec 32) :
    m.Has cfg (.flagTimedwait wq ms) (m.flagTimedwaitSvc cfg wq ms) := by
  refine Has.checked fun i hi => ?_
  split_ifs
  · exact Has.quiet rfl rfl
  · exact Effect.block (c := .flagTimedwait wq ms) (flagIdx_object hi) rfl rfl

theorem has_flagRelease (wq : Nat) (sig : Bool) :
    m.Has cfg (.flagRelease wq sig) (m.flagReleaseSvc cfg wq sig) := by
  refine Has.checked fun i hi => ?_
  dsimp only
  split_ifs
  · exact Has.quiet rfl rfl
  · cases hhead : m.sched.head wq with
    | none =>
        rw [show ∀ v, (m.setArg0 v).sched = m.sched from fun _ => rfl, hhead]
        exact Has.quiet rfl rfl
    | some u =>
        rw [show ∀ v, (m.setArg0 v).sched = m.sched from fun _ => rfl, hhead]
        exact Has.wake (flagIdx_object hi) hhead rfl rfl
  · exact Has.quiet rfl rfl
  · cases hhead : m.sched.head wq with
    | none =>
        rw [show ∀ v, (m.setArg0 v).sched = m.sched from fun _ => rfl, hhead]
        exact Has.quiet rfl rfl
    | some u =>
        rw [show ∀ v, (m.setArg0 v).sched = m.sched from fun _ => rfl, hhead]
        exact Has.wake (flagIdx_object hi) hhead rfl rfl

theorem has_flagTake (wq : Nat) : m.Has cfg (.flagTake wq) (m.flagTakeSvc cfg wq) := by
  refine Has.checked fun i hi => ?_
  split_ifs
  · exact Has.quiet rfl rfl
  · exact Effect.block (c := .flagTake wq) (flagIdx_object hi) rfl rfl

theorem has_flagTimedtake (wq : Nat) (ms : BitVec 32) :
    m.Has cfg (.flagTimedtake wq ms) (m.flagTimedtakeSvc cfg wq ms) := by
  refine Has.checked fun i hi => ?_
  split_ifs
  · exact Has.quiet rfl rfl
  · exact Effect.block (c := .flagTimedtake wq ms) (flagIdx_object hi) rfl rfl

theorem flagGiveTo_wakes {wq i : Nat} (hq : cfg.IsObject wq) (m : Machine) :
    Wakes cfg m.sched (m.flagGiveTo cfg wq i).sched ∧
      (m.flagGiveTo cfg wq i).thAlloc = m.thAlloc := by
  unfold Machine.flagGiveTo
  by_cases hsig : m.flagSig i = true
  · rw [if_pos hsig]
    exact ⟨.refl, rfl⟩
  · rw [if_neg hsig]
    cases hhead : m.sched.head wq with
    | none => exact ⟨.refl, rfl⟩
    | some u => exact ⟨.wake .refl hq hhead, rfl⟩

theorem has_flagGive (wq : Nat) : m.Has cfg (.flagGive wq) (m.flagGiveSvc cfg wq) :=
  Has.checked fun _ hi => Has.of_wakes (flagGiveTo_wakes (flagIdx_object hi) (m.setArg0 _))

theorem flagSetTo_wakes {wq i : Nat} (hq : cfg.IsObject wq) (m : Machine) :
    Wakes cfg m.sched (m.flagSetTo cfg wq i).sched ∧
      (m.flagSetTo cfg wq i).thAlloc = m.thAlloc := by
  unfold Machine.flagSetTo
  exact wakeAll_wakes hq { m with flagSig := set1 m.flagSig i true }

theorem has_flagSet (wq : Nat) : m.Has cfg (.flagSet wq) (m.flagSetSvc cfg wq) := by
  refine Has.checked fun i hi => ?_
  obtain ⟨hwakes, halloc⟩ :=
    flagSetTo_wakes (i := i) (flagIdx_object hi) (m.setArg0 (if m.flagSig i then 1 else 0))
  exact Has.of_wakes ⟨hwakes, halloc⟩

theorem has_irqWait (irq : Nat) : m.Has cfg (.irqWait irq) (m.irqWaitSvc cfg irq) := by
  unfold Machine.irqWaitSvc
  split_ifs
  · exact Has.quiet rfl rfl
  · exact .irqWait rfl

/-! ## The calls on threads -/

theorem has_resume (th : Nat) : m.Has cfg (.resume th) (m.resumeSvc cfg th) := by
  refine Has.checked fun i hi => ?_
  obtain ⟨rfl, hth, halloc⟩ := threadIdx_some hi
  dsimp only
  by_cases hp : m.sched.wq cfg.wqPaused i = false
  · rw [if_pos (by exact hp)]
    exact Has.quiet rfl rfl
  · rw [if_neg (by exact hp)]
    exact .resume rfl hth halloc (Bool.not_eq_false _ ▸ hp)

theorem has_pause (th : Nat) : m.Has cfg (.pause th) (m.pauseSvc cfg th) := by
  refine Has.checked fun i hi => ?_
  obtain ⟨rfl, hth, halloc⟩ := threadIdx_some hi
  dsimp only
  by_cases hp : m.sched.wq cfg.wqPaused i = true
  · rw [if_pos (by exact hp)]
    exact Has.quiet rfl rfl
  · rw [if_neg (by exact hp)]
    exact .pause rfl hth halloc (Bool.not_eq_true _ ▸ hp)

theorem has_cancel (th : Nat) (code : Int) :
    m.Has cfg (.cancel th code) (m.cancelSvc cfg th code) := by
  refine Has.checked fun i hi => ?_
  obtain ⟨rfl, hth, halloc⟩ := threadIdx_some hi
  exact .cancel rfl hth halloc _

theorem has_join (th : Nat) : m.Has cfg (.join th) (m.joinSvc cfg th) := by
  refine Has.checked fun i hi => ?_
  obtain ⟨rfl, hth, halloc⟩ := threadIdx_some hi
  have hjoin : Effect cfg (.join i) m.sched m.active m.thAlloc _ _ true := .join rfl hth halloc
  unfold Sched.release at hjoin
  by_cases hc : m.sched.wq cfg.wqCanceled i = true
  · rw [if_pos hc] at hjoin
    dsimp only
    rw [if_pos hc]
    exact hjoin
  · rw [if_neg hc] at hjoin
    dsimp only
    rw [if_neg hc]
    exact hjoin

theorem has_exit (code : Int) : m.Has cfg (.exit code) (m.exitSvc cfg code) := .exit rfl

theorem find?_some {l : List Nat} {p : Nat → Bool} {i : Nat} (h : l.find? p = some i) :
    i ∈ l ∧ p i = true := ⟨List.mem_of_find?_eq_some h, List.find?_some h⟩

/-- The slot for a new thread is a free one. -/
theorem threadSlot_some (hidle : ∀ i, cfg.threadsMax ≤ i → m.thAlloc i = true) {id th : Nat}
    (h : m.threadSlot cfg id = some th) : th < cfg.threadsMax ∧ m.thAlloc th = false := by
  have hfree : m.thAlloc th = false := by
    unfold Machine.threadSlot at h
    split_ifs at h
    · have hp := (find?_some h).2
      rwa [Bool.not_eq_true'] at hp
    · rcases Option.or_eq_some_iff.mp h with hlo | ⟨-, hhi⟩
      · have hp := (find?_some hlo).2
        rw [Bool.and_eq_true, Bool.not_eq_true'] at hp
        exact hp.2
      · have hp := (find?_some hhi).2
        rwa [Bool.not_eq_true'] at hp
  refine ⟨?_, hfree⟩
  by_contra hge
  rw [hidle th (not_lt.mp hge)] at hfree
  cases hfree

theorem has_threadCreate (hidle : ∀ i, cfg.threadsMax ≤ i → m.thAlloc i = true) (arg : Int)
    (stackPtr stackSize priority id : Nat) (paused : Bool) :
    m.Has cfg (.threadCreate arg stackPtr stackSize priority id paused)
      (m.threadCreateSvc cfg arg stackPtr stackSize priority id paused) := by
  unfold Machine.threadCreateSvc
  cases hslot : m.threadSlot cfg id with
  | none => exact Has.quiet rfl rfl
  | some th =>
      obtain ⟨hth, hfree⟩ := threadSlot_some hidle hslot
      dsimp only
      by_cases hsmall : stackSize < Machine.contextSize
      · rw [if_pos hsmall]
        exact .createFails rfl hsmall hth hfree _
      · rw [if_neg hsmall]
        cases paused with
        | false => exact .create rfl hth hfree _
        | true => exact .create rfl hth hfree _

/-- A system call has an effect of the caller. -/
theorem svcIsr_has (hidle : ∀ i, cfg.threadsMax ≤ i → m.thAlloc i = true) (c : Svc) :
    m.Has cfg c (m.svcIsr cfg c) := by
  cases c with
  | threadSelf => exact Has.quiet rfl rfl
  | threadCreate arg stackPtr stackSize priority id paused =>
      exact has_threadCreate hidle arg stackPtr stackSize priority id paused
  | clock => exact Has.quiet rfl rfl
  | alarm ms => exact .sleep (.inr rfl) ms
  | sleep ms => exact .sleep (.inl rfl) (m.sched.ticks + ms)
  | mutexLock wq => exact has_mutexLock wq
  | mutexTrylock wq => exact has_mutexTrylock wq
  | mutexTimedlock wq ms => exact has_mutexTimedlock wq ms
  | mutexUnlock wq => exact has_mutexUnlock wq
  | semInit wq value => exact Has.checked fun _ _ => Has.quiet rfl rfl
  | semWait wq => exact has_semWait wq
  | semTrywait wq => exact has_semTrywait wq
  | semTimedwait wq ms => exact has_semTimedwait wq ms
  | semPost wq => exact has_semPost wq
  | condWait cwq mwq => exact has_condWait cwq mwq
  | condTimedwait cwq mwq ms => exact has_condTimedwait cwq mwq ms
  | condSignal cwq => exact has_condSignal cwq
  | condBroadcast cwq => exact has_condBroadcast cwq
  | flagClr wq => exact Has.checked fun _ _ => Has.quiet rfl rfl
  | flagSet wq => exact has_flagSet wq
  | flagWait wq => exact has_flagWait wq
  | flagTimedwait wq ms => exact has_flagTimedwait wq ms
  | flagRelease wq sig => exact has_flagRelease wq sig
  | flagTake wq => exact has_flagTake wq
  | flagTimedtake wq ms => exact has_flagTimedtake wq ms
  | flagGive wq => exact has_flagGive wq
  | evWait wq => exact has_evWait wq
  | evTimedwait wq ms => exact has_evTimedwait wq ms
  | evRaise wq ev => exact has_evRaise wq ev
  | evMask wq mask => exact Has.checked fun _ _ => Has.quiet rfl rfl
  | evUnmask wq mask => exact has_evUnmask wq mask
  | irqWait irq => exact has_irqWait irq
  | mutexAlloc => exact Has.alloced (fun _ => rfl) fun _ => rfl
  | mutexFree wq => exact Has.checked fun _ _ => Has.quiet rfl rfl
  | semAlloc value => exact Has.alloced (fun _ => rfl) fun _ => rfl
  | semFree wq => exact Has.checked fun _ _ => Has.quiet rfl rfl
  | condAlloc => exact Has.alloced (fun _ => rfl) fun _ => rfl
  | condFree wq => exact Has.checked fun _ _ => Has.quiet rfl rfl
  | flagAlloc => exact Has.alloced (fun _ => rfl) fun _ => rfl
  | flagFree wq => exact Has.checked fun _ _ => Has.quiet rfl rfl
  | evAlloc => exact Has.alloced (fun _ => rfl) fun _ => rfl
  | evFree wq => exact Has.checked fun _ _ => Has.quiet rfl rfl
  | yield => exact Has.quiet rfl rfl
  | pause th => exact has_pause th
  | resume th => exact has_resume th
  | cancel th code => exact has_cancel th code
  | join th => exact has_join th
  | exit code => exact has_exit code

end Calls

end YardIce.Thinkos
