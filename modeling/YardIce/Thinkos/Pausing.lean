import YardIce.Thinkos.Sane

/-!
# Pause and resume

`thinkos_pause` takes a thread out of the queue in which it waits, and `thinkos_resume` puts it
back by its saved state. Whatever happens in between leaves the thread where it is, so that the
state of the object and the kind of the wait decide what the resume does.
-/

namespace YardIce.Thinkos

namespace Machine

variable (cfg : Config) (m : Machine)

/-- The queue of a mutex, a semaphore, an event set or a flag. -/
def IsAwaited (q : Nat) : Prop :=
  (objIdx cfg.mutexBase cfg.mutexMax q).isSome ∨ (objIdx cfg.semBase cfg.semMax q).isSome ∨
    (objIdx cfg.eventBase cfg.eventMax q).isSome ∨ (objIdx cfg.flagBase cfg.flagMax q).isSome

/-- The object of a queue is available: a free mutex, a positive semaphore, an event set with a
pending event that is not masked, a set flag. -/
def available (q : Nat) : Bool :=
  (objIdx cfg.mutexBase cfg.mutexMax q).any (fun i => (m.lock i).isNone) ||
    (objIdx cfg.semBase cfg.semMax q).any (fun i => decide (0 < m.semVal i)) ||
    (objIdx cfg.eventBase cfg.eventMax q).any (fun i => (m.evReady i).isSome) ||
    (objIdx cfg.flagBase cfg.flagMax q).any m.flagSig

/-- A thread waits for an object, with a time or without, and for nothing else; it may have
been charged by a tick at the moment it blocked. -/
def Blocked (th q : Nat) : Prop :=
  th < cfg.threadsMax ∧ m.thAlloc th = true ∧ IsAwaited cfg q ∧ m.sched.thStat th / 2 = q ∧
    m.sched.wq q th = true ∧
    ∀ p < cfg.wqEnd, p ≠ q → p ≠ cfg.wqClock → ¬ (cfg.timeshare = true ∧ p = wqTmshare) →
      m.sched.wq p th = false

instance (th q : Nat) : Decidable (m.Blocked cfg th q) := by
  unfold Blocked IsAwaited
  infer_instance

/-- A step in which the thread is neither resumed nor canceled, and that is not an interrupt for
which it is registered. -/
def Apart (th : Nat) : Event → Prop
  | .svc (.resume u) _ => u ≠ th
  | .svc (.cancel u _) _ => u ≠ th
  | .isr (.irq irq) => m.irqTh irq ≠ some th
  | _ => True

instance (th : Nat) : DecidablePred (m.Apart th) := fun e => by
  unfold Apart
  split <;> infer_instance

/-- The wait of the thread can end by a timeout: in a run along which its state does not change,
a tick finds that its time has come. -/
def TimesOut (th : Nat) : Prop :=
  ∃ es m', Lib.Along (step cfg) (fun n _ => n.sched.thStat th = m.sched.thStat th) m es ∧
    Lib.exec (step cfg) m es = some m' ∧ m'.sched.thStat th = m.sched.thStat th ∧
      th ∈ m'.sched.nextTick.due cfg

/-- The pause was transparent: the thread is not left waiting for an object that is available,
and a wait without a time neither ends by a timeout nor is in the clock queue. -/
structure Transparent (th q : Nat) (timed : Prop) : Prop where
  notLeft : m.sched.wq q th = true → m.available cfg q = false
  untimed : ¬ timed → ¬ m.TimesOut cfg th
  clock : ¬ timed → m.sched.wq cfg.wqClock th = false

end Machine

/-! ## The row of a paused thread -/

namespace Sched

/-- The row of a paused thread. -/
structure Aside (cfg : Config) (th s : Nat) (σ : Sched) : Prop where
  stat : σ.thStat th = s
  paused : σ.wq cfg.wqPaused th = true
  nowhere : ∀ p < cfg.wqEnd, p ≠ cfg.wqPaused → σ.wq p th = false

namespace Aside

variable {cfg : Config} {th s u : Nat} {σ τ : Sched}

theorem of_same (h : σ.Aside cfg th s) (hs : SameBut u σ τ) (hu : th ≠ u) : τ.Aside cfg th s :=
  ⟨(hs.stat th hu).trans h.stat, (hs.wq _ th hu).trans h.paused,
    fun p hp hne => (hs.wq p th hu).trans (h.nowhere p hp hne)⟩

/-- The queues with numbers below the end that are not for pausing. -/
theorem object_lt {q : Nat} (hq : cfg.IsObject q) : q < cfg.wqEnd ∧ q ≠ cfg.wqPaused := by
  obtain ⟨-, -, -, -, -, h₆, -⟩ := cfg.first_queues
  have := hq.2
  exact ⟨by omega, hq.first.2.2.1⟩

theorem ready_lt : wqReady < cfg.wqEnd ∧ wqReady ≠ cfg.wqPaused := by
  obtain ⟨h₁, h₂, h₃, h₄, h₅, h₆, -⟩ := cfg.first_queues
  exact ⟨by omega, by omega⟩

theorem head_ne (h : σ.Aside cfg th s) {q : Nat} (hq : q < cfg.wqEnd ∧ q ≠ cfg.wqPaused)
    (hu : σ.head q = some u) : th ≠ u := by
  rintro rfl
  have hbit := (find?_some hu).2
  exact absurd ((h.nowhere q hq.1 hq.2).symm.trans hbit) (by decide)

theorem collected (h : σ.Aside cfg th s) (hshare : cfg.timeshare = true) :
    σ.collected.Aside cfg th s := by
  obtain ⟨h₁, h₂, h₃, h₄, h₅, h₆, -, h₇⟩ := cfg.first_queues
  have h₈ := h₇ hshare
  have htmshare := h.nowhere wqTmshare (by omega) (by omega)
  have hready := h.nowhere wqReady (by omega) (by omega)
  refine ⟨h.stat, ?_, fun p hp hne => ?_⟩
  · unfold Sched.collected
    dsimp only
    rw [if_neg (by omega), if_neg (by omega)]
    exact h.paused
  · unfold Sched.collected
    dsimp only
    split_ifs
    · rw [hready, htmshare]
      rfl
    · rfl
    · exact h.nowhere p hp hne

theorem collect (h : σ.Aside cfg th s) : (σ.collect cfg).Aside cfg th s := by
  unfold Sched.collect
  split_ifs with hand
  · exact h.collected hand.1
  · exact h

theorem leave (h : σ.Aside cfg th s) (hu : th ≠ u) : (σ.leave cfg u).Aside cfg th s :=
  (h.of_same ((SameBut.refl u σ).bit wqReady false) hu).collect

theorem leaveZero (h : σ.Aside cfg th s) (hu : th ≠ u) : (σ.leaveZero cfg u).Aside cfg th s := by
  have hbit := h.of_same ((SameBut.refl u σ).bit wqReady false) hu
  unfold Sched.leaveZero Sched.collectZero
  split_ifs with hand
  · exact hbit.collected hand.1
  · exact hbit

theorem wakes (h : σ.Aside cfg th s) (hw : Wakes cfg σ τ) : τ.Aside cfg th s := by
  induction hw with
  | refl => exact h
  | @wake τ q u _ hq hu ih =>
      exact ih.of_same ((SameBut.refl u τ).wakeup q) (ih.head_ne (object_lt hq) hu)

/-- The system calls of other threads leave a paused thread where it is. -/
theorem effect {c : Svc} {self : Nat} {alloc alloc' : Nat → Bool} {d : Bool}
    (h : σ.Aside cfg th s) (hself : th ≠ self) (halloc : alloc th = true)
    (hc : ∀ u, c = .resume u ∨ (∃ code, c = .cancel u code) → u ≠ th)
    (he : Effect cfg c σ self alloc τ alloc' d) : τ.Aside cfg th s := by
  have hsame := SameBut.refl self σ
  cases he with
  | wakes hw => exact h.wakes hw
  | block hq => exact (h.of_same (hsame.enqueue _ _) hself).leave hself
  | blockZero hq => exact (h.of_same (hsame.enqueue _ _) hself).leaveZero hself
  | @blockWake q p u ms hq hp hne _ _ hu =>
      have hin : (σ.enqueue cfg q self ms).Aside cfg th s := h.of_same (hsame.enqueue q ms) hself
      exact (hin.of_same ((SameBut.refl u _).wakeup p) (hin.head_ne (object_lt hp) hu)).leave hself
  | sleep _ clock => exact (h.of_same (hsame.asleep clock) hself).leave hself
  | irqWait => exact h.leave hself
  | @pause u _ _ _ hp =>
      refine h.of_same (SameBut.refl u σ).suspend ?_
      rintro rfl
      exact absurd (h.paused.symm.trans hp) (by decide)
  | @resume u heq => exact h.of_same (SameBut.refl u σ).takeUp (hc u (.inl heq)).symm
  | @cancel u code heq =>
      exact h.of_same (SameBut.refl u σ).withdraw (hc u (.inr ⟨code, heq⟩)).symm
  | @join u =>
      have hrelease : (σ.release cfg u).Aside cfg th s := by
        by_cases hu : th = u
        · obtain ⟨h₁, h₂, h₃, h₄, h₅, h₆, -⟩ := cfg.first_queues
          have hfree := h.nowhere cfg.wqCanceled (by omega) (by omega)
          unfold Sched.release
          rw [if_neg (by rw [← hu, hfree]; decide)]
          exact h
        · exact h.of_same (SameBut.refl u σ).release hu
      exact (hrelease.of_same ((SameBut.refl self _).wqInsert _) hself).leave hself
  | exit => exact h.of_same (hsame.wqInsert _) hself
  | createFails => exact h
  | @create _ _ _ _ _ u _ _ _ hfree =>
      refine h.of_same ((SameBut.refl u σ).enroll _ _) ?_
      rintro rfl
      exact absurd (halloc.symm.trans hfree) (by decide)

theorem clockTick (h : σ.Aside cfg th s) : (σ.clockTick cfg).Aside cfg th s := by
  obtain ⟨h₁, h₂, h₃, h₄, h₅, h₆, -⟩ := cfg.first_queues
  have hclock := h.nowhere cfg.wqClock (by omega) (by omega)
  refine List.foldlRecOn _ _ h fun τ hτ u hu => hτ.of_same (SameBut.refl u τ).expire ?_
  rintro rfl
  have hp := (List.mem_filter.mp hu).2
  rw [hclock] at hp
  cases hp

theorem shareTick (h : σ.Aside cfg th s) (hu : th ≠ u) : (σ.shareTick cfg u).Aside cfg th s := by
  have hval : ∀ v, ({ σ with schedVal := set1 σ.schedVal u v }).Aside cfg th s := fun _ =>
    ⟨h.stat, h.paused, h.nowhere⟩
  unfold Sched.shareTick
  dsimp only
  split_ifs
  · exact ((hval _).of_same (((SameBut.refl u _).bit wqTmshare true).bit wqReady false) hu).collect
  · exact hval _
  · exact h

end Aside

end Sched

namespace Machine

/-- A thread is paused, and another one runs. -/
structure Paused (cfg : Config) (m : Machine) (th s : Nat) : Prop where
  alloc : m.thAlloc th = true
  other : m.active ≠ th
  row : m.sched.Aside cfg th s

namespace Paused

variable {cfg : Config} {m m' : Machine} {th s : Nat}

theorem exitTurn (h : m.sched.Aside cfg th s) {self j : Nat} {code : Int}
    (hself : self < cfg.threadsMax) : (exitTurn cfg self code m j).sched.Aside cfg th s := by
  have hlimit : ∀ limit : Int, ({ m.sched with schedLimit := limit }).Aside cfg th s := fun _ =>
    ⟨h.stat, h.paused, h.nowhere⟩
  obtain ⟨limit, heq | ⟨hjoin, -, heq⟩⟩ := exitTurn_cases cfg self code m j
  · rw [heq]
    exact hlimit limit
  · rw [heq]
    refine (hlimit limit).of_same (((Sched.SameBut.refl j _).bit wqReady true).bit _ false) ?_
    rintro rfl
    obtain ⟨h₁, h₂, h₃, h₄, h₅, h₆, -⟩ := cfg.first_queues
    exact absurd ((h.nowhere _ (by omega) (by omega)).symm.trans hjoin) (by decide)

theorem exitPart (h : m.Paused cfg th s) (hlt : m.active < cfg.threadsMax) (code : Int) :
    ∀ part, (m.exitPart cfg code part).Paused cfg th s := by
  have hsame := Sched.SameBut.refl m.active m.sched
  have hne := Ne.symm h.other
  have hcritical : (m.exitCritical cfg code).Paused cfg th s := by
    refine exitCritical_induct (P := fun m' => m'.Paused cfg th s)
      ⟨h.alloc, h.other, h.row.of_same ((hsame.bit _ false).thStat 0) hne⟩ fun m' j hm' _ => ?_
    have hturn : (Thinkos.exitTurn cfg m.active code m' j).sched.Aside cfg th s :=
      exitTurn hm'.row hlt
    obtain ⟨limit, heq | ⟨-, -, heq⟩⟩ := exitTurn_cases cfg m.active code m' j
    · rw [heq] at hturn ⊢
      exact ⟨hm'.alloc, hm'.other, hturn⟩
    · rw [heq] at hturn ⊢
      exact ⟨hm'.alloc, hm'.other, hturn⟩
  intro part
  match part with
  | 0 => exact ⟨h.alloc, h.other, h.row.of_same hsame.offTmshare hne⟩
  | 1 => exact hcritical
  | 2 => exact ⟨(set1_ne _ hne _).trans h.alloc, h.other, h.row⟩
  | 3 => exact ⟨h.alloc, h.other, h.row⟩
  | 4 => exact ⟨h.alloc, h.other, h.row.of_same (hsame.bit wqReady false) hne⟩
  | 5 => exact ⟨h.alloc, h.other, h.row.collect⟩
  | 6 => exact ⟨h.alloc, h.other, h.row⟩
  | _ + 7 => exact h

theorem step (h : m.Paused cfg th s) (hsane : m.Sane cfg) {e : Event} (hok : m.Apart th e)
    (hs : step cfg m e = some m') : m'.Paused cfg th s := by
  cases step_cases hs with
  | svc c sp hrun huser =>
      have hhas := svcIsr_has (hsane.called c sp).slots c
      refine ⟨hhas.alloc_mono h.alloc, ?_, h.row.effect (Ne.symm h.other) h.alloc ?_ hhas⟩
      · rw [svcIsr_active]
        exact h.other
      · rintro u (rfl | ⟨code, rfl⟩)
        · exact hok
        · exact hok
  | ret => exact ⟨h.alloc, h.other, h.row⟩
  | taskReturn => exact ⟨h.alloc, h.other, h.row⟩
  | exitStep part code hrun hst =>
      have hpart := h.exitPart hrun.2 code part
      exact ⟨hpart.alloc, hpart.other, hpart.row⟩
  | wakes hi hw hk => exact ⟨hw.2 ▸ h.alloc, hk.active ▸ h.other, h.row.wakes hw.1⟩
  | @irq irq u hon hth =>
      refine ⟨h.alloc, h.other, h.row.of_same ((Sched.SameBut.refl u m.sched).bit wqReady true) ?_⟩
      rintro rfl
      exact hok hth
  | systick =>
      have hnext : m.sched.nextTick.Aside cfg th s := ⟨h.row.stat, h.row.paused, h.row.nowhere⟩
      exact ⟨h.alloc, h.other, hnext.clockTick.shareTick (Ne.symm h.other)⟩
  | @pendsv sp r0 u hp hu =>
      obtain ⟨p, f, heq⟩ := m.framed_eq sp r0
      rw [heq] at hu ⊢
      exact ⟨h.alloc, (h.row.head_ne Sched.Aside.ready_lt hu).symm, h.row⟩

end Paused

/-! ## The pause and the resume -/

section Calls

variable {cfg : Config} {m : Machine} {th q s : Nat}

theorem threadIdx_eq (hth : th < cfg.threadsMax) (halloc : m.thAlloc th = true) :
    m.threadIdx cfg th = some th := by
  unfold threadIdx
  rw [if_pos hth, Option.filter_some, if_pos halloc]

theorem pauseSvc_eq (hth : th < cfg.threadsMax) (halloc : m.thAlloc th = true)
    (hp : m.sched.wq cfg.wqPaused th = false) : m.pauseSvc cfg th =
      ({ m.setArg0 0 with sched := m.sched.suspend cfg th } : Machine).deferSched := by
  unfold pauseSvc
  rw [threadIdx_eq hth halloc]
  exact if_neg (by rw [show (m.setArg0 0).sched = m.sched from rfl, hp]; decide)

theorem resumeSvc_eq (hth : th < cfg.threadsMax) (halloc : m.thAlloc th = true)
    (hp : m.sched.wq cfg.wqPaused th = true) : m.resumeSvc cfg th =
      ({ m.setArg0 0 with sched := m.sched.takeUp cfg th } : Machine).deferSched := by
  unfold resumeSvc
  rw [threadIdx_eq hth halloc]
  exact if_neg (by rw [show (m.setArg0 0).sched = m.sched from rfl, hp]; decide)

theorem IsAwaited.object (hq : IsAwaited cfg q) : cfg.IsObject q := by
  rcases hq with hq | hq | hq | hq
  · obtain ⟨i, hi⟩ := Option.isSome_iff_exists.mp hq
    obtain ⟨hlo, hhi, -⟩ := objIdx_some hi
    obtain ⟨h₁, h₂, h₃, h₄, h₅⟩ := cfg.bases
    exact ⟨hlo, by omega⟩
  · obtain ⟨i, hi⟩ := Option.isSome_iff_exists.mp hq
    exact semBase_object hi
  · obtain ⟨i, hi⟩ := Option.isSome_iff_exists.mp hq
    exact eventBase_object hi
  · obtain ⟨i, hi⟩ := Option.isSome_iff_exists.mp hq
    exact flagBase_object hi

/-- A thread that waits is paused. -/
theorem Blocked.suspend (h : m.Blocked cfg th q) :
    (m.sched.suspend cfg th).Aside cfg th (m.sched.thStat th) := by
  obtain ⟨hth, halloc, hq, hstat, hin, honly⟩ := h
  obtain ⟨h₁, h₂, h₃, h₄, h₅, h₆, -, h₇⟩ := cfg.first_queues
  have hne : cfg.wqPaused ≠ q := hq.object.first.2.2.1.symm
  refine ⟨?_, ?_, fun p hp hpaused => ?_⟩
  · unfold Sched.suspend offTmshare
    split_ifs
    · rfl
    · rfl
  · rw [Sched.suspend_self, if_neg, if_pos rfl]
    rintro (heq | ⟨hshare, heq⟩ | heq)
    · omega
    · have := h₇ hshare
      omega
    · exact hne (heq.trans hstat)
  · rw [Sched.suspend_self]
    split_ifs with hor
    · rfl
    · obtain ⟨hclk, hrest⟩ := not_or.mp hor
      obtain ⟨hshare, hne⟩ := not_or.mp hrest
      exact honly p hp (fun heq => hne (heq.trans hstat.symm)) hclk hshare

/-- A resume puts the thread back into the queue of its object and into the clock queue. -/
theorem Paused.takeUp (h : m.Paused cfg th s) :
    (m.sched.takeUp cfg th).wq (s / 2) th = true ∧
      (m.sched.takeUp cfg th).wq cfg.wqClock th = true := by
  rw [Sched.takeUp_self, Sched.takeUp_self, h.row.stat, if_pos (Or.inr rfl), if_pos (Or.inl rfl)]
  exact ⟨rfl, rfl⟩

end Calls

/-- A thread that waits for an object is paused by another thread, anything happens to the others,
and it is resumed: that was transparent exactly if the thread waits with a time and the object is
not available when it is resumed. -/
theorem resume_transparent_iff {cfg : Config} {es₀ es : List Event} {m m₁ m₂ m' : Machine}
    {th q sp sp' : Nat} (hm : Reached cfg es₀ m) (hb : m.Blocked cfg th q)
    (hother : m.active ≠ th) (hpause : step cfg m (.svc (.pause th) sp) = some m₁)
    (hok : Lib.Along (step cfg) (fun n e => n.Apart th e) m₁ es)
    (hrun : Lib.exec (step cfg) m₁ es = some m₂)
    (hresume : step cfg m₂ (.svc (.resume th) sp') = some m') :
    m'.Transparent cfg th q (m.sched.thStat th % 2 = 1) ↔
      m.sched.thStat th % 2 = 1 ∧ m₂.available cfg q = false := by
  have hth := hb.1
  have hpaused : m.sched.wq cfg.wqPaused th = false := by
    obtain ⟨h₁, h₂, h₃, h₄, h₅, h₆, -, h₇⟩ := cfg.first_queues
    refine hb.2.2.2.2.2 _ (by omega) hb.2.2.1.object.first.2.2.1.symm h₃.ne fun hand => ?_
    have := h₇ hand.1
    omega
  have hfirst : m₁.Paused cfg th (m.sched.thStat th) := by
    cases step_cases hpause with
    | svc c sp hrun huser =>
        have heq : (m.called (.pause th) sp).svcIsr cfg (.pause th) = _ :=
          pauseSvc_eq hth hb.2.1 hpaused
        rw [heq]
        exact ⟨hb.2.1, hother, hb.suspend⟩
  have hlast : m₂.Sane cfg ∧ m₂.Paused cfg th (m.sched.thStat th) :=
    Lib.exec_invariant (I := fun n => n.Sane cfg ∧ n.Paused cfg th (m.sched.thStat th))
      (fun _ _ _ hI hok hs => ⟨hI.1.step hs, hI.2.step hI.1 hok hs⟩)
      ⟨(Sane.reached hm).step hpause, hfirst⟩ hok hrun
  cases step_cases hresume with
  | svc c sp hrun huser =>
      have heq : (m₂.called (.resume th) sp').svcIsr cfg (.resume th) = _ :=
        resumeSvc_eq hth hlast.2.alloc hlast.2.row.paused
      obtain ⟨hin, hclock⟩ := hlast.2.takeUp
      rw [hb.2.2.2.1] at hin
      rw [heq]
      constructor
      · intro ht
        have htimed : m.sched.thStat th % 2 = 1 := by
          by_contra hun
          exact absurd (hclock.symm.trans (ht.clock hun)) (by decide)
        exact ⟨htimed, ht.notLeft hin⟩
      · rintro ⟨htimed, havailable⟩
        exact ⟨fun _ => havailable, fun hun => absurd htimed hun, fun hun => absurd htimed hun⟩

theorem exists_of_any {α : Type} {o : Option α} {p : α → Bool} (h : o.any p = true) :
    ∃ a, o = some a ∧ p a = true := by
  cases o with
  | none => cases h
  | some a => exact ⟨a, rfl, h⟩

/-- Thread 0 creates thread 1 and sleeps, and thread 1 waits for a semaphore. -/
def waitingRun (c : Svc) : List Event :=
  [.svc (.semAlloc 0) 1000, .ret, .svc (.threadCreate 0 2000 200 0 1 false) 1000, .pendsv 0 0, .ret,
    .svc (.sleep 1) 1000, .pendsv 0 0, .svc c 2100, .pendsv 0 0, .systick, .pendsv 3000 0, .ret]

/-- A timed wait for a semaphore to which nobody posts. -/
theorem resume_transparent_timed : ∃ m m' : Machine,
    Reached .default (waitingRun (.semTimedwait 21 100)) m ∧
    m.Blocked .default 1 21 ∧ m'.sched.wq 21 1 = true ∧
      m'.Transparent .default 1 21 (m.sched.thStat 1 % 2 = 1) := by
  have hall : (Lib.exec (step .default) (start .default 0 0 false)
      (waitingRun (.semTimedwait 21 100))).any (fun m =>
        decide (m.Blocked .default 1 21 ∧ m.active ≠ 1 ∧ m.sched.thStat 1 % 2 = 1) &&
        (step .default m (.svc (.pause 1) 1000)).any fun m₁ =>
          decide (Lib.Along (step .default) (fun n e => n.Apart 1 e) m₁ [.pendsv 0 0, .ret]) &&
          (Lib.exec (step .default) m₁ [.pendsv 0 0, .ret]).any fun m₂ =>
            !m₂.available .default 21 &&
            (step .default m₂ (.svc (.resume 1) 1000)).any fun m' => m'.sched.wq 21 1) = true := by
    decide
  obtain ⟨m, hm, hall⟩ := exists_of_any hall
  obtain ⟨hblocked, hall⟩ := Bool.and_eq_true_iff.mp hall
  obtain ⟨m₁, hm₁, hall⟩ := exists_of_any hall
  obtain ⟨hok, hall⟩ := Bool.and_eq_true_iff.mp hall
  obtain ⟨m₂, hm₂, hall⟩ := exists_of_any hall
  obtain ⟨havailable, hall⟩ := Bool.and_eq_true_iff.mp hall
  obtain ⟨m', hm', hin⟩ := exists_of_any hall
  obtain ⟨hb, hother, htimed⟩ := of_decide_eq_true hblocked
  have hreached : Reached .default _ m := ⟨0, 0, false, hm⟩
  exact ⟨m, m', hreached, hb, hin, (resume_transparent_iff hreached hb hother hm₁
    (of_decide_eq_true hok) hm₂ hm').mpr ⟨htimed, (Bool.not_eq_true' _).mp havailable⟩⟩

/-- A thread that waits for a semaphore without a time is paused, somebody posts, and the thread
is resumed: it still waits, although the semaphore is positive, and is in the clock queue. -/
theorem resume_keeps_waiting : ∃ m m₁ m₂ m' : Machine,
    Reached .default (waitingRun (.semWait 21)) m ∧
    m.Blocked .default 1 21 ∧ m.active ≠ 1 ∧ m.sched.thStat 1 % 2 = 0 ∧
    step .default m (.svc (.pause 1) 1000) = some m₁ ∧
    Lib.Along (step .default) (fun n e => n.Apart 1 e) m₁
      [.pendsv 0 0, .ret, .svc (.semPost 21) 1000, .ret] ∧
    Lib.exec (step .default) m₁ [.pendsv 0 0, .ret, .svc (.semPost 21) 1000, .ret] = some m₂ ∧
    step .default m₂ (.svc (.resume 1) 1000) = some m' ∧
    m'.sched.wq 21 1 = true ∧ m'.available .default 21 = true ∧
    m'.sched.wq Config.default.wqClock 1 = true := by
  have hall : (Lib.exec (step .default) (start .default 0 0 false) (waitingRun (.semWait 21))).any
      (fun m =>
        decide (m.Blocked .default 1 21 ∧ m.active ≠ 1 ∧ m.sched.thStat 1 % 2 = 0) &&
        (step .default m (.svc (.pause 1) 1000)).any fun m₁ =>
          decide (Lib.Along (step .default) (fun n e => n.Apart 1 e) m₁
            [.pendsv 0 0, .ret, .svc (.semPost 21) 1000, .ret]) &&
          (Lib.exec (step .default) m₁ [.pendsv 0 0, .ret, .svc (.semPost 21) 1000, .ret]).any
            fun m₂ => (step .default m₂ (.svc (.resume 1) 1000)).any fun m' =>
              decide (m'.sched.wq 21 1 = true ∧ m'.available .default 21 = true ∧
                m'.sched.wq Config.default.wqClock 1 = true)) = true := by
    decide
  obtain ⟨m, hm, hall⟩ := exists_of_any hall
  obtain ⟨hblocked, hall⟩ := Bool.and_eq_true_iff.mp hall
  obtain ⟨m₁, hm₁, hall⟩ := exists_of_any hall
  obtain ⟨hok, hall⟩ := Bool.and_eq_true_iff.mp hall
  obtain ⟨m₂, hm₂, hall⟩ := exists_of_any hall
  obtain ⟨m', hm', hend⟩ := exists_of_any hall
  obtain ⟨hb, hother, htimed⟩ := of_decide_eq_true hblocked
  exact ⟨m, m₁, m₂, m', ⟨0, 0, false, hm⟩, hb, hother, htimed, hm₁, of_decide_eq_true hok, hm₂, hm',
    of_decide_eq_true hend⟩

end Machine

end YardIce.Thinkos
