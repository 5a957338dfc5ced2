import YardIce.Thinkos.Sane

/-!
# The time share queue

A thread whose time has run out waits in `wq_tmshare` until only the idle thread is ready. Then
`__thinkos_wait`, the clock interrupt and the end of a thread refill the ready queue. The waits of
semaphores and event sets test for an empty ready queue instead, which never is empty, and pausing
or canceling a thread does not test at all.
-/

namespace YardIce.Thinkos

namespace Sched

variable (cfg : Config) (σ : Sched)

/-- A thread is in the time share queue. -/
def Shares : Prop := ∃ t < 32, σ.wq wqTmshare t = true

instance : Decidable σ.Shares := Nat.decidableExistsLT _

/-- A thread other than `u` is in the time share queue. -/
def SharesBut (u : Nat) : Prop := ∃ t < 32, t ≠ u ∧ σ.wq wqTmshare t = true

instance (u : Nat) : Decidable (σ.SharesBut u) := Nat.decidableExistsLT _

/-- A thread other than the idle one is ready. -/
def SomeReady : Prop := ∃ t < cfg.threadsMax, σ.wq wqReady t = true

instance : Decidable (σ.SomeReady cfg) := Nat.decidableExistsLT _

/-- A thread other than the idle one and `u` is ready. -/
def SomeReadyBut (u : Nat) : Prop := ∃ t < cfg.threadsMax, t ≠ u ∧ σ.wq wqReady t = true

instance (u : Nat) : Decidable (σ.SomeReadyBut cfg u) := Nat.decidableExistsLT _

/-- No thread waits in the time share queue while only the idle thread is ready. -/
def NotParked : Prop := σ.Shares → σ.SomeReady cfg

instance : Decidable (σ.NotParked cfg) := inferInstanceAs (Decidable (_ → _))

end Sched

namespace Machine

variable (cfg : Config) (m : Machine)

/-- The active thread is between the critical part of `thinkos_thread_exit` and the refill. -/
def Leaving : Prop :=
  match m.status m.active with
  | .exiting part _ => 2 ≤ part ∧ part ≤ 5
  | _ => False

instance : Decidable m.Leaving := by
  unfold Leaving
  cases m.status m.active <;> infer_instance

/-- The call is a wait for a semaphore or an event set, and blocks. -/
def waitsZero : Svc → Bool
  | .semWait wq | .semTimedwait wq _ => (m.semIdx cfg wq).any fun sem => m.semVal sem = 0
  | .evWait wq | .evTimedwait wq _ => (m.evIdx cfg wq).any fun no => (m.evReady no).isNone
  | _ => false

/-- The thread that a call pauses or cancels while it is ready or shares. -/
def takesOff : Svc → Option Nat
  | .pause th =>
      (m.threadIdx cfg th).filter fun th =>
        !m.sched.wq cfg.wqPaused th && m.sched.thStat th / 2 == wqReady
  | .cancel th _ => (m.threadIdx cfg th).filter fun th => m.sched.thStat th / 2 == wqReady
  | _ => none

/-- The step does not need a refill that the code leaves out: a wait of a semaphore or an event
set finds another ready thread if some thread shares, and so does the pausing or canceling of a
ready thread if another one shares; the scheduler does not run in the middle of
`thinkos_thread_exit` while a refill is due. -/
def NeedsNoRefill : Event → Prop
  | .svc c _ =>
      (m.waitsZero cfg c = true → m.sched.Shares → m.sched.SomeReadyBut cfg m.active) ∧
        ∀ th ∈ m.takesOff cfg c, m.sched.SharesBut th → m.sched.SomeReadyBut cfg th
  | .pendsv _ _ => m.Leaving → m.sched.NotParked cfg
  | _ => True

instance : DecidablePred (m.NeedsNoRefill cfg)
  | .svc _ _ => instDecidableAnd
  | .pendsv _ _ => inferInstanceAs (Decidable (_ → _))
  | .ret | .taskReturn _ | .exitStep | .isr _ | .systick => instDecidableTrue

end Machine

/-! ## What the queues lose -/

/-- Neither the ready queue nor the time share queue is one of the others. -/
theorem Config.beyond (cfg : Config) (hshare : cfg.timeshare = true) {q : Nat}
    (hq : q = cfg.wqPaused ∨ q = cfg.wqClock ∨ cfg.IsObject q) : wqReady ≠ q ∧ wqTmshare ≠ q := by
  obtain ⟨h₁, h₂, h₃, h₄, -, -, -, h₅⟩ := cfg.first_queues
  have h := h₅ hshare
  rcases hq with rfl | rfl | hq
  · exact ⟨(h₁.trans h₂).ne, (h.trans h₂).ne⟩
  · exact ⟨((h₁.trans h₂).trans h₃).ne, ((h.trans h₂).trans h₃).ne⟩
  · have hlo := hq.1
    exact ⟨by omega, by omega⟩

/-- A place in which a thread can be is not the time share queue. -/
theorem Config.IsPlace.ne_tmshare {cfg : Config} (hshare : cfg.timeshare = true) {q : Nat}
    (hq : cfg.IsPlace q) : wqTmshare ≠ q := by
  obtain ⟨h₁, h₂, h₃, h₄, -, -, -, h₅⟩ := cfg.first_queues
  have h := h₅ hshare
  rcases hq with rfl | rfl | rfl | hq
  · decide
  · exact h.ne
  · exact ((h.trans h₂).trans h₃).ne
  · omega

namespace Sched

variable {cfg : Config} {σ τ : Sched}

/-- No thread comes to share, and no ready thread is lost. -/
structure Grows (σ τ : Sched) : Prop where
  share : ∀ t, τ.wq wqTmshare t = true → σ.wq wqTmshare t = true
  ready : ∀ t, σ.wq wqReady t = true → τ.wq wqReady t = true

theorem Grows.refl (σ : Sched) : σ.Grows σ := ⟨fun _ h => h, fun _ h => h⟩

theorem Grows.trans {ρ : Sched} (h : σ.Grows τ) (h' : τ.Grows ρ) : σ.Grows ρ :=
  ⟨fun t ht => h.share t (h'.share t ht), fun t ht => h'.ready t (h.ready t ht)⟩

theorem Grows.notParked (h : σ.Grows τ) (hp : σ.NotParked cfg) : τ.NotParked cfg := by
  rintro ⟨t, hlt, ht⟩
  obtain ⟨r, hr, hready⟩ := hp ⟨t, hlt, h.share t ht⟩
  exact ⟨r, hr, h.ready r hready⟩

/-- A thread becomes ready. -/
theorem grows_ready (σ : Sched) (u : Nat) : σ.Grows (σ.bit wqReady u true) where
  share t h := by rwa [σ.bit_ne (Or.inl (by decide))] at h
  ready t h := by
    by_cases ht : t = u
    · rw [ht, bit_same]
    · rwa [σ.bit_ne (Or.inr ht)]

/-- A bit of another queue. -/
theorem grows_other (σ : Sched) {q : Nat} (hr : wqReady ≠ q) (hs : wqTmshare ≠ q) (u : Nat)
    (b : Bool) : σ.Grows (σ.bit q u b) where
  share t h := by rwa [σ.bit_ne (Or.inl hs)] at h
  ready t h := by rwa [σ.bit_ne (Or.inl hr)]

/-- A thread stops to share. -/
theorem grows_offShare (σ : Sched) (u : Nat) : σ.Grows (σ.bit wqTmshare u false) where
  share t h := by
    by_cases ht : t = u
    · rw [ht, bit_same] at h
      cases h
    · rwa [σ.bit_ne (Or.inr ht)] at h
  ready t h := by rwa [σ.bit_ne (Or.inl (by decide))]

/-- Another state of a thread, or another time. -/
theorem grows_wq (h : τ.wq = σ.wq) : σ.Grows τ := ⟨fun _ => h ▸ id, fun _ => h ▸ id⟩

/-- A step that takes one thread from the queues. -/
theorem notParked_of_row {th : Nat} (hne : ∀ q t, t ≠ th → τ.wq q t = σ.wq q t)
    (hoff : τ.wq wqTmshare th = false) (hspare : σ.SharesBut th → σ.SomeReadyBut cfg th) :
    τ.NotParked cfg := by
  rintro ⟨t, hlt, ht⟩
  have htth : t ≠ th := by
    rintro rfl
    exact absurd (hoff.symm.trans ht) (by decide)
  obtain ⟨r, hr, hrth, hready⟩ := hspare ⟨t, hlt, htth, (hne _ _ htth).symm.trans ht⟩
  exact ⟨r, hr, (hne _ _ hrth).trans hready⟩

/-- The refill leaves no thread parked. -/
theorem Sane.collect_notParked (h : σ.Sane cfg) (hshare : cfg.timeshare = true) :
    (σ.collect cfg).NotParked cfg := by
  unfold Sched.collect
  by_cases honly : σ.OnlyIdle cfg
  · rw [if_pos ⟨hshare, honly⟩]
    rintro ⟨t, -, ht⟩
    exact absurd ht Bool.false_ne_true
  · rw [if_neg fun hand => honly hand.2]
    rintro -
    unfold Sched.OnlyIdle at honly
    push Not at honly
    obtain ⟨t, -, ht⟩ := honly
    have hidle : t ≠ cfg.threadsMax := by
      rintro rfl
      rw [h.idle, decide_eq_true rfl] at ht
      exact ht rfl
    rw [decide_eq_false hidle, ne_eq, Bool.not_eq_false] at ht
    exact ⟨t, (h.bits _ t ht).resolve_right fun hor => hidle hor.2, ht⟩

/-- The other test never finds the ready queue empty. -/
theorem Sane.leaveZero_eq (h : σ.Sane cfg) {u : Nat} (hu : u < cfg.threadsMax) :
    σ.leaveZero cfg u = σ.bit wqReady u false := by
  have hidle := (h.bit hu wqReady false).idle
  refine if_neg fun hand => ?_
  have hnone := hand.2 cfg.threadsMax cfg.threads_lt
  exact absurd (hnone.symm.trans hidle) (by decide)

end Sched

/-! ## The steps -/

namespace Sched

variable {cfg : Config} {σ τ : Sched}

/-- A thread becomes ready, and nothing else changes. -/
theorem Grows.of_row {u : Nat} (h : SameBut u σ τ) (hr : τ.wq wqReady u = true)
    (hs : τ.wq wqTmshare u = true → σ.wq wqTmshare u = true) : σ.Grows τ where
  share t ht := by
    by_cases htu : t = u
    · exact htu ▸ hs (htu ▸ ht)
    · exact (h.wq _ t htu).symm.trans ht
  ready t ht := by
    by_cases htu : t = u
    · exact htu ▸ hr
    · exact (h.wq _ t htu).trans ht

theorem grows_wakeup (hshare : cfg.timeshare = true) {q : Nat} (hq : cfg.IsObject q) (u : Nat) :
    σ.Grows (σ.wakeup cfg q u) := by
  obtain ⟨h₁, h₂⟩ := cfg.beyond hshare (.inr (.inr hq))
  obtain ⟨h₃, h₄⟩ := cfg.beyond hshare (.inr (.inl rfl))
  exact ((grows_ready σ u).trans (grows_other _ h₁ h₂ u false)).trans
    ((grows_other _ h₃ h₄ u false).trans (grows_wq rfl))

theorem grows_wakes (hshare : cfg.timeshare = true) (h : Wakes cfg σ τ) : σ.Grows τ := by
  induction h with
  | refl => exact .refl _
  | wake _ hq _ ih => exact ih.trans (grows_wakeup hshare hq _)

theorem grows_enqueue (hshare : cfg.timeshare = true) {q : Nat} (hq : cfg.IsObject q) (u : Nat)
    (ms : Option (BitVec 32)) : σ.Grows (σ.enqueue cfg q u ms) := by
  obtain ⟨h₁, h₂⟩ := cfg.beyond hshare (.inr (.inr hq))
  obtain ⟨h₃, h₄⟩ := cfg.beyond hshare (.inr (.inl rfl))
  have hin := grows_other σ h₁ h₂ u true
  cases ms with
  | none => exact hin.trans (grows_wq rfl)
  | some ms => exact hin.trans ((grows_other _ h₃ h₄ u true).trans (grows_wq rfl))

/-- A paused thread. -/
theorem suspend_notParked (h : σ.Sane cfg) (hshare : cfg.timeshare = true) (hp : σ.NotParked cfg)
    {th : Nat}
    (hspare : σ.thStat th / 2 = wqReady → σ.SharesBut th → σ.SomeReadyBut cfg th) :
    (σ.suspend cfg th).NotParked cfg := by
  obtain ⟨h₁, h₂⟩ := cfg.beyond hshare (.inl rfl)
  obtain ⟨h₃, h₄⟩ := cfg.beyond hshare (.inr (.inl rfl))
  have hoff : ∀ τ : Sched, Machine.offTmshare cfg τ th = τ.bit wqTmshare th false := fun τ =>
    if_pos hshare
  unfold Sched.suspend
  rw [hoff]
  by_cases hready : σ.thStat th / 2 = wqReady
  · refine notParked_of_row (((((SameBut.refl th σ).bit _ true).bit _ false).bit _ false).bit _
      false).wq ?_ (hspare hready)
    rw [bit_ne _ (Or.inl h₄), bit_same]
  · have hplace := (h.place th).ne_tmshare hshare
    have hgrows := (((grows_other σ h₁ h₂ th true).trans (grows_other _ (Ne.symm hready) hplace th
      false)).trans (grows_offShare _ th)).trans (grows_other _ h₃ h₄ th false)
    exact hgrows.notParked hp

theorem grows_canceled (hshare : cfg.timeshare = true) (σ : Sched) (u : Nat) :
    σ.Grows (σ.wqInsert cfg.wqCanceled u) := by
  have hcanceled : wqTmshare ≠ cfg.wqCanceled :=
    Config.IsPlace.ne_tmshare hshare (Or.inr (Or.inl rfl))
  obtain ⟨hlt, -⟩ := cfg.first_queues
  exact (grows_other σ hlt.ne hcanceled u true).trans (grows_wq rfl)

/-- A canceled thread. -/
theorem withdraw_notParked (h : σ.Sane cfg) (hshare : cfg.timeshare = true)
    (hp : σ.NotParked cfg) {th : Nat}
    (hspare : σ.thStat th / 2 = wqReady → σ.SharesBut th → σ.SomeReadyBut cfg th) :
    (σ.withdraw cfg th).NotParked cfg := by
  obtain ⟨h₃, h₄⟩ := cfg.beyond hshare (.inr (.inl rfl))
  have hoff : ∀ τ : Sched, Machine.offTmshare cfg τ th = τ.bit wqTmshare th false := fun τ =>
    if_pos hshare
  by_cases hready : σ.thStat th / 2 = wqReady
  · refine notParked_of_row (SameBut.refl th σ).withdraw.wq ?_ (hspare hready)
    unfold Sched.withdraw
    rw [hoff, bit_ne _ (Or.inl h₄), bit_same]
  · unfold Sched.withdraw
    rw [hoff]
    have hplace := (h.place th).ne_tmshare hshare
    have hgrows := (((grows_other σ (Ne.symm hready) hplace th false).trans
      (grows_canceled hshare _ th)).trans (grows_offShare _ th)).trans
      (grows_other _ h₃ h₄ th false)
    exact hgrows.notParked hp

theorem Sane.leave_notParked (h : σ.Sane cfg) (hshare : cfg.timeshare = true) {u : Nat}
    (hu : u < cfg.threadsMax) : (σ.leave cfg u).NotParked cfg :=
  (h.bit hu wqReady false).collect_notParked hshare

/-- What a system call does to the queues leaves no thread parked, unless it blocks with the
other test or takes off a thread that is ready. -/
theorem effect_notParked {c : Svc} {self : Nat} {alloc alloc' : Nat → Bool} {d : Bool}
    (h : σ.Sane cfg) (hshare : cfg.timeshare = true) (hself : self < cfg.threadsMax)
    (hp : σ.NotParked cfg) (he : Effect cfg c σ self alloc τ alloc' d)
    (hzero : c.zeroTest = true → σ.Shares → σ.SomeReadyBut cfg self)
    (htake : ∀ th code, c = .pause th ∧ alloc th = true ∧ σ.wq cfg.wqPaused th = false ∨
      c = .cancel th code ∧ alloc th = true → th < cfg.threadsMax → σ.thStat th / 2 = wqReady →
        σ.SharesBut th → σ.SomeReadyBut cfg th) : τ.NotParked cfg := by
  cases he with
  | wakes hw => exact (grows_wakes hshare hw).notParked hp
  | block hq =>
      exact (h.enqueue (.of_object hq) hself _).leave_notParked hshare hself
  | @blockZero q ms hq hc hz =>
      have hin := h.enqueue (.of_object hq) hself ms
      have hgrows : σ.Grows (σ.enqueue cfg q self ms) := grows_enqueue hshare hq self ms
      rw [hin.leaveZero_eq hself]
      rintro ⟨t, hlt, ht⟩
      rw [bit_ne _ (Or.inl (by decide))] at ht
      obtain ⟨r, hr, hne, hready⟩ := hzero hz ⟨t, hlt, hgrows.share t ht⟩
      exact ⟨r, hr, (bit_ne _ (Or.inr hne) _).trans (hgrows.ready r hready)⟩
  | @blockWake _ _ _ ms hq hp hne hc hz hu =>
      have hin := h.enqueue (.of_object hq) hself ms
      exact (hin.wakeup (hin.head_lt hp.first.1 hu) _).leave_notParked hshare hself
  | sleep _ clock => exact (h.asleep hself clock).leave_notParked hshare hself
  | irqWait => exact h.leave_notParked hshare hself
  | pause hc hth halloc hpaused =>
      exact suspend_notParked h hshare hp (htake _ 0 (.inl ⟨hc, halloc, hpaused⟩) hth)
  | @resume th _ hth =>
      obtain ⟨h₁, h₂⟩ := cfg.beyond hshare (.inl rfl)
      obtain ⟨h₃, h₄⟩ := cfg.beyond hshare (.inr (.inl rfl))
      have hback : (σ.bit cfg.wqPaused th false).Grows
          ((σ.bit cfg.wqPaused th false).bit (σ.thStat th / 2) th true) := by
        by_cases hready : σ.thStat th / 2 = wqReady
        · rw [hready]
          exact grows_ready _ th
        · exact grows_other _ (Ne.symm hready) ((h.place th).ne_tmshare hshare) th true
      exact (((grows_other σ h₁ h₂ th false).trans hback).trans
        (grows_other _ h₃ h₄ th true)).notParked hp
  | cancel hc hth halloc =>
      exact withdraw_notParked h hshare hp (htake _ _ (.inr ⟨hc, halloc⟩) hth)
  | @join th _ hth =>
      obtain ⟨-, -, -, -, h₅, h₆, -⟩ := cfg.first_queues
      have hplace : cfg.IsPlace (cfg.joinBase + th) :=
        Or.inr (Or.inr (Or.inr ⟨by omega, by omega⟩))
      exact ((h.release hth).wqInsert hplace hself).leave_notParked hshare hself
  | exit => exact (grows_canceled hshare σ self).notParked hp
  | createFails => exact hp
  | @create _ _ _ priority _ th paused =>
      have hinit : σ.Grows (Machine.shareInit cfg σ th priority) := by
        unfold Machine.shareInit
        rw [if_pos hshare]
        exact grows_wq rfl
      cases paused with
      | false => exact (hinit.trans (grows_ready _ th)).notParked hp
      | true =>
          obtain ⟨h₁, h₂⟩ := cfg.beyond hshare (.inl rfl)
          exact (hinit.trans (grows_other _ h₁ h₂ th true)).notParked hp

/-- A thread whose time has come. -/
theorem grows_expire (h : σ.Sane cfg) (hshare : cfg.timeshare = true) (u : Nat) :
    σ.Grows (σ.expire cfg u) := by
  obtain ⟨-, h₄⟩ := cfg.beyond hshare (.inr (.inl rfl))
  refine Grows.of_row (SameBut.refl u σ).expire (bit_same _ _ _ _) fun ht => ?_
  unfold Sched.expire at ht
  rw [bit_ne _ (Or.inl (by decide)), bit_ne _ (Or.inl h₄)] at ht
  exact (bit_ne σ (Or.inl ((h.place u).ne_tmshare hshare)) false).symm.trans ht

theorem grows_clockTick (h : σ.Sane cfg) (hshare : cfg.timeshare = true) :
    σ.Grows (σ.clockTick cfg) := by
  have hboth : (σ.clockTick cfg).Sane cfg ∧ σ.Grows (σ.clockTick cfg) :=
    List.foldlRecOn (motive := fun τ => τ.Sane cfg ∧ σ.Grows τ) _ _ ⟨h, .refl σ⟩
      fun τ hτ u hu => ⟨hτ.1.expire (h.mem_due hu).1, hτ.2.trans (grows_expire hτ.1 hshare u)⟩
  exact hboth.2

/-- The tick charges the active thread and refills the ready queue, or moves no thread. -/
theorem shareTick_notParked (h : σ.Sane cfg) (hshare : cfg.timeshare = true) {u : Nat}
    (hu : u ≤ cfg.threadsMax) :
    (σ.shareTick cfg u).NotParked cfg ∨ (σ.shareTick cfg u).wq = σ.wq := by
  unfold Sched.shareTick
  dsimp only
  rw [if_pos hshare]
  split_ifs with hout
  · have hlt := h.outOfTime hu hout
    exact Or.inl (((h.val fun heq => absurd heq hlt.ne).bit hlt wqTmshare true).leave_notParked
      hshare hlt)
  · exact Or.inr rfl

end Sched

namespace Machine

variable {cfg : Config} {m m' : Machine}

theorem quiet_or {o : Option Nat} {f : Nat → Machine} {P : Prop}
    (h : ∀ i, o = some i → (f i).sched = m.sched ∨ P) : (m.checked o f).sched = m.sched ∨ P := by
  cases o with
  | none => exact Or.inl rfl
  | some i => exact h i rfl

/-- A wait of a semaphore or an event set that does not block leaves the queues alone. -/
theorem zeroTest_blocks {c : Svc} (hc : c.zeroTest = true) :
    (m.svcIsr cfg c).sched = m.sched ∨ m.waitsZero cfg c = true := by
  cases c with
  | semWait wq =>
      refine quiet_or fun i hi => ?_
      split_ifs with hpos
      · exact Or.inl rfl
      · have hany : m.waitsZero cfg (.semWait wq) = decide (m.semVal i = 0) := by
          simp only [waitsZero, hi, Option.any_some]
        exact Or.inr (hany.trans (decide_eq_true (by bv_omega)))
  | semTimedwait wq ms =>
      refine quiet_or fun i hi => ?_
      split_ifs with hpos
      · exact Or.inl rfl
      · have hany : m.waitsZero cfg (.semTimedwait wq ms) = decide (m.semVal i = 0) := by
          simp only [waitsZero, hi, Option.any_some]
        exact Or.inr (hany.trans (decide_eq_true (by bv_omega)))
  | evWait wq =>
      refine quiet_or fun i hi => ?_
      have hany : m.waitsZero cfg (.evWait wq) = (m.evReady i).isNone := by
        simp only [waitsZero, hi, Option.any_some]
      rw [hany]
      cases m.evReady i with
      | none => exact Or.inr rfl
      | some ev => exact Or.inl rfl
  | evTimedwait wq ms =>
      refine quiet_or fun i hi => ?_
      have hany : m.waitsZero cfg (.evTimedwait wq ms) = (m.evReady i).isNone := by
        simp only [waitsZero, hi, Option.any_some]
      rw [hany]
      cases m.evReady i with
      | none => exact Or.inr rfl
      | some ev => exact Or.inl rfl
  | _ => cases hc

theorem not_leaving_of_user (h : m.status m.active = .user) : ¬ m.Leaving := by
  unfold Leaving
  rw [h]
  exact id

theorem mem_takesOff {c : Svc} {th : Nat} {code : Int} (hth : th < cfg.threadsMax)
    (hc : c = .pause th ∧ m.thAlloc th = true ∧ m.sched.wq cfg.wqPaused th = false ∨
      c = .cancel th code ∧ m.thAlloc th = true) (hready : m.sched.thStat th / 2 = wqReady) :
    th ∈ m.takesOff cfg c := by
  rcases hc with ⟨rfl, halloc, hpaused⟩ | ⟨rfl, halloc⟩
  · simp [takesOff, threadIdx, hth, halloc, hpaused, hready]
  · simp [takesOff, threadIdx, hth, halloc, hready]

/-- A part of `thinkos_thread_exit`. -/
theorem exitPart_notParked (h : m.Sane cfg) (hshare : cfg.timeshare = true)
    (code : Int) {part : Nat} (hp : m.sched.NotParked cfg ∨ 2 ≤ part ∧ part ≤ 5) :
    (m.exitPart cfg code part).sched.NotParked cfg ∨ 2 ≤ part + 1 ∧ part + 1 ≤ 5 := by
  rcases Nat.lt_or_ge part 5 with hpart | hpart
  · cases part with
    | zero =>
        have hp' := hp.resolve_right (by omega)
        refine Or.inl (Sched.Grows.notParked ?_ hp')
        show m.sched.Grows (offTmshare cfg m.sched m.active)
        rw [offTmshare, if_pos hshare]
        exact m.sched.grows_offShare m.active
    | succ part => exact Or.inr ⟨by omega, by omega⟩
  · left
    obtain rfl | hlater := hpart.eq_or_lt
    · exact h.sched.collect_notParked hshare
    · have hp' := hp.resolve_right (by omega)
      obtain ⟨part, rfl⟩ : ∃ k, part = k + 6 := ⟨part - 6, by omega⟩
      cases part with
      | zero => exact hp'
      | succ part => exact hp'

theorem leaving_congr (hactive : m'.active = m.active) (hstatus : m'.status = m.status)
    (h : m.Leaving) : m'.Leaving := by
  unfold Leaving at h ⊢
  rwa [hactive, hstatus]

theorem step_notParked (h : m.Sane cfg) (hshare : cfg.timeshare = true)
    (hp : m.sched.NotParked cfg ∨ m.Leaving) {e : Event} (hok : m.NeedsNoRefill cfg e)
    (hs : step cfg m e = some m') : m'.sched.NotParked cfg ∨ m'.Leaving := by
  cases step_cases hs with
  | svc c sp hrun huser =>
      have hp' := hp.resolve_right (not_leaving_of_user huser)
      have hsane := h.called c sp
      left
      by_cases hquiet : ((m.called c sp).svcIsr cfg c).sched = m.sched
      · rwa [hquiet]
      · refine Sched.effect_notParked hsane.sched hshare hrun.2 hp' (svcIsr_has hsane.slots c)
          (fun hz => ?_) fun th code hc hth hready => ?_
        · exact hok.1 (((m.called c sp).zeroTest_blocks hz).resolve_left hquiet)
        · exact hok.2 th (mem_takesOff hth hc hready)
  | ret hrun hst =>
      refine Or.inl (hp.resolve_right ?_)
      unfold Leaving
      rw [hst]
      exact id
  | taskReturn v hrun huser => exact Or.inl (hp.resolve_right (not_leaving_of_user huser))
  | exitStep part code hrun hst =>
      unfold Leaving at hp
      rw [hst] at hp
      refine (exitPart_notParked h hshare code hp).imp_right fun hpart => ?_
      have hactive : (m.exitPart cfg code part).active = m.active := exitPart_active code part
      show Leaving _
      unfold Leaving
      dsimp only
      rw [hactive, set1_same]
      exact hpart
  | wakes hi hw hk =>
      exact hp.imp (Sched.grows_wakes hshare hw.1).notParked (leaving_congr hk.active hk.status)
  | irq => exact hp.imp_left (m.sched.grows_ready _).notParked
  | systick p =>
      have hclock := Sched.grows_clockTick h.sched.nextTick hshare
      rcases Sched.shareTick_notParked h.sched.nextTick.clockTick hshare h.active with hdone | hwq
      · exact Or.inl hdone
      · have hgrows := (Sched.grows_wq rfl).trans (hclock.trans (Sched.grows_wq hwq))
        exact hp.imp hgrows.notParked (leaving_congr rfl rfl)
  | pendsv sp r0 =>
      left
      show (m.framed sp r0).sched.NotParked cfg
      rw [framed_sched]
      exact hp.elim id hok

theorem start_notParked (hshare : cfg.timeshare = true) (id priority : Nat) (paused : Bool) :
    (start cfg id priority paused).sched.NotParked cfg := by
  rintro ⟨t, -, ht⟩
  have hpaused := (cfg.beyond hshare (.inl rfl)).2
  have hnone : (start cfg id priority paused).sched.wq wqTmshare t = false := by
    have hready : wqTmshare ≠ wqReady := by decide
    unfold start
    dsimp only
    cases paused with
    | false => rw [if_neg Bool.false_ne_true, set2_ne _ (.inl hready), set2_ne _ (.inl hready)]
    | true =>
        rw [if_pos rfl, set2_ne _ (.inl hpaused), set2_ne _ (.inl hready), set2_ne _ (.inl hready)]
  exact absurd (hnone.symm.trans ht) (by decide)

/-- As long as no step needs a refill that the code leaves out, no thread is parked behind the
idle thread, whatever the threads, the interrupts and the clock do. -/
theorem run_notParked (hshare : cfg.timeshare = true) {id priority : Nat} {paused : Bool}
    {es : List Event}
    (hok : Lib.Along (step cfg) (fun m e => m.NeedsNoRefill cfg e) (start cfg id priority paused) es)
    (hrun : Lib.exec (step cfg) (start cfg id priority paused) es = some m) :
    m.sched.NotParked cfg ∨ m.Leaving := by
  have hI : m.Sane cfg ∧ (m.sched.NotParked cfg ∨ m.Leaving) :=
    Lib.exec_invariant (I := fun m => m.Sane cfg ∧ (m.sched.NotParked cfg ∨ m.Leaving))
      (fun _ _ _ hI hok hs => ⟨hI.1.step hs, step_notParked hI.1 hshare hI.2 hok hs⟩)
      ⟨.start cfg id priority paused, Or.inl (start_notParked hshare id priority paused)⟩ hok hrun
  exact hI.2

/-- A thread whose time has run out, while another thread waits for a semaphore. -/
def parkingRun : List Event :=
  [.svc (.semAlloc 0) 1000, .ret, .svc (.threadCreate 0 2000 200 1 1 false) 1000,
    .pendsv 0 0, .ret, .systick, .pendsv 1000 0, .svc (.semWait 21) 2100]

/-- The run without its last call. -/
theorem run_notParked_before : ∃ m, Lib.exec (step .default) (start .default 0 1 false)
    (parkingRun.take 7) = some m ∧ (m.sched.NotParked .default ∨ m.Leaving) := by
  obtain ⟨m, hm⟩ := Option.isSome_iff_exists.mp
    (by decide : (Lib.exec (step .default) (start .default 0 1 false)
      (parkingRun.take 7)).isSome = true)
  exact ⟨m, hm, run_notParked rfl (by decide) hm⟩

/-- Thread 1 waits for a semaphore while thread 0 shares: thread 0 stays in the time share queue
although only the idle thread is ready. -/
theorem semWait_parks : ∃ m, Reached .default parkingRun m ∧ m.sched.Shares ∧
    ¬ m.sched.SomeReady .default ∧ ¬ m.Leaving := by
  obtain ⟨m, hm⟩ := Option.isSome_iff_exists.mp
    (by decide : (Lib.exec (step .default) (start .default 0 1 false)
      parkingRun).isSome = true)
  have hall : (Lib.exec (step .default) (start .default 0 1 false) parkingRun).all
      (fun m => decide (m.sched.Shares ∧ ¬ m.sched.SomeReady .default ∧ ¬ m.Leaving)) = true := by
    decide
  rw [hm, Option.all_some] at hall
  exact ⟨m, ⟨0, 1, false, hm⟩, of_decide_eq_true hall⟩

end Machine

end YardIce.Thinkos
