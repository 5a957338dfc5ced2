import YardIce.Thinkos.Rows
import YardIce.Thinkos.Steps

/-!
# What holds in every state

The idle thread is always ready, only numbers of threads are in the queues, and the state of a
thread names a queue in which a thread can wait. These facts need no condition on the run.
-/

namespace YardIce.Thinkos

/-- A queue that the state of a thread can name. -/
def Config.IsPlace (cfg : Config) (q : Nat) : Prop :=
  q = wqReady ∨ q = cfg.wqCanceled ∨ q = cfg.wqClock ∨ cfg.mutexBase ≤ q ∧ q < cfg.wqEnd

/-- The first queues are different from each other. -/
theorem Config.first_queues (cfg : Config) : wqReady < cfg.wqCanceled ∧
    cfg.wqCanceled < cfg.wqPaused ∧ cfg.wqPaused < cfg.wqClock ∧ cfg.wqClock < cfg.mutexBase ∧
    cfg.mutexBase ≤ cfg.joinBase ∧ cfg.joinBase + cfg.threadsMax = cfg.wqEnd ∧ cfg.wqEnd ≤ 128 ∧
    (cfg.timeshare = true → wqTmshare < cfg.wqCanceled) := by
  have hjoin := cfg.joinBase_le
  obtain ⟨h₁, h₂, h₃, h₄, h₅⟩ := cfg.bases
  have hcanceled : 0 < cfg.wqCanceled ∧ (cfg.timeshare = true → 1 < cfg.wqCanceled) := by
    unfold Config.wqCanceled
    split_ifs with ht
    · exact ⟨by decide, fun _ => by decide⟩
    · exact ⟨by decide, fun h => absurd h ht⟩
  have hpaused : cfg.wqPaused = cfg.wqCanceled + 1 := rfl
  have hclock : cfg.wqClock = cfg.wqPaused + 1 := rfl
  have hmutex : cfg.mutexBase = cfg.wqClock + 1 := rfl
  have hend : cfg.wqEnd = cfg.joinBase + cfg.threadsMax := rfl
  exact ⟨hcanceled.1, by omega, by omega, by omega, by omega, by omega, by omega, hcanceled.2⟩

theorem Config.IsPlace.lt {cfg : Config} {q : Nat} (h : cfg.IsPlace q) : q < 128 := by
  obtain ⟨h₁, h₂, h₃, h₄, h₅, h₆, h₇, -⟩ := cfg.first_queues
  rcases h with rfl | rfl | rfl | h
  · decide
  · omega
  · omega
  · omega

theorem Config.IsPlace.of_object {cfg : Config} {q : Nat} (h : cfg.IsObject q) : cfg.IsPlace q := by
  obtain ⟨-, -, -, -, -, h₆, -⟩ := cfg.first_queues
  exact Or.inr (Or.inr (Or.inr ⟨h.1, by have := h.2; omega⟩))

/-- The queues of an object are none of the first ones. -/
theorem Config.IsObject.first {cfg : Config} {q : Nat} (h : cfg.IsObject q) :
    q ≠ wqReady ∧ q ≠ cfg.wqCanceled ∧ q ≠ cfg.wqPaused ∧ q ≠ cfg.wqClock := by
  obtain ⟨h₁, h₂, h₃, h₄, -⟩ := cfg.first_queues
  have hlo := h.1
  exact ⟨by omega, by omega, by omega, by omega⟩

/-- The facts about the queues that hold in every state. -/
structure Sched.Sane (cfg : Config) (σ : Sched) : Prop where
  idle : σ.wq wqReady cfg.threadsMax = true
  idleVal : 0 ≤ σ.schedVal cfg.threadsMax
  idlePri : σ.schedPri cfg.threadsMax = 0
  place : ∀ t, cfg.IsPlace (σ.thStat t / 2)
  bits : ∀ q t, σ.wq q t = true → t < cfg.threadsMax ∨ q = wqReady ∧ t = cfg.threadsMax

namespace Sched.Sane

variable {cfg : Config} {σ : Sched}

theorem bit (h : σ.Sane cfg) {u : Nat} (hu : u < cfg.threadsMax) (p : Nat) (b : Bool) :
    (σ.bit p u b).Sane cfg where
  idle := (set2_ne σ.wq (Or.inr hu.ne') b).trans h.idle
  idleVal := h.idleVal
  idlePri := h.idlePri
  place := h.place
  bits q t hbit := by
    by_cases hqt : q = p ∧ t = u
    · exact Or.inl (hqt.2 ▸ hu)
    · exact h.bits q t ((if_neg hqt).symm.trans hbit)

/-- Another state of a thread that names a queue. -/
theorem stat (h : σ.Sane cfg) {q s : Nat} (hq : cfg.IsPlace q) (hs : s / 2 = q) (u : Nat) :
    ({ σ with thStat := set1 σ.thStat u s } : Sched).Sane cfg where
  idle := h.idle
  idleVal := h.idleVal
  idlePri := h.idlePri
  place t := by
    show cfg.IsPlace (set1 σ.thStat u s t / 2)
    by_cases ht : t = u
    · rw [ht, set1_same, hs]
      exact hq
    · rw [set1_ne _ ht]
      exact h.place t
  bits := h.bits

theorem clock (h : σ.Sane cfg) (clock : Nat → BitVec 32) : ({ σ with clock := clock }).Sane cfg :=
  ⟨h.idle, h.idleVal, h.idlePri, h.place, h.bits⟩

theorem stat_div {q : Nat} (hq : q < 128) : q * 2 % 256 / 2 = q ∧ (q * 2 + 1) % 256 / 2 = q := by
  omega

theorem wqInsert (h : σ.Sane cfg) {q u : Nat} (hq : cfg.IsPlace q) (hu : u < cfg.threadsMax) :
    (σ.wqInsert q u).Sane cfg :=
  (h.bit hu q true).stat hq (stat_div hq.lt).1 u

theorem tmdwqInsert (h : σ.Sane cfg) {q u : Nat} (hq : cfg.IsPlace q) (hu : u < cfg.threadsMax)
    (ms : BitVec 32) : (σ.tmdwqInsert cfg q u ms).Sane cfg :=
  (((h.bit hu q true).bit hu cfg.wqClock true).clock (set1 σ.clock u (σ.ticks + ms))).stat hq
    (stat_div hq.lt).2 u

theorem enqueue (h : σ.Sane cfg) {q u : Nat} (hq : cfg.IsPlace q) (hu : u < cfg.threadsMax)
    (ms : Option (BitVec 32)) : (σ.enqueue cfg q u ms).Sane cfg := by
  cases ms with
  | none => exact h.wqInsert hq hu
  | some ms => exact h.tmdwqInsert hq hu ms

theorem asleep (h : σ.Sane cfg) {u : Nat} (hu : u < cfg.threadsMax) (clock : BitVec 32) :
    (σ.asleep cfg u clock).Sane cfg := by
  have hplace : cfg.IsPlace cfg.wqClock := Or.inr (Or.inr (Or.inl rfl))
  exact ((h.bit hu cfg.wqClock true).clock (set1 σ.clock u clock)).stat hplace
    (stat_div hplace.lt).2 u

theorem collected (h : σ.Sane cfg) : σ.collected.Sane cfg where
  idle := by
    show (if wqReady = wqReady then σ.wq wqReady cfg.threadsMax || σ.wq wqTmshare cfg.threadsMax
      else if wqReady = wqTmshare then false else σ.wq wqReady cfg.threadsMax) = true
    rw [if_pos rfl, h.idle, Bool.true_or]
  idleVal := h.idleVal
  idlePri := h.idlePri
  place := h.place
  bits q t hbit := by
    unfold Sched.collected at hbit
    dsimp only at hbit
    by_cases hready : q = wqReady
    · rw [if_pos hready, Bool.or_eq_true] at hbit
      rcases hbit with hbit | hbit
      · exact (h.bits _ t hbit).imp_right fun hidle => ⟨hready, hidle.2⟩
      · exact (h.bits _ t hbit).imp_right fun hidle => ⟨hready, hidle.2⟩
    · rw [if_neg hready] at hbit
      split_ifs at hbit
      exact h.bits q t hbit

theorem collect (h : σ.Sane cfg) : (σ.collect cfg).Sane cfg := by
  unfold Sched.collect
  split_ifs
  · exact h.collected
  · exact h

theorem leave (h : σ.Sane cfg) {u : Nat} (hu : u < cfg.threadsMax) : (σ.leave cfg u).Sane cfg :=
  (h.bit hu wqReady false).collect

theorem leaveZero (h : σ.Sane cfg) {u : Nat} (hu : u < cfg.threadsMax) :
    (σ.leaveZero cfg u).Sane cfg := by
  have hbit := h.bit hu wqReady false
  unfold Sched.leaveZero Sched.collectZero
  split_ifs
  · exact hbit.collected
  · exact hbit

theorem wakeup (h : σ.Sane cfg) {u : Nat} (hu : u < cfg.threadsMax) (p : Nat) :
    (σ.wakeup cfg p u).Sane cfg :=
  (((h.bit hu wqReady true).bit hu p false).bit hu cfg.wqClock false).stat (Or.inl rfl) rfl u

theorem offTmshare (h : σ.Sane cfg) {u : Nat} (hu : u < cfg.threadsMax) :
    (Machine.offTmshare cfg σ u).Sane cfg := by
  unfold Machine.offTmshare
  split_ifs
  · exact h.bit hu wqTmshare false
  · exact h

theorem suspend (h : σ.Sane cfg) {u : Nat} (hu : u < cfg.threadsMax) : (σ.suspend cfg u).Sane cfg :=
  (((h.bit hu _ true).bit hu _ false).offTmshare hu).bit hu _ false

theorem takeUp (h : σ.Sane cfg) {u : Nat} (hu : u < cfg.threadsMax) : (σ.takeUp cfg u).Sane cfg :=
  ((h.bit hu _ false).bit hu _ true).bit hu _ true

theorem withdraw (h : σ.Sane cfg) {u : Nat} (hu : u < cfg.threadsMax) :
    (σ.withdraw cfg u).Sane cfg :=
  (((h.bit hu _ false).wqInsert (Or.inr (Or.inl rfl)) hu).offTmshare hu).bit hu _ false

theorem release (h : σ.Sane cfg) {u : Nat} (hu : u < cfg.threadsMax) :
    (σ.release cfg u).Sane cfg := by
  unfold Sched.release
  split_ifs
  · exact (h.bit hu _ false).bit hu _ true
  · exact h

theorem shareInit (h : σ.Sane cfg) {u : Nat} (hu : u < cfg.threadsMax) (priority : Nat) :
    (Machine.shareInit cfg σ u priority).Sane cfg := by
  unfold Machine.shareInit
  split_ifs
  · exact ⟨h.idle, h.idleVal.trans_eq (set1_ne _ hu.ne' _).symm,
      (set1_ne _ hu.ne' _).trans h.idlePri, h.place, h.bits⟩
  · exact h

theorem enroll (h : σ.Sane cfg) {u : Nat} (hu : u < cfg.threadsMax) (priority : Nat)
    (paused : Bool) : (σ.enroll cfg u priority paused).Sane cfg :=
  (h.shareInit hu priority).bit hu _ true

/-- The head of the queue of an object is a thread. -/
theorem head_lt (h : σ.Sane cfg) {q u : Nat} (hq : q ≠ wqReady) (hu : σ.head q = some u) :
    u < cfg.threadsMax :=
  (h.bits q u (find?_some hu).2).resolve_right fun hidle => hq hidle.1

theorem wakes {τ : Sched} (h : σ.Sane cfg) (hw : Wakes cfg σ τ) : τ.Sane cfg := by
  induction hw with
  | refl => exact h
  | wake hw hq hu ih => exact ih.wakeup (ih.head_lt hq.first.1 hu) _

theorem effect {c : Svc} {self : Nat} {alloc alloc' : Nat → Bool} {τ : Sched} {d : Bool}
    (h : σ.Sane cfg) (hself : self < cfg.threadsMax) (he : Effect cfg c σ self alloc τ alloc' d) : τ.Sane cfg := by
  cases he with
  | wakes hw => exact h.wakes hw
  | block hq => exact (h.enqueue (.of_object hq) hself _).leave hself
  | blockZero hq => exact (h.enqueue (.of_object hq) hself _).leaveZero hself
  | @blockWake _ _ _ ms hq hp hne hc hz hu =>
      have hin := h.enqueue (.of_object hq) hself ms
      exact (hin.wakeup (hin.head_lt hp.first.1 hu) _).leave hself
  | sleep _ clock => exact (h.asleep hself clock).leave hself
  | irqWait => exact h.leave hself
  | pause _ hth => exact h.suspend hth
  | resume _ hth => exact h.takeUp hth
  | cancel _ hth => exact h.withdraw hth
  | join _ hth =>
      obtain ⟨-, -, -, -, h₅, h₆, -⟩ := cfg.first_queues
      exact ((h.release hth).wqInsert (Or.inr (Or.inr (Or.inr ⟨by omega, by omega⟩))) hself).leave
        hself
  | exit => exact h.wqInsert (Or.inr (Or.inl rfl)) hself
  | createFails => exact h
  | create _ hth => exact h.enroll hth _ _

theorem expire (h : σ.Sane cfg) {u : Nat} (hu : u < cfg.threadsMax) : (σ.expire cfg u).Sane cfg :=
  (((h.bit hu _ false).stat (Or.inl rfl) rfl u).bit hu _ false).bit hu _ true

theorem foldl {α : Type} {f : Sched → α → Sched} {l : List α}
    (hf : ∀ σ, σ.Sane cfg → ∀ a ∈ l, (f σ a).Sane cfg) (h : σ.Sane cfg) :
    (l.foldl f σ).Sane cfg :=
  List.foldlRecOn l f h fun _ hb a ha => hf _ hb a ha

theorem mem_due {u : Nat} (h : σ.Sane cfg) (hu : u ∈ σ.due cfg) :
    u < cfg.threadsMax ∧ σ.wq cfg.wqClock u = true ∧ σ.expired u = true := by
  have hp := (List.mem_filter.mp hu).2
  rw [Bool.and_eq_true] at hp
  obtain ⟨h₁, h₂, h₃, -⟩ := cfg.first_queues
  exact ⟨(h.bits _ u hp.1).resolve_right fun hidle => by have := hidle.1; omega, hp⟩

theorem nextTick (h : σ.Sane cfg) : σ.nextTick.Sane cfg :=
  ⟨h.idle, h.idleVal, h.idlePri, h.place, h.bits⟩

theorem clockTick (h : σ.Sane cfg) : (σ.clockTick cfg).Sane cfg :=
  h.foldl fun _ hτ _ ha => hτ.expire (h.mem_due ha).1

/-- The time of the idle thread does not run out. -/
theorem outOfTime (h : σ.Sane cfg) {u : Nat} (hu : u ≤ cfg.threadsMax)
    (hout : σ.schedVal u - σ.schedPri u < 0) : u < cfg.threadsMax := by
  rcases hu.lt_or_eq with hlt | rfl
  · exact hlt
  · have hval := h.idleVal
    have hpri := h.idlePri
    omega

theorem val (h : σ.Sane cfg) {u : Nat} {v : Int} (hv : u = cfg.threadsMax → 0 ≤ v) :
    ({ σ with schedVal := set1 σ.schedVal u v }).Sane cfg where
  idle := h.idle
  idleVal := by
    show 0 ≤ set1 σ.schedVal u v cfg.threadsMax
    by_cases hu : u = cfg.threadsMax
    · rw [hu, set1_same]
      exact hv hu
    · rw [set1_ne _ (Ne.symm hu)]
      exact h.idleVal
  idlePri := h.idlePri
  place := h.place
  bits := h.bits

theorem shareTick (h : σ.Sane cfg) {u : Nat} (hu : u ≤ cfg.threadsMax) :
    (σ.shareTick cfg u).Sane cfg := by
  unfold Sched.shareTick
  dsimp only
  split_ifs with hshare hout
  · have hlt := h.outOfTime hu hout
    exact (((h.val fun heq => absurd heq hlt.ne).bit hlt _ true).bit hlt _ false).collect
  · exact h.val fun _ => not_lt.mp hout
  · exact h

end Sched.Sane

/-! ## The machine -/

/-- No system call frees a thread. -/
theorem Effect.alloc_mono {cfg : Config} {c : Svc} {σ τ : Sched} {self : Nat}
    {alloc alloc' : Nat → Bool} {d : Bool} (h : Effect cfg c σ self alloc τ alloc' d) {i : Nat} (hi : alloc i = true) :
    alloc' i = true := by
  have hset : ∀ th, set1 alloc th true i = true := fun th => by
    unfold set1
    split_ifs
    · rfl
    · exact hi
  cases h with
  | createFails => exact hset _
  | create => exact hset _
  | _ => exact hi

namespace Machine

/-- The facts that hold in every state. -/
structure Sane (cfg : Config) (m : Machine) : Prop where
  sched : m.sched.Sane cfg
  slots : ∀ i, cfg.threadsMax ≤ i → m.thAlloc i = true
  irqs : ∀ irq th, m.irqTh irq = some th → th < cfg.threadsMax
  active : m.active ≤ cfg.threadsMax

namespace Sane

variable {cfg : Config} {m m' : Machine}

/-- A step in which neither the allocation, the waits for interrupts nor the active thread
change. -/
theorem of_sched (h : m.Sane cfg) (hs : m'.sched.Sane cfg) (ha : m'.thAlloc = m.thAlloc)
    (hi : m'.irqTh = m.irqTh) (hactive : m'.active = m.active) : m'.Sane cfg :=
  ⟨hs, ha ▸ h.slots, hi ▸ h.irqs, hactive ▸ h.active⟩

theorem of_wakes (h : m.Sane cfg)
    (hw : Wakes cfg m.sched m'.sched ∧ m'.thAlloc = m.thAlloc) (hk : m.Keeps m') : m'.Sane cfg :=
  h.of_sched (h.sched.wakes hw.1) hw.2 hk.irqTh hk.active

theorem called (h : m.Sane cfg) (c : Svc) (sp : Nat) : (m.called c sp).Sane cfg :=
  h.of_sched h.sched rfl rfl rfl

theorem svcIsr (h : m.Sane cfg) (hlt : m.active < cfg.threadsMax) (c : Svc) :
    (m.svcIsr cfg c).Sane cfg where
  sched := h.sched.effect hlt (svcIsr_has h.slots c)
  slots i hi := (svcIsr_has h.slots c).alloc_mono (h.slots i hi)
  irqs irq th hth := by
    have hwaits : (m.svcIsr cfg c).irqTh = m.irqTh ∨ _ := m.svcIsr_irqTh c
    rcases hwaits with heq | ⟨p, heq⟩
    · exact h.irqs irq th (by rwa [heq] at hth)
    · rw [heq] at hth
      unfold set1 at hth
      split_ifs at hth
      · exact Option.some.inj hth ▸ hlt
      · exact h.irqs irq th hth
  active := (svcIsr_active m c).trans_le h.active

theorem exitTurn {self j : Nat} {code : Int} (h : m.Sane cfg) (hj : j < cfg.threadsMax) :
    (exitTurn cfg self code m j).Sane cfg := by
  have hlimit : ∀ limit : Int, ({ m.sched with schedLimit := limit }).Sane cfg := fun _ =>
    ⟨h.sched.idle, h.sched.idleVal, h.sched.idlePri, h.sched.place, h.sched.bits⟩
  obtain ⟨limit, heq | ⟨-, -, heq⟩⟩ := exitTurn_cases cfg self code m j
  · rw [heq]
    exact h.of_sched (hlimit limit) rfl rfl rfl
  · rw [heq]
    exact h.of_sched (((hlimit limit).bit hj _ true).bit hj _ false) rfl rfl rfl

theorem exitCritical (h : m.Sane cfg) (hlt : m.active < cfg.threadsMax) (code : Int) :
    (m.exitCritical cfg code).Sane cfg := by
  have hleft := (h.sched.bit hlt (m.sched.thStat m.active / 2) false).stat (Or.inl rfl)
    (s := 0) rfl m.active
  exact List.foldlRecOn _ _ (h.of_sched hleft rfl rfl rfl) fun _ hm _ hj =>
    hm.exitTurn (List.mem_range.mp hj)

theorem exitPart (h : m.Sane cfg) (hlt : m.active < cfg.threadsMax) (code : Int) :
    ∀ part, (m.exitPart cfg code part).Sane cfg
  | 0 => h.of_sched (h.sched.offTmshare hlt) rfl rfl rfl
  | 1 => h.exitCritical hlt code
  | 2 => ⟨h.sched, fun i hi => (set1_ne _ (by omega) _).trans (h.slots i hi), h.irqs, h.active⟩
  | 3 => h.of_sched h.sched rfl rfl rfl
  | 4 => h.of_sched (h.sched.bit hlt _ false) rfl rfl rfl
  | 5 => h.of_sched h.sched.collect rfl rfl rfl
  | 6 => h.of_sched h.sched rfl rfl rfl
  | _ + 7 => h

theorem framed (h : m.Sane cfg) (sp : Nat) (r0 : Int) : (m.framed sp r0).Sane cfg := by
  obtain ⟨p, f, heq⟩ := m.framed_eq sp r0
  rw [heq]
  exact h.of_sched h.sched rfl rfl rfl

theorem step (h : m.Sane cfg) {e : Event} (hs : step cfg m e = some m') : m'.Sane cfg := by
  cases step_cases hs with
  | svc c sp hrun huser => exact (h.called c sp).svcIsr hrun.2 c
  | ret => exact h.of_sched h.sched rfl rfl rfl
  | taskReturn => exact h.of_sched h.sched rfl rfl rfl
  | exitStep part code hrun hst =>
      have hpart := h.exitPart hrun.2 code part
      exact hpart.of_sched hpart.sched rfl rfl rfl
  | wakes hi hw hk => exact h.of_wakes hw hk
  | irq hon hth => exact h.of_sched (h.sched.bit (h.irqs _ _ hth) _ true) rfl rfl rfl
  | systick =>
      exact h.of_sched (h.sched.nextTick.clockTick.shareTick h.active) rfl rfl rfl
  | pendsv sp r0 hp hu =>
      have hframed := h.framed sp r0
      have hle := (hframed.sched.bits _ _ (find?_some hu).2).elim le_of_lt fun heq => heq.2.le
      exact ⟨hframed.sched, hframed.slots, hframed.irqs, hle⟩

/-- Only the main thread and the idle thread are in a queue at the start. -/
theorem start_bits {self idle p q t : Nat} {paused : Bool}
    (h : (if paused then set2 (set2 (set2 (fun _ _ => false) wqReady self true) wqReady idle true)
      p self true else set2 (set2 (fun _ _ => false) wqReady self true) wqReady idle true) q t =
        true) : t = self ∨ q = wqReady ∧ t = idle := by
  by_contra hnot
  obtain ⟨hself, hidle⟩ := not_or.mp hnot
  have hidle' : q ≠ wqReady ∨ t ≠ idle := not_and_or.mp hidle
  have hready : set2 (set2 (fun _ _ => false) wqReady self true) wqReady idle true q t = false := by
    rw [set2_ne _ hidle', set2_ne _ (Or.inr hself)]
  cases paused with
  | false => exact absurd (hready.symm.trans h) (by decide)
  | true =>
      have hpaused := (set2_ne _ (Or.inr hself) true).symm.trans h
      exact absurd (hready.symm.trans hpaused) (by decide)

theorem start (cfg : Config) (id priority : Nat) (paused : Bool) :
    (start cfg id priority paused).Sane cfg := by
  obtain ⟨h₁, h₂, -⟩ := cfg.first_queues
  have hself : min id (cfg.threadsMax - 1) < cfg.threadsMax := by
    have := cfg.threads_pos
    omega
  refine ⟨⟨?_, ?_, ?_, fun t => Or.inl (Nat.zero_div 2), fun q t hbit => ?_⟩, fun i hi => ?_, ?_,
    hself.le⟩
  · unfold Thinkos.start
    dsimp only
    cases paused with
    | false => exact set2_same _ _ _ _
    | true =>
        rw [if_pos rfl, set2_ne _ (Or.inl (h₁.trans h₂).ne)]
        exact set2_same _ _ _ _
  · unfold Thinkos.start
    dsimp only
    split_ifs
    · exact (set1_ne (fun _ => (0 : Int)) hself.ne' _).symm.le
    · exact le_rfl
  · unfold Thinkos.start
    dsimp only
    split_ifs
    · exact set1_ne _ hself.ne' _
    · rfl
  · rcases start_bits hbit with rfl | hidle
    · exact Or.inl hself
    · exact Or.inr hidle
  · show (decide (cfg.threadsMax ≤ i) || _) = true
    rw [decide_eq_true hi, Bool.true_or]
  · intro irq th hth
    cases hth

/-- The facts hold in every state that a run reaches. -/
theorem reached {es : List Event} (h : Reached cfg es m) : m.Sane cfg := by
  obtain ⟨id, priority, paused, hrun⟩ := h
  have hall : Lib.Along (Thinkos.step cfg) (fun _ _ => True)
      (Thinkos.start cfg id priority paused) es := Lib.along_of_forall (fun _ _ => trivial) _ es
  exact Lib.exec_invariant (fun _ _ _ hm _ hs => hm.step hs) (.start cfg id priority paused) hall
    hrun

end Sane

end Machine

end YardIce.Thinkos
