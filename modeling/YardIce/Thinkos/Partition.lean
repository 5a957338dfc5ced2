import YardIce.Thinkos.Pausing
import YardIce.Thinkos.Places

/-!
# The queues are a partition of the threads

Every allocated thread that does not wait for an interrupt is in one queue, and its state names
it, as long as no step takes a thread from a place where the code does not expect it. The steps
that do are the end of a thread, the resume of a thread that did not wait with a time, the join of
a canceled thread, the failure of a creation, a tick that charges a thread which has just blocked,
and a few more.
-/

namespace YardIce.Thinkos

/-! ## The steps that move a thread from where it is expected -/

/-- The call moves threads only from where they are expected. -/
def Svc.Orderly (cfg : Config) (m : Machine) : Svc → Prop
  | .threadCreate _ _ stackSize _ _ _ =>
      Machine.contextSize ≤ stackSize ∨ ∀ t < cfg.threadsMax, m.thAlloc t = true
  | .sleep _ => m.sched.wq wqReady m.active = true
  | .alarm _ => m.sched.wq wqReady m.active = true
  | .irqWait irq =>
      m.sched.wq wqReady m.active = true ∧
        (m.irqOn irq = true → ∀ u ∈ m.irqTh irq, ∃ q < cfg.wqEnd, m.sched.wq q u = true)
  | .resume th => m.sched.wq cfg.wqPaused th = true → m.sched.thStat th % 2 = 1
  | .cancel th _ => m.sched.wq cfg.wqPaused th = false
  | .join th => m.sched.wq wqReady m.active = true ∧ m.sched.wq cfg.wqCanceled th = false
  | .exit _ => m.sched.wq cfg.wqCanceled m.active = true
  | c => c.waits.isSome = true → m.sched.wq wqReady m.active = true

instance (cfg : Config) (m : Machine) : DecidablePred (Svc.Orderly cfg m) := fun c => by
  unfold Svc.Orderly
  split <;> infer_instance

/-- `thinkos_thread_exit` is at the part with the interrupts disabled, or behind it. -/
def Status.ending : Status → Bool
  | .exiting part _ => decide (0 < part)
  | _ => false

namespace Machine

variable (cfg : Config) (m : Machine)

/-- The step moves threads only from where they are expected. -/
def Orderly : Event → Prop
  | .svc c _ => c.Orderly cfg m
  | .exitStep => (m.status m.active).ending = false
  | .isr (.irq irq) =>
      m.irqOn irq = true → ∀ u ∈ m.irqTh irq, ∀ q < cfg.wqEnd, m.sched.wq q u = false
  | .systick =>
      m.sched.OutOfTime cfg m.active →
        m.sched.wq wqReady m.active = true ∨ m.active ∈ m.sched.nextTick.due cfg
  | _ => True

instance : DecidablePred (m.Orderly cfg)
  | .svc c _ => inferInstanceAs (Decidable (c.Orderly cfg m))
  | .exitStep => instDecidableEqBool _ _
  | .isr (.irq _) => inferInstanceAs (Decidable (_ → _))
  | .systick => inferInstanceAs (Decidable (_ → _))
  | .ret | .taskReturn _ | .pendsv _ _ | .isr (.evRaise _ _) | .isr (.flagGive _) |
    .isr (.flagClr _) | .isr (.flagSet _) | .isr (.semPost _) => instDecidableTrue

/-! ## The partition -/

/-- A thread waits for an interrupt. -/
def AwaitsIrq (t : Nat) : Prop := ∃ irq < cfg.irqMax, m.irqOn irq = true ∧ m.irqTh irq = some t

instance (t : Nat) : Decidable (m.AwaitsIrq cfg t) := Nat.decidableExistsLT _

/-- The queue of an object, or of the end of a thread, in which a thread is. -/
def objectOf (t : Nat) : Option Nat :=
  (List.range cfg.wqEnd).find? fun q => decide (cfg.mutexBase ≤ q) && m.sched.wq q t

/-- The queues in which the paused threads were when they were paused. -/
def remembered (m' : Machine) (r : Nat → Option Nat) (t : Nat) : Option Nat :=
  if m'.sched.wq cfg.wqPaused t then
    if m.sched.wq cfg.wqPaused t then r t else m.objectOf cfg t
  else none

/-- A thread is in a queue; the clock queue counts if it is in no queue of an object. -/
def InQueue (t q : Nat) : Prop :=
  q < cfg.wqEnd ∧ m.sched.wq q t = true ∧
    (q = cfg.wqClock → ∀ p < cfg.wqEnd, cfg.mutexBase ≤ p → m.sched.wq p t = false)

instance (t q : Nat) : Decidable (m.InQueue cfg t q) := instDecidableAnd

/-- A thread is in exactly one queue, and its state says which. -/
structure Partitioned (r : Nat → Option Nat) (t : Nat) : Prop where
  one : ∃ q, m.InQueue cfg t q ∧ ∀ p, m.InQueue cfg t p → p = q
  object : ∀ q < cfg.wqEnd, cfg.mutexBase ≤ q → m.sched.wq q t = true → m.sched.thStat t / 2 = q
  paused : m.sched.wq cfg.wqPaused t = true → ∀ q ∈ r t, m.sched.thStat t / 2 = q
  ready : m.sched.wq wqReady t = true → m.sched.thStat t / 2 = 0
  clock : m.sched.wq cfg.wqClock t = true ↔
    m.sched.thStat t % 2 = 1 ∧ m.sched.wq cfg.wqPaused t = false

end Machine

/-- A step that remembers where the paused threads were. -/
def watchStep (cfg : Config) (s : Machine × (Nat → Option Nat)) (e : Event) :
    Option (Machine × (Nat → Option Nat)) :=
  (step cfg s.1 e).map fun m' => (m', s.1.remembered cfg m' s.2)

/-! ## The movements of a step -/

/-- What a step does to a thread that is allocated or not. -/
structure Place.Moved (a a' : Bool) (pl pl' : Place) : Prop where
  paused : ¬ pl'.Loose → pl' = pl ∨ pl.Loose ∧ pl' = .paused pl.stat
  nowhere : pl' = .nowhere → a' = true → pl = .nowhere ∧ a = true
  free : a' = false → a = false ∧ (pl = .nowhere → pl' = .nowhere)
  share : pl' = .tmshare → pl = .tmshare

theorem Place.Leads.moved {pl pl' : Place} (h : pl.Leads pl') (a : Bool) : Moved a a pl pl' where
  paused hnot := h.elim Or.inl fun hand => absurd hand.2.2.2 hnot
  nowhere heq ha := h.elim (fun hsame => ⟨hsame ▸ heq, ha⟩) fun hand => absurd heq hand.2.1
  free ha := ⟨ha, fun heq => h.elim (fun hsame => hsame.trans heq) fun hand => absurd heq hand.1⟩
  share heq := h.elim (fun hsame => hsame ▸ heq) fun hand => absurd heq hand.2.2.1

section Effects

variable {cfg : Config} {m : Machine} {c : Svc} {τ : Sched} {alloc' : Nat → Bool} {d : Bool}
  {t : Nat} {pl : Place}

namespace Sched.Sits

/-- A thread that blocks goes to the queue of an object, or of the end of a thread. -/
theorem enter (h : m.sched.Sits cfg t pl) (hrun : m.sched.wq wqReady m.active = true) {p : Nat}
    (hp : cfg.mutexBase ≤ p ∧ p < cfg.wqEnd) (ms : Option (BitVec 32)) :
    ∃ pl', ((m.sched.enqueue cfg p m.active ms).bit wqReady m.active false).Sits cfg t pl' ∧
      pl.Leads pl' := by
  by_cases ht : t = m.active
  · subst ht
    obtain rfl := h.eq_ready hrun
    exact ⟨_, h.block hp (fun _ => rfl) rfl, Place.ready_leads⟩
  · exact ⟨pl, h.of_same (((SameBut.refl _ _).enqueue p ms).bit wqReady false) ht, Or.inl rfl⟩

/-- A thread that blocks, while another one is waked up. -/
theorem enterWake (h : m.sched.Sits cfg t pl) (hrun : m.sched.wq wqReady m.active = true)
    {q p u : Nat} (hq : cfg.mutexBase ≤ q ∧ q < cfg.wqEnd) (hp : cfg.mutexBase ≤ p ∧ p < cfg.wqEnd)
    (hne : q ≠ p) (ms : Option (BitVec 32))
    (hu : (m.sched.enqueue cfg q m.active ms).wq p u = true) :
    ∃ pl', (((m.sched.enqueue cfg q m.active ms).wakeup cfg p u).bit wqReady m.active
      false).Sits cfg t pl' ∧ pl.Leads pl' := by
  have hsame : SameBut u (m.sched.enqueue cfg q m.active ms)
      ((m.sched.enqueue cfg q m.active ms).wakeup cfg p u) := (SameBut.refl u _).wakeup p
  by_cases ht : t = m.active
  · subst ht
    obtain rfl := h.eq_ready hrun
    have hself : m.active ≠ u := by
      rintro rfl
      obtain ⟨-, -, -, h₄, -⟩ := cfg.first_queues
      rw [enqueue_self, if_neg (by omega), h.row p hp.2] at hu
      obtain ⟨h₁, h₂, h₃, -⟩ := cfg.first_queues
      grind [Place.holds]
    exact ⟨_, h.block hq (fun x => hsame.wq x _ hself) (hsame.stat _ hself), Place.ready_leads⟩
  · have hin : (m.sched.enqueue cfg q m.active ms).Sits cfg t pl :=
      h.of_same ((SameBut.refl m.active m.sched).enqueue q ms) ht
    have hoff := (SameBut.refl m.active
      ((m.sched.enqueue cfg q m.active ms).wakeup cfg p u)).bit wqReady false
    by_cases htu : t = u
    · subst htu
      obtain ⟨timed, rfl⟩ := hin.eq_held hp hu
      exact ⟨_, hin.wakeup.of_same hoff ht, Place.leads_ready⟩
    · exact ⟨pl, (hin.of_same hsame htu).of_same hoff ht, Or.inl rfl⟩

/-- The refill of the ready queue is the last thing that a wait does. -/
theorem then_collect (h : ∃ pl', τ.Sits cfg t pl' ∧ pl.Leads pl') :
    ∃ pl', (τ.collect cfg).Sits cfg t pl' ∧ pl.Leads pl' := by
  obtain ⟨pl₁, hpl₁, hleads₁⟩ := h
  obtain ⟨pl₂, hpl₂, hleads₂⟩ := hpl₁.collect
  exact ⟨pl₂, hpl₂, hleads₁.trans hleads₂⟩

theorem then_collectZero (h : ∃ pl', τ.Sits cfg t pl' ∧ pl.Leads pl') :
    ∃ pl', (τ.collectZero cfg).Sits cfg t pl' ∧ pl.Leads pl' := by
  obtain ⟨pl₁, hpl₁, hleads₁⟩ := h
  obtain ⟨pl₂, hpl₂, hleads₂⟩ := hpl₁.collectZero
  exact ⟨pl₂, hpl₂, hleads₁.trans hleads₂⟩

theorem enterSleep (h : m.sched.Sits cfg t pl) (hrun : m.sched.wq wqReady m.active = true)
    (clock : BitVec 32) :
    ∃ pl', ((m.sched.asleep cfg m.active clock).bit wqReady m.active false).Sits cfg t pl' ∧
      pl.Leads pl' := by
  by_cases ht : t = m.active
  · subst ht
    obtain rfl := h.eq_ready hrun
    exact ⟨_, h.asleep clock, Place.ready_leads⟩
  · exact ⟨pl, h.of_same (((SameBut.refl _ _).asleep clock).bit wqReady false) ht, Or.inl rfl⟩

end Sched.Sits

theorem Svc.Orderly.running (hok : c.Orderly cfg m) {w : Nat × Option (BitVec 32)}
    (hc : c.waits = some w) : m.sched.wq wqReady m.active = true := by
  cases c with
  | mutexLock | mutexTimedlock | semWait | semTimedwait | condWait | condTimedwait | flagWait
  | flagTimedwait | flagTake | flagTimedtake | evWait | evTimedwait => exact hok rfl
  | _ => cases hc

theorem Config.IsObject.bounds {q : Nat} (hq : cfg.IsObject q) :
    cfg.mutexBase ≤ q ∧ q < cfg.wqEnd := by
  obtain ⟨-, -, -, -, -, h₆, -⟩ := cfg.first_queues
  exact ⟨hq.1, by have := hq.2; omega⟩

/-- What an orderly call does to a thread, if it is not a wait for an interrupt. -/
theorem Sched.Sits.effect (h : m.sched.Sits cfg t pl) (hfree : m.thAlloc t = false → pl = .nowhere)
    (hok : c.Orderly cfg m) (hirq : ∀ irq, c ≠ .irqWait irq)
    (he : Effect cfg c m.sched m.active m.thAlloc τ alloc' d) :
    ∃ pl', τ.Sits cfg t pl' ∧ Place.Moved (m.thAlloc t) (alloc' t) pl pl' := by
  have hlead : (∃ pl', τ.Sits cfg t pl' ∧ pl.Leads pl') → alloc' = m.thAlloc →
      ∃ pl', τ.Sits cfg t pl' ∧ Place.Moved (m.thAlloc t) (alloc' t) pl pl' := by
    rintro ⟨pl', hpl', hleads⟩ rfl
    exact ⟨pl', hpl', hleads.moved _⟩
  cases he with
  | wakes hw => exact hlead (h.wakes hw) rfl
  | block hq hc => exact hlead (then_collect (h.enter (hok.running hc) hq.bounds _)) rfl
  | blockZero hq hc => exact hlead (then_collectZero (h.enter (hok.running hc) hq.bounds _)) rfl
  | blockWake hq hp hne hc _ hu =>
      exact hlead (then_collect
        (h.enterWake (hok.running hc) hq.bounds hp.bounds hne _ (find?_some hu).2)) rfl
  | sleep hc clock =>
      have hrun : m.sched.wq wqReady m.active = true := by
        rcases hc with rfl | rfl
        · exact hok
        · exact hok
      exact hlead (then_collect (h.enterSleep hrun clock)) rfl
  | irqWait hc => exact absurd hc (hirq _)
  | @pause th hc hth halloc hp =>
      by_cases heq : t = th
      · subst heq
        have hloose := h.loose hp
        exact ⟨_, h.suspend hloose, fun _ => Or.inr ⟨hloose, rfl⟩, nofun,
          fun hno => absurd (halloc.symm.trans hno) (by decide), nofun⟩
      · exact hlead ⟨pl, h.of_same (SameBut.refl th _).suspend heq, Or.inl rfl⟩ rfl
  | @resume th hc hth halloc hp =>
      by_cases heq : t = th
      · subst heq
        obtain rfl := h.eq_paused hp
        subst hc
        exact hlead ⟨_, h.takeUp (hok hp), Or.inr ⟨nofun, nofun, nofun, trivial⟩⟩ rfl
      · exact hlead ⟨pl, h.of_same (SameBut.refl th _).takeUp heq, Or.inl rfl⟩ rfl
  | @cancel th code hc hth halloc =>
      by_cases heq : t = th
      · subst heq
        subst hc
        exact ⟨_, h.withdraw (h.loose hok), fun hnot => absurd trivial hnot, nofun,
          fun hno => absurd (halloc.symm.trans hno) (by decide), nofun⟩
      · exact hlead ⟨pl, h.of_same (SameBut.refl th _).withdraw heq, Or.inl rfl⟩ rfl
  | @join th hc hth halloc =>
      subst hc
      obtain ⟨-, -, -, -, h₅, h₆, -⟩ := cfg.first_queues
      have hrelease : m.sched.release cfg th = m.sched := by
        unfold Sched.release
        rw [hok.2]
        exact if_neg nofun
      refine hlead ?_ rfl
      rw [hrelease]
      exact then_collect (h.enter hok.1 (p := cfg.joinBase + th) ⟨by omega, by omega⟩ none)
  | exit hc =>
      subst hc
      by_cases heq : t = m.active
      · subst heq
        obtain rfl := h.eq_canceled hok
        exact hlead ⟨_, h.cancelAgain, Or.inl rfl⟩ rfl
      · exact hlead ⟨pl, h.of_same ((SameBut.refl _ _).wqInsert _) heq, Or.inl rfl⟩ rfl
  | createFails hc hsize hth hfree' =>
      subst hc
      rcases hok with hok | hok
      · omega
      · exact absurd ((hok _ hth).symm.trans hfree') (by decide)
  | @create arg stackPtr stackSize priority id th paused hc hth hfree' =>
      by_cases heq : t = th
      · subst heq
        obtain rfl := hfree hfree'
        refine ⟨_, h.enroll priority paused, fun hnot => ?_, ?_, fun hno => ?_, ?_⟩
        · cases paused with
          | false => exact absurd trivial hnot
          | true => exact Or.inr ⟨trivial, rfl⟩
        · cases paused with
          | false => nofun
          | true => nofun
        · exact absurd ((set1_same _ _ _).symm.trans hno) (by decide)
        · cases paused with
          | false => nofun
          | true => nofun
      · rw [set1_ne _ heq]
        exact ⟨pl, h.of_same ((SameBut.refl th _).enroll priority paused) heq,
          Place.Leads.moved (Or.inl rfl) _⟩

end Effects

/-! ## The invariant -/

namespace Machine

/-- A thread is at a place where it may be. -/
structure Placed (cfg : Config) (m : Machine) (r : Nat → Option Nat) (t : Nat) (pl : Place) :
    Prop where
  sits : m.sched.Sits cfg t pl
  free : m.thAlloc t = false → pl = .nowhere
  awaits : m.thAlloc t = true → pl = .nowhere → m.AwaitsIrq cfg t
  memory : ¬ pl.Loose → ∀ q ∈ r t, pl.stat / 2 = q
  run : m.pendsv = false → t = m.active → pl ≠ .tmshare

/-- All the threads are at places where they may be. -/
structure Placing (cfg : Config) (m : Machine) (r : Nat → Option Nat) : Prop where
  rows : ∀ t < cfg.threadsMax, ∃ pl, m.Placed cfg r t pl
  active : m.active < cfg.threadsMax → m.thAlloc m.active = true
  irqs : ∀ irq th, m.irqTh irq = some th → m.thAlloc th = true

section Placed

variable {cfg : Config} {m m' : Machine} {r : Nat → Option Nat} {t : Nat} {pl pl' : Place}

theorem objectOf_some {q : Nat} (h : m.objectOf cfg t = some q) :
    (cfg.mutexBase ≤ q ∧ q < cfg.wqEnd) ∧ m.sched.wq q t = true := by
  unfold objectOf at h
  have hp := List.find?_some h
  rw [Bool.and_eq_true, decide_eq_true_iff] at hp
  exact ⟨⟨hp.1, List.mem_range.mp (List.mem_of_find?_eq_some h)⟩, hp.2⟩

/-- The queue in which a thread was when it was paused is remembered by its state. -/
theorem Placed.memory_step (h : m.Placed cfg r t pl)
    (hpaused : ¬ pl'.Loose → pl' = pl ∨ pl.Loose ∧ pl' = .paused pl.stat) (hloose : ¬ pl'.Loose) :
    ∀ q ∈ m.remembered cfg m' r t, pl'.stat / 2 = q := by
  obtain ⟨h₁, h₂, h₃, h₄, h₅, h₆, -⟩ := cfg.first_queues
  intro q hq
  unfold remembered at hq
  split_ifs at hq with hin' hin
  · obtain heq | ⟨hloose', -⟩ := hpaused hloose
    · exact heq ▸ h.memory (heq ▸ hloose) q hq
    · rw [h.sits.eq_paused hin] at hloose'
      exact hloose'.elim
  · obtain heq | ⟨-, heq⟩ := hpaused hloose
    · rw [heq] at hloose
      exact absurd (h.sits.loose (Bool.eq_false_iff.mpr hin)) hloose
    · obtain ⟨hbounds, hbit⟩ := objectOf_some hq
      obtain ⟨timed, rfl⟩ := h.sits.eq_held hbounds hbit
      rw [heq]
      exact Place.held_div
  · cases hq

theorem Placed.step (h : m.Placed cfg r t pl) (h' : m'.sched.Sits cfg t pl')
    (hmoved : Place.Moved (m.thAlloc t) (m'.thAlloc t) pl pl')
    (hirq : m.AwaitsIrq cfg t → pl' = .nowhere → m'.AwaitsIrq cfg t)
    (hrun : m'.pendsv = false → t = m'.active → pl' ≠ .tmshare) :
    m'.Placed cfg (m.remembered cfg m' r) t pl' where
  sits := h'
  free hno := (hmoved.free hno).2 (h.free (hmoved.free hno).1)
  awaits ha hno :=
    hirq (h.awaits (hmoved.nowhere hno ha).2 (hmoved.nowhere hno ha).1) hno
  memory hloose := h.memory_step hmoved.paused hloose
  run := hrun

end Placed

namespace Placing

variable {cfg : Config} {m m' : Machine} {r : Nat → Option Nat}

/-- A step within the same thread that pauses nobody. -/
theorem of_leads (h : m.Placing cfg r)
    (hrows : ∀ t < cfg.threadsMax, ∀ pl, m.Placed cfg r t pl →
      ∃ pl', m'.sched.Sits cfg t pl' ∧ pl.Leads pl')
    (ha : m'.thAlloc = m.thAlloc) (hth : m'.irqTh = m.irqTh) (hon : m'.irqOn = m.irqOn)
    (hactive : m'.active = m.active) (hp : m.pendsv = true → m'.pendsv = true) :
    m'.Placing cfg (m.remembered cfg m' r) where
  rows t ht := by
    obtain ⟨pl, hpl⟩ := h.rows t ht
    obtain ⟨pl', hpl', hleads⟩ := hrows t ht pl hpl
    have hmoved : Place.Moved (m.thAlloc t) (m'.thAlloc t) pl pl' := ha ▸ hleads.moved _
    refine ⟨pl', hpl.step hpl' hmoved (fun hawaits _ => ?_) fun hp' hself heq => ?_⟩
    · unfold AwaitsIrq
      rw [hth, hon]
      exact hawaits
    · have hpend : m.pendsv = false := by
        cases hm : m.pendsv with
        | false => rfl
        | true => exact absurd ((hp hm).symm.trans hp') (by decide)
      exact hpl.run hpend (hself.trans hactive) (hmoved.share heq)
  active hlt := by
    rw [ha, hactive]
    exact h.active (hactive ▸ hlt)
  irqs irq th hirq := by
    rw [ha]
    exact h.irqs irq th (hth ▸ hirq)

/-- A step that moves no thread. -/
theorem of_sched (h : m.Placing cfg r) (hs : m'.sched = m.sched) (ha : m'.thAlloc = m.thAlloc)
    (hth : m'.irqTh = m.irqTh) (hon : m'.irqOn = m.irqOn) (hactive : m'.active = m.active)
    (hp : m.pendsv = true → m'.pendsv = true) : m'.Placing cfg (m.remembered cfg m' r) :=
  h.of_leads (fun _ _ pl hpl => ⟨pl, hs ▸ hpl.sits, Or.inl rfl⟩) ha hth hon hactive hp

/-- A thread comes to wait for an interrupt. -/
theorem irqWait (h : m.Placing cfg r) (hlt : m.active < cfg.threadsMax) {irq : Nat}
    (hok : Svc.Orderly cfg m (.irqWait irq)) :
    (m.irqWaitSvc cfg irq).Placing cfg (m.remembered cfg (m.irqWaitSvc cfg irq) r) := by
  unfold irqWaitSvc
  split_ifs with hirq
  · exact h.of_sched rfl rfl rfl rfl rfl id
  · refine ⟨fun t ht => ?_, h.active, fun irq' th hth => ?_⟩
    · obtain ⟨pl, hpl⟩ := h.rows t ht
      by_cases hself : t = m.active
      · subst hself
        obtain rfl := hpl.sits.eq_ready hok.1
        obtain ⟨pl', hpl', hleads⟩ := hpl.sits.gone.collect
        obtain rfl := hleads.resolve_right fun hand => hand.1 rfl
        exact ⟨.nowhere, hpl', fun _ => rfl, fun _ _ => ⟨irq, not_le.mp hirq, set1_same _ _ _,
          set1_same _ _ _⟩, fun hnot => absurd trivial hnot, nofun⟩
      · obtain ⟨pl', hpl', hleads⟩ :=
          (hpl.sits.of_same ((Sched.SameBut.refl m.active m.sched).bit wqReady false) hself).collect
        refine ⟨pl', hpl.step hpl' (hleads.moved _) (fun hawaits hno => ?_) nofun⟩
        obtain ⟨irq', hlt', hon, hth⟩ := hawaits
        have hne : irq' ≠ irq := by
          rintro rfl
          obtain ⟨q, hq, hin⟩ := hok.2 hon t hth
          have hout := hpl'.row q hq
          obtain rfl := hleads.resolve_right fun hand => hand.2.1 hno
          rw [hno] at hpl
          exact absurd (hin.symm.trans (hpl.sits.row q hq)) nofun
        exact ⟨irq', hlt', (set1_ne _ hne _).trans hon, (set1_ne _ hne _).trans hth⟩
    · have hcases : irq' = irq ∧ th = m.active ∨ m.irqTh irq' = some th := by
        by_cases heq : irq' = irq
        · subst heq
          exact Or.inl ⟨rfl, (Option.some.inj ((set1_same _ _ _).symm.trans hth)).symm⟩
        · exact Or.inr ((set1_ne _ heq _).symm.trans hth)
      rcases hcases with ⟨-, rfl⟩ | hth'
      · exact h.active hlt
      · exact h.irqs irq' th hth'

/-- A system call moves threads only from where they are expected. -/
theorem svcIsr (h : m.Placing cfg r) (hslots : ∀ i, cfg.threadsMax ≤ i → m.thAlloc i = true)
    (hrun : m.Running cfg) {c : Svc} (hok : c.Orderly cfg m) :
    (m.svcIsr cfg c).Placing cfg (m.remembered cfg (m.svcIsr cfg c) r) := by
  by_cases hirq : ∃ irq, c = .irqWait irq
  · obtain ⟨irq, rfl⟩ := hirq
    exact h.irqWait hrun.2 hok
  · have hne : ∀ irq, c ≠ .irqWait irq := fun irq heq => hirq ⟨irq, heq⟩
    have hhas := svcIsr_has hslots c
    obtain ⟨hth, hon⟩ := m.svcIsr_irqs hne
    refine ⟨fun t ht => ?_, fun hlt => ?_, fun irq th hirq => ?_⟩
    · obtain ⟨pl, hpl⟩ := h.rows t ht
      obtain ⟨pl', hpl', hmoved⟩ := hpl.sits.effect hpl.free hok hne hhas
      refine ⟨pl', hpl.step hpl' hmoved (fun hawaits _ => ?_) fun _ hself heq => ?_⟩
      · unfold AwaitsIrq
        rw [hth, hon]
        exact hawaits
      · exact hpl.run hrun.1 (hself.trans (svcIsr_active m c)) (hmoved.share heq)
    · rw [svcIsr_active] at hlt ⊢
      exact hhas.alloc_mono (h.active hlt)
    · exact hhas.alloc_mono (h.irqs irq th (hth ▸ hirq))

theorem exitFirst (h : m.Placing cfg r) (hrun : m.Running cfg) {st : Nat → Status} :
    ({ m with sched := offTmshare cfg m.sched m.active, status := st } : Machine).Placing cfg
      (m.remembered cfg
        { m with sched := offTmshare cfg m.sched m.active, status := st } r) := by
  refine h.of_leads (fun t ht pl hpl => ⟨pl, ?_, Or.inl rfl⟩) rfl rfl rfl rfl id
  by_cases hself : t = m.active
  · exact hself ▸ hpl.sits.offTmshare (hpl.run hrun.1 hself)
  · exact hpl.sits.of_same (Sched.SameBut.refl m.active m.sched).offTmshare hself

/-- The clock interrupt. -/
theorem systick (h : m.Placing cfg r)
    (hok : m.sched.OutOfTime cfg m.active →
      m.sched.wq wqReady m.active = true ∨ m.active ∈ m.sched.nextTick.due cfg) {p : Bool}
    (hp : m.pendsv = true → p = true) (hout : m.sched.OutOfTime cfg m.active → p = true) :
    ({ m with sched := (m.sched.nextTick.clockTick cfg).shareTick cfg m.active, pendsv := p } :
      Machine).Placing cfg (m.remembered cfg
        { m with sched := (m.sched.nextTick.clockTick cfg).shareTick cfg m.active, pendsv := p }
        r) := by
  have hready_lt : wqReady < cfg.wqEnd := by
    obtain ⟨h₁, h₂, h₃, h₄, h₅, h₆, -⟩ := cfg.first_queues
    omega
  refine ⟨fun t ht => ?_, h.active, h.irqs⟩
  obtain ⟨pl, hpl⟩ := h.rows t ht
  have hnext : m.sched.nextTick.Sits cfg t pl := ⟨hpl.sits.ok, hpl.sits.row, hpl.sits.stat⟩
  obtain ⟨pl₁, hpl₁, hleads₁⟩ := hnext.clockTick_leads
  by_cases hself : t = m.active
  · subst hself
    obtain ⟨hval, hpri⟩ := Sched.Sits.clockTick_vals cfg m.sched.nextTick
    have htime : (m.sched.nextTick.clockTick cfg).OutOfTime cfg m.active →
        m.sched.OutOfTime cfg m.active := by
      unfold Sched.OutOfTime
      rw [hval, hpri]
      exact id
    have hready : (m.sched.nextTick.clockTick cfg).OutOfTime cfg m.active → pl₁ = .ready := by
      intro htimed
      by_cases hdue : m.active ∈ m.sched.nextTick.due cfg
      · exact hpl₁.eq_ready ((hnext.clockTick.1 hdue).row wqReady hready_lt)
      · obtain rfl := hpl.sits.eq_ready ((hok (htime htimed)).resolve_right hdue)
        exact hpl₁.eq_ready ((hnext.clockTick.2 hdue).row wqReady hready_lt)
    obtain ⟨pl₂, hpl₂, hleads₂⟩ := hpl₁.shareTick_self hready
    rcases hleads₂ with hleads₂ | ⟨htimed, heq₁, heq₂⟩
    · have hleads := hleads₁.trans hleads₂
      refine ⟨pl₂, hpl.step hpl₂ (hleads.moved _) (fun hawaits _ => hawaits)
        fun hp' hself heq => ?_⟩
      have hpend : m.pendsv = false := by
        cases hm : m.pendsv with
        | false => rfl
        | true => exact absurd ((hp hm).symm.trans hp') (by decide)
      exact hpl.run hpend hself ((hleads.moved true).share heq)
    · subst heq₂
      exact ⟨.tmshare, hpl₂, fun hno => absurd ((h.active ht).symm.trans hno) (by decide), nofun,
        fun hnot => absurd trivial hnot,
        fun hp' _ => absurd ((hout (htime htimed)).symm.trans hp') (by decide)⟩
  · obtain ⟨pl₂, hpl₂, hleads₂⟩ := hpl₁.shareTick_ne hself
    exact ⟨pl₂, hpl.step hpl₂ ((hleads₁.trans hleads₂).moved _) (fun hawaits _ => hawaits)
      fun _ hself' => absurd hself' hself⟩

/-- Every orderly step keeps the threads at places where they may be. -/
theorem step (h : m.Placing cfg r) (hsane : m.Sane cfg) {e : Event} (hok : m.Orderly cfg e)
    (hs : step cfg m e = some m') : m'.Placing cfg (m.remembered cfg m' r) := by
  cases step_cases hs with
  | svc c sp hrun huser =>
      have hcalled : (m.called c sp).Placing cfg r := ⟨fun t ht => by
        obtain ⟨pl, hpl⟩ := h.rows t ht
        exact ⟨pl, hpl.sits, hpl.free, hpl.awaits, hpl.memory, hpl.run⟩, h.active, h.irqs⟩
      exact hcalled.svcIsr hsane.slots hrun hok
  | ret => exact h.of_sched rfl rfl rfl rfl rfl id
  | taskReturn => exact h.of_sched rfl rfl rfl rfl rfl id
  | exitStep part code hrun hst =>
      have hpart : part = 0 := by
        have hending : (m.status m.active).ending = false := hok
        rw [hst] at hending
        exact Nat.eq_zero_of_not_pos (of_decide_eq_false hending)
      subst hpart
      exact h.exitFirst hrun
  | wakes hi hw hk hp =>
      exact h.of_leads (fun t _ pl hpl => hpl.sits.wakes hw.1) hw.2 hk.irqTh hk.irqOn hk.active hp
  | @irq irq th hon hth =>
      refine ⟨fun t ht => ?_, h.active, h.irqs⟩
      obtain ⟨pl, hpl⟩ := h.rows t ht
      by_cases heq : t = th
      · subst heq
        obtain rfl := hpl.sits.eq_nowhere (hok hon t hth)
        exact ⟨.ready, hpl.sits.come, fun hno => absurd ((h.irqs irq t hth).symm.trans hno)
          (by decide), nofun, fun hnot => absurd trivial hnot, nofun⟩
      · refine ⟨pl, hpl.step (hpl.sits.of_same ((Sched.SameBut.refl th _).bit wqReady true) heq)
          (Place.Leads.moved (Or.inl rfl) _) (fun hawaits _ => ?_) nofun⟩
        obtain ⟨irq', hlt', hon', hth'⟩ := hawaits
        have hne : irq' ≠ irq := by
          rintro rfl
          exact heq (Option.some.inj (hth'.symm.trans hth))
        exact ⟨irq', hlt', (set1_ne _ hne _).trans hon', hth'⟩
  | systick p hp hout => exact h.systick hok hp hout
  | @pendsv sp r0 u hp hu =>
      obtain ⟨p, f, heq⟩ := m.framed_eq sp r0
      rw [heq] at hu ⊢
      have hbit := (find?_some hu).2
      have hready : ∀ pl, m.Placed cfg r u pl → pl = .ready := fun pl hpl =>
        hpl.sits.eq_ready hbit
      refine ⟨fun t ht => ?_, fun hlt => ?_, h.irqs⟩
      · obtain ⟨pl, hpl⟩ := h.rows t ht
        refine ⟨pl, hpl.step hpl.sits (Place.Leads.moved (Or.inl rfl) _) (fun hawaits _ => hawaits)
          fun _ hself heq' => ?_⟩
        obtain rfl : t = u := hself
        exact absurd ((hready pl hpl).symm.trans heq') nofun
      · obtain ⟨pl, hpl⟩ := h.rows u hlt
        cases halloc : m.thAlloc u with
        | true => rfl
        | false => exact absurd ((hready pl hpl).symm.trans (hpl.free halloc)) nofun

/-- The main thread is ready at the start, and the other ones are not there. -/
theorem start (cfg : Config) (id priority : Nat) :
    (start cfg id priority false).Placing cfg fun _ => none := by
  have hself : ∀ t, (Thinkos.start cfg id priority false).thAlloc t = true → t < cfg.threadsMax →
      t = (Thinkos.start cfg id priority false).active := by
    intro t ha ht
    rcases (Bool.or_eq_true_iff.mp ha) with ha | ha
    · exact absurd (of_decide_eq_true ha) (by omega)
    · exact of_decide_eq_true ha
  have hactive : (Thinkos.start cfg id priority false).thAlloc
      (Thinkos.start cfg id priority false).active = true := by
    show (decide _ || decide _) = true
    rw [Bool.or_eq_true]
    exact Or.inr (decide_eq_true rfl)
  have hwq : ∀ q t, t < cfg.threadsMax → (Thinkos.start cfg id priority false).sched.wq q t =
      set2 (fun _ _ => false) wqReady (Thinkos.start cfg id priority false).active true q t :=
    fun q t ht => set2_ne _ (Or.inr ht.ne) true
  refine ⟨fun t ht => ?_, fun _ => hactive, fun irq th h => absurd h (by simp [Thinkos.start])⟩
  by_cases heq : t = (Thinkos.start cfg id priority false).active
  · refine ⟨.ready, ⟨trivial, fun q _ => ?_, rfl⟩, fun hno => ?_, fun _ h => ?_,
      fun hnot => absurd trivial hnot, fun _ _ h => ?_⟩
    · rw [hwq q t ht, heq]
      simp only [Place.holds, set2, and_true]
      by_cases hq : q = wqReady
      · rw [if_pos hq, beq_iff_eq.mpr hq]
      · rw [if_neg hq, beq_eq_false_iff_ne.mpr hq]
    · rw [heq] at hno
      exact absurd (hactive.symm.trans hno) (by decide)
    · cases h
    · cases h
  · refine ⟨.nowhere, ⟨trivial, fun q _ => ?_, rfl⟩, fun _ => rfl, fun ha => ?_,
      fun hnot => absurd trivial hnot, fun _ _ h => ?_⟩
    · exact (hwq q t ht).trans (set2_ne _ (Or.inr heq) true)
    · exact absurd (hself t ha ht) heq
    · cases h

end Placing

/-! ## The runs -/

/-- A thread that is at a place, and does not wait for an interrupt, is in one queue. -/
theorem Placed.partitioned {cfg : Config} {m : Machine} {r : Nat → Option Nat} {t : Nat}
    {pl : Place} (h : m.Placed cfg r t pl) (halloc : m.thAlloc t = true)
    (hirq : ¬ m.AwaitsIrq cfg t) : m.Partitioned cfg r t := by
  obtain ⟨h₁, h₂, h₃, h₄, h₅, h₆, -⟩ := cfg.first_queues
  have hrow := h.sits.row
  have hstat := h.sits.stat
  refine ⟨?_, fun q hq hlo hin => ?_, fun hin q hq => ?_, fun hin => ?_, ?_⟩
  · obtain ⟨q, hq, hin, honly, hsleep⟩ := Place.holds_one h.sits.ok fun hno =>
      hirq (h.awaits halloc hno)
    refine ⟨q, ⟨hq, (hrow q hq).trans hin, fun heq p hp hlo => (hrow p hp).trans
      (hsleep heq p hlo)⟩, fun p hp => ?_⟩
    rcases honly p ((hrow p hp.1).symm.trans hp.2.1) with heq | ⟨heq, hlo⟩
    · exact heq
    · exact absurd ((hp.2.2 heq q hq hlo).symm.trans ((hrow q hq).trans hin)) (by decide)
  · rw [hstat]
    exact Place.holds_object h.sits.ok hlo ((hrow q hq).symm.trans hin)
  · rw [hstat]
    refine h.memory (fun hloose => ?_) q hq
    rw [h.sits.eq_paused hin] at hloose
    exact hloose
  · rw [hstat, Place.holds_ready h.sits.ok ((hrow wqReady (by omega)).symm.trans hin)]
  · rw [hrow _ (by omega), hrow _ (by omega), hstat]
    exact Place.holds_clock h.sits.ok

end Machine

end YardIce.Thinkos
