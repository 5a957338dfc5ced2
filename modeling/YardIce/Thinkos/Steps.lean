import YardIce.Thinkos.Keeps

/-!
# What a step can do

Every step of the machine is one of these: a system call, its return, a part of the end of a
thread, waking up threads or taking up one that waits for an interrupt, a tick, and the scheduler.
-/

namespace YardIce.Thinkos

/-- A thread that waits for the end of the thread `self` becomes ready. -/
def Sched.joined (cfg : Config) (σ : Sched) (self j : Nat) : Sched :=
  (σ.bit wqReady j true).bit (cfg.joinBase + self) j false

namespace Machine

/-- What a call of an interrupt handler can do. -/
theorem isr_cases {cfg : Config} {m m' : Machine} {i : Isr} (hi : m.isr cfg i = some m') :
    (Wakes cfg m.sched m'.sched ∧ m'.thAlloc = m.thAlloc) ∧ m.Keeps m' ∨
      ∃ irq th, i = .irq irq ∧ m.irqOn irq = true ∧ m.irqTh irq = some th ∧
        m' = ({ m with irqOn := set1 m.irqOn irq false
                       sched := m.sched.bit wqReady th true } : Machine).deferSched := by
  cases i with
  | evRaise wq ev =>
      unfold Machine.isr at hi
      dsimp only at hi
      split_ifs at hi
      obtain ⟨no, hno, rfl⟩ := Option.map_eq_some_iff.mp hi
      exact Or.inl ⟨evRaiseTo_wakes (eventBase_object hno) m, .evRaiseTo rfl wq no ev⟩
  | flagGive wq =>
      obtain ⟨no, hno, rfl⟩ := Option.map_eq_some_iff.mp hi
      exact Or.inl ⟨flagGiveTo_wakes (flagBase_object hno) m, .flagGiveTo rfl wq no⟩
  | flagClr wq =>
      obtain ⟨no, hno, rfl⟩ := Option.map_eq_some_iff.mp hi
      exact Or.inl ⟨⟨.refl, rfl⟩, rfl⟩
  | flagSet wq =>
      obtain ⟨no, hno, rfl⟩ := Option.map_eq_some_iff.mp hi
      exact Or.inl ⟨flagSetTo_wakes (flagBase_object hno) m, .flagSetTo rfl wq no⟩
  | semPost wq =>
      obtain ⟨no, hno, rfl⟩ := Option.map_eq_some_iff.mp hi
      exact Or.inl ⟨semPostTo_wakes (semBase_object hno) m, .semPostTo rfl wq no⟩
  | irq irq =>
      unfold Machine.isr Machine.defaultIsr at hi
      dsimp only at hi
      split_ifs at hi with hon
      obtain ⟨th, hth, rfl⟩ := Option.map_eq_some_iff.mp hi
      exact Or.inr ⟨irq, th, rfl, hon, hth, rfl⟩

/-- A scheduler interrupt stays pending. -/
theorem isr_pendsv {cfg : Config} {m m' : Machine} {i : Isr} (hi : m.isr cfg i = some m')
    (hp : m.pendsv = true) : m'.pendsv = true := by
  cases i with
  | evRaise wq ev =>
      unfold Machine.isr at hi
      dsimp only at hi
      split_ifs at hi
      obtain ⟨no, hno, rfl⟩ := Option.map_eq_some_iff.mp hi
      unfold evRaiseTo
      cases (if m.evMask no ev = true then m.sched.head wq else none) with
      | none => exact hp
      | some u => rfl
  | flagGive wq =>
      obtain ⟨no, hno, rfl⟩ := Option.map_eq_some_iff.mp hi
      unfold flagGiveTo
      split_ifs
      · exact hp
      · cases m.sched.head wq with
        | none => exact hp
        | some u => rfl
  | flagClr wq =>
      obtain ⟨no, hno, rfl⟩ := Option.map_eq_some_iff.mp hi
      exact hp
  | flagSet wq =>
      obtain ⟨no, hno, rfl⟩ := Option.map_eq_some_iff.mp hi
      unfold flagSetTo wakeAll
      split_ifs
      · rfl
      · exact hp
  | semPost wq =>
      obtain ⟨no, hno, rfl⟩ := Option.map_eq_some_iff.mp hi
      unfold semPostTo
      cases m.sched.head wq with
      | none => exact hp
      | some u => rfl
  | irq irq =>
      unfold Machine.isr Machine.defaultIsr at hi
      dsimp only at hi
      split_ifs at hi
      obtain ⟨th, hth, rfl⟩ := Option.map_eq_some_iff.mp hi
      rfl

/-- What the clock interrupt does. -/
theorem systickIsr_eq (cfg : Config) (m : Machine) :
    ∃ p, (m.pendsv = true → p = true) ∧ (m.sched.OutOfTime cfg m.active → p = true) ∧
      m.systickIsr cfg =
      { m with sched := (m.sched.nextTick.clockTick cfg).shareTick cfg m.active, pendsv := p } := by
  unfold systickIsr
  dsimp only
  split_ifs with hor
  · exact ⟨true, fun _ => rfl, fun _ => rfl, rfl⟩
  · exact ⟨m.pendsv, id, fun hout => absurd (Or.inr hout) hor, rfl⟩

/-- One turn of the loop of `thinkos_thread_exit`: a thread that waits becomes ready, or none. -/
theorem exitTurn_cases (cfg : Config) (self : Nat) (code : Int) (m : Machine) (j : Nat) :
    ∃ limit,
      exitTurn cfg self code m j = { m with sched := { m.sched with schedLimit := limit } } ∨
      m.sched.wq (cfg.joinBase + self) j = true ∧ m.thAlloc j = true ∧
        exitTurn cfg self code m j =
          ({ m with sched := Sched.joined cfg { m.sched with schedLimit := limit } self j } :
            Machine).storeR0 j code := by
  unfold exitTurn joinerReady
  by_cases halloc : m.thAlloc j = true
  · rw [if_pos halloc]
    by_cases hshare : cfg.timeshare = true
    · rw [if_pos hshare]
      refine ⟨max m.sched.schedLimit (m.sched.schedPri j), ?_⟩
      dsimp only
      split_ifs with hj
      · exact Or.inr ⟨hj, halloc, rfl⟩
      · exact Or.inl rfl
    · rw [if_neg hshare]
      refine ⟨m.sched.schedLimit, ?_⟩
      split_ifs with hj
      · exact Or.inr ⟨hj, halloc, rfl⟩
      · exact Or.inl rfl
  · rw [if_neg halloc]
    exact ⟨m.sched.schedLimit, Or.inl rfl⟩

/-- What is kept by every turn is kept by the critical part. -/
theorem exitCritical_induct {cfg : Config} {m : Machine} {code : Int} {P : Machine → Prop}
    (h : P { m with sched := { m.sched.bit (m.sched.thStat m.active / 2) m.active false with
      thStat := set1 m.sched.thStat m.active 0 } })
    (hturn : ∀ m' j, P m' → j < cfg.threadsMax → P (exitTurn cfg m.active code m' j)) :
    P (m.exitCritical cfg code) :=
  List.foldlRecOn _ _ h fun m' hm' j hj => hturn m' j hm' (List.mem_range.mp hj)

/-- The parts of the end of a thread do not change who is active. -/
theorem exitPart_active {cfg : Config} {m : Machine} (code : Int) (part : Nat) :
    (m.exitPart cfg code part).active = m.active := by
  have hcritical : (m.exitCritical cfg code).active = m.active := by
    refine exitCritical_induct (P := fun m' => m'.active = m.active) rfl fun m' j hm' _ => ?_
    obtain ⟨limit, heq | ⟨-, -, heq⟩⟩ := exitTurn_cases cfg m.active code m' j
    · rw [heq]
      exact hm'
    · rw [heq]
      exact hm'
  match part with
  | 0 => rfl
  | 1 => exact hcritical
  | 2 => rfl
  | 3 => rfl
  | 4 => rfl
  | 5 => rfl
  | 6 => rfl
  | _ + 7 => rfl

section Framed

variable (m : Machine)

/-- The scheduler changes only the frame of the active thread. -/
theorem framed_eq (sp : Nat) (r0 : Int) :
    ∃ p f, m.framed sp r0 = { m with psp := p, frames := f } := by
  unfold framed
  cases m.status m.active with
  | call c => exact ⟨m.psp, m.frames, rfl⟩
  | user => exact ⟨sp, _, rfl⟩
  | exiting part code => exact ⟨sp, _, rfl⟩

theorem framed_sched (sp : Nat) (r0 : Int) : (m.framed sp r0).sched = m.sched := by
  obtain ⟨p, f, heq⟩ := m.framed_eq sp r0
  rw [heq]

end Framed

/-- What a step does. -/
inductive Stepped (cfg : Config) (m : Machine) : Event → Machine → Prop
  | svc (c : Svc) (sp : Nat) (hrun : m.Running cfg) (huser : m.status m.active = .user) :
      Stepped cfg m (.svc c sp) ((m.called c sp).svcIsr cfg c)
  | ret (hrun : m.Running cfg) {c : Svc} (hst : m.status m.active = .call c) :
      Stepped cfg m .ret m.returned
  | taskReturn (v : Int) (hrun : m.Running cfg) (huser : m.status m.active = .user) :
      Stepped cfg m (.taskReturn v)
        { m with status := set1 m.status m.active (.exiting 0 v) }
  | exitStep (part : Nat) (code : Int) (hrun : m.Running cfg)
      (hst : m.status m.active = .exiting part code) :
      Stepped cfg m .exitStep
        { m.exitPart cfg code part with
          status := set1 (m.exitPart cfg code part).status m.active (.exiting (part + 1) code) }
  | wakes {i : Isr} {m' : Machine} (hi : m.isr cfg i = some m')
      (hw : Wakes cfg m.sched m'.sched ∧ m'.thAlloc = m.thAlloc) (hk : m.Keeps m')
      (hp : m.pendsv = true → m'.pendsv = true) :
      Stepped cfg m (.isr i) m'
  | irq {irq th : Nat} (hon : m.irqOn irq = true) (hth : m.irqTh irq = some th) :
      Stepped cfg m (.isr (.irq irq))
        ({ m with irqOn := set1 m.irqOn irq false, sched := m.sched.bit wqReady th true } :
          Machine).deferSched
  | systick (p : Bool) (hp : m.pendsv = true → p = true)
      (hout : m.sched.OutOfTime cfg m.active → p = true) :
      Stepped cfg m .systick
        { m with sched := (m.sched.nextTick.clockTick cfg).shareTick cfg m.active, pendsv := p }
  | pendsv (sp : Nat) (r0 : Int) {u : Nat} (hp : m.pendsv = true)
      (hu : (m.framed sp r0).sched.head wqReady = some u) :
      Stepped cfg m (.pendsv sp r0)
        { m.framed sp r0 with
          ctx := set1 (m.framed sp r0).ctx (m.framed sp r0).active (m.framed sp r0).psp
          active := u
          psp := set1 (m.framed sp r0).ctx (m.framed sp r0).active (m.framed sp r0).psp u
          pendsv := false
          status := set1 (m.framed sp r0).status u (resumed ((m.framed sp r0).status u)
            ((m.framed sp r0).frames u
              (set1 (m.framed sp r0).ctx (m.framed sp r0).active (m.framed sp r0).psp u))) }

theorem step_cases {cfg : Config} {m m' : Machine} {e : Event} (hs : step cfg m e = some m') :
    Stepped cfg m e m' := by
  unfold step at hs
  cases e with
  | svc c sp =>
      dsimp only at hs
      split_ifs at hs with hrun
      obtain rfl := Option.some.inj hs
      exact .svc c sp hrun.1 hrun.2
  | ret =>
      dsimp only at hs
      split_ifs at hs with hrun
      cases hst : m.status m.active with
      | call c =>
          rw [hst] at hs
          obtain rfl := Option.some.inj hs
          exact .ret hrun hst
      | user => rw [hst] at hs; cases hs
      | exiting part code => rw [hst] at hs; cases hs
  | taskReturn v =>
      dsimp only at hs
      split_ifs at hs with hrun
      obtain rfl := Option.some.inj hs
      exact .taskReturn v hrun.1 hrun.2
  | exitStep =>
      dsimp only at hs
      split_ifs at hs with hrun
      cases hst : m.status m.active with
      | exiting part code =>
          rw [hst] at hs
          obtain rfl := Option.some.inj hs
          exact .exitStep part code hrun hst
      | user => rw [hst] at hs; cases hs
      | call c => rw [hst] at hs; cases hs
  | isr i =>
      obtain ⟨hw, hk⟩ | ⟨irq, th, rfl, hon, hth, rfl⟩ := isr_cases hs
      · exact .wakes hs hw hk (isr_pendsv hs)
      · exact .irq hon hth
  | systick =>
      obtain rfl := Option.some.inj hs
      obtain ⟨p, hp, hout, heq⟩ := m.systickIsr_eq cfg
      rw [heq]
      exact .systick p hp hout
  | pendsv sp r0 =>
      dsimp only at hs
      split_ifs at hs with hp
      obtain ⟨u, hu, rfl⟩ := Option.map_eq_some_iff.mp hs
      exact .pendsv sp r0 hp hu

end Machine

end YardIce.Thinkos
