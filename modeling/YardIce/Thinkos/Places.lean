import YardIce.Thinkos.Sane

/-!
# The places of a thread

The queues hold a thread in one of a few ways, and its state says which. The movements between
the queues take a thread from one of these places to another, provided that it starts from the
right one.
-/

namespace YardIce.Thinkos

/-- Where a thread is. A thread that is held in a queue may be in the clock queue as well. -/
inductive Place where
  | nowhere
  | ready
  | tmshare
  | held (p : Nat) (timed : Bool)
  | paused (s : Nat)

namespace Place

variable (cfg : Config)

/-- The queues that have the thread. -/
def holds : Place → Nat → Bool
  | nowhere, _ => false
  | ready, q => q == wqReady
  | tmshare, q => q == wqTmshare
  | held p timed, q => q == p || timed && q == cfg.wqClock
  | paused _, q => q == cfg.wqPaused

/-- The state of the thread. -/
def stat : Place → Nat
  | nowhere => 0
  | ready => 0
  | tmshare => 0
  | held p timed => 2 * p + timed.toNat
  | paused s => s

/-- The queues in which a thread can be held, with a time or without: that of the canceled
threads, the clock, an object, the end of a thread. -/
def Ok : Place → Prop
  | tmshare => cfg.timeshare = true
  | held p timed =>
      p = cfg.wqCanceled ∧ timed = false ∨ p = cfg.wqClock ∧ timed = true ∨
        cfg.mutexBase ≤ p ∧ p < cfg.wqEnd
  | paused s => s % 2 = 1 → s / 2 = cfg.wqClock ∨ cfg.mutexBase ≤ s / 2 ∧ s / 2 < cfg.wqEnd
  | _ => True

/-- The thread is not paused there. -/
def Loose : Place → Prop
  | paused _ => False
  | _ => True

/-- A thread that is somewhere stays there or gets to another place, but is not paused, and its
time has not run out. -/
def Leads (pl pl' : Place) : Prop :=
  pl' = pl ∨ pl ≠ nowhere ∧ pl' ≠ nowhere ∧ pl' ≠ tmshare ∧ pl'.Loose

theorem Leads.trans {pl pl' pl'' : Place} (h : pl.Leads pl') (h' : pl'.Leads pl'') :
    pl.Leads pl'' := by
  rcases h' with rfl | h'
  · exact h
  · rcases h with rfl | h
    · exact Or.inr h'
    · exact Or.inr ⟨h.1, h'.2⟩

theorem ready_leads {p : Nat} {timed : Bool} : ready.Leads (held p timed) :=
  Or.inr ⟨nofun, nofun, nofun, trivial⟩

theorem leads_ready {p : Nat} {timed : Bool} : (held p timed).Leads ready :=
  Or.inr ⟨nofun, nofun, nofun, trivial⟩

/-- The queue that the state of a held thread names. -/
theorem held_div {p : Nat} {timed : Bool} : (held p timed).stat / 2 = p := by
  cases timed with
  | false => exact Nat.mul_div_cancel_left p (by decide)
  | true => exact (show (2 * p + 1) / 2 = p by lia)

theorem held_mod {p : Nat} {timed : Bool} : (held p timed).stat % 2 = 1 ↔ timed = true := by
  cases timed with
  | false => exact iff_of_false (show ¬ (2 * p + 0) % 2 = 1 by lia) nofun
  | true => exact iff_of_true (show (2 * p + 1) % 2 = 1 by lia) rfl

section Facts

variable {cfg} {pl : Place}

/-- A place has one queue, apart from the clock queue of a wait with a time. -/
theorem holds_one (hok : pl.Ok cfg) (hpl : pl ≠ nowhere) :
    ∃ q < cfg.wqEnd, pl.holds cfg q = true ∧
      (∀ p, pl.holds cfg p = true → p = q ∨ p = cfg.wqClock ∧ cfg.mutexBase ≤ q) ∧
      (q = cfg.wqClock → ∀ p, cfg.mutexBase ≤ p → pl.holds cfg p = false) := by
  obtain ⟨h₁, h₂, h₃, h₄, h₅, h₆, -, h₇⟩ := cfg.first_queues
  cases pl with
  | nowhere => exact absurd rfl hpl
  | ready => exact ⟨wqReady, by lia, by grind [holds], by grind [holds], by lia⟩
  | tmshare =>
      have := h₇ hok
      exact ⟨wqTmshare, by lia, by grind [holds], by grind [holds], by lia⟩
  | held p timed =>
      exact ⟨p, by grind [Ok], by grind [holds], by grind [holds, Ok], by grind [holds, Ok]⟩
  | paused s => exact ⟨cfg.wqPaused, by lia, by grind [holds], by grind [holds], by lia⟩

theorem holds_object (hok : pl.Ok cfg) {q : Nat} (hq : cfg.mutexBase ≤ q)
    (hin : pl.holds cfg q = true) : pl.stat / 2 = q := by
  obtain ⟨h₁, h₂, h₃, h₄, h₅, h₆, -, h₇⟩ := cfg.first_queues
  cases pl with
  | nowhere => cases hin
  | ready => grind [holds]
  | tmshare => grind [holds, Ok]
  | held p timed =>
      rw [held_div]
      grind [holds]
  | paused s => grind [holds]

theorem holds_ready (hok : pl.Ok cfg) (hin : pl.holds cfg wqReady = true) : pl.stat = 0 := by
  obtain ⟨h₁, h₂, h₃, h₄, h₅, h₆, -, h₇⟩ := cfg.first_queues
  cases pl with
  | nowhere => cases hin
  | ready => rfl
  | tmshare => rfl
  | held p timed => grind [holds, Ok]
  | paused s => grind [holds]

theorem holds_clock (hok : pl.Ok cfg) :
    pl.holds cfg cfg.wqClock = true ↔ pl.stat % 2 = 1 ∧ pl.holds cfg cfg.wqPaused = false := by
  obtain ⟨h₁, h₂, h₃, h₄, h₅, h₆, -, h₇⟩ := cfg.first_queues
  cases pl with
  | nowhere => grind [holds, stat]
  | ready => grind [holds, stat]
  | tmshare => grind [holds, stat, Ok]
  | held p timed =>
      rw [held_mod]
      grind [holds, Ok]
  | paused s => grind [holds, stat]

end Facts

end Place

namespace Sched

/-- A thread is at a place. -/
structure Sits (cfg : Config) (σ : Sched) (t : Nat) (pl : Place) : Prop where
  ok : pl.Ok cfg
  row : ∀ q < cfg.wqEnd, σ.wq q t = pl.holds cfg q
  stat : σ.thStat t = pl.stat

namespace Sits

variable {cfg : Config} {σ τ : Sched} {t u : Nat} {pl : Place}

theorem of_same (h : σ.Sits cfg t pl) (hs : SameBut u σ τ) (hu : t ≠ u) : τ.Sits cfg t pl :=
  ⟨h.ok, fun q hq => (hs.wq q t hu).trans (h.row q hq), (hs.stat t hu).trans h.stat⟩

/-! ## What a bit tells -/

theorem eq_ready (h : σ.Sits cfg t pl) (hin : σ.wq wqReady t = true) : pl = .ready := by
  obtain ⟨h₁, h₂, h₃, h₄, h₅, h₆, -⟩ := cfg.first_queues
  have hrow := (h.row wqReady (by lia)).symm.trans hin
  have hok := h.ok
  cases pl with
  | ready => rfl
  | nowhere => cases hrow
  | tmshare => cases hrow
  | held p timed => grind [Place.holds, Place.Ok]
  | paused s => grind [Place.holds]

theorem loose (h : σ.Sits cfg t pl) (hout : σ.wq cfg.wqPaused t = false) : pl.Loose := by
  obtain ⟨h₁, h₂, h₃, h₄, h₅, h₆, -⟩ := cfg.first_queues
  have hrow := (h.row cfg.wqPaused (by lia)).symm.trans hout
  cases pl with
  | paused s => grind [Place.holds]
  | _ => trivial

theorem eq_paused (h : σ.Sits cfg t pl) (hin : σ.wq cfg.wqPaused t = true) :
    pl = .paused (σ.thStat t) := by
  obtain ⟨h₁, h₂, h₃, h₄, h₅, h₆, -, h₇⟩ := cfg.first_queues
  have hrow := (h.row cfg.wqPaused (by lia)).symm.trans hin
  have hok := h.ok
  cases pl with
  | paused s => rw [h.stat]; rfl
  | nowhere => cases hrow
  | ready => grind [Place.holds]
  | tmshare => grind [Place.holds, Place.Ok]
  | held p timed => grind [Place.holds, Place.Ok]

theorem eq_canceled (h : σ.Sits cfg t pl) (hin : σ.wq cfg.wqCanceled t = true) :
    pl = .held cfg.wqCanceled false := by
  obtain ⟨h₁, h₂, h₃, h₄, h₅, h₆, -, h₇⟩ := cfg.first_queues
  have hrow := (h.row cfg.wqCanceled (by lia)).symm.trans hin
  have hok := h.ok
  cases pl with
  | held p timed => grind [Place.holds, Place.Ok]
  | nowhere => cases hrow
  | ready => grind [Place.holds]
  | tmshare => grind [Place.holds, Place.Ok]
  | paused s => grind [Place.holds]

theorem eq_held (h : σ.Sits cfg t pl) {q : Nat} (hq : cfg.mutexBase ≤ q ∧ q < cfg.wqEnd)
    (hin : σ.wq q t = true) : ∃ timed, pl = .held q timed := by
  obtain ⟨h₁, h₂, h₃, h₄, h₅, h₆, -, h₇⟩ := cfg.first_queues
  have hrow := (h.row q hq.2).symm.trans hin
  have hok := h.ok
  cases pl with
  | held p timed => exact ⟨timed, by grind [Place.holds]⟩
  | nowhere => cases hrow
  | ready => grind [Place.holds]
  | tmshare => grind [Place.holds, Place.Ok]
  | paused s => grind [Place.holds]

theorem eq_timed (h : σ.Sits cfg t pl) (hin : σ.wq cfg.wqClock t = true) :
    ∃ p, pl = .held p true := by
  obtain ⟨h₁, h₂, h₃, h₄, h₅, h₆, -, h₇⟩ := cfg.first_queues
  have hrow := (h.row cfg.wqClock (by lia)).symm.trans hin
  have hok := h.ok
  cases pl with
  | held p timed => exact ⟨p, by grind [Place.holds, Place.Ok]⟩
  | nowhere => cases hrow
  | ready => grind [Place.holds]
  | tmshare => grind [Place.holds, Place.Ok]
  | paused s => grind [Place.holds]

theorem eq_nowhere (h : σ.Sits cfg t pl) (hout : ∀ q < cfg.wqEnd, σ.wq q t = false) :
    pl = .nowhere := by
  obtain ⟨h₁, h₂, h₃, h₄, h₅, h₆, -, h₇⟩ := cfg.first_queues
  have hnot : ∀ q < cfg.wqEnd, pl.holds cfg q = false := fun q hq =>
    (h.row q hq).symm.trans (hout q hq)
  have hok := h.ok
  cases pl with
  | nowhere => rfl
  | ready =>
      have hin := hnot wqReady (by lia)
      grind [Place.holds]
  | tmshare =>
      have hin := hnot wqTmshare (by have := h₇ hok; lia)
      grind [Place.holds]
  | held p timed =>
      have hp : p < cfg.wqEnd := by
        unfold Place.Ok at hok
        lia
      have hin := hnot p hp
      grind [Place.holds]
  | paused s =>
      have hin := hnot cfg.wqPaused (by lia)
      grind [Place.holds]

/-! ## From one place to another -/

theorem wakeup {p : Nat} {timed : Bool} (h : σ.Sits cfg u (.held p timed)) :
    (σ.wakeup cfg p u).Sits cfg u .ready where
  ok := trivial
  row q hq := by
    obtain ⟨h₁, h₂, h₃, h₄, h₅, h₆, -⟩ := cfg.first_queues
    have hok := h.ok
    rw [wakeup_self, h.row q hq]
    grind [Place.holds, Place.Ok]
  stat := set1_same _ _ _

theorem expire {p : Nat} {timed : Bool} (h : σ.Sits cfg u (.held p timed)) :
    (σ.expire cfg u).Sits cfg u .ready where
  ok := trivial
  row q hq := by
    obtain ⟨h₁, h₂, h₃, h₄, h₅, h₆, -⟩ := cfg.first_queues
    have hok := h.ok
    rw [expire_self, h.row q hq, h.stat, Place.held_div]
    grind [Place.holds, Place.Ok]
  stat := set1_same _ _ _

/-- A thread that is ready goes to the queue of an object, or of the end of a thread. -/
theorem block (h : σ.Sits cfg u .ready) {p : Nat} (hp : cfg.mutexBase ≤ p ∧ p < cfg.wqEnd)
    {ms : Option (BitVec 32)} (hwq : ∀ q, τ.wq q u = (σ.enqueue cfg p u ms).wq q u)
    (hstat : τ.thStat u = (σ.enqueue cfg p u ms).thStat u) :
    (τ.bit wqReady u false).Sits cfg u (.held p ms.isSome) where
  ok := Or.inr (Or.inr hp)
  row q hq := by
    obtain ⟨h₁, h₂, h₃, h₄, h₅, h₆, -⟩ := cfg.first_queues
    rw [bit_self, hwq, enqueue_self, h.row q hq]
    grind [Place.holds]
  stat := by
    obtain ⟨h₁, h₂, h₃, h₄, h₅, h₆, h₇, -⟩ := cfg.first_queues
    refine hstat.trans ?_
    cases ms with
    | none => exact (set1_same _ _ _).trans (show p * 2 % 256 = 2 * p + 0 by lia)
    | some ms => exact (set1_same _ _ _).trans (show (p * 2 + 1) % 256 = 2 * p + 1 by lia)

theorem asleep (h : σ.Sits cfg u .ready) (clock : BitVec 32) :
    ((σ.asleep cfg u clock).bit wqReady u false).Sits cfg u (.held cfg.wqClock true) where
  ok := Or.inr (Or.inl ⟨rfl, rfl⟩)
  row q hq := by
    obtain ⟨h₁, h₂, h₃, h₄, h₅, h₆, -⟩ := cfg.first_queues
    have hclock : (σ.asleep cfg u clock).wq q u = if q = cfg.wqClock then true else σ.wq q u :=
      bit_self σ _ _ _ _
    rw [bit_self, hclock, h.row q hq]
    grind [Place.holds]
  stat := by
    obtain ⟨h₁, h₂, h₃, h₄, h₅, h₆, h₇, -⟩ := cfg.first_queues
    exact (set1_same _ _ _).trans
      (show (cfg.wqClock * 2 + 1) % 256 = 2 * cfg.wqClock + 1 by lia)

theorem gone (h : σ.Sits cfg u .ready) : (σ.bit wqReady u false).Sits cfg u .nowhere where
  ok := trivial
  row q hq := by
    rw [bit_self, h.row q hq]
    grind [Place.holds]
  stat := h.stat

theorem come (h : σ.Sits cfg u .nowhere) : (σ.bit wqReady u true).Sits cfg u .ready where
  ok := trivial
  row q hq := by
    rw [bit_self, h.row q hq]
    grind [Place.holds]
  stat := h.stat

/-- A thread whose time has run out. -/
theorem charge (h : σ.Sits cfg u .ready) (hshare : cfg.timeshare = true) :
    ((σ.bit wqTmshare u true).bit wqReady u false).Sits cfg u .tmshare where
  ok := hshare
  row q hq := by
    rw [bit_self, bit_self, h.row q hq]
    grind [Place.holds, wqReady, wqTmshare]
  stat := h.stat

theorem suspend (h : σ.Sits cfg u pl) (hpl : pl.Loose) :
    (σ.suspend cfg u).Sits cfg u (.paused pl.stat) where
  ok := by
    obtain ⟨h₁, h₂, h₃, h₄, h₅, h₆, -⟩ := cfg.first_queues
    have hok := h.ok
    intro hodd
    cases pl with
    | held p timed =>
        rw [Place.held_div]
        grind [Place.Ok, Place.stat]
    | paused s => exact hpl.elim
    | _ => cases hodd
  row q hq := by
    obtain ⟨h₁, h₂, h₃, h₄, h₅, h₆, -, h₇⟩ := cfg.first_queues
    have hok := h.ok
    rw [suspend_self, h.row q hq, h.stat]
    cases pl with
    | held p timed =>
        rw [Place.held_div]
        grind [Place.holds, Place.Ok]
    | paused s => exact hpl.elim
    | _ => grind [Place.holds, Place.Ok, Place.stat, wqReady]
  stat := by
    refine Eq.trans ?_ h.stat
    unfold Sched.suspend Machine.offTmshare
    split_ifs
    · rfl
    · rfl

/-- A thread that was paused in a wait with a time. -/
theorem takeUp {s : Nat} (h : σ.Sits cfg u (.paused s)) (hodd : s % 2 = 1) :
    (σ.takeUp cfg u).Sits cfg u (.held (s / 2) true) where
  ok := (h.ok hodd).elim (fun hclock => Or.inr (Or.inl ⟨hclock, rfl⟩)) fun hp => Or.inr (Or.inr hp)
  row q hq := by
    obtain ⟨h₁, h₂, h₃, h₄, h₅, h₆, -⟩ := cfg.first_queues
    have hok := h.ok hodd
    rw [takeUp_self, h.row q hq, h.stat]
    grind [Place.holds, Place.stat]
  stat := h.stat.trans (show s = 2 * (s / 2) + 1 by lia)

theorem withdraw (h : σ.Sits cfg u pl) (hpl : pl.Loose) :
    (σ.withdraw cfg u).Sits cfg u (.held cfg.wqCanceled false) where
  ok := Or.inl ⟨rfl, rfl⟩
  row q hq := by
    obtain ⟨h₁, h₂, h₃, h₄, h₅, h₆, -, h₇⟩ := cfg.first_queues
    have hok := h.ok
    rw [withdraw_self, h.row q hq, h.stat]
    cases pl with
    | held p timed =>
        rw [Place.held_div]
        grind [Place.holds, Place.Ok]
    | paused s => exact hpl.elim
    | _ => grind [Place.holds, Place.Ok, Place.stat, wqReady]
  stat := by
    obtain ⟨h₁, h₂, h₃, h₄, h₅, h₆, h₇, -⟩ := cfg.first_queues
    have hcanceled : (σ.withdraw cfg u).thStat u = cfg.wqCanceled * 2 % 256 := by
      unfold Sched.withdraw Machine.offTmshare
      split_ifs
      · exact set1_same _ _ _
      · exact set1_same _ _ _
    exact hcanceled.trans (show cfg.wqCanceled * 2 % 256 = 2 * cfg.wqCanceled + 0 by lia)

/-- A thread that is canceled already. -/
theorem cancelAgain (h : σ.Sits cfg u (.held cfg.wqCanceled false)) :
    (σ.wqInsert cfg.wqCanceled u).Sits cfg u (.held cfg.wqCanceled false) where
  ok := h.ok
  row q hq := by
    show (σ.bit cfg.wqCanceled u true).wq q u = _
    rw [bit_self, h.row q hq]
    grind [Place.holds]
  stat := by
    obtain ⟨h₁, h₂, h₃, h₄, h₅, h₆, h₇, -⟩ := cfg.first_queues
    exact (set1_same _ _ _).trans
      (show cfg.wqCanceled * 2 % 256 = 2 * cfg.wqCanceled + 0 by lia)

/-- A thread that is not in the time share queue. -/
theorem offTmshare (h : σ.Sits cfg u pl) (hpl : pl ≠ .tmshare) :
    (Machine.offTmshare cfg σ u).Sits cfg u pl where
  ok := h.ok
  row q hq := by
    obtain ⟨h₁, h₂, h₃, h₄, h₅, h₆, -, h₇⟩ := cfg.first_queues
    have hok := h.ok
    rw [offTmshare_self, h.row q hq]
    cases pl with
    | tmshare => exact absurd rfl hpl
    | _ => grind [Place.holds, Place.Ok, wqReady, wqTmshare]
  stat := by
    refine Eq.trans ?_ h.stat
    unfold Machine.offTmshare
    split_ifs
    · rfl
    · rfl

/-- A new thread. -/
theorem enroll (h : σ.Sits cfg u .nowhere) (priority : Nat) (paused : Bool) :
    (σ.enroll cfg u priority paused).Sits cfg u (if paused then .paused 0 else .ready) where
  ok := by
    cases paused with
    | false => trivial
    | true => exact fun hodd => absurd hodd (by decide)
  row q hq := by
    have hinit : (Machine.shareInit cfg σ u priority).wq = σ.wq := by
      unfold Machine.shareInit
      split_ifs
      · rfl
      · rfl
    show ((Machine.shareInit cfg σ u priority).bit _ u true).wq q u = _
    rw [bit_self, hinit, h.row q hq]
    cases paused with
    | false => grind [Place.holds]
    | true => grind [Place.holds]
  stat := by
    have hinit : (Machine.shareInit cfg σ u priority).thStat = σ.thStat := by
      unfold Machine.shareInit
      split_ifs
      · rfl
      · rfl
    show (Machine.shareInit cfg σ u priority).thStat u = _
    rw [hinit, h.stat]
    cases paused with
    | false => rfl
    | true => rfl

/-! ## The movements of many threads -/

theorem collected (h : σ.Sits cfg t pl) (hshare : cfg.timeshare = true) :
    ∃ pl', σ.collected.Sits cfg t pl' ∧ pl.Leads pl' := by
  obtain ⟨h₁, h₂, h₃, h₄, h₅, h₆, -, h₇⟩ := cfg.first_queues
  have h₈ := h₇ hshare
  have hrow : ∀ q < cfg.wqEnd, σ.collected.wq q t =
      if q = wqReady then pl.holds cfg wqReady || pl.holds cfg wqTmshare
      else if q = wqTmshare then false else pl.holds cfg q := fun q hq => by
    rw [← h.row q hq, ← h.row wqReady (by lia), ← h.row wqTmshare (by lia)]
    rfl
  have hok := h.ok
  cases pl with
  | tmshare =>
      refine ⟨.ready, ⟨trivial, fun q hq => ?_, h.stat⟩, Or.inr ⟨nofun, nofun, nofun, trivial⟩⟩
      rw [hrow q hq]
      grind [Place.holds]
  | held p timed =>
      refine ⟨.held p timed, ⟨h.ok, fun q hq => ?_, h.stat⟩, Or.inl rfl⟩
      rw [hrow q hq]
      grind [Place.holds, Place.Ok]
  | paused s =>
      refine ⟨.paused s, ⟨h.ok, fun q hq => ?_, h.stat⟩, Or.inl rfl⟩
      rw [hrow q hq]
      grind [Place.holds]
  | nowhere =>
      refine ⟨.nowhere, ⟨h.ok, fun q hq => ?_, h.stat⟩, Or.inl rfl⟩
      rw [hrow q hq]
      grind [Place.holds]
  | ready =>
      refine ⟨.ready, ⟨h.ok, fun q hq => ?_, h.stat⟩, Or.inl rfl⟩
      rw [hrow q hq]
      grind [Place.holds, wqReady, wqTmshare]

theorem collect (h : σ.Sits cfg t pl) : ∃ pl', (σ.collect cfg).Sits cfg t pl' ∧ pl.Leads pl' := by
  unfold Sched.collect
  split_ifs with hand
  · exact h.collected hand.1
  · exact ⟨pl, h, Or.inl rfl⟩

theorem collectZero (h : σ.Sits cfg t pl) :
    ∃ pl', (σ.collectZero cfg).Sits cfg t pl' ∧ pl.Leads pl' := by
  unfold Sched.collectZero
  split_ifs with hand
  · exact h.collected hand.1
  · exact ⟨pl, h, Or.inl rfl⟩

theorem wakes (h : σ.Sits cfg t pl) (hw : Wakes cfg σ τ) :
    ∃ pl', τ.Sits cfg t pl' ∧ pl.Leads pl' := by
  induction hw with
  | refl => exact ⟨pl, h, Or.inl rfl⟩
  | @wake τ q u _ hq hu ih =>
      obtain ⟨pl', hpl', hleads⟩ := ih
      by_cases ht : t = u
      · subst ht
        obtain ⟨-, -, -, -, -, h₆, -⟩ := cfg.first_queues
        obtain ⟨timed, rfl⟩ := hpl'.eq_held ⟨hq.1, by have := hq.2; lia⟩ (find?_some hu).2
        exact ⟨.ready, hpl'.wakeup, hleads.trans Place.leads_ready⟩
      · exact ⟨pl', hpl'.of_same ((SameBut.refl u τ).wakeup q) ht, hleads⟩

/-- The threads of a list of different threads whose time has come. -/
theorem expireAll (h : σ.Sits cfg t pl) {l : List Nat} (hl : l.Nodup)
    (hclock : t ∈ l → σ.wq cfg.wqClock t = true) :
    (t ∈ l → (l.foldl (Sched.expire cfg) σ).Sits cfg t .ready) ∧
      (t ∉ l → (l.foldl (Sched.expire cfg) σ).Sits cfg t pl) := by
  induction l generalizing σ pl with
  | nil => exact ⟨nofun, fun _ => h⟩
  | cons u l ih =>
      obtain ⟨hu, hnodup⟩ := List.nodup_cons.mp hl
      by_cases ht : t = u
      · subst ht
        obtain ⟨p, rfl⟩ := h.eq_timed (hclock List.mem_cons_self)
        have hready := (ih h.expire hnodup fun hin => absurd hin hu).2 hu
        exact ⟨fun _ => hready, fun hnot => absurd List.mem_cons_self hnot⟩
      · have hsame : SameBut u σ (σ.expire cfg u) := (SameBut.refl u σ).expire
        have hrest := ih (h.of_same hsame ht) hnodup fun hin =>
          (hsame.wq _ t ht).trans (hclock (List.mem_cons_of_mem u hin))
        exact ⟨fun hin => hrest.1 ((List.mem_cons.mp hin).resolve_left ht),
          fun hnot => hrest.2 fun hin => hnot (List.mem_cons_of_mem u hin)⟩

theorem due_nodup (σ : Sched) : (σ.due cfg).Nodup := List.nodup_range.filter _

theorem clockTick (h : σ.Sits cfg t pl) :
    (t ∈ σ.due cfg → (σ.clockTick cfg).Sits cfg t .ready) ∧
      (t ∉ σ.due cfg → (σ.clockTick cfg).Sits cfg t pl) :=
  h.expireAll (due_nodup σ) fun hin => (Bool.and_eq_true_iff.mp (List.mem_filter.mp hin).2).1

theorem of_val (h : σ.Sits cfg t pl) (v : Nat → Int) : ({ σ with schedVal := v }).Sits cfg t pl :=
  ⟨h.ok, h.row, h.stat⟩

theorem clockTick_leads (h : σ.Sits cfg t pl) :
    ∃ pl', (σ.clockTick cfg).Sits cfg t pl' ∧ pl.Leads pl' := by
  by_cases hin : t ∈ σ.due cfg
  · obtain ⟨p, rfl⟩ := h.eq_timed (Bool.and_eq_true_iff.mp (List.mem_filter.mp hin).2).1
    exact ⟨.ready, h.clockTick.1 hin, Place.leads_ready⟩
  · exact ⟨pl, h.clockTick.2 hin, Or.inl rfl⟩

theorem clockTick_vals (cfg : Config) (σ : Sched) :
    (σ.clockTick cfg).schedVal = σ.schedVal ∧ (σ.clockTick cfg).schedPri = σ.schedPri :=
  List.foldlRecOn (motive := fun τ : Sched => τ.schedVal = σ.schedVal ∧ τ.schedPri = σ.schedPri) _ _
    ⟨rfl, rfl⟩ fun _ hτ _ _ => hτ

/-- The active thread is charged: it is ready, or its time has not run out. -/
theorem shareTick_self (h : σ.Sits cfg t pl) (hpl : σ.OutOfTime cfg t → pl = .ready) :
    ∃ pl', (σ.shareTick cfg t).Sits cfg t pl' ∧
      (pl.Leads pl' ∨ σ.OutOfTime cfg t ∧ pl = .ready ∧ pl' = .tmshare) := by
  unfold Sched.shareTick
  dsimp only
  split_ifs with hshare hval
  · obtain rfl := hpl ⟨hshare, hval⟩
    obtain ⟨pl', hpl', hleads⟩ := ((h.of_val (set1 σ.schedVal t
      (σ.schedVal t - σ.schedPri t + σ.schedLimit))).charge hshare).collect
    refine ⟨pl', hpl', ?_⟩
    rcases hleads with rfl | ⟨-, hne, hnot, hloose⟩
    · exact Or.inr ⟨⟨hshare, hval⟩, rfl, rfl⟩
    · exact Or.inl (Or.inr ⟨nofun, hne, hnot, hloose⟩)
  · exact ⟨pl, h.of_val _, Or.inl (Or.inl rfl)⟩
  · exact ⟨pl, h, Or.inl (Or.inl rfl)⟩

/-- The other threads, when the active one is charged. -/
theorem shareTick_ne (h : σ.Sits cfg t pl) (ht : t ≠ u) :
    ∃ pl', (σ.shareTick cfg u).Sits cfg t pl' ∧ pl.Leads pl' := by
  unfold Sched.shareTick
  dsimp only
  split_ifs
  · exact ((h.of_val _).of_same (((SameBut.refl u _).bit wqTmshare true).bit wqReady false) ht).collect
  · exact ⟨pl, h.of_val _, Or.inl rfl⟩
  · exact ⟨pl, h, Or.inl rfl⟩

end Sits

end Sched

end YardIce.Thinkos
