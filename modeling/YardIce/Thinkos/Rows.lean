import YardIce.Thinkos.Effects

/-!
# Moving one thread

What is known of a thread is its bits in the queues, its state and its time. Every movement of a
thread between the queues leaves the other threads as they are.
-/

namespace YardIce.Thinkos

@[simp] theorem set2_same {α : Type} (f : Nat → Nat → α) (p u : Nat) (v : α) :
    set2 f p u v p u = v :=
  if_pos ⟨rfl, rfl⟩

theorem set2_ne {α : Type} (f : Nat → Nat → α) {p u q t : Nat} (h : q ≠ p ∨ t ≠ u) (v : α) :
    set2 f p u v q t = f q t :=
  if_neg fun heq => h.elim (fun hne => hne heq.1) fun hne => hne heq.2

@[simp] theorem set1_same {α : Type} (f : Nat → α) (u : Nat) (v : α) : set1 f u v u = v := if_pos rfl

theorem set1_ne {α : Type} (f : Nat → α) {u t : Nat} (h : t ≠ u) (v : α) : set1 f u v t = f t :=
  if_neg h

@[simp] theorem Sched.bit_same (σ : Sched) (p u : Nat) (b : Bool) : (σ.bit p u b).wq p u = b :=
  set2_same _ _ _ _

theorem Sched.bit_ne (σ : Sched) {p u q t : Nat} (h : q ≠ p ∨ t ≠ u) (b : Bool) :
    (σ.bit p u b).wq q t = σ.wq q t := set2_ne _ h b

namespace Sched

theorem bit_self (σ : Sched) (p u : Nat) (b : Bool) (q : Nat) :
    (σ.bit p u b).wq q u = if q = p then b else σ.wq q u := by
  by_cases hq : q = p
  · rw [if_pos hq, hq, bit_same]
  · rw [if_neg hq, bit_ne σ (Or.inl hq)]

theorem offTmshare_self (cfg : Config) (σ : Sched) (u q : Nat) :
    (Machine.offTmshare cfg σ u).wq q u =
      if cfg.timeshare = true ∧ q = wqTmshare then false else σ.wq q u := by
  unfold Machine.offTmshare
  by_cases hshare : cfg.timeshare = true
  · rw [if_pos hshare, bit_self]
    simp only [hshare, true_and]
  · rw [if_neg hshare, if_neg fun hand => hshare hand.1]

/-- Where a thread is after it was paused. -/
theorem suspend_self (cfg : Config) (σ : Sched) (u q : Nat) :
    (σ.suspend cfg u).wq q u =
      if q = cfg.wqClock ∨ cfg.timeshare = true ∧ q = wqTmshare ∨ q = σ.thStat u / 2 then false
      else if q = cfg.wqPaused then true else σ.wq q u := by
  unfold suspend
  simp only [bit_self, offTmshare_self, ite_or]

/-- Where a thread is after it was canceled. -/
theorem withdraw_self (cfg : Config) (σ : Sched) (u q : Nat) :
    (σ.withdraw cfg u).wq q u =
      if q = cfg.wqClock ∨ cfg.timeshare = true ∧ q = wqTmshare then false
      else if q = cfg.wqCanceled then true else if q = σ.thStat u / 2 then false else σ.wq q u := by
  have hin : ∀ τ : Sched, (τ.wqInsert cfg.wqCanceled u).wq q u =
      if q = cfg.wqCanceled then true else τ.wq q u := fun τ => bit_self τ _ _ _ _
  unfold withdraw
  simp only [bit_self, offTmshare_self, hin, ite_or]

/-- Where a thread is after it was resumed. -/
theorem takeUp_self (cfg : Config) (σ : Sched) (u q : Nat) :
    (σ.takeUp cfg u).wq q u =
      if q = cfg.wqClock ∨ q = σ.thStat u / 2 then true
      else if q = cfg.wqPaused then false else σ.wq q u := by
  unfold takeUp
  simp only [bit_self, ite_or]

/-- Where a thread is after it was waked up. -/
theorem wakeup_self (cfg : Config) (σ : Sched) (p u q : Nat) :
    (σ.wakeup cfg p u).wq q u =
      if q = cfg.wqClock ∨ q = p then false else if q = wqReady then true else σ.wq q u := by
  show (((σ.bit wqReady u true).bit p u false).bit cfg.wqClock u false).wq q u = _
  simp only [bit_self, ite_or]

/-- Where a thread is after its time has come. -/
theorem expire_self (cfg : Config) (σ : Sched) (u q : Nat) :
    (σ.expire cfg u).wq q u =
      if q = wqReady then true
      else if q = cfg.wqClock ∨ q = σ.thStat u / 2 then false else σ.wq q u := by
  show (((σ.bit (σ.thStat u / 2) u false).bit cfg.wqClock u false).bit wqReady u true).wq q u = _
  simp only [bit_self, ite_or]

/-- Where a thread is after it went to the queue of an object. -/
theorem enqueue_self (cfg : Config) (σ : Sched) (p u : Nat) (ms : Option (BitVec 32)) (q : Nat) :
    (σ.enqueue cfg p u ms).wq q u =
      if ms.isSome = true ∧ q = cfg.wqClock ∨ q = p then true else σ.wq q u := by
  cases ms with
  | none =>
      show (σ.bit p u true).wq q u = _
      simp only [bit_self, Option.isSome_none, Bool.false_eq_true, false_and, false_or]
  | some ms =>
      show ((σ.bit p u true).bit cfg.wqClock u true).wq q u = _
      simp only [bit_self, Option.isSome_some, true_and, ite_or]

/-- Only the thread `u` may be elsewhere. -/
structure SameBut (u : Nat) (σ τ : Sched) : Prop where
  wq : ∀ q t, t ≠ u → τ.wq q t = σ.wq q t
  stat : ∀ t, t ≠ u → τ.thStat t = σ.thStat t
  clock : ∀ t, t ≠ u → τ.clock t = σ.clock t

variable {cfg : Config} {u : Nat} {σ τ ρ : Sched}

namespace SameBut

theorem refl (u : Nat) (σ : Sched) : SameBut u σ σ :=
  ⟨fun _ _ _ => rfl, fun _ _ => rfl, fun _ _ => rfl⟩

theorem trans (h : SameBut u σ τ) (h' : SameBut u τ ρ) : SameBut u σ ρ :=
  ⟨fun q t ht => (h'.wq q t ht).trans (h.wq q t ht), fun t ht => (h'.stat t ht).trans (h.stat t ht),
    fun t ht => (h'.clock t ht).trans (h.clock t ht)⟩

theorem bit (h : SameBut u σ τ) (q : Nat) (b : Bool) : SameBut u σ (τ.bit q u b) :=
  h.trans ⟨fun _ _ ht => τ.bit_ne (Or.inr ht) b, fun _ _ => rfl, fun _ _ => rfl⟩

theorem thStat (h : SameBut u σ τ) (s : Nat) :
    SameBut u σ { τ with thStat := set1 τ.thStat u s } :=
  h.trans ⟨fun _ _ _ => rfl, fun _ ht => set1_ne _ ht s, fun _ _ => rfl⟩

theorem setClock (h : SameBut u σ τ) (c : BitVec 32) :
    SameBut u σ { τ with clock := set1 τ.clock u c } :=
  h.trans ⟨fun _ _ _ => rfl, fun _ _ => rfl, fun _ ht => set1_ne _ ht c⟩

theorem wqInsert (h : SameBut u σ τ) (q : Nat) : SameBut u σ (τ.wqInsert q u) :=
  (h.bit q true).thStat _

theorem enqueue (h : SameBut u σ τ) (q : Nat) (ms : Option (BitVec 32)) :
    SameBut u σ (τ.enqueue cfg q u ms) := by
  cases ms with
  | none => exact h.wqInsert q
  | some ms =>
      exact (((h.bit q true).bit cfg.wqClock true).setClock (τ.ticks + ms)).thStat _

theorem asleep (h : SameBut u σ τ) (clock : BitVec 32) : SameBut u σ (τ.asleep cfg u clock) :=
  ((h.bit cfg.wqClock true).setClock clock).thStat _

theorem wakeup (h : SameBut u σ τ) (p : Nat) : SameBut u σ (τ.wakeup cfg p u) :=
  (((h.bit wqReady true).bit p false).bit cfg.wqClock false).thStat 0

theorem expire (h : SameBut u σ τ) : SameBut u σ (τ.expire cfg u) :=
  (((h.bit (τ.thStat u / 2) false).thStat 0).bit cfg.wqClock false).bit wqReady true

theorem offTmshare (h : SameBut u σ τ) : SameBut u σ (Machine.offTmshare cfg τ u) := by
  unfold Machine.offTmshare
  split_ifs
  · exact h.bit wqTmshare false
  · exact h

theorem suspend (h : SameBut u σ τ) : SameBut u σ (τ.suspend cfg u) :=
  ((h.bit cfg.wqPaused true).bit (τ.thStat u / 2) false).offTmshare.bit cfg.wqClock false

theorem takeUp (h : SameBut u σ τ) : SameBut u σ (τ.takeUp cfg u) :=
  ((h.bit cfg.wqPaused false).bit (τ.thStat u / 2) true).bit cfg.wqClock true

theorem withdraw (h : SameBut u σ τ) : SameBut u σ (τ.withdraw cfg u) :=
  ((h.bit (τ.thStat u / 2) false).wqInsert cfg.wqCanceled).offTmshare.bit cfg.wqClock false

theorem release (h : SameBut u σ τ) : SameBut u σ (τ.release cfg u) := by
  unfold Sched.release
  split_ifs
  · exact (h.bit cfg.wqCanceled false).bit wqReady true
  · exact h

theorem enroll (h : SameBut u σ τ) (priority : Nat) (paused : Bool) :
    SameBut u σ (τ.enroll cfg u priority paused) := by
  have hinit : SameBut u τ (Machine.shareInit cfg τ u priority) := by
    unfold Machine.shareInit
    split_ifs
    · exact ⟨fun _ _ _ => rfl, fun _ _ => rfl, fun _ _ => rfl⟩
    · exact .refl u τ
  exact (h.trans hinit).bit _ true

end SameBut

end Sched

end YardIce.Thinkos
