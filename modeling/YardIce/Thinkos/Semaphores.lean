import YardIce.Thinkos.Sane
import Mathlib.Algebra.BigOperators.Group.Finset.Basic
import Mathlib.Algebra.Order.BigOperators.Group.Finset

/-!
# Semaphores

A ledger counts the posts to a semaphore and the waits that returned 0. Without time sharing and
without pauses it agrees with the value of the semaphore and with the waits that will return 0, as
long as no post wakes up a thread whose result it cannot reach yet: one that has just blocked with
a time and whose frame the scheduler has not saved.
-/

namespace YardIce.Thinkos

/-- The queue of a semaphore. -/
def Config.IsSem (cfg : Config) (p : Nat) : Prop := cfg.semBase ≤ p ∧ p < cfg.semBase + cfg.semMax

instance (cfg : Config) (p : Nat) : Decidable (cfg.IsSem p) := instDecidableAnd

/-- The calls that wait for the semaphore `q`. -/
def Svc.waitsSem (q : Nat) : Svc → Bool
  | .semWait wq | .semTrywait wq | .semTimedwait wq _ => wq == q
  | _ => false

def Status.waitsSem (q : Nat) : Status → Bool
  | .call c => c.waitsSem q
  | _ => false

/-- The steps of threads that use semaphores only. -/
def Event.IsSem : Event → Prop
  | .svc (.semWait _) _ | .svc (.semTrywait _) _ | .svc (.semTimedwait ..) _ | .svc (.semPost _) _
  | .ret | .isr (.semPost _) | .systick | .pendsv .. => True
  | _ => False

instance : DecidablePred Event.IsSem := fun e => by
  unfold Event.IsSem
  split <;> infer_instance

namespace Machine

variable (cfg : Config) (m : Machine)

/-- Where the frame of a thread is. -/
def addr (t : Nat) : Nat := if t = m.active then m.psp else m.ctx t

/-- The result that a thread will find when its system call returns. -/
def result (t : Nat) : Int := (m.frames t (m.addr t)).r0

/-- The thread is in a call that waits for `q` and will return 0. -/
def settled (q t : Nat) : Bool :=
  (m.status t).waitsSem q && !m.sched.wq q t && decide (m.result t = 0)

/-- The number of calls that will return 0. -/
def willReturn (q : Nat) : Nat := ∑ t ∈ Finset.range cfg.threadsMax, (m.settled q t).toNat

/-- The step is a post to `q`. -/
def posted (q : Nat) : Event → Bool
  | .svc (.semPost wq) _ => wq == q && (m.semIdx cfg wq).isSome
  | .isr (.semPost wq) => wq == q
  | _ => false

/-- The step is the return of a call that waited for `q`, with 0. -/
def returnsZero (q : Nat) : Event → Bool
  | .ret => (m.status m.active).waitsSem q && decide ((m.frames m.active m.psp).r0 = 0)
  | _ => false

/-- A post to `q` reaches the result of the thread that it wakes up, and the value of the semaphore
does not overflow. -/
def PostReaches (q i : Nat) (e : Event) : Prop :=
  m.posted cfg q e = true →
    (∀ th ∈ m.sched.head q, m.sched.thStat th % 2 = 1 → th = m.active → m.ctx th = m.psp) ∧
      (m.sched.head q = none → m.semVal i ≠ BitVec.allOnes 32)

instance (q i : Nat) : DecidablePred (m.PostReaches cfg q i) := fun _ =>
  inferInstanceAs (Decidable (_ → _))

end Machine

/-- The accounts of a semaphore: the posts, the waits that returned 0, and the threads whose last
wait was ended by a post. -/
structure Ledger where
  posts : Nat
  returned : Nat
  woken : Nat → Bool

/-- A new call of the active thread has not been ended by a post. -/
def Ledger.called (l : Ledger) (m : Machine) : Event → Nat → Bool
  | .svc _ _ => set1 l.woken m.active false
  | _ => l.woken

/-- The wait of a thread was ended by a post. -/
def Ledger.wokenBy (w : Nat → Bool) : Option Nat → Nat → Bool
  | some th => set1 w th true
  | none => w

/-- The ledger after a step. -/
def Ledger.next (cfg : Config) (q : Nat) (m : Machine) (l : Ledger) (e : Event) : Ledger where
  posts := l.posts + (m.posted cfg q e).toNat
  returned := l.returned + (m.returnsZero q e).toNat
  woken := Ledger.wokenBy (l.called m e) (if m.posted cfg q e then m.sched.head q else none)

/-- A step with the ledger. -/
def ledgerStep (cfg : Config) (q : Nat) (s : Machine × Ledger) (e : Event) :
    Option (Machine × Ledger) :=
  (step cfg s.1 e).map fun m' => (m', s.2.next cfg q s.1 e)

/-- Before the first call. -/
def Ledger.empty : Ledger := ⟨0, 0, fun _ => false⟩

/-! ## The rows of the threads -/

namespace Machine

/-- The thread neither is ready nor runs. -/
def Off (m : Machine) (t : Nat) : Prop :=
  m.sched.wq wqReady t = false ∧ (m.pendsv = false → m.active ≠ t)

/-- What is known of a thread: it waits for at most one semaphore and does not run meanwhile, a
wait without a time holds the result 0 and one with a time another result, and a wait that was
ended by a post holds 0. -/
structure Row (cfg : Config) (q : Nat) (m : Machine) (w : Bool) (t : Nat) : Prop where
  sem : ∀ p, cfg.IsSem p → m.sched.wq p t = true → t < cfg.threadsMax ∧ m.sched.thStat t / 2 = p ∧
    m.Off t ∧ (p ≠ q → (m.status t).waitsSem q = false)
  clock : m.sched.wq cfg.wqClock t = true → t < cfg.threadsMax ∧ m.Off t
  kind : m.sched.wq q t = true →
    m.status t = .call (.semWait q) ∧ m.sched.wq cfg.wqClock t = false ∧ m.result t = 0 ∨
      (∃ ms, m.status t = .call (.semTimedwait q ms)) ∧ m.sched.thStat t % 2 = 1 ∧ m.result t ≠ 0
  woken : w = true → ∀ ms, m.status t = .call (.semTimedwait q ms) → m.result t = 0

/-- A step changes nothing of what is known of a thread. -/
structure SameRow (m m' : Machine) (t : Nat) : Prop where
  wq : ∀ p, m'.sched.wq p t = m.sched.wq p t
  stat : m'.sched.thStat t = m.sched.thStat t
  status : m'.status t = m.status t
  result : m'.result t = m.result t
  off : m.Off t → m'.Off t

theorem SameRow.row {cfg : Config} {q t : Nat} {w : Bool} {m m' : Machine} (h : SameRow m m' t)
    (hr : Row cfg q m w t) : Row cfg q m' w t where
  sem p hp hin := by
    obtain ⟨hlt, hstat, hoff, hother⟩ := hr.sem p hp ((h.wq p).symm.trans hin)
    exact ⟨hlt, h.stat ▸ hstat, h.off hoff, h.status ▸ hother⟩
  clock hin := (hr.clock ((h.wq _).symm.trans hin)).imp_right h.off
  kind hin := by
    rw [h.status, h.wq, h.result, h.stat]
    exact hr.kind ((h.wq q).symm.trans hin)
  woken hw := by
    rw [h.status, h.result]
    exact hr.woken hw

theorem SameRow.settled {t : Nat} {m m' : Machine} (h : SameRow m m' t) (q : Nat) :
    m'.settled q t = m.settled q t := by
  unfold Machine.settled
  rw [h.status, h.wq, h.result]

end Machine

namespace Machine

theorem storeR0_result (m : Machine) (u : Nat) (v : Int) (t : Nat) :
    (m.storeR0 u v).result t = if t = u ∧ m.addr u = m.ctx u then v else m.result t := by
  show (set2 m.frames u (m.ctx u) { m.frames u (m.ctx u) with r0 := v } t (m.addr t)).r0 = _
  by_cases ht : t = u
  · subst ht
    by_cases ha : m.addr t = m.ctx t
    · rw [ha, set2_same, if_pos ⟨rfl, rfl⟩]
    · rw [set2_ne _ (Or.inr ha), if_neg fun hand => ha hand.2]
      rfl
  · rw [set2_ne _ (Or.inl ht), if_neg fun hand => ht hand.1]
    rfl

theorem setArg0_result (m : Machine) (v : Int) (t : Nat) :
    (m.setArg0 v).result t = if t = m.active then v else m.result t := by
  show (set2 m.frames m.active m.psp { m.frames m.active m.psp with r0 := v } t (m.addr t)).r0 = _
  by_cases ht : t = m.active
  · have ha : m.addr t = m.psp := if_pos ht
    rw [ha, ht, set2_same, if_pos rfl]
  · rw [set2_ne _ (Or.inl ht), if_neg ht]
    rfl

end Machine

/-- One summand changes. -/
theorem sum_change {n u : Nat} (hu : u < n) {f g : Nat → Nat} (h : ∀ t, t ≠ u → g t = f t) :
    ∑ t ∈ Finset.range n, g t + f u = ∑ t ∈ Finset.range n, f t + g u := by
  have hmem : u ∈ Finset.range n := Finset.mem_range.mpr hu
  have hrest : ∑ t ∈ (Finset.range n).erase u, g t = ∑ t ∈ (Finset.range n).erase u, f t :=
    Finset.sum_congr rfl fun t ht => h t (Finset.ne_of_mem_erase ht)
  rw [← Finset.add_sum_erase _ f hmem, ← Finset.add_sum_erase _ g hmem, hrest]
  lia

/-- The ledger agrees with the machine. -/
structure Books (cfg : Config) (q i v : Nat) (m : Machine) (l : Ledger) : Prop where
  row : ∀ t, m.Row cfg q (l.woken t) t
  zero : ∀ t, m.sched.wq q t = true → m.semVal i = 0
  balance : v + l.posts = (m.semVal i).toNat + l.returned + m.willReturn cfg q

namespace Books

variable {cfg : Config} {q i v : Nat} {m m' : Machine} {l l' : Ledger}

/-- A step that concerns one thread. -/
theorem one (h : Books cfg q i v m l) {u : Nat} (hu : u < cfg.threadsMax)
    (hsame : ∀ t, t ≠ u → m.SameRow m' t) (hwoken : ∀ t, t ≠ u → l'.woken t = l.woken t)
    (hrow : m'.Row cfg q (l'.woken u) u) (hzero : ∀ t, m'.sched.wq q t = true → m'.semVal i = 0)
    (hbalance : l'.posts + (m.semVal i).toNat + l.returned + (m.settled q u).toNat =
      l.posts + (m'.semVal i).toNat + l'.returned + (m'.settled q u).toNat) :
    Books cfg q i v m' l' where
  row t := by
    by_cases ht : t = u
    · exact ht ▸ hrow
    · rw [hwoken t ht]
      exact (hsame t ht).row (h.row t)
  zero := hzero
  balance := by
    have hsum : m'.willReturn cfg q + (m.settled q u).toNat =
        m.willReturn cfg q + (m'.settled q u).toNat :=
      sum_change hu fun t ht => congrArg Bool.toNat ((hsame t ht).settled q)
    have := h.balance
    lia

/-- A thread that runs waits for no semaphore and not for the clock. -/
theorem free (h : Books cfg q i v m l) {t : Nat} (hrun : m.sched.wq wqReady t = true ∨
    m.pendsv = false ∧ m.active = t) :
    (∀ p, cfg.IsSem p → m.sched.wq p t = false) ∧ m.sched.wq cfg.wqClock t = false := by
  have hoff : ¬ m.Off t := by
    rintro ⟨hready, hactive⟩
    rcases hrun with hr | ⟨hp, ha⟩
    · exact absurd (hready.symm.trans hr) (by decide)
    · exact hactive hp ha
  refine ⟨fun p hp => ?_, ?_⟩
  · by_contra hin
    exact hoff ((h.row t).sem p hp ((Bool.not_eq_false _).mp hin)).2.2.1
  · by_contra hin
    exact hoff ((h.row t).clock ((Bool.not_eq_false _).mp hin)).2

/-- A step that changes neither what the threads will return nor the accounts. -/
theorem still (h : Books cfg q i v m l) (hrow : ∀ t, m'.Row cfg q (l'.woken t) t)
    (hsettled : ∀ t, m'.settled q t = m.settled q t)
    (hin : ∀ t, m'.sched.wq q t = true → m.sched.wq q t = true)
    (hval : m'.semVal i = m.semVal i) (hposts : l'.posts = l.posts)
    (hreturned : l'.returned = l.returned) : Books cfg q i v m' l' where
  row := hrow
  zero t ht := hval ▸ h.zero t (hin t ht)
  balance := by
    have hsum : m'.willReturn cfg q = m.willReturn cfg q :=
      Finset.sum_congr rfl fun t _ => congrArg Bool.toNat (hsettled t)
    rw [hposts, hreturned, hval, hsum]
    exact h.balance

/-- The queue of a semaphore is none of the ready threads, the clock, and the others. -/
theorem sem_ne {p : Nat} (hp : cfg.IsSem p) : cfg.IsObject p ∧ wqReady ≠ p ∧ cfg.wqClock ≠ p ∧ 0 < p ∧
    p < 128 := by
  obtain ⟨h₁, h₂, h₃, h₄, h₅⟩ := cfg.bases
  obtain ⟨g₁, g₂, g₃, g₄, g₅, g₆, g₇, -⟩ := cfg.first_queues
  have hlo := hp.1
  have hhi := hp.2
  exact ⟨⟨by lia, by lia⟩, by lia, by lia, by lia, by lia⟩

/-- A thread that waits for nothing. -/
theorem free_row {w : Bool} {t : Nat} (hq : cfg.IsSem q)
    (hout : ∀ p, cfg.IsSem p → m.sched.wq p t = false)
    (hclk : m.sched.wq cfg.wqClock t = false)
    (hw : w = true → ∀ ms, m.status t = .call (.semTimedwait q ms) → m.result t = 0) :
    m.Row cfg q w t :=
  ⟨fun p hp hin => absurd ((hout p hp).symm.trans hin) (by decide),
    fun hin => absurd (hclk.symm.trans hin) (by decide),
    fun hin => absurd ((hout q hq).symm.trans hin) (by decide), hw⟩

/-- A post wakes up the first thread that waits. -/
theorem wake (h : Books cfg q i v m l) (hq : cfg.IsSem q) {p u : Nat} (hp : cfg.IsSem p)
    (hu : m.sched.head p = some u)
    (hreach : p = q → m.sched.thStat u % 2 = 1 → u = m.active → m.ctx u = m.psp)
    (hposts : l'.posts = l.posts + (p == q).toNat) (hreturned : l'.returned = l.returned)
    (hwoken : l'.woken = if p = q then set1 l.woken u true else l.woken) :
    Books cfg q i v ((m.wakeup cfg p u).deferSched) l' := by
  have hin : m.sched.wq p u = true := (find?_some hu).2
  obtain ⟨hlt, hstat, hoff, hother⟩ := (h.row u).sem p hp hin
  have hsame : ∀ t, t ≠ u → m.SameRow ((m.wakeup cfg p u).deferSched) t := by
    intro t ht
    have hrow : Sched.SameBut u m.sched (m.sched.wakeup cfg p u) := (Sched.SameBut.refl u _).wakeup p
    refine ⟨fun q => hrow.wq q t ht, hrow.stat t ht, rfl, ?_, fun hoff => ⟨?_, nofun⟩⟩
    · exact (Machine.storeR0_result { m with sched := m.sched.wakeup cfg p u } u 0 t).trans
        (if_neg fun hand => ht hand.1)
    · exact (hrow.wq wqReady t ht).trans hoff.1
  have hout : ∀ p', cfg.IsSem p' → ((m.wakeup cfg p u).deferSched).sched.wq p' u = false := by
    intro p' hp'
    obtain ⟨-, hready', hclock', -, -⟩ := Books.sem_ne hp'
    show (m.sched.wakeup cfg p u).wq p' u = false
    rw [Sched.wakeup_self]
    by_cases heq : p' = p
    · rw [if_pos (Or.inr heq)]
    · rw [if_neg (not_or.mpr ⟨hclock'.symm, heq⟩), if_neg hready'.symm]
      by_contra hin'
      have hstat' := ((h.row u).sem p' hp' ((Bool.not_eq_false _).mp hin')).2.1
      exact heq (hstat'.symm.trans hstat)
  have hclk : ((m.wakeup cfg p u).deferSched).sched.wq cfg.wqClock u = false := by
    show (m.sched.wakeup cfg p u).wq cfg.wqClock u = false
    rw [Sched.wakeup_self, if_pos (Or.inl rfl)]
  have hresult : ((m.wakeup cfg p u).deferSched).result u =
      if m.addr u = m.ctx u then 0 else m.result u :=
    (Machine.storeR0_result { m with sched := m.sched.wakeup cfg p u } u 0 u).trans
      (if_congr (and_iff_right rfl) rfl rfl)
  have hzero : ∀ t, ((m.wakeup cfg p u).deferSched).sched.wq q t = true → m.semVal i = 0 := by
    intro t ht
    rcases eq_or_ne t u with rfl | htu
    · exact absurd ((hout q hq).symm.trans ht) (by decide)
    · exact h.zero t (((hsame t htu).wq q).symm.trans ht)
  have hval : ((m.wakeup cfg p u).deferSched).semVal i = m.semVal i := rfl
  by_cases hpq : p = q
  · -- The thread waits for `q` itself: it will return 0.
    subst hpq
    have hdone : ((m.wakeup cfg p u).deferSched).result u = 0 ∧
        (m.status u).waitsSem p = true := by
      rcases (h.row u).kind hin with ⟨hst, -, hres⟩ | ⟨⟨ms, hst⟩, hodd, -⟩
      · rw [hresult, hst, hres, ite_self]
        exact ⟨rfl, beq_self_eq_true p⟩
      · have haddr : m.addr u = m.ctx u := by
          unfold Machine.addr
          split_ifs with hactive
          · exact (hreach rfl hodd hactive).symm
          · rfl
        rw [hresult, if_pos haddr, hst]
        exact ⟨rfl, beq_self_eq_true p⟩
    have hbefore : m.settled p u = false := by
      unfold Machine.settled
      rw [hin, Bool.not_true, Bool.and_false, Bool.false_and]
    have hafter : ((m.wakeup cfg p u).deferSched).settled p u = true := by
      unfold Machine.settled
      rw [hout p hp, hdone.1]
      exact (Bool.and_true _).trans ((Bool.and_true _).trans hdone.2)
    refine h.one hlt hsame (fun t ht => ?_) (free_row hp hout hclk fun _ _ _ => hdone.1) hzero ?_
    · rw [hwoken, if_pos rfl, set1_ne _ ht]
    · rw [hbefore, hafter, hposts, hreturned, beq_self_eq_true, hval]
      simp only [Bool.toNat_true, Bool.toNat_false]
      lia
  · have hnot := hother hpq
    have hsettled : ∀ n : Machine, n.status u = m.status u → n.settled q u = false := by
      intro n hn
      unfold Machine.settled
      rw [hn, hnot, Bool.false_and, Bool.false_and]
    refine h.one hlt hsame (fun t ht => ?_) (Books.free_row hq hout hclk fun _ ms hst => ?_) hzero ?_
    · rw [hwoken, if_neg hpq]
    · have hst' : m.status u = .call (.semTimedwait q ms) := hst
      rw [hst'] at hnot
      exact absurd hnot (by simp [Status.waitsSem, Svc.waitsSem])
    · have hbefore := hsettled m rfl
      have hafter := hsettled ((m.wakeup cfg p u).deferSched) rfl
      rw [hbefore, hafter, hposts, hreturned, beq_false_of_ne hpq, hval]
      rfl

/-- A post finds nobody. -/
theorem count (h : Books cfg q i v m l) (hq : cfg.IsSem q) (hi : i = q - cfg.semBase) {p j : Nat}
    (hp : cfg.IsSem p) (hj : j = p - cfg.semBase) (hu : m.sched.head p = none)
    (hfits : p = q → m.semVal i ≠ BitVec.allOnes 32)
    (hposts : l'.posts = l.posts + (p == q).toNat) (hreturned : l'.returned = l.returned)
    (hwoken : l'.woken = l.woken) :
    Books cfg q i v { m with semVal := set1 m.semVal j (m.semVal j + 1) } l' := by
  have hlo := hp.1
  have hlo' := hq.1
  have hrow : ∀ t, m.SameRow { m with semVal := set1 m.semVal j (m.semVal j + 1) } t := fun t =>
    ⟨fun _ => rfl, rfl, rfl, rfl, id⟩
  by_cases hpq : p = q
  · subst hpq
    obtain rfl := hi.trans hj.symm
    have hfits' := hfits rfl
    refine ⟨fun t => hwoken ▸ (hrow t).row (h.row t), fun t ht => ?_, ?_⟩
    · -- The queue is empty: its head is none, and the threads have small numbers.
      have hlt := ((h.row t).sem p hp ht).1
      have hmem : t ∈ List.range 32 := List.mem_range.mpr (hlt.trans cfg.threads_lt)
      exact absurd ht (List.find?_eq_none.mp hu t hmem)
    · have hsum : Machine.willReturn cfg { m with semVal := set1 m.semVal i (m.semVal i + 1) } p =
          m.willReturn cfg p := rfl
      have hval : (m.semVal i + 1).toNat = (m.semVal i).toNat + 1 := by
        have hne : (m.semVal i).toNat ≠ 2 ^ 32 - 1 := fun heq =>
          hfits' (BitVec.eq_of_toNat_eq (heq.trans (by decide)))
        have := (m.semVal i).isLt
        rw [BitVec.toNat_add]
        show ((m.semVal i).toNat + 1) % 2 ^ 32 = _
        lia
      rw [hsum, hposts, hreturned, beq_self_eq_true]
      show v + (l.posts + 1) = (set1 m.semVal i (m.semVal i + 1) i).toNat + l.returned + _
      rw [set1_same, hval]
      have := h.balance
      lia
  · have hne : i ≠ j := by lia
    exact h.still (fun t => hwoken ▸ (hrow t).row (h.row t)) (fun t => (hrow t).settled q)
      (fun _ ht => ht) (set1_ne _ hne _) (by rw [hposts, beq_false_of_ne hpq]; rfl) hreturned

end Books

/-- The effect of a post. -/
theorem Books.post {cfg : Config} {q i v : Nat} {m : Machine} {l l' : Ledger}
    (h : Books cfg q i v m l) (hq : cfg.IsSem q) (hi : i = q - cfg.semBase) {p j : Nat}
    (hp : cfg.IsSem p) (hj : j = p - cfg.semBase)
    (hreach : p = q → ∀ u, m.sched.head q = some u → m.sched.thStat u % 2 = 1 → u = m.active →
      m.ctx u = m.psp)
    (hfits : p = q → m.sched.head q = none → m.semVal i ≠ BitVec.allOnes 32)
    (hposts : l'.posts = l.posts + (p == q).toNat) (hreturned : l'.returned = l.returned)
    (hwoken : l'.woken = Ledger.wokenBy l.woken (if (p == q) = true then m.sched.head q else none)) :
    Books cfg q i v (m.semPostTo cfg p j) l' := by
  unfold Machine.semPostTo
  cases hhead : m.sched.head p with
  | none =>
      refine h.count hq hi hp hj hhead (fun hpq => hfits hpq (hpq ▸ hhead)) hposts hreturned ?_
      rw [hwoken]
      split_ifs with hpq
      · rw [← eq_of_beq hpq, hhead]
        rfl
      · rfl
  | some u =>
      refine h.wake hq hp hhead (fun hpq => hreach hpq u (hpq ▸ hhead)) hposts hreturned ?_
      rw [hwoken]
      by_cases hpq : p = q
      · rw [if_pos (beq_iff_eq.mpr hpq), if_pos hpq, ← hpq, hhead]
        rfl
      · rw [if_neg fun hbeq => hpq (eq_of_beq hbeq), if_neg hpq]
        rfl

end YardIce.Thinkos
