import YardIce.Thinkos.Semaphores

/-!
# The system calls of semaphores

A call of the active thread takes one from a positive semaphore, blocks, fails, or posts; each of
these keeps the books.
-/

namespace YardIce.Thinkos

/-- The active thread is in the system call `c`, which has not answered yet. -/
structure Calling (cfg : Config) (q i v : Nat) (m : Machine) (l : Ledger) (c : Svc) : Prop where
  books : Books cfg q i v m l
  lt : m.active < cfg.threadsMax
  status : m.status m.active = .call c
  out : ∀ p, cfg.IsSem p → m.sched.wq p m.active = false
  clk : m.sched.wq cfg.wqClock m.active = false
  woken : l.woken m.active = false
  settled : m.settled q m.active = false

namespace Calling

variable {cfg : Config} {q i v : Nat} {m m' : Machine} {l : Ledger} {c : Svc}

/-- A thread that runs makes a system call. -/
theorem called (h : Books cfg q i v m l) (hq : cfg.IsSem q) (hrun : m.Running cfg)
    (huser : m.status m.active = .user) (hc : c.waitsSem q = true → Machine.callArg0 c ≠ 0)
    (sp : Nat) :
    Calling cfg q i v (m.called c sp) { l with woken := set1 l.woken m.active false } c := by
  obtain ⟨hout, hclk⟩ := h.free (Or.inr ⟨hrun.1, rfl⟩)
  have hsame : ∀ t, t ≠ m.active → m.SameRow (m.called c sp) t := by
    refine fun t ht => ⟨fun _ => rfl, rfl, set1_ne _ ht _, ?_, id⟩
    have haddr : (m.called c sp).addr t = m.addr t := by
      unfold Machine.addr
      rw [if_neg ht]
      exact if_neg ht
    unfold Machine.result
    rw [haddr]
    exact congrArg Frame.r0 (set2_ne _ (Or.inl ht) _)
  have hstatus : (m.called c sp).status m.active = .call c := set1_same _ _ _
  have hresult : (m.called c sp).result m.active = Machine.callArg0 c := by
    have haddr : (m.called c sp).addr m.active = sp := if_pos rfl
    unfold Machine.result
    rw [haddr]
    exact congrArg Frame.r0 (set2_same _ _ _ _)
  have hbefore : m.settled q m.active = false := by
    unfold Machine.settled
    rw [huser]
    rfl
  have hafter : (m.called c sp).settled q m.active = false := by
    unfold Machine.settled
    rw [hstatus, hresult]
    by_cases hw : c.waitsSem q = true
    · rw [decide_eq_false (hc hw), Bool.and_false]
    · rw [show Status.waitsSem q (.call c) = false from (Bool.not_eq_true _).mp hw]
      rfl
  refine ⟨h.one hrun.2 hsame (fun t ht => set1_ne _ ht _) (Books.free_row hq hout hclk ?_) h.zero ?_,
    hrun.2, hstatus, hout, hclk, set1_same _ _ _, hafter⟩
  · intro hw
    exact absurd ((set1_same _ _ _).symm.trans hw) (by decide)
  · rw [hbefore, hafter]
    rfl

/-- The call gives a result that is not a success. -/
theorem answer (h : Calling cfg q i v m l c) (hq : cfg.IsSem q) {x : Int}
    (hx : c.waitsSem q = false ∨ x ≠ 0) : Calling cfg q i v (m.setArg0 x) l c := by
  have hafter : (m.setArg0 x).settled q m.active = false := by
    have hst : (m.setArg0 x).status m.active = .call c := h.status
    unfold Machine.settled
    rw [hst, Machine.setArg0_result, if_pos rfl]
    rcases hx with hx | hx
    · rw [show Status.waitsSem q (.call c) = false from hx]
      rfl
    · rw [decide_eq_false hx, Bool.and_false]
  have hsame : ∀ t, t ≠ m.active → m.SameRow (m.setArg0 x) t := fun t ht =>
    ⟨fun _ => rfl, rfl, rfl, (m.setArg0_result x t).trans (if_neg ht), id⟩
  refine ⟨h.books.one h.lt hsame (fun _ _ => rfl) (Books.free_row hq h.out h.clk fun hw => ?_)
    h.books.zero ?_, h.lt, h.status, h.out, h.clk, h.woken, hafter⟩
  · exact absurd (h.woken.symm.trans hw) (by decide)
  · rw [h.settled, hafter]
    rfl

/-- The call takes one from a positive semaphore and succeeds. -/
theorem take (h : Calling cfg q i v m l c) (hq : cfg.IsSem q) (hi : i = q - cfg.semBase)
    {p j : Nat} (hp : cfg.IsSem p) (hj : j = p - cfg.semBase) (hc : c.waitsSem q = (p == q))
    (hpos : 0 < m.semVal j) :
    Books cfg q i v (({ m with semVal := set1 m.semVal j (m.semVal j - 1) } : Machine).setArg0 0)
      l := by
  have hlo := hp.1
  have hlo' := hq.1
  have hsame : ∀ t, t ≠ m.active → m.SameRow
      (({ m with semVal := set1 m.semVal j (m.semVal j - 1) } : Machine).setArg0 0) t := fun t ht =>
    ⟨fun _ => rfl, rfl, rfl, (Machine.setArg0_result _ 0 t).trans (if_neg ht), id⟩
  have hrow : (({ m with semVal := set1 m.semVal j (m.semVal j - 1) } : Machine).setArg0 0).Row cfg
      q (l.woken m.active) m.active :=
    Books.free_row hq h.out h.clk fun hw => absurd (h.woken.symm.trans hw) (by decide)
  have hafter : (({ m with semVal := set1 m.semVal j (m.semVal j - 1) } : Machine).setArg0 0).settled
      q m.active = (p == q) := by
    have hst : (({ m with semVal := set1 m.semVal j (m.semVal j - 1) } : Machine).setArg0 0).status
        m.active = .call c := h.status
    have hout : (({ m with semVal := set1 m.semVal j (m.semVal j - 1) } : Machine).setArg0 0).sched.wq
        q m.active = false := h.out q hq
    unfold Machine.settled
    rw [hst, hout, Machine.setArg0_result, if_pos rfl, decide_eq_true rfl]
    exact (Bool.and_true _).trans ((Bool.and_true _).trans hc)
  by_cases hpq : p = q
  · obtain rfl : i = j := by lia
    have hval : (m.semVal i - 1).toNat + 1 = (m.semVal i).toNat := by bv_omega
    refine h.books.one h.lt hsame (fun _ _ => rfl) hrow (fun t ht => ?_) ?_
    · have hz : m.semVal i = 0 := h.books.zero t ht
      rw [hz] at hpos
      exact absurd hpos (by decide)
    · rw [h.settled, hafter, beq_iff_eq.mpr hpq]
      show _ = l.posts + (set1 m.semVal i (m.semVal i - 1) i).toNat + l.returned + _
      rw [set1_same]
      simp only [Bool.toNat_true, Bool.toNat_false]
      lia
  · have hne : i ≠ j := by lia
    have hval : (({ m with semVal := set1 m.semVal j (m.semVal j - 1) } : Machine).setArg0 0).semVal i
        = m.semVal i := set1_ne _ hne _
    refine h.books.one h.lt hsame (fun _ _ => rfl) hrow (fun t ht => ?_) ?_
    · rw [hval]
      exact h.books.zero t ht
    · rw [h.settled, hafter, beq_false_of_ne hpq, hval]

/-- The call blocks. -/
theorem block (h : Calling cfg q i v m l c) (hq : cfg.IsSem q) (hi : i = q - cfg.semBase)
    {p j : Nat} {ms : Option (BitVec 32)} {x : Int} (hp : cfg.IsSem p)
    (hj : j = p - cfg.semBase) (hzero : m.semVal j = 0)
    (hc : ms = none ∧ c = .semWait p ∧ x = 0 ∨ ∃ time, ms = some time ∧ c = .semTimedwait p time ∧
      x ≠ 0)
    (hs : m'.sched = (m.sched.enqueue cfg p m.active ms).bit wqReady m.active false)
    (hst : m'.status = m.status) (hval : m'.semVal = m.semVal) (hpend : m'.pendsv = true)
    (hresult : ∀ t, m'.result t = if t = m.active then x else m.result t) :
    Books cfg q i v m' l := by
  obtain ⟨-, hready, hclock, -, hlt⟩ := Books.sem_ne hp
  have hlo := hp.1
  have hlo' := hq.1
  have hsame : ∀ t, t ≠ m.active → m.SameRow m' t := by
    intro t ht
    have hrow : Sched.SameBut m.active m.sched m'.sched := by
      rw [hs]
      exact ((Sched.SameBut.refl m.active m.sched).enqueue p ms).bit wqReady false
    refine ⟨fun p' => hrow.wq p' t ht, hrow.stat t ht, congrFun hst t, ?_, fun hoff => ⟨?_, ?_⟩⟩
    · rw [hresult, if_neg ht]
    · rw [hrow.wq _ t ht]
      exact hoff.1
    · intro hp'
      exact absurd (hpend.symm.trans hp') (by decide)
  have hwq : ∀ p', p' ≠ wqReady → m'.sched.wq p' m.active =
      if ms.isSome = true ∧ p' = cfg.wqClock ∨ p' = p then true else m.sched.wq p' m.active := by
    intro p' hp'
    rw [hs, Sched.bit_ne _ (Or.inl hp'), Sched.enqueue_self]
  have hoff : m'.Off m.active := by
    refine ⟨?_, fun hp' => absurd (hpend.symm.trans hp') (by decide)⟩
    rw [hs, Sched.bit_same]
  have honly : ∀ p', cfg.IsSem p' → m'.sched.wq p' m.active = true → p' = p := by
    intro p' hp' hin
    obtain ⟨-, hready', hclock', -, -⟩ := Books.sem_ne hp'
    rw [hwq p' hready'.symm, h.out p' hp'] at hin
    by_contra hne
    rw [if_neg (by rintro (⟨-, heq⟩ | heq); exacts [hclock' heq.symm, hne heq])] at hin
    cases hin
  have hcall : m'.status m.active = .call c := (congrFun hst _).trans h.status
  have hother : p ≠ q → c.waitsSem q = false := by
    intro hpq
    rcases hc with ⟨-, rfl, -⟩ | ⟨time, -, rfl, -⟩
    · exact beq_false_of_ne hpq
    · exact beq_false_of_ne hpq
  have hstat : m'.sched.thStat m.active / 2 = p ∧
      (m'.sched.thStat m.active % 2 = 1 ↔ ms.isSome = true) := by
    rw [hs]
    rcases hc with ⟨rfl, -⟩ | ⟨time, rfl, -⟩
    · show set1 _ _ _ _ / 2 = p ∧ (set1 _ _ _ _ % 2 = 1 ↔ _)
      rw [set1_same]
      refine ⟨by lia, ?_⟩
      simp only [Option.isSome_none, Bool.false_eq_true, iff_false]
      lia
    · show set1 _ _ _ _ / 2 = p ∧ (set1 _ _ _ _ % 2 = 1 ↔ _)
      rw [set1_same]
      refine ⟨by lia, ?_⟩
      simp only [Option.isSome_some, iff_true]
      lia
  have hafter : m'.settled q m.active = false := by
    unfold Machine.settled
    rw [hcall]
    by_cases hpq : p = q
    · have hin : m'.sched.wq q m.active = true := by
        rw [← hpq, hwq p hready.symm, if_pos (Or.inr rfl)]
      rw [hin, Bool.not_true, Bool.and_false, Bool.false_and]
    · rw [show Status.waitsSem q (.call c) = false from hother hpq]
      rfl
  refine h.books.one h.lt hsame (fun _ _ => rfl) ⟨?_, ?_, ?_, ?_⟩ (fun t ht => ?_) ?_
  · intro p' hp' hin
    obtain rfl := honly p' hp' hin
    exact ⟨h.lt, hstat.1, hoff, fun hpq => hcall ▸ hother hpq⟩
  · exact fun _ => ⟨h.lt, hoff⟩
  · intro hin
    obtain rfl := honly q hq hin
    rw [hcall, hresult, if_pos rfl]
    rcases hc with ⟨rfl, rfl, rfl⟩ | ⟨time, rfl, rfl, hx⟩
    · refine Or.inl ⟨rfl, ?_, rfl⟩
      obtain ⟨h₁, h₂, h₃, -⟩ := cfg.first_queues
      rw [hwq _ (by lia), if_neg, h.clk]
      rintro (⟨hsome, -⟩ | heq)
      · cases hsome
      · exact hclock heq
    · exact Or.inr ⟨⟨time, rfl⟩, hstat.2.mpr rfl, hx⟩
  · exact fun hw => absurd (h.woken.symm.trans hw) (by decide)
  · rw [hval]
    rcases eq_or_ne t m.active with rfl | htu
    · obtain rfl := honly q hq ht
      obtain rfl : i = j := by lia
      exact hzero
    · exact h.books.zero t (((hsame t htu).wq q).symm.trans ht)
  · rw [h.settled, hafter, hval]

end Calling

/-- A scheduler interrupt becomes pending. -/
theorem Books.defer {cfg : Config} {q i v : Nat} {m : Machine} {l : Ledger}
    (h : Books cfg q i v m l) : Books cfg q i v m.deferSched l := by
  have hsame : ∀ t, m.SameRow m.deferSched t := fun t =>
    ⟨fun _ => rfl, rfl, rfl, rfl, fun hoff => ⟨hoff.1, nofun⟩⟩
  exact h.still (fun t => (hsame t).row (h.row t)) (fun _ => rfl) (fun _ ht => ht) rfl rfl rfl

section Steps

variable {cfg : Config} {q i v : Nat} {m m' : Machine} {l : Ledger}

theorem leaveZero_off (hshare : cfg.timeshare = false) (σ : Sched) (u : Nat) :
    σ.leaveZero cfg u = σ.bit wqReady u false :=
  if_neg fun hand => absurd (hshare.symm.trans hand.1) (by decide)

theorem semIdx_some {wq j : Nat} (h : m.semIdx cfg wq = some j) :
    cfg.IsSem wq ∧ j = wq - cfg.semBase := by
  obtain ⟨hlo, hhi, hj⟩ := objIdx_some (filter_some h).1
  exact ⟨⟨hlo, hhi⟩, hj⟩

/-- The argument of a wait is the number of the semaphore. -/
theorem arg_ne_zero (hq : cfg.IsSem q) {c : Svc} (hc : c.waitsSem q = true) :
    Machine.callArg0 c ≠ 0 := by
  obtain ⟨-, -, -, hpos, -⟩ := Books.sem_ne hq
  have hne : ∀ wq : Nat, (wq == q) = true → (wq : Int) ≠ 0 := fun wq hwq => by
    rw [eq_of_beq hwq]
    lia
  cases c with
  | semWait wq => exact hne wq hc
  | semTrywait wq => exact hne wq hc
  | semTimedwait wq ms => exact hne wq hc
  | _ => cases hc

/-- A wait of the active thread. -/
theorem Calling.semWait {wq : Nat} (h : Calling cfg q i v m l (.semWait wq))
    (hshare : cfg.timeshare = false) (hq : cfg.IsSem q) (hi : i = q - cfg.semBase) :
    Books cfg q i v (m.semWaitSvc cfg wq) l := by
  unfold Machine.semWaitSvc
  cases hidx : m.semIdx cfg wq with
  | none => exact (h.answer hq (Or.inr (by decide))).books
  | some j =>
      obtain ⟨hp, hj⟩ := semIdx_some hidx
      show Books cfg q i v (if _ then _ else _) l
      split_ifs with hpos
      · exact h.take hq hi hp hj rfl hpos
      · refine h.block (x := 0) hq hi hp hj (by bv_omega) (Or.inl ⟨rfl, rfl, rfl⟩) ?_ rfl rfl rfl ?_
        · exact leaveZero_off hshare _ _
        · exact m.setArg0_result 0

theorem Calling.semTimedwait {wq : Nat} {ms : BitVec 32}
    (h : Calling cfg q i v m l (.semTimedwait wq ms)) (hshare : cfg.timeshare = false)
    (hq : cfg.IsSem q) (hi : i = q - cfg.semBase) :
    Books cfg q i v (m.semTimedwaitSvc cfg wq ms) l := by
  unfold Machine.semTimedwaitSvc
  cases hidx : m.semIdx cfg wq with
  | none => exact (h.answer hq (Or.inr (by decide))).books
  | some j =>
      obtain ⟨hp, hj⟩ := semIdx_some hidx
      show Books cfg q i v (if _ then _ else _) l
      split_ifs with hpos
      · exact (h.take hq hi hp hj rfl hpos).defer
      · refine h.block (x := etimedout) hq hi hp hj (by bv_omega)
          (Or.inr ⟨ms, rfl, rfl, by decide⟩) ?_ rfl rfl rfl ?_
        · exact leaveZero_off hshare _ _
        · exact m.setArg0_result etimedout

theorem Calling.semTrywait {wq : Nat} (h : Calling cfg q i v m l (.semTrywait wq))
    (hq : cfg.IsSem q) (hi : i = q - cfg.semBase) : Books cfg q i v (m.semTrywaitSvc cfg wq) l := by
  unfold Machine.semTrywaitSvc
  cases hidx : m.semIdx cfg wq with
  | none => exact (h.answer hq (Or.inr (by decide))).books
  | some j =>
      obtain ⟨hp, hj⟩ := semIdx_some hidx
      show Books cfg q i v (if _ then _ else _) l
      split_ifs with hpos
      · exact h.take hq hi hp hj rfl hpos
      · exact (h.answer hq (Or.inr (by decide))).books

theorem Calling.semPost {wq sp : Nat} {l : Ledger}
    (hrun : m.Running cfg) (huser : m.status m.active = .user) (h : Books cfg q i v m l)
    (hq : cfg.IsSem q) (hi : i = q - cfg.semBase)
    (hok : m.PostReaches cfg q i (.svc (.semPost wq) sp)) :
    Books cfg q i v ((m.called (.semPost wq) sp).semPostSvc cfg wq)
      (l.next cfg q m (.svc (.semPost wq) sp)) := by
  have hcall := Calling.called (c := .semPost wq) h hq hrun huser (nofun) sp
  unfold Machine.semPostSvc
  cases hidx : (m.called (.semPost wq) sp).semIdx cfg wq with
  | none =>
      have hposted : m.posted cfg q (.svc (.semPost wq) sp) = false := by
        have hidx' : m.semIdx cfg wq = none := hidx
        unfold Machine.posted
        dsimp only
        rw [hidx']
        exact Bool.and_false _
      have hnext : l.next cfg q m (.svc (.semPost wq) sp) =
          { l with woken := set1 l.woken m.active false } := by
        unfold Ledger.next
        rw [hposted]
        rfl
      rw [hnext]
      exact (hcall.answer hq (Or.inl rfl)).books
  | some j =>
      obtain ⟨hp, hj⟩ := semIdx_some hidx
      have hposted : m.posted cfg q (.svc (.semPost wq) sp) = (wq == q) := by
        have hidx' : m.semIdx cfg wq = some j := hidx
        unfold Machine.posted
        dsimp only
        rw [hidx']
        exact Bool.and_true _
      -- The caller runs, so that it is not the thread that is waked up.
      refine (hcall.answer hq (x := 0) (Or.inl rfl)).books.post hq hi hp hj (fun hpq u hu _ hself => ?_)
        (fun hpq hnone => ?_) ?_ rfl ?_
      · have hin : m.sched.wq q u = true := (find?_some hu).2
        have hself' : u = m.active := hself
        exact absurd ((hself' ▸ hcall.out q hq).symm.trans hin) (by decide)
      · exact (hok (hposted.trans (beq_iff_eq.mpr hpq))).2 hnone
      · show l.posts + (m.posted cfg q _).toNat = l.posts + _
        rw [hposted]
      · show Ledger.wokenBy _ (if m.posted cfg q _ = true then _ else _) = _
        rw [hposted]
        rfl

end Steps

end YardIce.Thinkos
