import YardIce.Thinkos.SemaphoreCalls

/-!
# Runs with semaphores

The return of a call, the clock and the scheduler keep the books as well, so that they hold along
every run.
-/

namespace YardIce.Thinkos

section Steps

variable {cfg : Config} {q i v : Nat} {m m' : Machine} {l : Ledger}

/-- The return of a call. -/
theorem Books.ret (h : Books cfg q i v m l) (hq : cfg.IsSem q) (hrun : m.Running cfg) :
    Books cfg q i v m.returned (l.next cfg q m .ret) := by
  obtain ⟨hout, hclk⟩ := h.free (Or.inr ⟨hrun.1, rfl⟩)
  have hsame : ∀ t, t ≠ m.active → m.SameRow m.returned t := fun t ht =>
    ⟨fun _ => rfl, rfl, set1_ne _ ht _, rfl, id⟩
  have hst : m.returned.status m.active = .user ∨
      ∃ code, m.returned.status m.active = .exiting 0 code := by
    show set1 _ _ _ _ = _ ∨ ∃ code, set1 _ _ _ _ = _
    rw [set1_same]
    split_ifs
    · exact Or.inr ⟨_, rfl⟩
    · exact Or.inl rfl
  have hbefore : m.settled q m.active = m.returnsZero q .ret := by
    have haddr : m.addr m.active = m.psp := if_pos rfl
    unfold Machine.settled Machine.result
    rw [haddr, hout q hq, Bool.not_false, Bool.and_true]
    rfl
  have hafter : m.returned.settled q m.active = false := by
    unfold Machine.settled
    rcases hst with hst | ⟨code, hst⟩
    · rw [hst]
      rfl
    · rw [hst]
      rfl
  refine h.one hrun.2 hsame (fun _ _ => rfl) (Books.free_row hq hout hclk fun _ ms hms => ?_) h.zero ?_
  · rcases hst with hst | ⟨code, hst⟩
    · rw [hst] at hms
      cases hms
    · rw [hst] at hms
      cases hms
  · rw [hbefore, hafter]
    show l.posts + _ + l.returned + _ = l.posts + 0 + _ + (l.returned + _) + 0
    have hval : m.returned.semVal = m.semVal := rfl
    rw [hval]
    omega

/-- The time of a thread comes while it waits. -/
theorem Books.expire (h : Books cfg q i v m l) (hq : cfg.IsSem q) {u : Nat}
    (hu : m.sched.wq cfg.wqClock u = true) :
    Books cfg q i v { m with sched := m.sched.expire cfg u } l := by
  have hsame : ∀ t, t ≠ u → m.SameRow { m with sched := m.sched.expire cfg u } t := by
    intro t ht
    have hrow : Sched.SameBut u m.sched (m.sched.expire cfg u) := (Sched.SameBut.refl u _).expire
    exact ⟨fun p => hrow.wq p t ht, hrow.stat t ht, rfl, rfl, fun hoff =>
      ⟨(hrow.wq wqReady t ht).trans hoff.1, hoff.2⟩⟩
  have hout : ∀ p, cfg.IsSem p → (m.sched.expire cfg u).wq p u = false := by
    intro p hp
    obtain ⟨-, hready, hclock, -, -⟩ := Books.sem_ne hp
    rw [Sched.expire_self, if_neg hready.symm]
    by_cases hor : p = cfg.wqClock ∨ p = m.sched.thStat u / 2
    · rw [if_pos hor]
    · rw [if_neg hor]
      by_contra hin
      have hstat := ((h.row u).sem p hp ((Bool.not_eq_false _).mp hin)).2.1
      exact hor (Or.inr hstat.symm)
  have hclk : (m.sched.expire cfg u).wq cfg.wqClock u = false := by
    obtain ⟨h₁, h₂, h₃, -⟩ := cfg.first_queues
    rw [Sched.expire_self, if_neg (by omega), if_pos (Or.inl rfl)]
  have hsettled : Machine.settled { m with sched := m.sched.expire cfg u } q u =
      m.settled q u := by
    have hresult : Machine.result { m with sched := m.sched.expire cfg u } u = m.result u := rfl
    unfold Machine.settled
    rw [hout q hq, hresult]
    cases hin : m.sched.wq q u with
    | false => rfl
    | true =>
        rcases (h.row u).kind hin with ⟨-, hclk', -⟩ | ⟨-, -, hres⟩
        · exact absurd (hclk'.symm.trans hu) (by decide)
        · rw [decide_eq_false hres, Bool.and_false, Bool.and_false]
  refine h.still (fun t => ?_) (fun t => ?_) (fun t ht => ?_) rfl rfl rfl
  · rcases eq_or_ne t u with rfl | ht
    · exact Books.free_row hq hout hclk (h.row t).woken
    · exact (hsame t ht).row (h.row t)
  · rcases eq_or_ne t u with rfl | ht
    · exact hsettled
    · exact (hsame t ht).settled q
  · rcases eq_or_ne t u with rfl | htu
    · exact absurd ((hout q hq).symm.trans ht) (by decide)
    · exact ((hsame t htu).wq q).symm.trans ht

/-- Several threads whose time comes. -/
theorem Books.expireAll (hq : cfg.IsSem q) (us : List Nat) (hnodup : us.Nodup) :
    ∀ {m : Machine}, Books cfg q i v m l → (∀ u ∈ us, m.sched.wq cfg.wqClock u = true) →
      Books cfg q i v { m with sched := us.foldl (Sched.expire cfg) m.sched } l := by
  induction us with
  | nil => exact fun h _ => h
  | cons u us ih =>
      intro m h hclock
      obtain ⟨hnotin, hnodup'⟩ := List.nodup_cons.mp hnodup
      refine ih hnodup' (h.expire hq (hclock u (List.mem_cons_self ..))) fun t ht => ?_
      have htu : t ≠ u := fun heq => hnotin (heq ▸ ht)
      have hrow : Sched.SameBut u m.sched (m.sched.expire cfg u) := (Sched.SameBut.refl u _).expire
      exact (hrow.wq _ t htu).trans (hclock t (List.mem_cons_of_mem _ ht))

/-- The clock interrupt. -/
theorem Books.systick (h : Books cfg q i v m l) (hshare : cfg.timeshare = false)
    (hq : cfg.IsSem q) {p : Bool} (hp : m.pendsv = true → p = true) :
    Books cfg q i v
      { m with sched := (m.sched.nextTick.clockTick cfg).shareTick cfg m.active, pendsv := p } l := by
  have hshareTick : ∀ σ : Sched, σ.shareTick cfg m.active = σ := fun σ =>
    if_neg fun hon => absurd (hshare.symm.trans hon) (by decide)
  have hsame : ∀ t, m.SameRow { m with sched := m.sched.nextTick, pendsv := p } t := by
    refine fun t => ⟨fun _ => rfl, rfl, rfl, rfl, fun hoff => ⟨hoff.1, fun hnot => hoff.2 ?_⟩⟩
    have hnot' : p = false := hnot
    by_contra hpend
    rw [hp ((Bool.not_eq_false _).mp hpend)] at hnot'
    cases hnot'
  have hnext : Books cfg q i v { m with sched := m.sched.nextTick, pendsv := p } l :=
    h.still (fun t => (hsame t).row (h.row t)) (fun t => (hsame t).settled q) (fun _ ht => ht) rfl
      rfl rfl
  rw [hshareTick]
  refine hnext.expireAll hq (m.sched.nextTick.due cfg) (List.nodup_range.filter _) fun u hu => ?_
  have hdue := (List.mem_filter.mp hu).2
  rw [Bool.and_eq_true] at hdue
  exact hdue.1

/-- The frame that the scheduler finds on the stack of the active thread. -/
theorem Books.framed (h : Books cfg q i v m l) (sp : Nat) (r0 : Int) :
    Books cfg q i v (m.framed sp r0) l := by
  by_cases hcall : ∃ c, m.status m.active = .call c
  · obtain ⟨c, hc⟩ := hcall
    have heq : m.framed sp r0 = m := by
      unfold Machine.framed
      rw [hc]
    rwa [heq]
  · have hnot : ∀ c, m.status m.active ≠ .call c := fun c hc => hcall ⟨c, hc⟩
    have heq : m.framed sp r0 =
        { m with psp := sp, frames := set2 m.frames m.active sp ⟨r0, false⟩ } := by
      unfold Machine.framed
      cases hst : m.status m.active with
      | call c => exact absurd hst (hnot c)
      | user => rfl
      | exiting part code => rfl
    have hwaits : (m.status m.active).waitsSem q = false := by
      cases hst : m.status m.active with
      | call c => exact absurd hst (hnot c)
      | user => rfl
      | exiting part code => rfl
    rw [heq]
    have hsame : ∀ t, t ≠ m.active → m.SameRow
        { m with psp := sp, frames := set2 m.frames m.active sp ⟨r0, false⟩ } t := by
      refine fun t ht => ⟨fun _ => rfl, rfl, rfl, ?_, id⟩
      unfold Machine.result Machine.addr
      dsimp only
      rw [if_neg ht, if_neg ht, set2_ne _ (Or.inl ht)]
    refine h.still (fun t => ?_) (fun t => ?_) (fun _ ht => ht) rfl rfl rfl
    · rcases eq_or_ne t m.active with rfl | ht
      · refine ⟨(h.row m.active).sem, (h.row m.active).clock, fun hin => ?_, fun _ ms hms => ?_⟩
        · rcases (h.row m.active).kind hin with ⟨hst, -⟩ | ⟨⟨ms, hst⟩, -⟩
          · exact absurd hst (hnot _)
          · exact absurd hst (hnot _)
        · exact absurd hms (hnot _)
      · exact (hsame t ht).row (h.row t)
    · rcases eq_or_ne t m.active with rfl | ht
      · have hst : Machine.status { m with
            psp := sp, frames := set2 m.frames m.active sp ⟨r0, false⟩ } m.active =
              m.status m.active := rfl
        unfold Machine.settled
        rw [hst, hwaits, Bool.false_and, Bool.false_and, Bool.false_and]
      · exact (hsame t ht).settled q

/-- The scheduler saves the frame of the active thread and takes up another one. -/
theorem Books.switch (h : Books cfg q i v m l) (hq : cfg.IsSem q) {u : Nat}
    (hu : m.sched.head wqReady = some u) :
    Books cfg q i v
      { m with
        ctx := set1 m.ctx m.active m.psp
        active := u
        psp := set1 m.ctx m.active m.psp u
        pendsv := false
        status := set1 m.status u
          (Machine.resumed (m.status u) (m.frames u (set1 m.ctx m.active m.psp u))) } l := by
  have hready : m.sched.wq wqReady u = true := (find?_some hu).2
  obtain ⟨hout, hclk⟩ := h.free (Or.inl hready)
  generalize hn : ({ m with
        ctx := set1 m.ctx m.active m.psp
        active := u
        psp := set1 m.ctx m.active m.psp u
        pendsv := false
        status := set1 m.status u
          (Machine.resumed (m.status u) (m.frames u (set1 m.ctx m.active m.psp u))) } : Machine) = n
  have haddr : ∀ t, n.addr t = m.addr t := by
    intro t
    have hsaved : m.addr t = set1 m.ctx m.active m.psp t := rfl
    rw [hsaved, ← hn]
    unfold Machine.addr
    dsimp only
    by_cases htu : t = u
    · rw [if_pos htu, htu]
    · rw [if_neg htu]
  have hresult : ∀ t, n.result t = m.result t := by
    intro t
    unfold Machine.result
    rw [haddr, ← hn]
  have hself : n.status u = m.status u ∨
      (∀ c, n.status u ≠ .call c) ∧ ∀ c, m.status u ≠ .call c := by
    have hst : n.status u =
        Machine.resumed (m.status u) (m.frames u (set1 m.ctx m.active m.psp u)) := by
      rw [← hn]
      exact set1_same _ _ _
    rw [hst]
    unfold Machine.resumed
    cases m.status u with
    | call c => exact Or.inl rfl
    | user =>
        refine Or.inr ⟨fun c => ?_, nofun⟩
        dsimp only
        split_ifs
        · exact nofun
        · exact nofun
    | exiting part code =>
        refine Or.inr ⟨fun c => ?_, nofun⟩
        dsimp only
        split_ifs
        · exact nofun
        · exact nofun
  have hwaits : ∀ st : Status, (∀ c, st ≠ .call c) → st.waitsSem q = false := by
    intro st hst
    cases st with
    | call c => exact absurd rfl (hst c)
    | user => rfl
    | exiting part code => rfl
  have hsched : n.sched = m.sched := by rw [← hn]
  have hsame : ∀ t, t ≠ u → m.SameRow n t := by
    refine fun t ht => ⟨fun p => by rw [hsched], by rw [hsched], ?_, hresult t, fun hoff => ⟨?_, ?_⟩⟩
    · rw [← hn]
      exact set1_ne _ ht _
    · rw [hsched]
      exact hoff.1
    · rw [← hn]
      exact fun _ => Ne.symm ht
  refine h.still (fun t => ?_) (fun t => ?_) (fun t ht => hsched ▸ ht) (by rw [← hn]) rfl rfl
  · rcases eq_or_ne t u with rfl | ht
    · refine Books.free_row hq (hsched ▸ hout) (hsched ▸ hclk) fun hw ms hms => ?_
      rcases hself with heq | ⟨hnot, -⟩
      · rw [hresult]
        exact (h.row t).woken hw ms (heq.symm.trans hms)
      · exact absurd hms (hnot _)
    · exact (hsame t ht).row (h.row t)
  · rcases eq_or_ne t u with rfl | ht
    · unfold Machine.settled
      rw [hresult, hsched]
      rcases hself with heq | ⟨hnot, hnot'⟩
      · rw [heq]
      · rw [hwaits _ hnot, hwaits _ hnot']
    · exact (hsame t ht).settled q

/-- Every step keeps the books, if no post fails to reach the thread that it wakes up. -/
theorem Books.step (h : Books cfg q i v m l) (hshare : cfg.timeshare = false) (hq : cfg.IsSem q)
    (hi : i = q - cfg.semBase) {e : Event} (hsem : e.IsSem) (hok : m.PostReaches cfg q i e)
    (hs : step cfg m e = some m') : Books cfg q i v m' (l.next cfg q m e) := by
  cases Machine.step_cases hs with
  | svc c sp hrun huser =>
      have hcall := Calling.called (c := c) h hq hrun huser (arg_ne_zero hq) sp
      cases c with
      | semWait wq => exact hcall.semWait hshare hq hi
      | semTrywait wq => exact hcall.semTrywait hq hi
      | semTimedwait wq ms => exact hcall.semTimedwait hshare hq hi
      | semPost wq => exact Calling.semPost hrun huser h hq hi hok
      | _ => exact absurd hsem id
  | ret hrun => exact h.ret hq hrun
  | taskReturn => exact absurd hsem id
  | exitStep => exact absurd hsem id
  | @wakes i' _ hi' hw hk =>
      cases i' with
      | semPost wq =>
          obtain ⟨j, hj, rfl⟩ := Option.map_eq_some_iff.mp hi'
          obtain ⟨hlo, hhi, hj'⟩ := objIdx_some hj
          refine h.post hq hi ⟨hlo, hhi⟩ hj' (fun hpq u hu hodd hself => ?_) (fun hpq => ?_) rfl rfl rfl
          · exact (hok (beq_iff_eq.mpr hpq)).1 u hu hodd hself
          · exact (hok (beq_iff_eq.mpr hpq)).2
      | _ => exact absurd hsem id
  | irq => exact absurd hsem id
  | systick p hp => exact h.systick hshare hq hp
  | pendsv sp r0 hp hu => exact (h.framed sp r0).switch hq hu

end Steps

/-! ## The runs -/

/-- Nobody waits for `q` or is in a call that waits for it, and the threads that wait for other
semaphores or for the clock do not run. -/
structure Machine.Quiet (cfg : Config) (m : Machine) (q : Nat) : Prop where
  sem : ∀ p t, cfg.IsSem p → m.sched.wq p t = true →
    p ≠ q ∧ t < cfg.threadsMax ∧ m.sched.thStat t / 2 = p ∧ m.Off t
  clock : ∀ t, m.sched.wq cfg.wqClock t = true → t < cfg.threadsMax ∧ m.Off t
  calls : ∀ t, (m.status t).waitsSem q = false

theorem Machine.Quiet.books {cfg : Config} {m : Machine} {q i : Nat} (h : m.Quiet cfg q)
    (hq : cfg.IsSem q) : Books cfg q i (m.semVal i).toNat m .empty where
  row t :=
    ⟨fun p hp hin => by
        obtain ⟨-, hlt, hstat, hoff⟩ := h.sem p t hp hin
        exact ⟨hlt, hstat, hoff, fun _ => h.calls t⟩,
      h.clock t, fun hin => absurd rfl (h.sem q t hq hin).1, nofun⟩
  zero t hin := absurd rfl (h.sem q t hq hin).1
  balance := by
    have hnone : m.willReturn cfg q = 0 := by
      refine Finset.sum_eq_zero fun t _ => ?_
      unfold Machine.settled
      rw [h.calls t]
      rfl
    rw [hnone]
    rfl

/-- Semaphores neither lose nor invent posts, nobody waits for a positive semaphore, and a wait
that a post has ended returns 0, as long as every post reaches the thread that it wakes up. -/
theorem semaphore_conserves {cfg : Config} (hshare : cfg.timeshare = false) {q : Nat}
    (hq : cfg.IsSem q) {m₀ m : Machine} {l : Ledger} {es : List Event} (h₀ : m₀.Quiet cfg q)
    (hsem : ∀ e ∈ es, e.IsSem)
    (hok : Lib.Along (ledgerStep cfg q)
      (fun s e => s.1.PostReaches cfg q (q - cfg.semBase) e) (m₀, .empty) es)
    (hrun : Lib.exec (ledgerStep cfg q) (m₀, .empty) es = some (m, l)) :
    (m₀.semVal (q - cfg.semBase)).toNat + l.posts =
        (m.semVal (q - cfg.semBase)).toNat + l.returned + m.willReturn cfg q ∧
      (∀ t, m.sched.wq q t = true → m.semVal (q - cfg.semBase) = 0) ∧
      ∀ t ms, l.woken t = true → m.status t = .call (.semTimedwait q ms) → m.result t = 0 := by
  have hbooks : Books cfg q (q - cfg.semBase) (m₀.semVal (q - cfg.semBase)).toNat m l :=
    Lib.exec_invariant
      (I := fun s : Machine × Ledger =>
        Books cfg q (q - cfg.semBase) (m₀.semVal (q - cfg.semBase)).toNat s.1 s.2)
      (fun s e s' hI hok hs => by
        obtain ⟨m', hm', rfl⟩ := Option.map_eq_some_iff.mp hs
        exact hI.step hshare hq rfl hok.1 hok.2 hm')
      (h₀.books hq) ((Lib.along_of_mem hsem _).and hok) hrun
  exact ⟨hbooks.balance, hbooks.zero, fun t ms hw => (hbooks.row t).woken hw ms⟩

/-- The options without time sharing. -/
def Config.plain : Config :=
  { Config.default with timeshare := false }

/-- The main thread has allocated a semaphore with the value 0. -/
def semStart : Machine :=
  (((start .plain 0 0 false).called (.semAlloc 0) 900).svcIsr .plain (.semAlloc 0)).returned

theorem semStart_quiet : semStart.Quiet .plain 20 := by
  have hwq : ∀ p t, p ≠ wqReady → semStart.sched.wq p t = false := fun p t hp =>
    (set2_ne _ (Or.inl hp) _).trans (set2_ne _ (Or.inl hp) _)
  refine ⟨fun p t hp hin => ?_, fun t hin => ?_, fun t => ?_⟩
  · exact absurd ((hwq p t (Books.sem_ne hp).2.1.symm).symm.trans hin) (by decide)
  · exact absurd ((hwq _ t (by decide)).symm.trans hin) (by decide)
  · rcases eq_or_ne t 0 with rfl | ht
    · decide
    · have hst : semStart.status t = .user := (set1_ne _ ht _).trans (set1_ne _ ht _)
      rw [hst]
      rfl

/-- A wait with a time that a post ends after the scheduler has saved the frame. -/
theorem semaphore_conserves_post : ∃ m l, Reached .plain [.svc (.semAlloc 0) 900, .ret] semStart ∧
    Lib.exec (ledgerStep .plain 20) (semStart, .empty)
      [.svc (.semTimedwait 20 100) 1000, .pendsv 0 0, .isr (.semPost 20), .pendsv 0 0, .ret] =
        some (m, l) ∧ (m.semVal 0).toNat + l.returned + m.willReturn .plain 20 = l.posts := by
  obtain ⟨⟨m, l⟩, hrun⟩ := Option.isSome_iff_exists.mp
    (by decide : (Lib.exec (ledgerStep .plain 20) (semStart, .empty)
      [.svc (.semTimedwait 20 100) 1000, .pendsv 0 0, .isr (.semPost 20), .pendsv 0 0,
        .ret]).isSome = true)
  have hconserves := semaphore_conserves rfl (by decide : Config.plain.IsSem 20) semStart_quiet
    (by decide) (by decide) hrun
  exact ⟨m, l, ⟨0, 0, false, rfl⟩, hrun, hconserves.1.symm.trans (Nat.zero_add _)⟩

/-- A post that arrives before the scheduler has saved the frame of the thread that has just
blocked: the wait that it ends will return that the time is over, and the post is lost. -/
theorem early_post_lost : ∃ m l, Reached .plain [.svc (.semAlloc 0) 900, .ret] semStart ∧
    Lib.exec (ledgerStep .plain 20) (semStart, .empty)
      [.svc (.semTimedwait 20 100) 1000, .isr (.semPost 20), .pendsv 0 0] = some (m, l) ∧
    (semStart.semVal 0).toNat + l.posts ≠ (m.semVal 0).toNat + l.returned + m.willReturn .plain 20 ∧
    l.woken 0 = true ∧ m.status 0 = .call (.semTimedwait 20 100) ∧ m.result 0 = etimedout := by
  have hall : (Lib.exec (ledgerStep .plain 20) (semStart, .empty)
      [.svc (.semTimedwait 20 100) 1000, .isr (.semPost 20), .pendsv 0 0]).any (fun s =>
        decide ((semStart.semVal 0).toNat + s.2.posts ≠
            (s.1.semVal 0).toNat + s.2.returned + s.1.willReturn .plain 20 ∧
          s.2.woken 0 = true ∧ s.1.status 0 = .call (.semTimedwait 20 100) ∧
          s.1.result 0 = etimedout)) = true := by
    decide
  cases hrun : Lib.exec (ledgerStep .plain 20) (semStart, .empty)
      [.svc (.semTimedwait 20 100) 1000, .isr (.semPost 20), .pendsv 0 0] with
  | none => rw [hrun] at hall; cases hall
  | some s =>
      rw [hrun] at hall
      exact ⟨s.1, s.2, ⟨0, 0, false, rfl⟩, rfl, of_decide_eq_true hall⟩

end YardIce.Thinkos
