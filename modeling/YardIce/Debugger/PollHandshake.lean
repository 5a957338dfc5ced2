import YardIce.Lib.Runs

/-!
# The handshake with the poll thread

`dbg_poll_task`, `poll_start` and `poll_stop` of `debugger.c`, interleaved at the
sections under `poll_mutex`.

## Implementation notes

Only the holder of `dbg->busy` calls `poll_start` and `poll_stop`, so that at most
one thread besides the poll thread waits on `poll_cond`: a signal of either side goes
to the other. A waiting thread that was signalled is no longer blocked but has to
take the mutex again. A wait may also end without a signal.
-/

namespace YardIce.Polling

open YardIce.Lib

/-- Where the poll thread is. -/
inductive Poller
  /-- It has not taken the mutex yet. -/
  | entering
  /-- It waits on `poll_cond`. -/
  | blocked
  /-- Its wait has ended and it takes the mutex. -/
  | woken
  | sleeping
  /-- `ice_poll` executes. -/
  | polling
  /-- `ice_poll` has returned with these bits of the status. -/
  | polled (halt fault : Bool)
  deriving DecidableEq

/-- Where the holder of `dbg->busy` is: in `poll_start` or `poll_stop`, blocked on
`poll_cond` or with the wait ended, or in neither. -/
inductive Caller
  | away
  | starting (blocked : Bool)
  | stopping (blocked : Bool)
  deriving DecidableEq

/-- The shared flags and the two sides. Two records are kept: whether `poll_stop` has
returned and no `poll_start` was called since, and whether the poll thread has
observed a halt or a fault since polling was last started. -/
structure Handshake (ι : Type) where
  enabled : Bool
  startReq : Bool
  stopReq : Bool
  poller : Poller
  busy : Option ι
  caller : Caller
  stopped : Bool
  observed : Bool
  deriving DecidableEq

variable {ι : Type}

/-- The state left by `debugger_init`. -/
def init : Handshake ι where
  enabled := false
  startReq := false
  stopReq := false
  poller := .entering
  busy := none
  caller := .away
  stopped := false
  observed := false

/-! ## The poll thread -/

/-- The wait of the caller ends. -/
def Caller.signalled : Caller → Caller
  | .starting _ => .starting false
  | .stopping _ => .stopping false
  | .away => .away

/-- `__os_cond_signal` by the poll thread. -/
def signalCaller (h : Handshake ι) : Handshake ι := { h with caller := h.caller.signalled }

/-- The loop that waits for `poll_start_req`, and the start of polling. -/
def waitStart (h : Handshake ι) : Handshake ι :=
  if h.startReq then
    { signalCaller { h with enabled := true, observed := false } with poller := .polling }
  else { h with poller := .blocked }

/-- The top of the loop of `dbg_poll_task`. -/
def pollTop (h : Handshake ι) : Handshake ι :=
  if h.enabled then { h with poller := .sleeping } else waitStart h

/-- The section after `ice_poll`. -/
def pollSection (halt fault : Bool) (h : Handshake ι) : Handshake ι :=
  let h := if h.stopReq then signalCaller { h with enabled := false } else h
  let h := if halt then { h with enabled := false, observed := true } else h
  let h := if fault then { h with enabled := false, observed := true } else h
  pollTop h

/-! ## The callers -/

/-- `__os_cond_signal` by a caller. -/
def signalPoller (h : Handshake ι) : Handshake ι :=
  if h.poller = .blocked then { h with poller := .woken } else h

/-- `poll_start` up to its wait. The two tests on the debugger are passed as `go`. -/
def pollStart (go : Bool) (h : Handshake ι) : Handshake ι :=
  let h := { h with stopped := false }
  if go then
    if h.enabled then h
    else signalPoller { h with startReq := true, caller := .starting true }
  else h

/-- `poll_stop` up to its wait. -/
def pollStop (h : Handshake ι) : Handshake ι :=
  if h.enabled then { h with stopReq := true, caller := .stopping true }
  else { h with stopped := true }

/-- The wait of `poll_start` or `poll_stop` ends: the condition is tested again. -/
def resume (h : Handshake ι) : Option (Handshake ι) :=
  match h.caller with
  | .starting false =>
      if h.enabled then some { h with startReq := false, caller := .away }
      else some { h with caller := .starting true }
  | .stopping false =>
      if h.enabled then some { h with caller := .stopping true }
      else some { h with stopReq := false, caller := .away, stopped := true }
  | _ => none

/-! ## Interleaving -/

/-- A step of one of the threads. -/
inductive Action (ι : Type)
  | enter
  | pollerWakes
  | pollerResumes
  | sleepEnds
  | pollEnds (halt fault : Bool)
  | afterPoll
  | lock (i : ι)
  | unlock (i : ι)
  | start (i : ι) (go : Bool)
  | stop (i : ι)
  | callerWakes
  | callerResumes

section Step

variable [DecidableEq ι]

def step (h : Handshake ι) : Action ι → Option (Handshake ι)
  | .enter => if h.poller = .entering then some (pollTop h) else none
  | .pollerWakes => if h.poller = .blocked then some { h with poller := .woken } else none
  | .pollerResumes => if h.poller = .woken then some (waitStart h) else none
  | .sleepEnds => if h.poller = .sleeping then some { h with poller := .polling } else none
  | .pollEnds halt fault =>
      if h.poller = .polling then some { h with poller := .polled halt fault } else none
  | .afterPoll =>
      match h.poller with
      | .polled halt fault => some (pollSection halt fault h)
      | _ => none
  | .lock i => if h.busy = none then some { h with busy := some i } else none
  | .unlock i =>
      if h.busy = some i ∧ h.caller = .away then some { h with busy := none } else none
  | .start i go => if h.busy = some i ∧ h.caller = .away then some (pollStart go h) else none
  | .stop i => if h.busy = some i ∧ h.caller = .away then some (pollStop h) else none
  | .callerWakes =>
      if h.caller = .starting true ∨ h.caller = .stopping true then some (signalCaller h)
      else none
  | .callerResumes => resume h

end Step

/-! ## The invariant -/

/-- The poll thread is past the start of polling. -/
def Poller.active : Poller → Bool
  | .sleeping => true
  | .polling => true
  | .polled _ _ => true
  | _ => false

def Caller.isStarting : Caller → Bool
  | .starting _ => true
  | _ => false

def Caller.isStopping : Caller → Bool
  | .stopping _ => true
  | _ => false

/-- What the flags say about the caller. -/
structure CallerInv (h : Handshake ι) : Prop where
  startReq : h.startReq = h.caller.isStarting
  stopReq : h.stopReq = h.caller.isStopping
  startBlocked : h.caller = .starting true → h.enabled = false
  stopBlocked : h.caller = .stopping true → h.enabled = true
  stopped : h.stopped = true → h.enabled = false ∧ h.caller = .away

/-- What the flags say about the two sides outside the sections under `poll_mutex`. -/
structure Inv (h : Handshake ι) : Prop extends CallerInv h where
  enabled : h.enabled = h.poller.active
  pollerBlocked : h.poller = .blocked → h.startReq = false

section Invariant

variable {h : Handshake ι}

theorem init_inv : Inv (init : Handshake ι) := by
  constructor
  · constructor <;> simp [init, Caller.isStarting, Caller.isStopping]
  · rfl
  · simp [init]

@[simp] theorem signalled_isStarting (c : Caller) : c.signalled.isStarting = c.isStarting := by
  cases c <;> rfl

@[simp] theorem signalled_isStopping (c : Caller) : c.signalled.isStopping = c.isStopping := by
  cases c <;> rfl

@[simp] theorem signalled_ne_starting (c : Caller) : c.signalled ≠ .starting true := by
  cases c <;> simp [Caller.signalled]

@[simp] theorem signalled_ne_stopping (c : Caller) : c.signalled ≠ .stopping true := by
  cases c <;> simp [Caller.signalled]

@[simp] theorem signalled_eq_away (c : Caller) : c.signalled = .away ↔ c = .away := by
  cases c <;> simp [Caller.signalled]

theorem signalCaller_inv (hi : CallerInv h) : CallerInv (signalCaller h) where
  startReq := by simpa [signalCaller] using hi.startReq
  stopReq := by simpa [signalCaller] using hi.stopReq
  startBlocked := by simp [signalCaller]
  stopBlocked := by simp [signalCaller]
  stopped := by simpa [signalCaller] using hi.stopped

/-- Polling starts only on a request, so the caller is in `poll_start`. -/
theorem waitStart_inv (hi : CallerInv h) (he : h.enabled = false) : Inv (waitStart h) := by
  unfold waitStart
  split
  · next hreq =>
      have hc : h.caller ≠ .away := by
        intro hc
        rw [hi.startReq, hc] at hreq
        cases hreq
      constructor
      · constructor
        · simpa [signalCaller] using hi.startReq
        · simpa [signalCaller] using hi.stopReq
        · simp [signalCaller]
        · simp [signalCaller]
        · intro hs
          exact absurd (hi.stopped hs).2 hc
      · rfl
      · simp
  · next hreq =>
      constructor
      · exact ⟨hi.startReq, hi.stopReq, hi.startBlocked, hi.stopBlocked, hi.stopped⟩
      · exact he
      · intro _
        exact Bool.eq_false_iff.mpr hreq

theorem pollTop_inv (hi : CallerInv h) : Inv (pollTop h) := by
  unfold pollTop
  split
  · next he =>
      constructor
      · exact ⟨hi.startReq, hi.stopReq, hi.startBlocked, hi.stopBlocked, hi.stopped⟩
      · exact he
      · simp
  · next he => exact waitStart_inv hi (Bool.eq_false_iff.mpr he)

theorem disable_inv (hi : CallerInv h) (hc : h.caller ≠ .stopping true) (o : Bool) :
    CallerInv { h with enabled := false, observed := o } where
  startReq := hi.startReq
  stopReq := hi.stopReq
  startBlocked := fun _ => rfl
  stopBlocked := fun hst => absurd hst hc
  stopped := fun hst => ⟨rfl, (hi.stopped hst).2⟩

/-- A caller that waits for the end of polling is signalled before any other test. -/
theorem pollSection_inv (hi : CallerInv h) (halt fault : Bool) :
    Inv (pollSection halt fault h) := by
  have hstop : CallerInv (if h.stopReq then signalCaller { h with enabled := false } else h) ∧
      (if h.stopReq then signalCaller { h with enabled := false } else h).caller ≠
        .stopping true := by
    split
    · constructor
      · constructor
        · simpa [signalCaller] using hi.startReq
        · simpa [signalCaller] using hi.stopReq
        · simp [signalCaller]
        · simp [signalCaller]
        · intro hst
          exact ⟨rfl, (signalled_eq_away _).mpr (hi.stopped hst).2⟩
      · simp [signalCaller]
    · next hreq =>
        refine ⟨hi, ?_⟩
        intro hc
        apply hreq
        rw [hi.stopReq, hc]
        rfl
  unfold pollSection
  generalize (if h.stopReq then signalCaller { h with enabled := false } else h) = g at hstop ⊢
  obtain ⟨hg, hc⟩ := hstop
  apply pollTop_inv
  cases halt <;> cases fault
  · exact hg
  · exact disable_inv hg hc true
  · exact disable_inv hg hc true
  · exact disable_inv (disable_inv hg hc true) hc true

/-- A request to start wakes the poll thread, which is not active. -/
theorem pollStart_inv (hi : Inv h) (ha : h.caller = .away) (go : Bool) :
    Inv (pollStart go h) := by
  have hreq : h.startReq = false := by rw [hi.startReq, ha]; rfl
  have hsreq : h.stopReq = false := by rw [hi.stopReq, ha]; rfl
  have hcleared : Inv { h with stopped := false } :=
    ⟨⟨hi.startReq, hi.stopReq, hi.startBlocked, hi.stopBlocked, by simp⟩, hi.enabled,
      hi.pollerBlocked⟩
  unfold pollStart
  simp only
  split
  · split
    · exact hcleared
    · next he =>
        have hcaller : CallerInv
            { h with stopped := false, startReq := true, caller := .starting true } :=
          ⟨rfl, hsreq, fun _ => Bool.eq_false_iff.mpr he, by simp, by simp⟩
        unfold signalPoller
        simp only
        split
        · next hb =>
            refine ⟨⟨rfl, hsreq, hcaller.startBlocked, by simp, by simp⟩, ?_, by simp⟩
            exact Bool.eq_false_iff.mpr he
        · next hb => exact ⟨hcaller, hi.enabled, fun hbl => absurd hbl hb⟩
  · exact hcleared

theorem pollStop_inv (hi : Inv h) (ha : h.caller = .away) : Inv (pollStop h) := by
  have hreq : h.startReq = false := by rw [hi.startReq, ha]; rfl
  unfold pollStop
  split
  · next he =>
      exact ⟨⟨hreq, rfl, by simp, fun _ => he, fun hst => by
        have := (hi.stopped hst).1
        rw [he] at this
        cases this⟩, hi.enabled, hi.pollerBlocked⟩
  · next he =>
      exact ⟨⟨hi.startReq, hi.stopReq, hi.startBlocked, hi.stopBlocked,
        fun _ => ⟨Bool.eq_false_iff.mpr he, ha⟩⟩, hi.enabled, hi.pollerBlocked⟩

theorem not_stopped (hi : CallerInv h) (ha : h.caller ≠ .away) : h.stopped = false := by
  by_contra hst
  exact ha (hi.stopped (eq_true_of_ne_false hst)).2

theorem resume_inv (hi : Inv h) {g : Handshake ι} (hg : resume h = some g) : Inv g := by
  unfold resume at hg
  split at hg
  · next hc =>
      have hst := not_stopped hi.toCallerInv (by simp [hc])
      have hsreq : h.stopReq = false := by rw [hi.stopReq, hc]; rfl
      split at hg <;> obtain rfl := Option.some.inj hg
      · exact ⟨⟨rfl, hsreq, by simp, by simp, by simp [hst]⟩, hi.enabled, fun _ => rfl⟩
      · next he =>
          have hreq : h.startReq = true := by rw [hi.startReq, hc]; rfl
          exact ⟨⟨hreq, hsreq, fun _ => Bool.eq_false_iff.mpr he, by simp, by simp [hst]⟩,
            hi.enabled, hi.pollerBlocked⟩
  · next hc =>
      have hst := not_stopped hi.toCallerInv (by simp [hc])
      have hreq : h.startReq = false := by rw [hi.startReq, hc]; rfl
      split at hg <;> obtain rfl := Option.some.inj hg
      · next he =>
          have hsreq : h.stopReq = true := by rw [hi.stopReq, hc]; rfl
          exact ⟨⟨hreq, hsreq, by simp, fun _ => he, by simp [hst]⟩, hi.enabled,
            hi.pollerBlocked⟩
      · next he =>
          exact ⟨⟨hreq, rfl, by simp, by simp, fun _ => ⟨Bool.eq_false_iff.mpr he, rfl⟩⟩,
            hi.enabled, hi.pollerBlocked⟩
  · cases hg

variable [DecidableEq ι]

theorem step_inv (hi : Inv h) {a : Action ι} {g : Handshake ι} (hg : step h a = some g) :
    Inv g := by
  have hcaller : ∀ (b : Option ι) (p : Poller), CallerInv { h with busy := b, poller := p } := fun _ _ =>
    ⟨hi.startReq, hi.stopReq, hi.startBlocked, hi.stopBlocked, hi.stopped⟩
  cases a with
  | enter =>
      obtain ⟨-, ⟨⟩⟩ := Option.ite_none_right_eq_some.mp hg
      exact pollTop_inv hi.toCallerInv
  | pollerWakes =>
      obtain ⟨hp, ⟨⟩⟩ := Option.ite_none_right_eq_some.mp hg
      have he : h.enabled = false := by rw [hi.enabled, hp]; rfl
      exact ⟨hcaller _ _, he, by simp⟩
  | pollerResumes =>
      obtain ⟨hp, ⟨⟩⟩ := Option.ite_none_right_eq_some.mp hg
      have he : h.enabled = false := by rw [hi.enabled, hp]; rfl
      exact waitStart_inv hi.toCallerInv he
  | sleepEnds =>
      obtain ⟨hp, ⟨⟩⟩ := Option.ite_none_right_eq_some.mp hg
      have he : h.enabled = true := by rw [hi.enabled, hp]; rfl
      exact ⟨hcaller _ _, he, by simp⟩
  | pollEnds halt fault =>
      obtain ⟨hp, ⟨⟩⟩ := Option.ite_none_right_eq_some.mp hg
      have he : h.enabled = true := by rw [hi.enabled, hp]; rfl
      exact ⟨hcaller _ _, he, by simp⟩
  | afterPoll =>
      simp only [step] at hg
      split at hg
      · obtain rfl := Option.some.inj hg
        exact pollSection_inv hi.toCallerInv _ _
      · cases hg
  | lock i =>
      obtain ⟨-, ⟨⟩⟩ := Option.ite_none_right_eq_some.mp hg
      exact ⟨hcaller _ _, hi.enabled, hi.pollerBlocked⟩
  | unlock i =>
      obtain ⟨-, ⟨⟩⟩ := Option.ite_none_right_eq_some.mp hg
      exact ⟨hcaller _ _, hi.enabled, hi.pollerBlocked⟩
  | start i go =>
      obtain ⟨⟨-, ha⟩, ⟨⟩⟩ := Option.ite_none_right_eq_some.mp hg
      exact pollStart_inv hi ha go
  | stop i =>
      obtain ⟨⟨-, ha⟩, ⟨⟩⟩ := Option.ite_none_right_eq_some.mp hg
      exact pollStop_inv hi ha
  | callerWakes =>
      obtain ⟨-, ⟨⟩⟩ := Option.ite_none_right_eq_some.mp hg
      exact ⟨signalCaller_inv hi.toCallerInv, hi.enabled, hi.pollerBlocked⟩
  | callerResumes => exact resume_inv hi hg

end Invariant

/-! ## Safety of the handshake -/

/-- Both sides are blocked on `poll_cond`, neither was signalled, and the condition that
each of them waits for does not hold. -/
def Stuck (h : Handshake ι) : Prop :=
  h.poller = .blocked ∧ h.startReq = false ∧
    ((h.caller = .starting true ∧ h.enabled = false) ∨
      (h.caller = .stopping true ∧ h.enabled = true))

/-- In every interleaving `ice_poll` does not execute between the return of `poll_stop` and
the next `poll_start`, and the two sides never wait for each other. -/
theorem pollHandshake_safe [DecidableEq ι] (as : List (Action ι)) (h : Handshake ι)
    (hrun : exec step init as = some h) :
    (h.stopped = true → h.poller ≠ .polling) ∧ ¬ Stuck h := by
  have hi : Inv h :=
    exec_invariant (fun _ _ _ hi _ hs => step_inv hi hs) init_inv
      (along_of_forall (fun _ _ => trivial) _ as) hrun
  constructor
  · intro hst hp
    have he := hi.enabled
    rw [(hi.stopped hst).1, hp] at he
    cases he
  · rintro ⟨hb, hreq, ⟨hc, -⟩ | ⟨hc, he⟩⟩
    · rw [hi.startReq, hc] at hreq
      cases hreq
    · rw [hi.enabled, hb] at he
      cases he

/-- One round: polling is started, observed to run, and stopped again. -/
theorem pollHandshake_safe_round :
    ∃ h, exec step (init : Handshake Unit)
        [.enter, .lock (), .start () true, .pollerResumes, .callerResumes, .unlock (),
          .lock (), .stop (), .pollEnds false false, .afterPoll, .callerResumes] = some h ∧
      h.stopped = true ∧ h.poller ≠ .polling ∧ ¬ Stuck h := by
  refine ⟨_, rfl, rfl, ?_⟩
  have hsafe := pollHandshake_safe (ι := Unit)
    [.enter, .lock (), .start () true, .pollerResumes, .callerResumes, .unlock (),
      .lock (), .stop (), .pollEnds false false, .afterPoll, .callerResumes] _ rfl
  exact ⟨hsafe.1 rfl, hsafe.2⟩

end YardIce.Polling
