import YardIce.Debugger.BreakpointAccounting

/-!
# Arming the breakpoints

`target_run` and `target_connect` give comparators to the enabled breakpoints among the first
`bp_max` entries of the list. The other entries keep what they have: a disabled breakpoint at
the top of the list stands for a comparator that it does not use.
-/

namespace YardIce.Breakpoints

open Lib

variable {d d' : Debugger} {b : BpId}

/-- `target_run` returns no error; `ok` is whether `ice_run` succeeds. -/
def runOk (d : Debugger) (ok : Bool) : Prop :=
  ¬d.state.num < DbgState.connected.num ∧
    (d.state = .running ∨ (dbgBpActivateAll d).1 = true ∧ ok = true)

/-- A call of `target_connect` does not find the target connected already. -/
def Connects (d : Debugger) (force : Bool) : Prop :=
  ¬((d.state = .running ∨ d.state = .halted) ∧ !force)

/-- `target_connect` returns no error; `ok` is whether `ice_connect` succeeds. -/
def connectOk (d : Debugger) (force ok : Bool) : Prop :=
  ¬d.state.num < DbgState.unconnected.num ∧
    (¬Connects d force ∨ ok = true ∧ (dbgBpActivateAll { d with state := .connected }).1 = true)

/-- The enabled breakpoints of a list are active. -/
def Armed (d : Debugger) (l : List BpId) : Prop :=
  ∀ b ∈ l, (d.bp b).enabled = true → (d.bp b).active = true

instance (d : Debugger) (l : List BpId) : Decidable (Armed d l) :=
  inferInstanceAs (Decidable (∀ b ∈ l, _))

/-- Some breakpoints have been made active, and no other field of a breakpoint has changed
that the loops go by. -/
structure Activated (d d' : Debugger) : Prop where
  lst : d'.lst = d.lst
  bpMax : d'.bpMax = d.bpMax
  enabled : ∀ b, (d'.bp b).enabled = (d.bp b).enabled
  active : ∀ b, (d.bp b).active = true → (d'.bp b).active = true

theorem Activated.refl (d : Debugger) : Activated d d := ⟨rfl, rfl, fun _ => rfl, fun _ h => h⟩

theorem Activated.trans {d'' : Debugger} (h : Activated d d') (h' : Activated d' d'') :
    Activated d d'' where
  lst := h'.lst.trans h.lst
  bpMax := h'.bpMax.trans h.bpMax
  enabled b := (h'.enabled b).trans (h.enabled b)
  active b hb := h'.active b (h.active b hb)

theorem fpbCodeCompSet_codeMax {f f' : Fpb} {v : BitVec 32} {n : Nat}
    (h : fpbCodeCompSet f v = some (n, f')) : f'.codeMax = f.codeMax := by
  unfold fpbCodeCompSet at h
  simp only at h
  split at h
  · cases h
  · obtain ⟨-, rfl⟩ := Prod.mk.inj (Option.some.inj h)
    rfl

/-- A breakpoint that gets a comparator becomes active. -/
theorem bpSet_activated (h : d.bpSet b = some d') : Activated d d' ∧ (d'.bp b).active = true := by
  unfold Debugger.bpSet at h
  split at h
  · cases h
  · next id fpb hset =>
      obtain ⟨comp, -, hcomp⟩ := Option.bind_eq_some_iff.mp hset
      have hmax : fpb.codeMax = d.fpb.codeMax := fpbCodeCompSet_codeMax hcomp
      obtain rfl := Option.some.inj h
      have hself : ((({ d with fpb := fpb } : Debugger).markActive b id).bp b) =
          { d.bp b with active := true, hwId := id } := by
        simp [Debugger.markActive, Debugger.setBp, Debugger.bp]
      refine ⟨⟨rfl, hmax, ?_, ?_⟩, by rw [hself]⟩
      · intro x
        by_cases hx : x = b
        · subst hx
          rw [hself]
        · exact congrArg DbgBp.enabled (setBp_bp_of_ne hx _ _)
      · intro x hact
        by_cases hx : x = b
        · subst hx
          rw [hself]
        · exact (congrArg DbgBp.active (setBp_bp_of_ne hx _ _)).trans hact

/-- The loop of `dbg_bp_activate_all`, when no `ice_bp_set` fails, arms its entries. -/
theorem activateLoop_armed {bs : List BpId} (h : (activateLoop d bs).1 = true) :
    Activated d (activateLoop d bs).2 ∧ Armed (activateLoop d bs).2 bs := by
  induction bs generalizing d with
  | nil => exact ⟨Activated.refl d, fun _ hb => absurd hb List.not_mem_nil⟩
  | cons b bs ih =>
      -- an entry that is active after its turn, if it is enabled, stays so
      have hcons : ∀ w, Activated d w → ((w.bp b).enabled = true → (w.bp b).active = true) →
          (activateLoop w bs).1 = true →
          Activated d (activateLoop w bs).2 ∧ Armed (activateLoop w bs).2 (b :: bs) := by
        intro w hw hb hloop
        obtain ⟨hrest, harmed⟩ := ih hloop
        refine ⟨hw.trans hrest, fun x hx hen => ?_⟩
        rcases List.mem_cons.mp hx with rfl | hx
        · apply hrest.active
          apply hb
          rw [← hrest.enabled]
          exact hen
        · exact harmed x hx hen
      simp only [activateLoop] at h ⊢
      by_cases hcond : ((d.bp b).enabled && !(d.bp b).active) = true
      · rw [if_pos hcond] at h ⊢
        cases hset : d.bpSet b with
        | none =>
            rw [hset] at h
            cases h
        | some w =>
            rw [hset] at h
            obtain ⟨hw, hact⟩ := bpSet_activated hset
            exact hcons w hw (fun _ => hact) h
      · rw [if_neg hcond] at h ⊢
        refine hcons d (Activated.refl d) (fun hen => ?_) h
        simpa [hen] using hcond

/-- Unless it finds the core halted, `dbg_status` leaves the breakpoints. -/
theorem dbgStatus_of_not_halted {st : IceStatus} (h : (dbgStatus d st).state ≠ .halted) :
    (dbgStatus d st).bpCtrl = d.bpCtrl ∧ (dbgStatus d st).bpMax = d.bpMax := by
  unfold dbgStatus at h ⊢
  split
  · next hconn =>
      rw [if_pos hconn] at h
      cases st with
      | none => exact ⟨rfl, rfl⟩
      | some halt =>
          cases halt with
          | true =>
              exfalso
              by_cases hst : d.state = .halted
              · simp [hst] at h
              · simp [hst] at h
          | false => exact ⟨rfl, rfl⟩
  · exact ⟨rfl, rfl⟩

/-- What the status read leaves of the breakpoints that were armed before it. -/
theorem armed_dbgStatus {st : IceStatus} (h : Armed d d.top) (hst : (dbgStatus d st).state ≠ .halted) :
    Armed (dbgStatus d st) (dbgStatus d st).top := by
  obtain ⟨hctrl, hmax⟩ := dbgStatus_of_not_halted hst
  have htop : (dbgStatus d st).top = d.top := by
    rw [Debugger.top, Debugger.top, Debugger.lst, Debugger.lst, hctrl, hmax]
  rw [htop]
  simpa only [Armed, Debugger.bp, hctrl] using h

/-- After `dbg_bp_activate_all` the top of the list is armed. -/
theorem dbgBpActivateAll_armed (h : (dbgBpActivateAll d).1 = true) :
    Armed (dbgBpActivateAll d).2 (dbgBpActivateAll d).2.top := by
  obtain ⟨hact, harmed⟩ : Activated d (dbgBpActivateAll d).2 ∧ Armed (dbgBpActivateAll d).2 d.top :=
    activateLoop_armed h
  have htop : (dbgBpActivateAll d).2.top = d.top := by
    rw [Debugger.top, Debugger.top, hact.bpMax]
    exact congrArg (List.take d.bpMax) hact.lst
  rw [htop]
  exact harmed

/-- After a call of `target_run` that starts the core, or one of `target_connect` that
connects to it, the enabled breakpoints among the first `bp_max` of the list are active, unless
the core is found halted. -/
theorem top_armed (d : Debugger) :
    (∀ ok st, runOk d ok → d.state ≠ .running → (targetRun d ok st).state ≠ .halted →
      Armed (targetRun d ok st) (targetRun d ok st).top) ∧
    ∀ force ok st, connectOk d force ok → Connects d force →
      (targetConnect d force ok st).state ≠ .halted →
      Armed (targetConnect d force ok st) (targetConnect d force ok st).top := by
  constructor
  · intro ok st hok hrunning hst
    obtain ⟨hall, rfl⟩ := hok.2.resolve_left hrunning
    have harmed := dbgBpActivateAll_armed hall
    have heq : targetRun d true st =
        dbgStatus { (dbgBpActivateAll d).2 with state := .connected } st := by
      rw [targetRun, if_neg hok.1, if_neg hrunning, ← Prod.mk.eta (p := dbgBpActivateAll d), hall]
      rfl
    rw [heq] at hst ⊢
    exact armed_dbgStatus (d := { (dbgBpActivateAll d).2 with state := .connected }) harmed hst
  · intro force ok st hok hconn hst
    obtain ⟨rfl, hall⟩ := hok.2.resolve_left (not_not_intro hconn)
    have harmed := dbgBpActivateAll_armed hall
    have heq : targetConnect d force true st =
        dbgStatus (dbgBpActivateAll { d with state := .connected }).2 st := by
      rw [targetConnect, if_neg hok.1, if_neg hconn,
        ← Prod.mk.eta (p := dbgBpActivateAll { d with state := .connected }), hall]
      rfl
    rw [heq] at hst ⊢
    exact armed_dbgStatus harmed hst

/-- Three breakpoints on a target with two comparators, of which the last two set are disabled
again. -/
def disabledOnTop : List Action :=
  [.connect false true (some true), .set 0x100 2, .set 0x200 2, .set 0x300 2, .disable 0x200 2,
    .disable 0x300 2]

theorem top_armed_run :
    ∃ d, exec Debugger.step (blank 2) (disabledOnTop ++ [.enable 0x300 2]) = some d ∧
      (targetRun d true (some false)).top = [2, 1] ∧
      Armed (targetRun d true (some false)) (targetRun d true (some false)).top := by
  have hend : (exec Debugger.step (blank 2) (disabledOnTop ++ [.enable 0x300 2])).any (fun d =>
      decide ((targetRun d true (some false)).top = [2, 1]) &&
        decide (d.state = .halted) && (dbgBpActivateAll d).1 &&
        decide ((targetRun d true (some false)).state = .running)) = true := by
    decide
  obtain ⟨d, hrun, hd⟩ := (Option.any_eq_true _ _).mp hend
  simp only [Bool.and_eq_true, decide_eq_true_eq] at hd
  obtain ⟨⟨⟨htop, hst⟩, hall⟩, hrunning⟩ := hd
  refine ⟨d, hrun, htop, (top_armed d).1 true (some false) ⟨?_, Or.inr ⟨hall, rfl⟩⟩ ?_ ?_⟩
  · rw [hst]
    decide
  · rw [hst]
    decide
  · rw [hrunning]
    decide

/-- The breakpoint that is left enabled stands behind the disabled ones and is not armed. And
where the core stops at once, no breakpoint is active after the call. -/
theorem enabled_not_armed :
    (∃ d, exec Debugger.step (blank 2) disabledOnTop = some d ∧
      d.lst.countP (fun b => (d.bp b).enabled) ≤ d.bpMax ∧ runOk d true ∧
      (targetRun d true (some false)).lst = [2, 1, 0] ∧
      ¬Armed (targetRun d true (some false)) (targetRun d true (some false)).lst) ∧
    ∃ d, exec Debugger.step (blank 2) [.connect false true (some true), .set 0x100 2] = some d ∧
      d.lst.countP (fun b => (d.bp b).enabled) ≤ d.bpMax ∧ runOk d true ∧
      ¬Armed (targetRun d true (some true)) (targetRun d true (some true)).lst := by
  constructor
  · have hend : (exec Debugger.step (blank 2) disabledOnTop).any (fun d =>
        decide (d.lst.countP (fun b => (d.bp b).enabled) ≤ d.bpMax) && decide (d.state = .halted) &&
          (dbgBpActivateAll d).1 && decide ((targetRun d true (some false)).lst = [2, 1, 0]) &&
          !decide (Armed (targetRun d true (some false)) (targetRun d true (some false)).lst)) =
        true := by
      decide
    obtain ⟨d, hrun, hd⟩ := (Option.any_eq_true _ _).mp hend
    simp only [Bool.and_eq_true, decide_eq_true_eq, Bool.not_eq_true', decide_eq_false_iff_not] at hd
    obtain ⟨⟨⟨⟨hcount, hst⟩, hall⟩, hlst⟩, hnot⟩ := hd
    refine ⟨d, hrun, hcount, ⟨?_, Or.inr ⟨hall, rfl⟩⟩, hlst, hnot⟩
    rw [hst]
    decide
  · have hend : (exec Debugger.step (blank 2)
        [.connect false true (some true), .set 0x100 2]).any (fun d =>
        decide (d.lst.countP (fun b => (d.bp b).enabled) ≤ d.bpMax) && decide (d.state = .halted) &&
          (dbgBpActivateAll d).1 &&
          !decide (Armed (targetRun d true (some true)) (targetRun d true (some true)).lst)) =
        true := by
      decide
    obtain ⟨d, hrun, hd⟩ := (Option.any_eq_true _ _).mp hend
    simp only [Bool.and_eq_true, decide_eq_true_eq, Bool.not_eq_true', decide_eq_false_iff_not] at hd
    obtain ⟨⟨⟨hcount, hst⟩, hall⟩, hnot⟩ := hd
    refine ⟨d, hrun, hcount, ⟨?_, Or.inr ⟨hall, rfl⟩⟩, hnot⟩
    rw [hst]
    decide

end YardIce.Breakpoints
