import YardIce.Lib.Runs
import YardIce.Debugger.BreakpointBook

/-!
# Accounting of hardware breakpoints

In every state of a run in which `target_release` finds no active breakpoint and
the promotion of `dbg_bp_delete` meets no entry that already has a comparator or
cannot have one, the allocated comparators correspond one to one to the active
entries of the list, and each is programmed for its entry.
-/

namespace YardIce.Breakpoints

open Lib

variable {d d' : Debugger} {b : BpId}

section Targets

theorem mem_of_dbgBpLookup {addr size : BitVec 32} (h : dbgBpLookup d addr size = some b) :
    b ∈ d.lst := List.mem_of_find?_eq_some h

theorem dbgBpActivateAll_inv (hinv : Inv d) : Inv (dbgBpActivateAll d).2 :=
  activateLoop_inv hinv fun _ => mem_of_mem_top

theorem targetConnect_inv (hinv : Inv d) (force ok : Bool) (st : IceStatus) :
    Inv (targetConnect d force ok st) := by
  have hact := dbgBpActivateAll_inv (hinv.setState .connected)
  unfold targetConnect
  split
  · exact hinv
  · split
    · exact hinv
    · split
      · exact hinv
      · split
        · next e he =>
            rw [he] at hact
            exact hact
        · next e he =>
            rw [he] at hact
            exact dbgStatus_inv hact st

theorem targetRun_inv (hinv : Inv d) (ok : Bool) (st : IceStatus) : Inv (targetRun d ok st) := by
  have hact := dbgBpActivateAll_inv hinv
  unfold targetRun
  split
  · exact hinv
  · split
    · exact hinv
    · split
      · next e he =>
          rw [he] at hact
          exact hact
      · next e he =>
          rw [he] at hact
          split
          · exact hact.setState .outOfSync
          · exact dbgStatus_inv (hact.setState .connected) st

theorem targetHalt_inv (hinv : Inv d) (ok : Bool) (st : IceStatus) :
    Inv (targetHalt d ok st) := by
  unfold targetHalt
  split
  · exact hinv
  · split
    · exact hinv.setState .outOfSync
    · exact dbgStatus_inv hinv st

/-- Clearing all comparators keeps the book when no entry is active. -/
theorem fpbClear_inv (hinv : Inv d) (hnone : ∀ x ∈ d.lst, (d.bp x).active = false)
    (st : DbgState) : Inv { d with fpb := fpbClear d.fpb, state := st } := by
  have hown : ∀ x, ({ d with fpb := fpbClear d.fpb, state := st } : Debugger).owner x = none := by
    intro x
    apply owner_eq_none.mpr
    rintro ⟨hx, hact⟩
    have hfalse := hnone x hx
    change (d.bp x).active = true at hact
    rw [hfalse] at hact
    cases hact
  refine ⟨⟨Assigned.of_none ?_ hown, ?_⟩, ?_, hinv.nodup⟩
  · rintro i ⟨n, -, hn⟩
    simp [fpbClear] at hn
  · intro x i hx
    rw [hown] at hx
    cases hx
  · intro n hn
    simp [fpbClear] at hn

theorem targetRelease_inv (hinv : Inv d) (ok : Bool)
    (hnone : d.state.num < DbgState.connected.num ∨ ∀ x ∈ d.lst, (d.bp x).active = false) :
    Inv (targetRelease d ok) := by
  unfold targetRelease
  split
  · exact hinv
  · next hst =>
      obtain h | h := hnone
      · exact absurd h hst
      · exact fpbClear_inv hinv h _

theorem targetBreakpointSet_inv (hinv : Inv d) {addr size : BitVec 32}
    (h : targetBreakpointSet d addr size = some d') : Inv d' := by
  unfold targetBreakpointSet at h
  split at h
  · obtain rfl : d = d' := by simpa using h
    exact hinv
  · split at h
    · next x hx =>
        obtain rfl := Option.some.inj h
        exact useBp_inv hinv (mem_of_dbgBpLookup hx)
    · cases hnew : dbgBpNew d addr (bpSize size) with
      | none => simp [hnew] at h
      | some r =>
          obtain ⟨x, e⟩ := r
          obtain ⟨he, hx⟩ := dbgBpNew_inv hinv hnew
          rw [hnew] at h
          obtain rfl := Option.some.inj h
          exact useBp_inv he hx

theorem targetBreakpointClear_inv (hinv : Inv d) {addr size : BitVec 32} {stale : Int}
    (hok : d.state.num < DbgState.connected.num ∨
      ∀ x ∈ dbgBpLookup d addr (bpSize size), DeleteOk d x)
    (h : targetBreakpointClear d addr size stale = some d') : Inv d' := by
  unfold targetBreakpointClear at h
  split at h
  · obtain rfl := Option.some.inj h
    exact hinv
  · next hst =>
      split at h
      · obtain rfl := Option.some.inj h
        exact hinv
      · next x hx =>
          obtain hok | hok := hok
          · exact absurd hok hst
          · exact dbgBpDelete_inv hinv (hok x hx) h

theorem targetBreakpointDelete_inv (hinv : Inv d) {stale : Int}
    (hok : d.state.num < DbgState.connected.num ∨ DeleteOk d b)
    (h : targetBreakpointDelete d b stale = some d') : Inv d' := by
  unfold targetBreakpointDelete at h
  split at h
  · obtain rfl := Option.some.inj h
    exact hinv
  · next hst =>
      obtain hok | hok := hok
      · exact absurd hok hst
      · exact dbgBpDelete_inv hinv hok h

theorem targetBreakpointEnable_inv (hinv : Inv d) (addr size : BitVec 32) :
    Inv (targetBreakpointEnable d addr size) := by
  unfold targetBreakpointEnable
  split
  · exact hinv
  · split
    · exact hinv
    · next x hx =>
        have hmem := mem_of_dbgBpLookup hx
        exact dbgBpActivate_inv (hinv.enabled x true) hmem

theorem targetBreakpointDisable_inv (hinv : Inv d) (addr size : BitVec 32) :
    Inv (targetBreakpointDisable d addr size) := by
  unfold targetBreakpointDisable
  split
  · exact hinv
  · split
    · exact hinv
    · next x hx =>
        exact (dbgBpDeactivate_inv hinv (mem_of_dbgBpLookup hx)).enabled x false

end Targets

/-- The calls whose step keeps the book: a release finds no active breakpoint, and a
deletion promotes no entry that already has a comparator or cannot have one. -/
def Careful (d : Debugger) : Action → Prop
  | .release _ =>
    d.state.num < DbgState.connected.num ∨ ∀ b ∈ d.lst, (d.bp b).active = false
  | .delete b _ => d.state.num < DbgState.connected.num ∨ DeleteOk d b
  | .clear addr size _ =>
    d.state.num < DbgState.connected.num ∨ ∀ b ∈ dbgBpLookup d addr (bpSize size), DeleteOk d b
  | _ => True

instance (d : Debugger) : (a : Action) → Decidable (Careful d a)
  | .release _ => inferInstanceAs (Decidable (_ ∨ _))
  | .delete b _ => inferInstanceAs (Decidable (_ ∨ DeleteOk d b))
  | .clear addr size _ =>
    inferInstanceAs (Decidable (_ ∨ ∀ b ∈ dbgBpLookup d addr (bpSize size), DeleteOk d b))
  | .connect _ _ _ | .run _ _ | .halt _ _ | .status _ => isTrue trivial
  | .set _ _ | .enable _ _ | .disable _ _ | .allEnable | .allDisable => isTrue trivial

theorem Inv.step (hinv : Inv d) {a : Action} (hok : Careful d a) (h : d.step a = some d') :
    Inv d' := by
  cases a with
  | set addr size => exact targetBreakpointSet_inv hinv h
  | clear addr size stale => exact targetBreakpointClear_inv hinv hok h
  | delete b stale => exact targetBreakpointDelete_inv hinv hok h
  | connect force ok st => exact Option.some.inj h ▸ targetConnect_inv hinv force ok st
  | release ok => exact Option.some.inj h ▸ targetRelease_inv hinv ok hok
  | run ok st => exact Option.some.inj h ▸ targetRun_inv hinv ok st
  | halt ok st => exact Option.some.inj h ▸ targetHalt_inv hinv ok st
  | status st => exact Option.some.inj h ▸ dbgStatus_inv hinv st
  | enable addr size => exact Option.some.inj h ▸ targetBreakpointEnable_inv hinv addr size
  | disable addr size => exact Option.some.inj h ▸ targetBreakpointDisable_inv hinv addr size
  | allEnable =>
      obtain rfl := Option.some.inj h
      unfold targetBreakpointAllEnable
      split
      · exact hinv
      · exact dbgBpEnableAll_inv hinv
  | allDisable =>
      obtain rfl := Option.some.inj h
      unfold targetBreakpointAllDisable
      split
      · exact hinv
      · exact disableLoop_inv hinv fun _ hx => hx

theorem init_inv (codeMax : Nat) (poll : BpId → DbgBp) (comp : Nat → BitVec 32) :
    Inv (Debugger.init codeMax poll comp) := by
  have hown : ∀ x, (Debugger.init codeMax poll comp).owner x = none := by
    intro x
    apply owner_eq_none.mpr
    rintro ⟨hx, -⟩
    cases hx
  refine ⟨⟨Assigned.of_none ?_ hown, ?_⟩, ?_, ?_⟩
  · rintro i ⟨n, -, hn⟩
    simp [Debugger.init] at hn
  · intro x i hx
    rw [hown] at hx
    cases hx
  · intro n hn
    simp [Debugger.init] at hn
  · exact List.nodup_finRange _

/-- In every state of a careful run the comparators are accounted for. -/
theorem breakpoints_accounted (codeMax : Nat) (poll : BpId → DbgBp) (comp : Nat → BitVec 32)
    (as : List Action)
    (hok : Along Debugger.step Careful (Debugger.init codeMax poll comp) as)
    (hrun : exec Debugger.step (Debugger.init codeMax poll comp) as = some d) :
    Accounted d := by
  have hinv : Inv d :=
    exec_invariant (fun _ _ _ hs hc hst => Inv.step hs hc hst) (init_inv codeMax poll comp) hok hrun
  exact hinv.toAccounted

/-- Entries and comparators of a target that was just configured. -/
def blank (codeMax : Nat) : Debugger :=
  Debugger.init codeMax (fun _ => ⟨0, false, false, 0, 0⟩) fun _ => 0

theorem breakpoints_accounted_run :
    ∃ d, exec Debugger.step (blank 2)
      [.connect false true (some true), .set 0x100 2, .set 0x204 4, .set 0x30a 0, .delete 1 0,
        .allDisable, .release true] = some d ∧ Accounted d :=
  ⟨_, rfl, breakpoints_accounted 2 (fun _ => ⟨0, false, false, 0, 0⟩) (fun _ => 0)
    [.connect false true (some true), .set 0x100 2, .set 0x204 4, .set 0x30a 0, .delete 1 0,
      .allDisable, .release true] (by decide) rfl⟩

/-- A release clears the comparator of an entry that stays active. A deletion can
promote an entry that is active already, whose old comparator is then lost. -/
theorem breakpoints_not_accounted :
    (∃ d, exec Debugger.step (blank 2)
      [.connect false true (some true), .set 0x100 2, .release true] = some d ∧ ¬Accounted d) ∧
    (∃ d, exec Debugger.step (blank 2)
      [.connect false true (some true), .set 0x100 2, .set 0x200 2, .set 0x300 2,
        .disable 0x300 2, .enable 0x100 2, .clear 0x100 2 0] = some d ∧ ¬Accounted d) := by
  constructor
  · refine ⟨_, rfl, ?_⟩
    intro h
    obtain ⟨n, hn, hbit⟩ := h.assigned.used_of_owner 0 0 (by decide)
    obtain rfl : 0 = n := by exact_mod_cast hn
    exact absurd hbit (by decide)
  · refine ⟨_, rfl, ?_⟩
    intro h
    have hex := h.assigned.owner_of_used 1 ⟨1, rfl, by decide⟩
    revert hex
    decide

end YardIce.Breakpoints
