import YardIce.Lib.Bits
import YardIce.Lib.Runs
import YardIce.Cm3ice.Core

/-!
# Coherence of the register cache

While the core is halted every cached register has the value that a fresh transfer
gives, in every state of a run whose calls do not write a register that is cached
under another name and do not reset the core over a cache that is not empty.

## Implementation notes

The cache may be left behind when the core runs with debug disabled: the core
cannot halt then. `Stale` is that state; only calls that enable debug again have
to empty the cache first.
-/

namespace YardIce.Cm3ice

open Lib

/-- Cached registers of a halted core have the value a fresh transfer gives. -/
def Coherent (t : Target) : Prop :=
  t.core.halted = true → ∀ id ≤ cm3Ctrl, t.ctrl.cached id = true →
    t.ctrl.reg id = t.core.read (cm3DcrsrLut id)

/-- The invariant between two accesses. -/
structure Inv (c : Core) (ctl : Ctrl) : Prop where
  coherent : Coherent ⟨c, ctl⟩
  debug : c.halted = true → c.debugen = true
  running : c.halted = false → c.debugen = true → ctl.cacheBmp = 0

variable {c : Core} {ctl : Ctrl} {w : World} {t t' : Target}

section Core

@[simp] theorem progress_of_halted (h : c.halted = true) (ev : Event) : c.progress ev = c := by
  simp [Core.progress, h]

@[simp] theorem progress_debugen (c : Core) (ev : Event) :
    (c.progress ev).debugen = c.debugen := by
  unfold Core.progress
  split <;> rfl

@[simp] theorem progress_dcrdr (c : Core) (ev : Event) : (c.progress ev).dcrdr = c.dcrdr := by
  unfold Core.progress
  split <;> rfl

theorem progress_halted_debugen {ev : Event} (h : c.halted = true → c.debugen = true)
    (hp : (c.progress ev).halted = true) : c.debugen = true := by
  unfold Core.progress at hp
  split at hp
  · next hh => exact h hh
  · exact (Bool.and_eq_true_iff.mp hp).1

/-- A selector of the table is the number of its register but for `CTRL`. -/
theorem lut_eq_of_lt {id : Nat} (h : id < cm3Ctrl) : cm3DcrsrLut id = id := by
  unfold cm3Ctrl at h
  unfold cm3DcrsrLut
  split
  · omega
  · omega
  · rfl

theorem lut_eq_control {id : Nat} (hid : id ≤ cm3Ctrl) : cm3DcrsrLut id = 20 ↔ id = cm3Ctrl := by
  constructor
  · intro h
    by_contra hne
    have hlt : id < cm3Ctrl := Nat.lt_of_le_of_ne hid hne
    rw [lut_eq_of_lt hlt] at h
    unfold cm3Ctrl at hlt
    omega
  · rintro rfl
    rfl

theorem lut_inj {id id' : Nat} (hid : id ≤ cm3Ctrl) (hid' : id' ≤ cm3Ctrl)
    (h : cm3DcrsrLut id = cm3DcrsrLut id') : id = id' := by
  obtain rfl | hlt := Nat.eq_or_lt_of_le hid
  · exact ((lut_eq_control hid').mp h.symm).symm
  · obtain rfl | hlt' := Nat.eq_or_lt_of_le hid'
    · exact (lut_eq_control hid).mp h
    · rwa [lut_eq_of_lt hlt, lut_eq_of_lt hlt'] at h

/-- The number of the selected stack pointer. -/
def Core.stack (c : Core) : Nat := if c.spsel then cm3Psp else cm3Msp

/-- The stored register behind the register `id`. -/
theorem cell_lut (c : Core) {id : Nat} (hid : id ≤ cm3Ctrl) :
    c.cell (cm3DcrsrLut id) = if id = cm3Sp then c.stack else cm3DcrsrLut id := by
  have hsp : cm3DcrsrLut id = 13 ↔ id = cm3Sp := by
    constructor
    · intro h
      exact lut_inj hid (by decide) h
    · rintro rfl
      rfl
  unfold Core.cell Core.stack
  simp only [hsp]
  rfl

/-- A register is not written under another name: the stack pointer and the one it
stands for, and the selection between the two. -/
structure NoAlias (c : Core) (ctl : Ctrl) (id : Nat) (data : BitVec 32) : Prop where
  stack : id = cm3Sp → ctl.cached c.stack = false
  sp : id = c.stack → ctl.cached cm3Sp = false
  control : id = cm3Ctrl → data.getLsbD 25 ≠ c.spsel → ctl.cached cm3Sp = false

instance (c : Core) (ctl : Ctrl) (id : Nat) (data : BitVec 32) :
    Decidable (NoAlias c ctl id data) :=
  decidable_of_iff ((id = cm3Sp → ctl.cached c.stack = false) ∧
      (id = c.stack → ctl.cached cm3Sp = false) ∧
      (id = cm3Ctrl → data.getLsbD 25 ≠ c.spsel → ctl.cached cm3Sp = false))
    ⟨fun h => ⟨h.1, h.2.1, h.2.2⟩, fun h => ⟨h.stack, h.sp, h.control⟩⟩

theorem stack_cases (c : Core) : c.stack = cm3Psp ∨ c.stack = cm3Msp := by
  unfold Core.stack
  split
  · exact Or.inl rfl
  · exact Or.inr rfl

theorem write_spsel {id : Nat} (hid : id ≤ cm3Ctrl) (data : BitVec 32) :
    (c.write (cm3DcrsrLut id) data).spsel =
      if id = cm3Ctrl then data.getLsbD 25 else c.spsel := by
  have hcell := cell_lut c hid
  unfold Core.spsel Core.write
  split
  · next h =>
      subst h
      have h20 : c.cell (cm3DcrsrLut cm3Ctrl) = 20 := by
        rw [hcell, if_neg (by decide)]
        rfl
      rw [h20]
      simp
  · next h =>
      have hne : (20 : Nat) ≠ c.cell (cm3DcrsrLut id) := by
        rw [hcell]
        split
        · obtain hs | hs := stack_cases c
          · rw [hs]
            decide
          · rw [hs]
            decide
        · intro he
          exact h ((lut_eq_control hid).mp he.symm)
      simp only [Function.update_of_ne hne]

theorem write_stack {id : Nat} (hid : id < cm3Ctrl) (data : BitVec 32) :
    (c.write (cm3DcrsrLut id) data).stack = c.stack := by
  unfold Core.stack
  rw [write_spsel (Nat.le_of_lt hid), if_neg (Nat.ne_of_lt hid)]

theorem read_write_self {id : Nat} (hid : id ≤ cm3Ctrl) (data : BitVec 32) :
    (c.write (cm3DcrsrLut id) data).read (cm3DcrsrLut id) = data := by
  have hcell : (c.write (cm3DcrsrLut id) data).cell (cm3DcrsrLut id) =
      c.cell (cm3DcrsrLut id) := by
    rw [cell_lut _ hid, cell_lut _ hid]
    split
    · next h =>
        subst h
        exact write_stack (by decide) data
    · rfl
  unfold Core.read
  rw [hcell]
  simp [Core.write]

/-- A write without alias leaves the other cached registers as they are. -/
theorem read_write_of_noAlias {id id' : Nat} (hid : id ≤ cm3Ctrl) (hid' : id' ≤ cm3Ctrl)
    {data : BitVec 32} (hna : NoAlias c ctl id data) (hne : id' ≠ id)
    (hc : ctl.cached id' = true) :
    (c.write (cm3DcrsrLut id) data).read (cm3DcrsrLut id') = c.read (cm3DcrsrLut id') := by
  have hstack : id' = cm3Sp → (c.write (cm3DcrsrLut id) data).stack = c.stack := by
    intro h
    obtain rfl | hlt := Nat.eq_or_lt_of_le hid
    · by_contra hdiff
      have hctl := hna.control rfl
      rw [h] at hc
      by_cases hsel : data.getLsbD 25 = c.spsel
      · apply hdiff
        unfold Core.stack
        rw [write_spsel (by decide), if_pos rfl, hsel]
      · rw [hctl hsel] at hc
        cases hc
    · exact write_stack hlt data
  have hcell : (c.write (cm3DcrsrLut id) data).cell (cm3DcrsrLut id') =
      c.cell (cm3DcrsrLut id') := by
    rw [cell_lut _ hid', cell_lut _ hid']
    split
    · next h => exact hstack h
    · rfl
  have hapart : c.cell (cm3DcrsrLut id') ≠ c.cell (cm3DcrsrLut id) := by
    rw [cell_lut _ hid, cell_lut _ hid']
    have hs : c.stack < cm3Ctrl := by
      obtain hs | hs := stack_cases c
      · rw [hs]
        decide
      · rw [hs]
        decide
    split
    · next hsp' =>
        rw [if_neg (fun hsp => hne (hsp'.trans hsp.symm))]
        intro he
        rw [← lut_eq_of_lt hs] at he
        have := hna.sp (lut_inj (Nat.le_of_lt hs) hid he).symm
        rw [hsp', this] at hc
        cases hc
    · split
      · next hsp =>
          intro he
          rw [← lut_eq_of_lt hs] at he
          have := hna.stack hsp
          rw [lut_inj hid' (Nat.le_of_lt hs) he, this] at hc
          cases hc
      · intro he
        exact hne (lut_inj hid' hid he)
  unfold Core.read
  rw [hcell]
  simp only [Core.write, Function.update_of_ne hapart]

end Core

section Invariant

theorem not_cached_zero {ctl : Ctrl} (h : ctl.cacheBmp = 0) (id : Nat) : ctl.cached id = false := by
  simp [Ctrl.cached, h]

/-- An empty cache is coherent with every core. -/
theorem Inv.of_empty (hbmp : ctl.cacheBmp = 0) (hdebug : c.halted = true → c.debugen = true) :
    Inv c ctl where
  coherent _ id _ hc := by
    rw [not_cached_zero hbmp id] at hc
    cases hc
  debug := hdebug
  running _ _ := hbmp

/-- The invariant reads the registers, whether the core is halted and whether debug is
enabled. -/
theorem Inv.congr {c' : Core} (h : Inv c ctl) (hbank : c'.bank = c.bank)
    (hhalt : c'.halted = c.halted) (hen : c'.debugen = c.debugen) : Inv c' ctl where
  coherent hh id hid hc := by
    have hread : c'.read (cm3DcrsrLut id) = c.read (cm3DcrsrLut id) := by
      simp only [Core.read, Core.cell, Core.spsel, hbank]
      rfl
    exact (h.coherent (hhalt ▸ hh) id hid hc).trans hread.symm
  debug hh := by
    rw [hen]
    exact h.debug (hhalt ▸ hh)
  running hh he := h.running (hhalt ▸ hh) (hen ▸ he)

theorem Inv.progress (h : Inv c ctl) (ev : Event) : Inv (c.progress ev) ctl := by
  cases hh : c.halted with
  | true =>
      rw [progress_of_halted hh]
      exact h
  | false =>
      cases hen : c.debugen with
      | true =>
          apply Inv.of_empty (h.running hh hen)
          intro _
          rw [progress_debugen, hen]
      | false =>
          have hp : (c.progress ev).halted = false := by simp [Core.progress, hh, hen]
          refine ⟨?_, ?_, ?_⟩
          · intro hh'
            rw [hp] at hh'
            cases hh'
          · intro hh'
            rw [hp] at hh'
            cases hh'
          · intro _ he
            rw [progress_debugen, hen] at he
            cases he

theorem cached_cache (w : World) {id : Nat} (hid : id ≤ cm3Ctrl) (v : BitVec 32) (id' : Nat) :
    (w.cache id v).ctrl.cached id' = true ↔ id' = id ∨ w.ctrl.cached id' = true := by
  have hlt : id < 32 := by
    unfold cm3Ctrl at hid
    omega
  exact getLsbD_set w.ctrl.cacheBmp hlt id'

/-- A register enters the cache with the value a transfer gives, and the others stay
coherent. -/
theorem Inv.cache {id : Nat} (hid : id ≤ cm3Ctrl) (hhalt : w.core.halted = true)
    (hdebug : w.core.debugen = true) {v : BitVec 32}
    (hv : v = w.core.read (cm3DcrsrLut id))
    (hothers : ∀ id' ≤ cm3Ctrl, id' ≠ id → w.ctrl.cached id' = true →
      w.ctrl.reg id' = w.core.read (cm3DcrsrLut id')) :
    Inv (w.cache id v).core (w.cache id v).ctrl where
  coherent _ id' hid' hc := by
    change Function.update w.ctrl.reg id v id' = w.core.read (cm3DcrsrLut id')
    by_cases he : id' = id
    · subst he
      rw [Function.update_self, hv]
    · rw [Function.update_of_ne he]
      exact hothers id' hid' he (((cached_cache w hid v id').mp hc).resolve_left he)
  debug _ := hdebug
  running hh := by
    have hh' : w.core.halted = false := hh
    rw [hhalt] at hh'
    cases hh'

end Invariant

section Rules

/-- Every result of a call leaves the invariant. -/
def Keeps (r : Res) : Prop := ∀ n w, r = some (n, w) → Inv w.core w.ctrl

theorem keeps_some {n : Int} (h : Inv w.core w.ctrl) : Keeps (some (n, w)) := by
  intro m w' he
  obtain ⟨-, rfl⟩ := Prod.mk.inj (Option.some.inj he)
  exact h

theorem keeps_none : Keeps none := by
  intro n w h
  cases h

theorem keeps_jtagErr (h : Inv w.core w.ctrl) (ack : Ack) : Keeps (jtagErr ack w) := keeps_some h

/-- The rule of an access: what follows its failure and its success. -/
theorem keeps_access {f : Core → Event → Core} {fail : Ack → World → Res} {k : World → Res}
    (hfail : ∀ ev env, w.env = ev :: env → ev.ack ≠ .ok →
      Keeps (fail ev.ack { w with core := w.core.progress ev, env := env }))
    (hok : ∀ ev env, w.env = ev :: env → ev.ack = .ok →
      Keeps (k { w with core := f (w.core.progress ev) ev, env := env })) :
    Keeps (access f w fail k) := by
  unfold access
  split
  · exact keeps_none
  · next ev env henv =>
      simp only
      split
      · next hack => exact hok ev env henv hack
      · next hack => exact hfail ev env henv hack

/-- The rule of an access whose failure ends the call. -/
theorem keeps_access_or_err (h : Inv w.core w.ctrl) {f : Core → Event → Core} {k : World → Res}
    (hok : ∀ ev env, w.env = ev :: env → ev.ack = .ok →
      Keeps (k { w with core := f (w.core.progress ev) ev, env := env })) :
    Keeps (access f w jtagErr k) := by
  apply keeps_access _ hok
  intro ev env _ _
  exact keeps_jtagErr (h.progress ev) _

/-- An access without effect on the core, after which the invariant is all that counts. -/
theorem keeps_touch (h : Inv w.core w.ctrl) {fail : Ack → World → Res} {k : World → Res}
    (hfail : ∀ ack w', w'.ctrl = w.ctrl → Inv w'.core w'.ctrl → Keeps (fail ack w'))
    (hok : ∀ w', w'.ctrl = w.ctrl → Inv w'.core w'.ctrl → Keeps (k w')) :
    Keeps (touch w fail k) := by
  apply keeps_access
  · intro ev env _ _
    exact hfail ev.ack _ rfl (h.progress ev)
  · intro ev env _ _
    exact hok _ rfl (h.progress ev)

/-- The waiting loop: what the core keeps while it goes on, and what follows. -/
theorem keeps_pollRegrdy {I : Core → Prop} {k : World → Res}
    (hprog : ∀ c ev, I c → I (c.progress ev)) (hfail : ∀ c, I c → Inv c ctl)
    (hk : ∀ w : World, w.ctrl = ctl → I w.core → w.core.regrdy = true → Keeps (k w))
    (env : List Event) (w : World) (hctl : w.ctrl = ctl) (hI : I w.core) :
    Keeps (pollRegrdy k env w) := by
  induction env generalizing w with
  | nil => exact keeps_none
  | cons ev env ih =>
      have hI' : I (w.core.progress ev) := hprog w.core ev hI
      unfold pollRegrdy
      simp only
      split
      · apply keeps_some
        rw [hctl]
        exact hfail _ hI'
      · split
        · next hr => exact hk _ hctl hI' hr
        · exact ih _ hctl hI'

end Rules

section Transfers

theorem wrDcrsr_progress (c : Core) (sel : Nat) (regwnr : Bool) :
    (c.wrDcrsr sel regwnr).halted = c.halted ∧ (c.wrDcrsr sel regwnr).debugen = c.debugen := by
  unfold Core.wrDcrsr
  split
  · split <;> exact ⟨rfl, rfl⟩
  · exact ⟨rfl, rfl⟩

/-- A write transfer to a halted core changes its register at once. -/
theorem wrDcrsr_write (hh : c.halted = true) (sel : Nat) :
    c.wrDcrsr sel true = { c.write sel c.dcrdr with regrdy := true } := by
  simp [Core.wrDcrsr, hh]

theorem coreRegGet_keeps (h : Inv w.core w.ctrl) {id : Nat} (hid : id ≤ cm3Ctrl) :
    Keeps (coreRegGet w id) := by
  unfold coreRegGet
  split
  · exact keeps_some h
  · apply keeps_access_or_err h
    intro ev env _ _
    have hp := h.progress ev
    -- a completed transfer leaves the value of the register in the data register
    refine keeps_pollRegrdy (I := fun c => Inv c w.ctrl ∧ (c.regrdy = true →
      c.halted = true ∧ c.dcrdr = c.read (cm3DcrsrLut id))) ?_ ?_ ?_ env _ rfl ?_
    · rintro c ev' ⟨hc, hr⟩
      refine ⟨hc.progress ev', ?_⟩
      intro hr'
      unfold Core.progress at hr' ⊢
      split at hr' <;> rename_i hh
      · rw [if_pos hh]
        exact hr hr'
      · exact absurd (hr hr').1 hh
    · rintro c ⟨hc, -⟩
      exact hc
    · rintro v hv ⟨hc, hr⟩ hrdy
      obtain ⟨hh, hd⟩ := hr hrdy
      apply keeps_access
      · intro ev' env' _ _
        rw [progress_of_halted hh]
        exact keeps_jtagErr (hv ▸ hc) _
      · intro ev' env' _ _
        rw [progress_of_halted hh]
        apply keeps_some
        exact Inv.cache hid hh (hc.debug hh) hd fun id' hid' _ hcache =>
          (hv ▸ hc).coherent hh id' hid' hcache
    · refine ⟨?_, ?_⟩
      · obtain ⟨hhalt, hen⟩ := wrDcrsr_progress (w.core.progress ev) (cm3DcrsrLut id) false
        refine hp.congr ?_ hhalt hen
        simp only [Core.wrDcrsr]
        split
        · rfl
        · rfl
      · intro hr
        simp only [Core.wrDcrsr] at hr ⊢
        split at hr
        · next hh =>
            rw [if_pos hh]
            exact ⟨hh, rfl⟩
        · cases hr

/-- The first `n` accesses of a call are acknowledged. -/
def Sent (n : Nat) (env : List Event) : Prop := ∀ ev ∈ env.take n, ev.ack = .ok

instance (n : Nat) (env : List Event) : Decidable (Sent n env) :=
  inferInstanceAs (Decidable (∀ ev ∈ env.take n, ev.ack = .ok))

/-- Writing a register keeps the cache: a transfer that takes place goes to no register that
is cached under another name, and if the register is cached its completion is seen. -/
def SetOk (t : Target) (id : Nat) (data : BitVec 32) (env : List Event) : Prop :=
  t.core.halted = true → ¬(t.ctrl.cached id = true ∧ data = t.ctrl.reg id) → Sent 2 env →
    NoAlias t.core t.ctrl id data ∧ (t.ctrl.cached id = true → Sent 3 env)

instance (t : Target) (id : Nat) (data : BitVec 32) (env : List Event) :
    Decidable (SetOk t id data env) :=
  inferInstanceAs (Decidable (_ → _ → _ → _))

/-- The core while the code waits for a write that it sent to a running core: the transfer
was made only if the core had halted. -/
structure WriteAwaited (debugen : Bool) (id : Nat) (data : BitVec 32) (c : Core) : Prop where
  debugen_eq : c.debugen = debugen
  debug : c.halted = true → c.debugen = true
  ready : c.regrdy = true → c.halted = true ∧ c.read (cm3DcrsrLut id) = data

section WriteAwaited

variable {debugen : Bool} {id : Nat} {data : BitVec 32}

theorem WriteAwaited.progress (h : WriteAwaited debugen id data c) (ev : Event) :
    WriteAwaited debugen id data (c.progress ev) := by
  constructor
  · exact (progress_debugen c ev).trans h.debugen_eq
  · intro hh
    rw [progress_debugen]
    exact progress_halted_debugen h.debug hh
  · intro hr
    unfold Core.progress at hr ⊢
    split at hr <;> rename_i hh
    · rw [if_pos hh]
      exact h.ready hr
    · exact absurd (h.ready hr).1 hh

theorem WriteAwaited.inv (h : WriteAwaited debugen id data c)
    (hempty : debugen = true → ctl.cacheBmp = 0) : Inv c ctl := by
  cases hb : debugen with
  | true => exact Inv.of_empty (hempty hb) h.debug
  | false =>
      have hen : c.debugen = false := h.debugen_eq.trans hb
      have hrun : c.halted = false := by
        by_contra hh
        rw [Bool.not_eq_false] at hh
        rw [h.debug hh] at hen
        cases hen
      refine ⟨?_, h.debug, ?_⟩
      · intro hh
        rw [show c.halted = true from hh] at hrun
        cases hrun
      · intro _ he
        rw [hen] at he
        cases he

theorem WriteAwaited.of_wrDcrsr (hid : id ≤ cm3Ctrl) (hdata : c.dcrdr = data)
    (hen : c.debugen = debugen) (hd : c.halted = true → c.debugen = true) :
    WriteAwaited debugen id data (c.wrDcrsr (cm3DcrsrLut id) true) := by
  obtain ⟨hh', hen'⟩ := wrDcrsr_progress c (cm3DcrsrLut id) true
  refine ⟨hen'.trans hen, ?_, ?_⟩
  · intro hh
    rw [hen']
    exact hd (hh' ▸ hh)
  · intro hr
    cases hh : c.halted with
    | true =>
        rw [wrDcrsr_write hh, hdata]
        exact ⟨hh, read_write_self hid data⟩
    | false => simp [Core.wrDcrsr, hh] at hr

end WriteAwaited

/-- A write to a core that runs reaches it only if it halts, and then the cache is empty. -/
theorem coreRegSet_running (h : Inv w.core w.ctrl) (hrun : w.core.halted = false) {id : Nat}
    (hid : id ≤ cm3Ctrl) (data : BitVec 32) : Keeps (coreRegSet w id data) := by
  have hempty : w.core.debugen = true → w.ctrl.cacheBmp = 0 := h.running hrun
  unfold coreRegSet
  split
  · exact keeps_some h
  · apply keeps_access_or_err h
    intro ev env _ _
    have hp : Inv ((w.core.progress ev).wrDcrdr data) w.ctrl := (h.progress ev).congr rfl rfl rfl
    apply keeps_access_or_err hp
    intro ev' env' _ _
    refine keeps_pollRegrdy (I := WriteAwaited w.core.debugen id data)
      (fun c ev hc => hc.progress ev) (fun c hc => hc.inv hempty) ?_ env' _ rfl ?_
    · intro v hv hc hrdy
      obtain ⟨hh, hread⟩ := hc.ready hrdy
      apply keeps_some
      refine Inv.cache hid hh (hc.debug hh) hread.symm ?_
      intro id' _ _ hcached
      rw [hv, not_cached_zero (hempty (hc.debugen_eq ▸ hc.debug hh))] at hcached
      cases hcached
    · apply WriteAwaited.of_wrDcrsr hid
      · rw [progress_dcrdr]
        rfl
      · rw [progress_debugen]
        exact progress_debugen _ _
      · exact (hp.progress ev').debug

/-- A write to a halted core. -/
theorem coreRegSet_halted (h : Inv w.core w.ctrl) (hhalt : w.core.halted = true) {id : Nat}
    (hid : id ≤ cm3Ctrl) {data : BitVec 32} (hok : SetOk w.toTarget id data w.env) :
    Keeps (coreRegSet w id data) := by
  unfold coreRegSet
  split
  · exact keeps_some h
  · next hskip =>
      have hskip' : ¬(w.ctrl.cached id = true ∧ data = w.ctrl.reg id) := by
        simpa only [Bool.and_eq_true, beq_iff_eq] using hskip
      apply keeps_access_or_err h
      intro ev env henv hack
      have hp : Inv (w.core.wrDcrdr data) w.ctrl := h.congr rfl rfl rfl
      rw [progress_of_halted hhalt]
      apply keeps_access_or_err hp
      intro ev' env' henv' hack'
      have henv₂ : w.env = ev :: ev' :: env' := henv.trans (congrArg _ henv')
      obtain ⟨hna, hthird⟩ := hok hhalt hskip' (by
        rw [henv₂]
        simp [Sent, hack, hack'])
      have hh : (w.core.wrDcrdr data).halted = true := hhalt
      rw [progress_of_halted hh, wrDcrsr_write hh]
      -- the core after the transfer
      generalize hd : ({ (w.core.wrDcrdr data).write (cm3DcrsrLut id)
        (w.core.wrDcrdr data).dcrdr with regrdy := true } : Core) = d
      have hdh : d.halted = true := by
        rw [← hd]
        exact hhalt
      have hden : d.debugen = true := by
        rw [← hd]
        exact h.debug hhalt
      have hrdy : d.regrdy = true := by rw [← hd]
      have hself : d.read (cm3DcrsrLut id) = data := by
        rw [← hd]
        exact read_write_self hid data
      have hother : ∀ id' ≤ cm3Ctrl, id' ≠ id → w.ctrl.cached id' = true →
          w.ctrl.reg id' = d.read (cm3DcrsrLut id') := by
        intro id' hid' hne hc
        rw [← hd]
        exact (h.coherent hhalt id' hid' hc).trans
          (read_write_of_noAlias hid hid' hna hne hc).symm
      simp only
      cases env' with
      | nil => exact keeps_none
      | cons ev₃ env₃ =>
          unfold pollRegrdy
          simp only [progress_of_halted hdh]
          split
          · next hack₃ =>
              apply keeps_some
              refine ⟨?_, fun _ => hden, ?_⟩
              · intro _ id' hid' hc
                by_cases hne : id' = id
                · subst hne
                  have := hthird hc ev₃ (by rw [henv₂]; simp)
                  exact absurd this hack₃
                · exact hother id' hid' hne hc
              · intro hf
                rw [show d.halted = false from hf] at hdh
                cases hdh
          · apply keeps_some
            exact Inv.cache hid hdh hden hself.symm hother

theorem coreRegSet_keeps (h : Inv w.core w.ctrl) {id : Nat} (hid : id ≤ cm3Ctrl)
    {data : BitVec 32} (hok : SetOk w.toTarget id data w.env) : Keeps (coreRegSet w id data) := by
  cases hh : w.core.halted with
  | true => exact coreRegSet_halted h hh hid hok
  | false => exact coreRegSet_running h hh hid data

end Transfers

section RunControl

/-- A cache left behind while the core runs with debug disabled. -/
def Stale (t : Target) : Prop :=
  t.core.halted = false ∧ t.core.debugen = false ∧ t.ctrl.cacheBmp ≠ 0

instance (t : Target) : Decidable (Stale t) := inferInstanceAs (Decidable (_ ∧ _ ∧ _))

/-- With an empty cache only the halt state of the core counts. -/
theorem Inv.of_setBmp (h : w.core.halted = true → w.core.debugen = true) :
    Inv (w.setBmp 0).core (w.setBmp 0).ctrl := Inv.of_empty rfl h

/-- A core that runs with debug disabled says nothing about the cache. -/
theorem Inv.of_undebugged (hh : c.halted = false) (hen : c.debugen = false) : Inv c ctl where
  coherent hh' := by
    rw [show c.halted = true from hh'] at hh
    cases hh
  debug hh' := by
    rw [hh'] at hh
    cases hh
  running _ hen' := by
    rw [hen'] at hen
    cases hen

/-- Enabling debug: what is halted stays so, and what runs must have no cache. -/
theorem Inv.enable (h : Inv c ctl) (hstale : c.halted = false → ctl.cacheBmp = 0) :
    Inv (c.wrDhcsr true true) ctl := by
  cases hh : c.halted with
  | true => exact h.congr rfl (by simp [Core.wrDhcsr, hh]) (h.debug hh).symm
  | false => exact Inv.of_empty (hstale hh) fun _ => rfl

theorem cm3iceHalt_keeps (h : Inv w.core w.ctrl)
    (hok : Stale w.toTarget → ¬Sent 1 w.env) : Keeps (cm3iceHalt w) := by
  unfold cm3iceHalt wrDhcsr
  apply keeps_access_or_err h
  intro ev env henv hack
  apply keeps_some
  refine (h.progress ev).enable ?_
  intro hrun
  have hrun' : w.core.halted = false := by
    by_contra hh
    rw [Bool.not_eq_false] at hh
    rw [progress_of_halted hh, hh] at hrun
    cases hrun
  by_contra hne
  cases hen : w.core.debugen with
  | true => exact hne (h.running hrun' hen)
  | false =>
      apply hok ⟨hrun', hen, hne⟩
      rw [henv]
      simpa [Sent] using hack

theorem cm3iceRun_keeps (h : Inv w.core w.ctrl) : Keeps (cm3iceRun w) := by
  unfold cm3iceRun wrDhcsr
  apply keeps_access
  · intro ev env _ _
    exact keeps_jtagErr (Inv.of_empty rfl (h.progress ev).debug) _
  · intro ev env _ _
    apply keeps_some
    exact Inv.of_empty rfl fun _ => rfl

theorem cm3iceStep_keeps (h : Inv w.core w.ctrl) : Keeps (cm3iceStep w) := by
  unfold cm3iceStep wrDhcsr
  apply keeps_access
  · intro ev env _ _
    split
    · exact keeps_some (h.progress ev)
    · exact keeps_some (Inv.of_setBmp (h.progress ev).debug)
  · intro ev env _ _
    apply keeps_some
    exact Inv.of_empty rfl fun _ => rfl

theorem wrComparators_keeps (h : Inv w.core w.ctrl) {n : Nat} {k : Bool → World → Res}
    (hk : ∀ ok w', Inv w'.core w'.ctrl → Keeps (k ok w')) : Keeps (wrComparators w n k) := by
  induction n generalizing w with
  | zero => exact hk true w h
  | succ n ih => exact keeps_touch h (fun _ w' _ hw' => hk false w' hw') fun w' _ hw' => ih hw'

theorem fpbClear_keeps (h : Inv w.core w.ctrl) {k : World → Res}
    (hk : ∀ w', Inv w'.core w'.ctrl → Keeps (k w')) : Keeps (fpbClear w k) := by
  apply wrComparators_keeps h
  intro ok w' hw'
  split
  · exact wrComparators_keeps hw' fun _ w'' hw'' => hk w'' hw''
  · exact hk w' hw'

theorem releaseEnd_keeps (h : Inv w.core w.ctrl) : Keeps (releaseEnd w) := by
  apply keeps_touch h
  · intro ack w' _ hw'
    exact keeps_jtagErr hw' ack
  · intro w' _ hw'
    split
    · apply keeps_touch hw'
      · intro _ w'' _ hw''
        exact keeps_some hw''
      · intro w'' _ hw''
        exact keeps_some (Inv.of_setBmp hw''.debug)
    · exact keeps_some (Inv.of_setBmp hw'.debug)

theorem releaseDebug_keeps (h : Inv w.core w.ctrl) : Keeps (releaseDebug w) := by
  unfold releaseDebug wrDhcsr
  apply keeps_access
  · intro ev env _ _
    exact releaseEnd_keeps (h.progress ev)
  · intro ev env _ _
    apply releaseEnd_keeps
    exact Inv.of_undebugged (by simp [Core.wrDhcsr]) rfl

theorem cm3iceRelease_keeps (h : Inv w.core w.ctrl) : Keeps (cm3iceRelease w) := by
  apply fpbClear_keeps h
  intro w' hw'
  exact keeps_touch hw' (fun _ w'' _ hw'' => releaseDebug_keeps hw'') fun w'' _ hw'' =>
    releaseDebug_keeps hw''

theorem cm3iceConnect_keeps (h : Inv w.core w.ctrl)
    (hok : Stale w.toTarget → Sent 2 w.env → Sent 3 w.env) : Keeps (cm3iceConnect w) := by
  unfold cm3iceConnect
  apply keeps_access_or_err h
  intro ev env henv hack
  have hp := h.progress ev
  simp only
  generalize hc₁ : w.core.progress ev = c₁ at hp
  split
  · apply keeps_touch hp
    · intro ack w' _ hw'
      exact keeps_jtagErr hw' ack
    · intro w' _ hw'
      have hw'' : Inv (if c₁.halted then w' else w'.setBmp 0).core
          (if c₁.halted then w' else w'.setBmp 0).ctrl := by
        split
        · exact hw'
        · exact Inv.of_setBmp hw'.debug
      exact keeps_touch hw'' (fun ack v _ hv => keeps_jtagErr hv ack) fun v _ hv => keeps_some hv
  · next hen =>
      -- debug was disabled, so the core runs; once it is enabled the cache has to be empty
      rw [Bool.not_eq_true] at hen
      have hrun : c₁.halted = false := by
        by_contra hh
        rw [Bool.not_eq_false] at hh
        rw [hp.debug hh] at hen
        cases hen
      have hen₀ : w.core.debugen = false := by rw [← hen, ← hc₁, progress_debugen]
      have hrun₀ : w.core.halted = false := by
        by_contra hh
        rw [Bool.not_eq_false] at hh
        rw [h.debug hh] at hen₀
        cases hen₀
      apply keeps_access_or_err hp
      intro ev' env' henv' hack'
      have henv₂ : w.env = ev :: ev' :: env' := henv.trans (congrArg _ henv')
      simp only [hrun]
      apply keeps_access
      · intro ev₃ env₃ henv₃ hack₃
        have henv₃' : w.env = ev :: ev' :: ev₃ :: env₃ :=
          henv₂.trans (congrArg (fun l => ev :: ev' :: l) henv₃)
        apply keeps_jtagErr
        apply Inv.of_empty
        · by_contra hne
          have hsent := hok ⟨hrun₀, hen₀, hne⟩ (by
            rw [henv₂]
            simp [Sent, hack, hack'])
          exact hack₃ (hsent ev₃ (by rw [henv₃']; simp))
        · intro _
          simp only [progress_debugen]
          rfl
      · intro ev₃ env₃ _ _
        have hw₃ : ∀ v : World, v.core.debugen = true →
            Inv (v.setBmp 0).core (v.setBmp 0).ctrl := fun v hv => Inv.of_setBmp fun _ => hv
        refine keeps_touch (hw₃ _ ?_) (fun ack v _ hv => keeps_jtagErr hv ack) fun v _ hv =>
          keeps_some hv
        simp only [progress_debugen]
        rfl

end RunControl

section Resets

/-- A reset keeps an empty cache. -/
theorem Inv.reset (hbmp : ctl.cacheBmp = 0) (ev : Event) : Inv (c.reset ev) ctl :=
  Inv.of_empty hbmp fun hh => (Bool.and_eq_true_iff.mp hh).1

theorem haltLoop_keeps (env : List Event) (w : World) (hbmp : w.ctrl.cacheBmp = 0)
    (h : Inv w.core w.ctrl) : Keeps (haltLoop env w) := by
  induction hn : env.length using Nat.strong_induction_on generalizing env w with
  | _ n ih =>
      cases env with
      | nil => exact keeps_none
      | cons ev env =>
          unfold haltLoop
          simp only
          split
          · exact keeps_some (h.progress ev)
          · have hen := (h.progress ev).enable fun _ => hbmp
            cases env with
            | nil => exact keeps_none
            | cons ev' env' =>
                simp only
                have hp := hen.progress ev'
                have hlt : env'.length < n := by
                  rw [← hn, List.length_cons, List.length_cons]
                  omega
                split
                · exact keeps_some hp
                · split
                  · exact keeps_some hp
                  · exact ih env'.length hlt env' _ hbmp hp rfl

theorem cm3iceSystemReset_keeps (h : Inv w.core w.ctrl)
    (hok : w.core.halted = true → w.ctrl.cacheBmp ≠ 0 → ¬Sent 2 w.env) :
    Keeps (cm3iceSystemReset w) := by
  unfold cm3iceSystemReset
  apply keeps_access_or_err h
  intro ev env henv hack
  have hp := h.progress ev
  apply keeps_access_or_err hp
  intro ev' env' henv' hack'
  have henv₂ : w.env = ev :: ev' :: env' := henv.trans (congrArg _ henv')
  by_cases hbmp : w.ctrl.cacheBmp = 0
  · have hr : Inv (((w.core.progress ev).progress ev').reset ev') w.ctrl := Inv.reset hbmp ev'
    simp only
    split
    · exact haltLoop_keeps env' _ hbmp hr
    · exact keeps_some hr
  · cases hh : w.core.halted with
    | true =>
        refine absurd ?_ (hok hh hbmp)
        rw [henv₂]
        simp [Sent, hack, hack']
    | false =>
        cases hen : w.core.debugen with
        | true => exact absurd (h.running hh hen) hbmp
        | false =>
            have hrun : (w.core.progress ev).halted = false := by
              simp [Core.progress, hh, hen]
            simp only [hrun]
            apply keeps_some
            apply Inv.of_undebugged
            · simp [Core.reset, hen]
            · simp [Core.reset, hen]

/-- With an empty cache `cm3ice_core_reset` has nothing to lose. -/
theorem cm3iceCoreReset_empty (h : Inv w.core w.ctrl) (hbmp : w.ctrl.cacheBmp = 0) :
    Keeps (cm3iceCoreReset w) := by
  have hready : ∀ w : World, w.ctrl.cacheBmp = 0 → Inv w.core w.ctrl →
      Keeps (access (fun c ev => c.reset ev) w jtagErr fun w => some (iceOk, w)) := by
    intro w hb hw
    apply keeps_access_or_err hw
    intro ev env _ _
    exact keeps_some (Inv.reset hb ev)
  have hcaught : ∀ (w : World) (cDebugen : Bool), w.ctrl.cacheBmp = 0 → Inv w.core w.ctrl →
      Keeps (if cDebugen then access (fun c ev => c.reset ev) w jtagErr fun w => some (iceOk, w)
        else wrDhcsr true true w jtagErr fun w =>
          access (fun c ev => c.reset ev) w jtagErr fun w => some (iceOk, w)) := by
    intro w cDebugen hb hw
    split
    · exact hready w hb hw
    · apply keeps_access_or_err hw
      intro ev env _ _
      exact hready _ hb ((hw.progress ev).enable fun _ => hb)
  unfold cm3iceCoreReset
  apply keeps_touch h
  · intro ack w' _ hw'
    exact keeps_jtagErr hw' ack
  · intro w₁ hctl₁ hw₁
    apply keeps_touch hw₁
    · intro ack w' _ hw'
      exact keeps_jtagErr hw' ack
    · intro w₂ hctl₂ hw₂
      have hb₂ : w₂.ctrl.cacheBmp = 0 := by rw [hctl₂, hctl₁, hbmp]
      split
      · next hh =>
          simp only [hh]
          split
          · exact hcaught w₂ w₁.core.debugen hb₂ hw₂
          · apply keeps_access_or_err hw₂
            intro ev env _ _
            exact hcaught _ w₁.core.debugen hb₂ ((hw₂.progress ev).congr rfl rfl rfl)
      · apply keeps_access_or_err hw₂
        intro ev env _ _
        have hen := (hw₂.progress ev).enable fun _ => hb₂
        simp only
        split
        · apply keeps_access_or_err hen
          intro ev' env' _ _
          exact hready _ hb₂ ((hen.progress ev').congr rfl rfl rfl)
        · exact hready _ hb₂ hen

/-- The core leaves debug state only by the reset itself, before which the code sends three
or four accesses. -/
theorem cm3iceCoreReset_halted (h : Inv w.core w.ctrl) (hh : w.core.halted = true)
    (hnot : ¬Sent (if w.core.vcCorereset then 3 else 4) w.env) : Keeps (cm3iceCoreReset w) := by
  have hen := h.debug hh
  unfold cm3iceCoreReset
  apply keeps_access_or_err h
  intro ev₁ env₁ henv₁ hack₁
  rw [progress_of_halted hh]
  apply keeps_access_or_err (w := { w with env := env₁ }) h
  intro ev₂ env₂ henv₂ hack₂
  rw [progress_of_halted hh]
  simp only [hh, hen, if_true]
  split
  · next hvc =>
      apply keeps_access_or_err (w := { w with env := env₂ }) h
      intro ev₃ env₃ henv₃ hack₃
      refine absurd ?_ hnot
      rw [if_pos hvc, henv₁, show env₁ = _ from henv₂, show env₂ = _ from henv₃]
      simp [Sent, hack₁, hack₂, hack₃]
  · next hvc =>
      apply keeps_access_or_err (w := { w with env := env₂ }) h
      intro ev₃ env₃ henv₃ hack₃
      rw [progress_of_halted hh]
      have hw' : Inv (w.core.wrDemcr true) w.ctrl := h.congr rfl rfl rfl
      apply keeps_access_or_err (w := { w with core := w.core.wrDemcr true, env := env₃ }) hw'
      intro ev₄ env₄ henv₄ hack₄
      refine absurd ?_ hnot
      rw [if_neg hvc, henv₁, show env₁ = _ from henv₂, show env₂ = _ from henv₃,
        show env₃ = _ from henv₄]
      simp [Sent, hack₁, hack₂, hack₃, hack₄]

/-- A running core without debug enabled is halted by the third access. -/
theorem cm3iceCoreReset_stale (h : Inv w.core w.ctrl) (hh : w.core.halted = false)
    (hen : w.core.debugen = false) (hnot : ¬Sent 3 w.env) : Keeps (cm3iceCoreReset w) := by
  have hrun : ∀ ev, (w.core.progress ev).halted = false := by
    intro ev
    simp [Core.progress, hh, hen]
  unfold cm3iceCoreReset
  apply keeps_access_or_err h
  intro ev₁ env₁ henv₁ hack₁
  apply keeps_access_or_err (w := { w with core := w.core.progress ev₁, env := env₁ })
    (h.progress ev₁)
  intro ev₂ env₂ henv₂ hack₂
  simp only [hrun, Bool.false_eq_true, if_false]
  apply keeps_access_or_err
    (w := { w with core := (w.core.progress ev₁).progress ev₂, env := env₂ })
    ((h.progress ev₁).progress ev₂)
  intro ev₃ env₃ henv₃ hack₃
  refine absurd ?_ hnot
  rw [henv₁, show env₁ = _ from henv₂, show env₂ = _ from henv₃]
  simp [Sent, hack₁, hack₂, hack₃]

/-- Otherwise it must not get to the reset of a halted core, nor to the halt request to
one that runs with debug disabled. -/
theorem cm3iceCoreReset_keeps (h : Inv w.core w.ctrl)
    (hstale : Stale w.toTarget → ¬Sent 3 w.env)
    (hhalted : w.core.halted = true → w.ctrl.cacheBmp ≠ 0 →
      ¬Sent (if w.core.vcCorereset then 3 else 4) w.env) :
    Keeps (cm3iceCoreReset w) := by
  by_cases hbmp : w.ctrl.cacheBmp = 0
  · exact cm3iceCoreReset_empty h hbmp
  · cases hh : w.core.halted with
    | true => exact cm3iceCoreReset_halted h hh (hhalted hh hbmp)
    | false =>
        have hen : w.core.debugen = false := by
          by_contra hen
          rw [Bool.not_eq_false] at hen
          exact hbmp (h.running hh hen)
        exact cm3iceCoreReset_stale h hh hen (hstale ⟨hh, hen, hbmp⟩)

end Resets

/-- The calls whose missing invalidation does no harm. -/
def Careful (t : Target) : Action → Prop
  | .call .connect env => Stale t → Sent 2 env → Sent 3 env
  | .call .halt env => Stale t → ¬Sent 1 env
  | .call .coreReset env =>
    (Stale t → ¬Sent 3 env) ∧ (t.core.halted = true → t.ctrl.cacheBmp ≠ 0 →
      ¬Sent (if t.core.vcCorereset then 3 else 4) env)
  | .call .systemReset env =>
    t.core.halted = true → t.ctrl.cacheBmp ≠ 0 → ¬Sent 2 env
  | .call (.goto addr) env => SetOk t cm3Pc addr env
  | .call (.ifaSet val) env => SetOk t cm3Pc val env
  | .call (.regSet reg val) env => reg ≤ cm3Ctrl → SetOk t reg val env
  | .call .release _ | .call .run _ | .call .step _ | .call (.regGet _) _ | .idle _ => True

instance (t : Target) : (a : Action) → Decidable (Careful t a)
  | .call .connect env => inferInstanceAs (Decidable (_ → Sent 2 env → Sent 3 env))
  | .call .halt env => inferInstanceAs (Decidable (_ → ¬Sent 1 env))
  | .call .coreReset _ => inferInstanceAs (Decidable (_ ∧ _))
  | .call .systemReset env => inferInstanceAs (Decidable (_ → _ → ¬Sent 2 env))
  | .call (.goto addr) env => inferInstanceAs (Decidable (SetOk t cm3Pc addr env))
  | .call (.ifaSet val) env => inferInstanceAs (Decidable (SetOk t cm3Pc val env))
  | .call (.regSet reg val) env => inferInstanceAs (Decidable (_ → SetOk t reg val env))
  | .call .release _ | .call .run _ | .call .step _ | .call (.regGet _) _ | .idle _ =>
    isTrue trivial

theorem Inv.call {op : Op} (h : Inv w.core w.ctrl) (hok : Careful w.toTarget (.call op w.env)) :
    Keeps (w.call op) := by
  cases op with
  | connect => exact cm3iceConnect_keeps h hok
  | release => exact cm3iceRelease_keeps h
  | halt => exact cm3iceHalt_keeps h hok
  | run => exact cm3iceRun_keeps h
  | step => exact cm3iceStep_keeps h
  | goto addr => exact coreRegSet_keeps h (by decide) hok
  | regGet reg =>
      simp only [World.call, cm3iceRegGet]
      split
      · exact keeps_some h
      · next hreg => exact coreRegGet_keeps h (Nat.le_of_not_lt hreg)
  | regSet reg val =>
      simp only [World.call, cm3iceRegSet]
      split
      · exact keeps_some h
      · next hreg => exact coreRegSet_keeps h (Nat.le_of_not_lt hreg) (hok (Nat.le_of_not_lt hreg))
  | ifaSet val => exact coreRegSet_keeps h (by decide) hok
  | coreReset => exact cm3iceCoreReset_keeps h hok.1 hok.2
  | systemReset => exact cm3iceSystemReset_keeps h hok

theorem Inv.step (h : Inv t.core t.ctrl) {a : Action} (hok : Careful t a)
    (hs : t.step a = some t') : Inv t'.core t'.ctrl := by
  cases a with
  | call op env =>
      obtain ⟨⟨n, w⟩, hcall, rfl⟩ := Option.map_eq_some_iff.mp hs
      have hw : Keeps (World.call { t with env := env } op) := Inv.call h hok
      exact hw n w hcall
  | idle ev =>
      obtain rfl := Option.some.inj hs
      exact h.progress ev

/-- In every state of a careful run that starts with an empty cache the cache is
coherent. -/
theorem registerCache_coherent (t₀ : Target) (hbmp : t₀.ctrl.cacheBmp = 0)
    (hdebug : t₀.core.halted = true → t₀.core.debugen = true) (as : List Action)
    (hok : Along Target.step Careful t₀ as) (hrun : exec Target.step t₀ as = some t) :
    Coherent t := by
  have hinv : Inv t.core t.ctrl :=
    exec_invariant (I := fun t => Inv t.core t.ctrl) (fun _ _ _ hs hc hst => Inv.step hs hc hst)
      (Inv.of_empty hbmp hdebug) hok hrun
  exact hinv.coherent

/-- A halted target whose registers hold their numbers, with an empty cache. -/
def sampleTarget : Target where
  core :=
    { bank := fun i => i, halted := true, debugen := true, vcCorereset := false, dcrdr := 0
      regrdy := false }
  ctrl := { reg := fun _ => 0, cacheBmp := 0, commAddr := 0, codeMax := 2, litMax := 1 }

/-- An acknowledged access; a core that was running or was reset has zeros in its
registers and is halted. -/
def halting : Event := ⟨.ok, fun _ => 0, true⟩

theorem registerCache_coherent_run :
    ∃ t, exec Target.step sampleTarget
        [.call .connect [halting, halting, halting], .call (.regGet 13) [halting, halting, halting],
          .call (.regSet 0 7) [halting, halting, halting], .call (.goto 0x100) [halting, halting, halting],
          .call .step [halting], .idle halting, .call (.regGet 15) [halting, halting, halting]] =
        some t ∧ t.core.halted = true ∧ t.ctrl.cached 15 = true ∧ Coherent t := by
  refine ⟨_, rfl, by decide, by decide, ?_⟩
  exact registerCache_coherent sampleTarget rfl (fun _ => rfl)
    [.call .connect [halting, halting, halting], .call (.regGet 13) [halting, halting, halting],
      .call (.regSet 0 7) [halting, halting, halting], .call (.goto 0x100) [halting, halting, halting],
      .call .step [halting], .idle halting, .call (.regGet 15) [halting, halting, halting]]
    (by decide) rfl

/-- Setting the stack pointer leaves the cached main stack pointer as it was, and both
resets of a halted core leave the whole cache. -/
theorem registerCache_not_coherent :
    (∃ t, exec Target.step sampleTarget
      [.call (.regGet 17) [halting, halting, halting],
        .call (.regSet 13 0x200) [halting, halting, halting]] = some t ∧ ¬Coherent t) ∧
    (∃ t, exec Target.step sampleTarget
      [.call (.regGet 15) [halting, halting, halting],
        .call .coreReset [halting, halting, halting, halting]] = some t ∧ ¬Coherent t) ∧
    (∃ t, exec Target.step sampleTarget
      [.call (.regGet 15) [halting, halting, halting],
        .call .systemReset [halting, halting, halting, halting]] = some t ∧ ¬Coherent t) := by
  refine ⟨⟨_, rfl, ?_⟩, ⟨_, rfl, ?_⟩, ⟨_, rfl, ?_⟩⟩
  · intro h
    have hmsp := h (by decide) cm3Msp (by decide) (by decide)
    exact absurd hmsp (by decide)
  · intro h
    have hpc := h (by decide) cm3Pc (by decide) (by decide)
    exact absurd hpc (by decide)
  · intro h
    have hpc := h (by decide) cm3Pc (by decide) (by decide)
    exact absurd hpc (by decide)

end YardIce.Cm3ice
