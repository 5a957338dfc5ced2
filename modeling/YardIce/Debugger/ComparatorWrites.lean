import YardIce.Debugger.BreakpointBook
import YardIce.Lib.Runs

/-!
# Comparators whose writes may fail

`fpb_code_comp_set` writes the comparator and then marks it as taken; `fpb_code_comp_clr` marks
it as free and then writes it. Where the write fails, the first has changed nothing, and the
second leaves an enabled comparator behind that counts as free.

## Implementation notes

A write of a register has its effect or fails without one; whether it does is an argument of
the call. With writes that succeed the functions are those of `Breakpoints`.
-/

namespace YardIce.Breakpoints.Faulty

open Lib

/-- `ICE_OK`. -/
def iceOk : Int := 0

/-- `ICE_ERR_UNDEF`. -/
def iceErrUndef : Int := -101

/-- `ICE_ERR_ARG`. -/
def iceErrArg : Int := -102

/-- `ICE_ERR_JTAG`. -/
def iceErrJtag : Int := -108

/-- `fpb_code_comp_set`; `ok` is whether the write of the comparator succeeds. -/
def fpbCodeCompSet (f : Fpb) (comp : BitVec 32) (ok : Bool) : Int × Fpb :=
  let id : Int := (ffs (~~~f.codeBmp) : Int) - 1
  if id < 0 ∨ id ≥ f.codeMax then (iceErrUndef, f)
  else if !ok then (iceErrJtag, f)
  else
    let f := { f with comp := Function.update f.comp id.toNat comp }
    (id, { f with codeBmp := f.codeBmp ||| (1#32 <<< id.toNat) })

/-- `fpb_code_comp_clr`; `ok` is whether the write of the comparator succeeds. A shift by a
negative count leaves no bit. -/
def fpbCodeCompClr (f : Fpb) (id : Int) (ok : Bool) : Int × Fpb :=
  if id ≥ f.codeMax then (iceErrArg, f)
  else
    match id with
    | .negSucc _ => (iceOk, f)
    | .ofNat i =>
      if f.codeBmp &&& (1#32 <<< i) = 0 then (iceOk, f)
      else
        let f := { f with codeBmp := f.codeBmp &&& ~~~(1#32 <<< i) }
        if !ok then (iceErrJtag, f)
        else (iceOk, { f with comp := Function.update f.comp i 0 })

/-- The calls on the comparators. -/
inductive Call
  | set (comp : BitVec 32) (ok : Bool)
  | clr (id : Int) (ok : Bool)

/-- One call, with its result. -/
def call (f : Fpb) : Call → Int × Fpb
  | .set comp ok => fpbCodeCompSet f comp ok
  | .clr id ok => fpbCodeCompClr f id ok

/-- The unit after one call. -/
def step (f : Fpb) (c : Call) : Option Fpb := some (call f c).2

/-- The bits of the bitmap are those of the comparators that hold a value. -/
structure Matched (f : Fpb) : Prop where
  enabled : ∀ i < f.codeMax, f.codeBmp.getLsbD i = true ↔ f.comp i ≠ 0
  below : ∀ i, f.codeBmp.getLsbD i = true → i < f.codeMax

/-- A call leaves bitmap and comparators matched, and one that fails leaves them unchanged. -/
def Sound (f : Fpb) (c : Call) : Prop :=
  Matched (call f c).2 ∧ ((call f c).1 < 0 → (call f c).2 = f)

/-- No free comparator is taken for the value zero, and the write succeeds where a comparator
in use is cleared. -/
def Careful (f : Fpb) : Call → Prop
  | .set comp ok =>
    ok = true → ∀ n, n < 32 → n < f.codeMax → f.codeBmp.getLsbD n = false → comp ≠ 0
  | .clr id ok => ∀ n : Nat, id = n → f.codeBmp.getLsbD n = true → ok = true

variable {f : Fpb}

theorem fpbClear_matched (f : Fpb) : Matched (fpbClear f) where
  enabled i hi := by
    have hcomp : (fpbClear f).comp i = 0 := if_pos hi
    have hbmp : (fpbClear f).codeBmp.getLsbD i = false := BitVec.getLsbD_zero
    rw [hcomp, hbmp]
    simp
  below i hi := by simp [fpbClear] at hi

/-- The allocation, in terms of the one whose write succeeds. -/
theorem fpbCodeCompSet_eq (f : Fpb) (comp : BitVec 32) (ok : Bool) :
    fpbCodeCompSet f comp ok =
      match Breakpoints.fpbCodeCompSet f comp with
      | none => (iceErrUndef, f)
      | some (n, f') => if ok then ((n : Int), f') else (iceErrJtag, f) := by
  simp only [fpbCodeCompSet, Breakpoints.fpbCodeCompSet]
  by_cases hid : (ffs (~~~f.codeBmp) : Int) - 1 < 0 ∨ (ffs (~~~f.codeBmp) : Int) - 1 ≥ f.codeMax
  · simp only [if_pos hid]
  · have hnat : ((((ffs (~~~f.codeBmp) : Int) - 1).toNat : Nat) : Int) =
        (ffs (~~~f.codeBmp) : Int) - 1 := by omega
    simp only [if_neg hid]
    cases ok with
    | false => rfl
    | true => exact Prod.ext hnat.symm rfl

theorem take_matched (hm : Matched f) {n : Nat} {v : BitVec 32} (hn : n < 32) (hmax : n < f.codeMax) :
    Matched (f.take n v) ↔ v ≠ 0 := by
  have hbit : ∀ i, (f.take n v).codeBmp.getLsbD i = true ↔ i = n ∨ f.codeBmp.getLsbD i = true :=
    getLsbD_set f.codeBmp hn
  have hself : (f.take n v).comp n = v := by simp [Fpb.take]
  have hother : ∀ i, i ≠ n → (f.take n v).comp i = f.comp i := by
    intro i hi
    simp [Fpb.take, Function.update_of_ne hi]
  constructor
  · intro h
    rw [← hself]
    exact (h.enabled n hmax).mp ((hbit n).mpr (Or.inl rfl))
  · intro hv
    refine ⟨fun i hi => ?_, fun i hi => ?_⟩
    · rw [hbit i]
      by_cases hin : i = n
      · subst hin
        rw [hself]
        exact ⟨fun _ => hv, fun _ => Or.inl rfl⟩
      · rw [hother i hin, ← hm.enabled i hi]
        simp [hin]
    · rcases (hbit i).mp hi with rfl | hi
      · exact hmax
      · exact hm.below i hi

theorem release_matched (hm : Matched f) {n : Nat} (hn : n < 32) : Matched (f.release n) := by
  have hbit : ∀ i, (f.release n).codeBmp.getLsbD i = true ↔ f.codeBmp.getLsbD i = true ∧ i ≠ n :=
    getLsbD_clr f.codeBmp hn
  refine ⟨fun i hi => ?_, fun i hi => hm.below i ((hbit i).mp hi).1⟩
  rw [hbit i]
  by_cases hin : i = n
  · subst hin
    simp [Fpb.release]
  · have hother : (f.release n).comp i = f.comp i := by
      simp [Fpb.release, Function.update_of_ne hin]
    rw [hother, ← hm.enabled i hi]
    simp [hin]

theorem sound_set_iff (hm : Matched f) (comp : BitVec 32) (ok : Bool) :
    Sound f (.set comp ok) ↔ Careful f (.set comp ok) := by
  have hcall := fpbCodeCompSet_eq f comp ok
  simp only [Sound, Careful, call]
  cases hset : Breakpoints.fpbCodeCompSet f comp with
  | none =>
      rw [hset] at hcall
      rw [hcall]
      constructor
      · intro _ _ n hn hmax hbit
        have hsome := fpbCodeCompSet_isSome hn hmax hbit comp
        rw [hset] at hsome
        cases hsome
      · exact fun _ => ⟨hm, fun _ => rfl⟩
  | some r =>
      obtain ⟨n, f'⟩ := r
      obtain ⟨hn, hmax, hbit, rfl⟩ := fpbCodeCompSet_eq_some hset
      rw [hset] at hcall
      rw [hcall]
      cases ok with
      | false => exact ⟨fun _ hok => absurd hok Bool.false_ne_true, fun _ => ⟨hm, fun _ => rfl⟩⟩
      | true =>
          have htake : Matched (f.take n comp) ↔ comp ≠ 0 := take_matched hm hn hmax
          constructor
          · intro hsound _ _ _ _ _
            exact htake.mp hsound.1
          · intro hcareful
            refine ⟨htake.mpr (hcareful rfl n hn hmax hbit), fun hneg => ?_⟩
            exact absurd hneg (Int.not_lt.mpr (Int.natCast_nonneg n))

/-- The test of an allocation flag. -/
theorem flag_eq_zero_iff (x : BitVec 32) (i : Nat) :
    x &&& (1#32 <<< i) = 0 ↔ x.getLsbD i = false := by
  by_cases hi : i < 32
  · constructor
    · intro h
      have hbit := congrArg (fun y => y.getLsbD i) h
      simpa [getLsbD_bit hi] using hbit
    · intro h
      ext j hj
      by_cases hji : j = i
      · subst hji
        simp [h, ← BitVec.getLsbD_eq_getElem hj]
      · have hone := getLsbD_bit hi j
        simp [← BitVec.getLsbD_eq_getElem hj, hone, hji]
  · have hzero : 1#32 <<< i = 0#32 := BitVec.shiftLeft_eq_zero (Nat.le_of_not_lt hi)
    have hout : x.getLsbD i = false := BitVec.getLsbD_of_ge x i (by omega)
    simp [hzero, hout]

theorem sound_clr_iff (hm : Matched f) (id : Int) (ok : Bool) :
    Sound f (.clr id ok) ↔ Careful f (.clr id ok) := by
  -- a call that finds nothing to do is sound, and there is no comparator in use to clear
  have hidle : ∀ r, fpbCodeCompClr f id ok = (r, f) →
      (∀ n : Nat, id = n → f.codeBmp.getLsbD n = false) →
      (Sound f (.clr id ok) ↔ Careful f (.clr id ok)) := by
    intro r hr hfree
    simp only [Sound, Careful, call]
    rw [hr]
    refine ⟨fun _ n hn hbit => ?_, fun _ => ⟨hm, fun _ => rfl⟩⟩
    rw [hfree n hn] at hbit
    cases hbit
  by_cases hid : id ≥ f.codeMax
  · apply hidle iceErrArg (by simp only [fpbCodeCompClr, if_pos hid])
    rintro n rfl
    by_contra hbit
    have hlt := hm.below n (by simpa using hbit)
    omega
  · cases id with
    | negSucc k =>
        apply hidle iceOk (by simp only [fpbCodeCompClr, if_neg hid])
        intro n hn
        cases hn
    | ofNat i =>
        by_cases hflag : f.codeBmp &&& (1#32 <<< i) = 0
        · apply hidle iceOk (by simp only [fpbCodeCompClr, if_neg hid, if_pos hflag])
          intro n hn
          obtain rfl : i = n := Int.ofNat.inj hn
          exact (flag_eq_zero_iff _ _).mp hflag
        · have hbit : f.codeBmp.getLsbD i = true := by
            rw [← Bool.not_eq_false, ← flag_eq_zero_iff]
            exact hflag
          have hi : i < 32 := BitVec.lt_of_getLsbD hbit
          cases ok with
          | true =>
              have hcall : fpbCodeCompClr f (.ofNat i) true = (iceOk, f.release i) := by
                simp only [fpbCodeCompClr, if_neg hid, if_neg hflag]
                rfl
              simp only [Sound, Careful, call, hcall]
              refine ⟨fun _ _ _ _ => trivial, fun _ => ⟨release_matched hm hi, fun hneg => ?_⟩⟩
              exact absurd hneg (by decide)
          | false =>
              have hcall : fpbCodeCompClr f (.ofNat i) false =
                  (iceErrJtag, { f with codeBmp := f.codeBmp &&& ~~~(1#32 <<< i) }) := by
                simp only [fpbCodeCompClr, if_neg hid, if_neg hflag]
                rfl
              simp only [Sound, Careful, call, hcall]
              constructor
              · rintro ⟨-, hsame⟩
                -- the flag has been cleared before the write failed
                have hbmp := congrArg (fun g : Fpb => g.codeBmp.getLsbD i) (hsame (by decide))
                have hclr := (getLsbD_clr f.codeBmp hi i).mp (hbmp.trans hbit)
                exact absurd rfl hclr.2
              · intro hcareful
                exact absurd (hcareful i rfl hbit) Bool.false_ne_true

theorem sound_iff (hm : Matched f) (c : Call) : Sound f c ↔ Careful f c := by
  cases c with
  | set comp ok => exact sound_set_iff hm comp ok
  | clr id ok => exact sound_clr_iff hm id ok

/-- From matched bitmap and comparators, every call of a run keeps them matched and fails only
without effect, exactly if no comparator is taken for the value zero and no write fails that
clears a comparator in use. -/
theorem comparators_sound_iff (hm : Matched f) (cs : List Call) :
    Along step Sound f cs ↔ Along step Careful f cs := by
  apply along_congr (I := Matched) (fun s c hs => sound_iff hs c)
  · intro s c t _ hsound hstep
    rw [← Option.some.inj hstep]
    exact hsound.1
  · exact hm

/-- A unit of two comparators after `fpb_clear`. -/
def clearedUnit : Fpb := fpbClear { codeMax := 2, codeBmp := 0, comp := fun _ => 0 }

/-- Two breakpoints are set, a third one finds no comparator, the write of a fourth fails after
the first comparator was cleared. -/
theorem comparators_sound_run :
    Along step Sound clearedUnit
      [.set 0x40000101 true, .set 0x80000205 true, .set 0x40000301 true, .clr 0 true,
        .set 0x40000401 false] := by
  refine (comparators_sound_iff (fpbClear_matched _) _).mpr ?_
  refine ⟨fun _ _ _ _ _ => by decide, fun t₁ h₁ => ⟨fun _ _ _ _ _ => by decide, fun t₂ h₂ =>
    ⟨fun _ _ _ _ _ => by decide, fun t₃ h₃ => ⟨fun _ _ _ => rfl, fun t₄ h₄ => ⟨?_, ?_⟩⟩⟩⟩⟩
  · intro h
    cases h
  · intro t₅ h₅
    trivial

/-- The write that clears the first comparator fails: the call returns an error, the bitmap says
that the comparator is free, and it still holds the enabled value. -/
theorem comparator_left_enabled :
    let f := (call clearedUnit (.set 0x40000101 true)).2
    let r := call f (.clr 0 false)
    r.1 = iceErrJtag ∧ f.codeBmp = 1 ∧ r.2.codeBmp = 0 ∧ r.2.comp 0 = 0x40000101 ∧
      ¬Along step Sound clearedUnit [.set 0x40000101 true, .clr 0 false] := by
  have hrun : (call (call clearedUnit (.set 0x40000101 true)).2 (.clr 0 false)).1 = iceErrJtag ∧
      (call clearedUnit (.set 0x40000101 true)).2.codeBmp = 1 ∧
      (call (call clearedUnit (.set 0x40000101 true)).2 (.clr 0 false)).2.codeBmp = 0 ∧
      (call (call clearedUnit (.set 0x40000101 true)).2 (.clr 0 false)).2.comp 0 = 0x40000101 := by
    decide
  obtain ⟨herr, hset, hclr, hcomp⟩ := hrun
  refine ⟨herr, hset, hclr, hcomp, fun hsound => ?_⟩
  obtain ⟨-, hsame⟩ := (hsound.2 _ rfl).1
  have hbmp := congrArg Fpb.codeBmp (hsame (by rw [herr]; decide))
  rw [hset, hclr] at hbmp
  exact absurd hbmp (by decide)

end YardIce.Breakpoints.Faulty
