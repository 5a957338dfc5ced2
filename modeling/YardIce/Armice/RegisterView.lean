import Mathlib.Logic.Function.Basic
import YardIce.Lib.Bits
import YardIce.Lib.Runs

/-!
# The register view

The saved context keeps the program counter as the core shows it: ahead of the instruction by 8, or
by 4 in the Thumb state. The state is the T bit of the saved `cpsr`, and `ARMICE_THUMB` is a second
copy of it.

## Implementation notes

The core is halted, polling is stopped and the context is saved, so that `core_state_save` does
nothing. The registers are one array, as the methods use them.
-/

namespace YardIce.Armice

open Lib

/-- `struct armice_context` and the flag `ARMICE_THUMB`. -/
structure Context where
  r : Nat → BitVec 32
  thumb : Bool

/-- `ARM_PC` -/
def armPc : Nat := 15

/-- `ARM_CPSR` -/
def armCpsr : Nat := 16

/-- `ARM_SPSR` -/
def armSpsr : Nat := 17

/-- `ARM_STATE_THUMB` -/
def armStateThumb : BitVec 32 := 1#32 <<< 5

/-- A write to the context. -/
def Context.put (ct : Context) (reg : Nat) (val : BitVec 32) : Context :=
  { ct with r := Function.update ct.r reg val }

theorem Context.put_self (ct : Context) (reg : Nat) (val : BitVec 32) :
    (ct.put reg val).r reg = val := by
  show Function.update ct.r reg val reg = val
  exact Function.update_self ..

theorem Context.put_of_ne (ct : Context) {reg x : Nat} (h : x ≠ reg) (val : BitVec 32) :
    (ct.put reg val).r x = ct.r x := by
  show Function.update ct.r reg val x = ct.r x
  exact Function.update_of_ne h ..

/-- `ct->cpsr & ARM_STATE_THUMB` -/
def Context.inThumb (ct : Context) : Bool := (ct.r armCpsr).getLsbD 5

/-! ## The methods -/

/-- An address without the bits that its state does not use. -/
def aligned (thumb : Bool) (val : BitVec 32) : BitVec 32 :=
  if thumb then val &&& 0xfffffffe else val &&& 0xfffffffc

/-- How far the program counter is ahead. -/
def ahead (thumb : Bool) : BitVec 32 := if thumb then 4 else 8

/-- `armice_ifa_get` -/
def armiceIfaGet (ct : Context) : BitVec 32 := ct.r armPc - ahead ct.inThumb

/-- `armice_reg_get`: what it stores in `val`, if it does. -/
def armiceRegGet (ct : Context) (reg : Nat) : Option (BitVec 32) :=
  if armSpsr < reg then none
  else if reg = armPc then some (ct.r armPc - ahead ct.inThumb)
  else if reg = armSpsr then none
  else some (ct.r reg)

/-- `armice_reg_set` -/
def armiceRegSet (ct : Context) (reg : Nat) (val : BitVec 32) : Context :=
  if armSpsr < reg then ct
  else if reg = armPc then ct.put armPc (aligned ct.inThumb val)
  else if reg = armSpsr then ct
  else ct.put reg val

/-- `armice_ifa_set` -/
def armiceIfaSet (ct : Context) (val : BitVec 32) : Context :=
  ct.put armPc (val + ahead ct.inThumb)

/-- `armice_goto` -/
def armiceGoto (ct : Context) (addr : BitVec 32) : Context :=
  if addr.getLsbD 0 = true ∨ ct.inThumb = true then
    (ct.put armPc ((addr &&& 0xfffffffe) + 4)).put armCpsr (ct.r armCpsr ||| armStateThumb)
  else ct.put armPc ((addr &&& 0xfffffffc) + 8)

/-- `armice_thumb_mode` -/
def armiceThumbMode (ct : Context) (thumb : Bool) : Context :=
  if thumb then
    if ct.inThumb then ct
    else { (ct.put armCpsr (ct.r armCpsr ||| armStateThumb)).put armPc (ct.r armPc - 4) with
      thumb := true }
  else
    if ct.inThumb then { (ct.put armCpsr (ct.r armCpsr &&& ~~~armStateThumb)).put armPc
      (ct.r armPc + 4) with thumb := false }
    else ct

/-- `armice_core_reset` -/
def armiceCoreReset (ct : Context) : Context :=
  { ct with r := fun reg => if reg ≤ armPc then 0 else if reg = armCpsr then 0xd3 else ct.r reg }

/-- The routine that `core_state_restore` selects: the one of the Thumb state or the other. -/
def restoresThumb (ct : Context) : Bool := ct.thumb

/-! ## What was established -/

/-- A call of a method. -/
inductive RegCall
  | regSet (reg : Nat) (val : BitVec 32)
  | ifaSet (val : BitVec 32)
  | goto (addr : BitVec 32)
  | thumbMode (thumb : Bool)
  | coreReset

def RegCall.run (ct : Context) : RegCall → Context
  | regSet reg val => armiceRegSet ct reg val
  | ifaSet val => armiceIfaSet ct val
  | goto addr => armiceGoto ct addr
  | thumbMode thumb => armiceThumbMode ct thumb
  | coreReset => armiceCoreReset ct

/-- What the calls have established: the instruction address, the values of the other registers
up to `ARM_CPSR` with the state in it, and the value of `ARM_SPSR` once it is set. -/
structure View where
  addr : BitVec 32
  reg : Nat → BitVec 32
  spsr : Option (BitVec 32)

def View.inThumb (v : View) : Bool := (v.reg armCpsr).getLsbD 5

/-- An address is established, aligned for the state. -/
def View.at (v : View) (addr : BitVec 32) : View := { v with addr := aligned v.inThumb addr }

/-- `ARM_CPSR` is established, and the address is aligned for the state in it. -/
def View.setCpsr (v : View) (val : BitVec 32) : View :=
  { v with reg := Function.update v.reg armCpsr val, addr := aligned (val.getLsbD 5) v.addr }

/-- A state is established. -/
def View.enter (v : View) (thumb : Bool) : View :=
  v.setCpsr (if thumb then v.reg armCpsr ||| armStateThumb else v.reg armCpsr &&& ~~~armStateThumb)

/-- The value of a register is established. -/
def View.setReg (v : View) (reg : Nat) (val : BitVec 32) : View :=
  if reg = armPc then v.at val
  else if reg = armSpsr then { v with spsr := some val }
  else if reg = armCpsr then v.setCpsr val
  else { v with reg := Function.update v.reg reg val }

/-- What a call establishes. -/
def RegCall.establish (v : View) : RegCall → View
  | regSet reg val => v.setReg reg val
  | ifaSet val => v.at val
  | goto addr => (v.enter (addr.getLsbD 0 || v.inThumb)).at addr
  | thumbMode thumb => v.enter thumb
  | coreReset => { v with addr := 0, reg := fun reg => if reg = armCpsr then 0xd3 else 0 }

/-- The context shows what was established, and the restore routine is the one of the state. -/
structure Shows (s : Context × View) : Prop where
  pc : armiceRegGet s.1 armPc = some s.2.addr
  ifa : armiceIfaGet s.1 = s.2.addr
  addr : aligned s.2.inThumb s.2.addr = s.2.addr
  reg : ∀ reg ≤ armCpsr, reg ≠ armPc → armiceRegGet s.1 reg = some (s.2.reg reg)
  spsr : ∀ val, s.2.spsr = some val → armiceRegGet s.1 armSpsr = some val
  restores : restoresThumb s.1 = s.1.inThumb

/-! ## One call -/

theorem getLsbD_or_thumb (x : BitVec 32) : (x ||| armStateThumb).getLsbD 5 = true :=
  (getLsbD_set x (by decide) 5).mpr (Or.inl rfl)

theorem getLsbD_and_not_thumb (x : BitVec 32) : (x &&& ~~~armStateThumb).getLsbD 5 = false :=
  Bool.eq_false_iff.mpr fun h => ((getLsbD_clr x (by decide) 5).mp h).2 rfl

theorem or_thumb {x : BitVec 32} (h : x.getLsbD 5 = true) : x ||| armStateThumb = x := by
  apply BitVec.eq_of_getLsbD_eq
  intro i _
  rw [Bool.eq_iff_iff]
  exact (getLsbD_set x (by decide) i).trans (or_iff_right_of_imp fun hi => hi ▸ h)

theorem and_not_thumb {x : BitVec 32} (h : x.getLsbD 5 = false) : x &&& ~~~armStateThumb = x := by
  apply BitVec.eq_of_getLsbD_eq
  intro i _
  rw [Bool.eq_iff_iff]
  refine (getLsbD_clr x (by decide) i).trans (and_iff_left_of_imp fun hi heq => ?_)
  rw [heq, h] at hi
  exact absurd hi (by decide)

theorem aligned_aligned (thumb : Bool) (a : BitVec 32) :
    aligned thumb (aligned thumb a) = aligned thumb a := by
  cases thumb <;> exact (BitVec.and_assoc a _ _).trans (congrArg (a &&& ·) (by decide))

/-- An address that is aligned for the other state is aligned for the Thumb state. -/
theorem aligned_true {a : BitVec 32} {thumb : Bool} (h : aligned thumb a = a) :
    aligned true a = a := by
  cases thumb with
  | true => exact h
  | false =>
      have hand : aligned true (aligned false a) = aligned false a :=
        (BitVec.and_assoc a _ _).trans (congrArg (a &&& ·) (by decide))
      rw [h] at hand
      exact hand

theorem ahead_ne_zero (thumb : Bool) : ahead thumb ≠ 0 := by cases thumb <;> decide

theorem armiceRegGet_pc (ct : Context) : armiceRegGet ct armPc = some (armiceIfaGet ct) := rfl

theorem armiceRegGet_spsr (ct : Context) : armiceRegGet ct armSpsr = none := rfl

theorem armiceRegGet_le (ct : Context) {reg : Nat} (hle : reg ≤ armCpsr) (hne : reg ≠ armPc) :
    armiceRegGet ct reg = some (ct.r reg) := by
  have hlt : reg < armSpsr := Nat.lt_succ_of_le hle
  unfold armiceRegGet
  rw [if_neg (Nat.not_lt_of_lt hlt), if_neg hne, if_neg hlt.ne]

theorem armiceIfaGet_eq_iff (ct : Context) (addr : BitVec 32) :
    armiceIfaGet ct = addr ↔ ct.r armPc = addr + ahead ct.inThumb := sub_eq_iff_eq_add

/-- What has to hold of the registers themselves. -/
theorem shows_iff (ct : Context) (v : View) :
    Shows (ct, v) ↔ ct.r armPc = v.addr + ahead ct.inThumb ∧ aligned v.inThumb v.addr = v.addr ∧
      (∀ reg ≤ armCpsr, reg ≠ armPc → ct.r reg = v.reg reg) ∧ v.spsr = none ∧
      ct.thumb = ct.inThumb := by
  constructor
  · rintro ⟨hpc, hifa, haligned, hreg, hspsr, hthumb⟩
    refine ⟨(armiceIfaGet_eq_iff ct v.addr).mp hifa, haligned, fun reg hle hne => ?_, ?_, hthumb⟩
    · have hget := hreg reg hle hne
      rw [armiceRegGet_le ct hle hne] at hget
      exact Option.some.inj hget
    · cases hv : v.spsr with
      | none => rfl
      | some val => exact absurd (hspsr val hv) (by rw [armiceRegGet_spsr]; exact nofun)
  · rintro ⟨hpc, haligned, hreg, hspsr, hthumb⟩
    have hifa := (armiceIfaGet_eq_iff ct v.addr).mpr hpc
    refine ⟨congrArg some hifa, hifa, haligned, fun reg hle hne => ?_, fun val hval => ?_, hthumb⟩
    · rw [armiceRegGet_le ct hle hne, hreg reg hle hne]
    · exact absurd (hspsr.symm.trans hval) (by exact nofun)

/-- What a call may do in a context without the views coming apart. -/
def RegCall.Sound (ct : Context) : RegCall → Prop
  | regSet reg val => reg ≠ armPc ∧ reg ≠ armSpsr ∧
      (reg = armCpsr → val.getLsbD 5 = ct.inThumb)
  | ifaSet val => aligned ct.inThumb val = val
  | goto addr => addr.getLsbD 0 = true → ct.inThumb = true
  | thumbMode thumb => thumb = false → ct.inThumb = true →
      aligned false (armiceIfaGet ct) = armiceIfaGet ct
  | coreReset => False

namespace Shows

variable {ct : Context} {v : View}

theorem inThumb (h : Shows (ct, v)) : v.inThumb = ct.inThumb := by
  obtain ⟨-, -, hreg, -, -⟩ := (shows_iff ct v).mp h
  exact congrArg (·.getLsbD 5) (hreg armCpsr le_rfl (by decide)).symm

theorem cpsr (h : Shows (ct, v)) : v.reg armCpsr = ct.r armCpsr := by
  obtain ⟨-, -, hreg, -, -⟩ := (shows_iff ct v).mp h
  exact (hreg armCpsr le_rfl (by decide)).symm

/-- The program counter is written, and an address is established. -/
theorem put_pc_iff (h : Shows (ct, v)) (addr val : BitVec 32) :
    Shows (ct.put armPc val, v.at addr) ↔ val = aligned ct.inThumb addr + ahead ct.inThumb := by
  obtain ⟨-, -, hreg, hspsr, hthumb⟩ := (shows_iff ct v).mp h
  have hT : (ct.put armPc val).inThumb = ct.inThumb := rfl
  rw [shows_iff, hT]
  rw [Context.put_self]
  unfold View.at
  rw [h.inThumb]
  constructor
  · exact fun hs => hs.1
  · refine fun hs => ⟨hs, ?_, fun reg hle hne => ?_, hspsr, hthumb⟩
    · show aligned v.inThumb (aligned ct.inThumb addr) = _
      rw [h.inThumb, aligned_aligned]
    · exact (ct.put_of_ne hne val).trans (hreg reg hle hne)

/-- The program counter, `ARM_CPSR` and the flag are written. -/
theorem put_state_iff (h : Shows (ct, v)) (pc cpsr addr : BitVec 32) (thumb : Bool) :
    Shows ({ (ct.put armCpsr cpsr).put armPc pc with thumb := thumb },
        { v with reg := Function.update v.reg armCpsr cpsr, addr := addr }) ↔
      pc = addr + ahead (cpsr.getLsbD 5) ∧ aligned (cpsr.getLsbD 5) addr = addr ∧
        thumb = cpsr.getLsbD 5 := by
  obtain ⟨-, -, hreg, hspsr, hthumb⟩ := (shows_iff ct v).mp h
  rw [shows_iff]
  have hpc : (Function.update (Function.update ct.r armCpsr cpsr) armPc pc) armPc = pc :=
    Function.update_self ..
  have hcpsr : (Function.update (Function.update ct.r armCpsr cpsr) armPc pc) armCpsr = cpsr :=
    (Function.update_of_ne (by decide) ..).trans (Function.update_self ..)
  have hview : (Function.update v.reg armCpsr cpsr) armCpsr = cpsr := Function.update_self ..
  unfold Context.inThumb View.inThumb Context.put
  simp only [hpc, hcpsr, hview]
  constructor
  · rintro ⟨hpc, haligned, -, -, hflag⟩
    exact ⟨hpc, haligned, hflag⟩
  · rintro ⟨hpc, haligned, hflag⟩
    refine ⟨hpc, haligned, fun reg hle hne => ?_, hspsr, hflag⟩
    rw [Function.update_of_ne hne]
    by_cases hreg16 : reg = armCpsr
    · rw [hreg16, Function.update_self, Function.update_self]
    · rw [Function.update_of_ne hreg16, Function.update_of_ne hreg16, hreg reg hle hne]

/-- The state is entered, with the program counter of the address in it. -/
theorem enter_iff (h : Shows (ct, v)) (thumb flag : Bool) (pc addr : BitVec 32) :
    Shows ({ (ct.put armCpsr (if thumb then ct.r armCpsr ||| armStateThumb
          else ct.r armCpsr &&& ~~~armStateThumb)).put armPc pc with thumb := flag },
        { v.enter thumb with addr := addr }) ↔
      pc = addr + ahead thumb ∧ aligned thumb addr = addr ∧ flag = thumb := by
  have hbit : (if thumb then ct.r armCpsr ||| armStateThumb
      else ct.r armCpsr &&& ~~~armStateThumb).getLsbD 5 = thumb := by
    cases thumb
    · exact getLsbD_and_not_thumb _
    · exact getLsbD_or_thumb _
  have hiff := h.put_state_iff pc (if thumb then ct.r armCpsr ||| armStateThumb
    else ct.r armCpsr &&& ~~~armStateThumb) addr flag
  rw [hbit] at hiff
  unfold View.enter View.setCpsr
  rw [h.cpsr]
  exact hiff

theorem enter_addr (v : View) (thumb : Bool) :
    (v.enter thumb).addr = aligned thumb v.addr := by
  unfold View.enter View.setCpsr
  cases thumb
  · exact congrArg (aligned · v.addr) (getLsbD_and_not_thumb _)
  · exact congrArg (aligned · v.addr) (getLsbD_or_thumb _)

/-- `ARM_CPSR` is written: the flag has to follow it. -/
theorem put_cpsr_iff (h : Shows (ct, v)) (val : BitVec 32) :
    Shows (ct.put armCpsr val, v.setCpsr val) ↔ val.getLsbD 5 = ct.inThumb := by
  obtain ⟨hpc, haligned, -, -, hthumb⟩ := (shows_iff ct v).mp h
  have hput : ct.put armCpsr val =
      { (ct.put armCpsr val).put armPc (ct.r armPc) with thumb := ct.thumb } := by
    unfold Context.put
    have hsame : Function.update (Function.update ct.r armCpsr val) armPc (ct.r armPc) =
        Function.update ct.r armCpsr val := by
      rw [Function.update_eq_self_iff]
      exact (Function.update_of_ne (by decide) ..).symm
    rw [hsame]
  unfold View.setCpsr
  rw [hput, h.put_state_iff]
  constructor
  · exact fun hs => hs.2.2.symm.trans hthumb
  · intro hval
    rw [h.inThumb] at haligned
    rw [hval, aligned_aligned, haligned]
    exact ⟨hpc, rfl, hthumb⟩

theorem regSet_iff (h : Shows (ct, v)) (reg : Nat) (val : BitVec 32) :
    Shows (armiceRegSet ct reg val, v.setReg reg val) ↔
      reg ≠ armPc ∧ reg ≠ armSpsr ∧ (reg = armCpsr → val.getLsbD 5 = ct.inThumb) := by
  obtain ⟨hpc, haligned, hreg, hspsr, hthumb⟩ := (shows_iff ct v).mp h
  unfold armiceRegSet View.setReg
  by_cases hregPc : reg = armPc
  · subst hregPc
    rw [if_neg (by decide), if_pos rfl, if_pos rfl, h.put_pc_iff]
    exact iff_of_false (fun heq => ahead_ne_zero ct.inThumb (left_eq_add.mp heq))
      (fun hs => hs.1 rfl)
  by_cases hregSpsr : reg = armSpsr
  · subst hregSpsr
    rw [if_neg (by decide), if_neg hregPc, if_pos rfl, if_neg hregPc, if_pos rfl, shows_iff]
    exact iff_of_false (fun hs => absurd hs.2.2.2.1 (by exact nofun)) (fun hs => hs.2.1 rfl)
  rw [if_neg hregPc, if_neg hregSpsr, if_neg hregPc, if_neg hregSpsr]
  by_cases hregCpsr : reg = armCpsr
  · subst hregCpsr
    rw [if_neg (by decide), if_pos rfl, h.put_cpsr_iff]
    exact ⟨fun hs => ⟨hregPc, hregSpsr, fun _ => hs⟩, fun hs => hs.2.2 rfl⟩
  refine iff_of_true ?_ ⟨hregPc, hregSpsr, fun heq => absurd heq hregCpsr⟩
  have hview : ∀ x : Nat, x ≠ reg → Function.update v.reg reg val x = v.reg x := fun x hx =>
    Function.update_of_ne hx ..
  have hstate : View.inThumb { v with reg := Function.update v.reg reg val } = v.inThumb :=
    congrArg (·.getLsbD 5) (hview armCpsr (Ne.symm hregCpsr))
  rw [if_neg hregCpsr]
  split_ifs with hbeyond
  · rw [shows_iff, hstate]
    refine ⟨hpc, haligned, fun x hle hne => ?_, hspsr, hthumb⟩
    have hlt : x < reg := (Nat.lt_succ_of_le hle).trans hbeyond
    exact (hreg x hle hne).trans (hview x hlt.ne).symm
  · have hput : (ct.put reg val).inThumb = ct.inThumb :=
      congrArg (·.getLsbD 5) (ct.put_of_ne (Ne.symm hregCpsr) val)
    rw [shows_iff, hstate, hput, ct.put_of_ne (Ne.symm hregPc)]
    refine ⟨hpc, haligned, fun x hle hne => ?_, hspsr, hthumb⟩
    by_cases hx : x = reg
    · have hself : Function.update v.reg reg val reg = val := Function.update_self ..
      rw [hx, ct.put_self]
      exact hself.symm
    · rw [ct.put_of_ne hx]
      exact (hreg x hle hne).trans (hview x hx).symm

theorem inThumb_enter (v : View) (thumb : Bool) : (v.enter thumb).inThumb = thumb := by
  unfold View.inThumb View.enter View.setCpsr
  simp only [Function.update_self]
  cases thumb
  · exact getLsbD_and_not_thumb _
  · exact getLsbD_or_thumb _

/-- A write of `ARM_CPSR` that keeps its value. -/
theorem put_cpsr_self {cpsr : BitVec 32} (hcpsr : cpsr = ct.r armCpsr) (pc : BitVec 32) :
    { (ct.put armCpsr cpsr).put armPc pc with thumb := ct.thumb } = ct.put armPc pc := by
  unfold Context.put
  rw [hcpsr, Function.update_eq_self]

theorem goto_iff (h : Shows (ct, v)) (addr : BitVec 32) :
    Shows (armiceGoto ct addr, (v.enter (addr.getLsbD 0 || v.inThumb)).at addr) ↔
      (addr.getLsbD 0 = true → ct.inThumb = true) := by
  obtain ⟨-, -, -, -, hthumb⟩ := (shows_iff ct v).mp h
  unfold armiceGoto View.at
  rw [inThumb_enter, h.inThumb]
  by_cases hT : addr.getLsbD 0 = true ∨ ct.inThumb = true
  · have hor : (addr.getLsbD 0 || ct.inThumb) = true := by simpa using hT
    have hput : (ct.put armPc ((addr &&& 0xfffffffe) + 4)).put armCpsr
        (ct.r armCpsr ||| armStateThumb) =
        { (ct.put armCpsr (ct.r armCpsr ||| armStateThumb)).put armPc
          ((addr &&& 0xfffffffe) + 4) with thumb := ct.thumb } :=
      congrArg (Context.mk · ct.thumb) (Function.update_comm (by decide) ..)
    rw [if_pos hT, hor, hput]
    refine (h.enter_iff true ct.thumb _ (aligned true addr)).trans ?_
    rw [hthumb]
    constructor
    · exact fun hs _ => hs.2.2
    · exact fun hs => ⟨rfl, aligned_aligned true addr, hT.elim hs id⟩
  · have hor : (addr.getLsbD 0 || ct.inThumb) = false := by simpa using hT
    have hclear : ct.inThumb = false := (Bool.or_eq_false_iff.mp hor).2
    rw [if_neg hT, hor, ← @put_cpsr_self ct _ (and_not_thumb hclear)]
    refine (h.enter_iff false ct.thumb _ (aligned false addr)).trans ?_
    exact iff_of_true ⟨rfl, aligned_aligned false addr, hthumb.trans hclear⟩
      fun hodd => absurd (Or.inl hodd) hT

theorem thumbMode_iff (h : Shows (ct, v)) (thumb : Bool) :
    Shows (armiceThumbMode ct thumb, v.enter thumb) ↔
      (thumb = false → ct.inThumb = true →
        aligned false (armiceIfaGet ct) = armiceIfaGet ct) := by
  obtain ⟨hpc, haligned, -, -, hthumb⟩ := (shows_iff ct v).mp h
  have hview : v.enter thumb = { v.enter thumb with addr := aligned thumb v.addr } := by
    rw [← enter_addr]
  have hifa : armiceIfaGet ct = v.addr := h.ifa
  rw [hview, hifa]
  rw [h.inThumb] at haligned
  unfold armiceThumbMode
  by_cases hT : ct.inThumb = true
  · rw [hT] at haligned hpc hthumb
    have hcpsr : (if true then ct.r armCpsr ||| armStateThumb
        else ct.r armCpsr &&& ~~~armStateThumb) = ct.r armCpsr := or_thumb hT
    cases thumb with
    | true =>
        have hsame : ct = { (ct.put armCpsr (if true then ct.r armCpsr ||| armStateThumb
            else ct.r armCpsr &&& ~~~armStateThumb)).put armPc (ct.r armPc) with
              thumb := ct.thumb } := by
          rw [put_cpsr_self hcpsr]
          unfold Context.put
          rw [Function.update_eq_self]
        rw [if_pos rfl, if_pos hT]
        conv_lhs => rw [hsame]
        refine (h.enter_iff true ct.thumb _ (aligned true v.addr)).trans ?_
        rw [haligned]
        exact iff_of_true ⟨hpc, haligned, hthumb⟩ fun hfalse => absurd hfalse (by decide)
    | false =>
        rw [if_neg (by decide), if_pos hT]
        refine (h.enter_iff false false _ (aligned false v.addr)).trans ?_
        have hpc' : ct.r armPc + 4 = v.addr + ahead false := by
          rw [hpc, add_assoc]
          rfl
        rw [hpc', add_left_inj]
        constructor
        · exact fun hs _ _ => hs.1.symm
        · exact fun hs => ⟨(hs rfl hT).symm, aligned_aligned false v.addr, rfl⟩
  · have hclear : ct.inThumb = false := Bool.eq_false_iff.mpr hT
    rw [hclear] at haligned hpc hthumb
    cases thumb with
    | true =>
        rw [if_pos rfl, if_neg hT]
        refine (h.enter_iff true true _ (aligned true v.addr)).trans ?_
        have hpc' : ct.r armPc - 4 = v.addr + ahead true := by
          rw [hpc, sub_eq_iff_eq_add, add_assoc]
          rfl
        rw [aligned_true haligned]
        exact iff_of_true ⟨hpc', aligned_true haligned, rfl⟩ fun hfalse => absurd hfalse (by decide)
    | false =>
        have hcpsr : (if false then ct.r armCpsr ||| armStateThumb
            else ct.r armCpsr &&& ~~~armStateThumb) = ct.r armCpsr := and_not_thumb hclear
        have hsame : ct = { (ct.put armCpsr (if false then ct.r armCpsr ||| armStateThumb
            else ct.r armCpsr &&& ~~~armStateThumb)).put armPc (ct.r armPc) with
              thumb := ct.thumb } := by
          rw [put_cpsr_self hcpsr]
          unfold Context.put
          rw [Function.update_eq_self]
        rw [if_neg (by decide), if_neg hT]
        conv_lhs => rw [hsame]
        refine (h.enter_iff false ct.thumb _ (aligned false v.addr)).trans ?_
        rw [haligned]
        exact iff_of_true ⟨hpc, haligned, hthumb⟩ fun _ hset => absurd hset hT

theorem not_coreReset (ct : Context) (v : View) :
    ¬ Shows (armiceCoreReset ct, RegCall.coreReset.establish v) := fun h => by
  have hifa : armiceIfaGet (armiceCoreReset ct) = 0 := h.ifa
  have hbehind : armiceIfaGet (armiceCoreReset ct) = 0xfffffff8 := by
    show (0 : BitVec 32) - ahead ((0xd3 : BitVec 32).getLsbD 5) = 0xfffffff8
    decide
  exact absurd (hbehind.symm.trans hifa) (by decide)

/-- The views stay together over a call if and only if the call is sound. -/
theorem run_iff (h : Shows (ct, v)) (call : RegCall) :
    Shows (call.run ct, call.establish v) ↔ call.Sound ct := by
  cases call with
  | regSet reg val => exact h.regSet_iff reg val
  | ifaSet val =>
      refine (h.put_pc_iff val (val + ahead ct.inThumb)).trans ?_
      rw [add_left_inj]
      exact eq_comm
  | goto addr => exact h.goto_iff addr
  | thumbMode thumb => exact h.thumbMode_iff thumb
  | coreReset => exact iff_of_false (not_coreReset ct v) id

end Shows

/-- A call, with what it establishes. -/
def regStep (s : Context × View) (call : RegCall) : Option (Context × View) :=
  some (call.run s.1, call.establish s.2)

/-- In every run from a context that shows what is established, every state that is reached shows
it if and only if every call is sound where it is made. -/
theorem register_views_iff {s : Context × View} (h : Shows s) (calls : List RegCall) :
    Along regStep (fun s call => Shows (call.run s.1, call.establish s.2)) s calls ↔
      Along regStep (fun s call => call.Sound s.1) s calls := by
  refine along_congr (I := Shows) (fun s call hs => ?_) (fun s call t _ hnext ht => ?_) calls h
  · exact @Shows.run_iff s.1 s.2 hs call
  · exact Option.some.inj ht ▸ hnext

/-- A core in the Thumb state at 0x8000. -/
def thumbContext : Context := ⟨fun reg => if reg = armPc then 0x8004 else 0x33, true⟩

def thumbView : View := ⟨0x8000, fun _ => 0x33, none⟩

theorem thumbContext_shows : Shows (thumbContext, thumbView) :=
  (shows_iff thumbContext thumbView).mpr
    ⟨by decide, by decide, fun _ _ hne => if_neg hne, rfl, by decide⟩

theorem register_views_iff_thumb :
    Along regStep (fun s call => Shows (call.run s.1, call.establish s.2))
      (thumbContext, thumbView) [.regSet 3 7, .ifaSet 0x8010, .thumbMode false] :=
  (register_views_iff thumbContext_shows _).mpr
    ⟨⟨by decide, by decide, fun h => absurd h (by decide)⟩, fun _ ht => by
      obtain rfl := Option.some.inj ht
      refine ⟨show aligned (RegCall.run thumbContext (.regSet 3 7)).inThumb 0x8010 = 0x8010 by
        decide, fun _ ht => ?_⟩
      obtain rfl := Option.some.inj ht
      exact ⟨fun _ _ => by decide, fun _ _ => trivial⟩⟩

/-- The program counter that is set is not the one that is read. -/
theorem register_views_not_pc :
    ¬ Shows ((RegCall.regSet armPc 0x9000).run thumbContext,
        (RegCall.regSet armPc 0x9000).establish thumbView) ∧
      armiceRegGet (armiceRegSet thumbContext armPc 0x9000) armPc = some 0x8ffc := by
  refine ⟨fun h => ?_, by decide⟩
  have hpc : armiceRegGet (armiceRegSet thumbContext armPc 0x9000) armPc = some 0x9000 := h.pc
  exact absurd hpc (by decide)

end YardIce.Armice
