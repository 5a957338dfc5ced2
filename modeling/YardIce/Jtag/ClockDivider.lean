import YardIce.Jtag.ChainProbe
import Mathlib.Tactic.Linarith

/-!
# The divisors of the test clock

`jtag_tck_freq_set` and `jtag_rtck_freq_set` write the registers of two clock generators, which
divide the main clock by what they hold plus two.

## Implementation notes

A division by zero has no value. The wait after the register is written is left out.
-/

namespace YardIce.Jtag

/-- `JTAG_FMAIN`. -/
def jtagFmain : Word := 60000000

/-- `REG_CKGEN_DIV`, `REG_CKGEN_RTDIV` and `jtag3drv.tck_freq`. -/
structure ClkGen where
  ckgenDiv : BitVec 16
  ckgenRtdiv : BitVec 16
  tckFreq : Word

/-- `div` of `jtag_tck_freq_set`. -/
def tckDiv (tckFreq : Word) : Word :=
  let div := (jtagFmain + (tckFreq - 1)) / tckFreq
  if div.toInt < 2 then 2 else div

namespace ClkGen

variable (s : ClkGen)

/-- `jtag_tck_freq_set`. -/
def jtagTckFreqSet (tckFreq : Word) : Int × ClkGen :=
  let div := tckDiv tckFreq
  (jtagOk, { s with ckgenDiv := (div - 2).setWidth 16, tckFreq := jtagFmain / (div + 2) })

/-- `jtag_tck_freq_get`. -/
def jtagTckFreqGet : Word := jtagFmain / (s.ckgenDiv.setWidth 32 + 2)

/-- `jtag_rtck_freq_set`. -/
def jtagRtckFreqSet (freq : Word) : Option Int × ClkGen :=
  let div := jtagFmain / freq - 2
  (if div + 2 = 0 then none else some (jtagFmain / (div + 2)).toInt,
    { s with ckgenRtdiv := div.setWidth 16 })

/-- `jtag_rtck_freq_get`. -/
def jtagRtckFreqGet : Word := jtagFmain / (s.ckgenRtdiv.setWidth 32 + 2)

end ClkGen

/-! ## The divisors -/

section Divisors

variable {f : Word}

/-- The divisor is the least one that gives no more than the frequency, and at least two. -/
theorem toNat_tckDiv (hf : 0 < f.toNat) :
    (tckDiv f).toNat = max 2 ((60000000 + f.toNat - 1) / f.toNat) := by
  have hlt := f.isLt
  have hquot : ((jtagFmain + (f - 1)) / f).toNat =
      (60000000 + f.toNat - 1) % 2 ^ 32 / f.toNat := by
    rw [BitVec.toNat_udiv]
    congr 1
    unfold jtagFmain
    bv_omega
  have hle : (60000000 + f.toNat - 1) % 2 ^ 32 / f.toNat ≤ 60000000 :=
    Nat.div_le_of_le_mul ((Nat.mod_le _ _).trans (by omega))
  have hint : ((jtagFmain + (f - 1)) / f).toInt =
      ((60000000 + f.toNat - 1) % 2 ^ 32 / f.toNat : Nat) := by
    rw [BitVec.toInt_eq_toNat_of_lt (by omega), hquot]
  have hwrap : 2 ≤ (60000000 + f.toNat - 1) / f.toNat →
      (60000000 + f.toNat - 1) % 2 ^ 32 / f.toNat = (60000000 + f.toNat - 1) / f.toNat := by
    intro h
    have hmul := (Nat.le_div_iff_mul_le hf).mp h
    rw [Nat.mod_eq_of_lt (by omega)]
  have hmono : (60000000 + f.toNat - 1) % 2 ^ 32 / f.toNat ≤ (60000000 + f.toNat - 1) / f.toNat :=
    Nat.div_le_div_right (Nat.mod_le _ _)
  unfold tckDiv
  dsimp only
  split
  · next hsmall =>
    rw [hint] at hsmall
    have htwo : ¬ 2 ≤ (60000000 + f.toNat - 1) / f.toNat := fun h => by
      have heq := hwrap h
      omega
    show 2 = _
    omega
  · next hbig =>
    rw [hint] at hbig
    rw [hquot]
    have heq := hwrap (by omega)
    omega

/-- What a generator with 16 bits gives, where the divisor fits them. -/
theorem generated {div : Word} (h2 : 2 ≤ div.toNat) (hfits : div.toNat < 65538) :
    (jtagFmain / (((div - 2).setWidth 16).setWidth 32 + 2)).toNat = 60000000 / div.toNat := by
  have hsum : (((div - 2).setWidth 16).setWidth 32 + 2).toNat = div.toNat := by
    have hsub : (div - 2).toNat = div.toNat - 2 := by bv_omega
    rw [BitVec.toNat_add, BitVec.toNat_setWidth, BitVec.toNat_setWidth, hsub]
    show ((div.toNat - 2) % 2 ^ 16 % 2 ^ 32 + 2) % 2 ^ 32 = div.toNat
    omega
  rw [BitVec.toNat_udiv, hsum]
  rfl

/-- It never gives less than 915 Hz. -/
theorem generated_ge (reg : BitVec 16) : 915 ≤ (jtagFmain / (reg.setWidth 32 + 2)).toNat := by
  have hsum : (reg.setWidth 32 + 2 : Word).toNat = reg.toNat + 2 := by
    have hlt := reg.isLt
    rw [BitVec.toNat_add, BitVec.toNat_setWidth]
    show (reg.toNat % 2 ^ 32 + 2) % 2 ^ 32 = reg.toNat + 2
    omega
  have hlt := reg.isLt
  rw [BitVec.toNat_udiv, hsum]
  show 915 ≤ 60000000 / _
  exact (Nat.le_div_iff_mul_le (by omega)).mpr (by omega)

end Divisors
/-! ## The two generators -/

section Generators

variable {s : ClkGen} {f : Word}

theorem toNat_ofNat_fmain : jtagFmain.toNat = 60000000 := rfl

theorem tckDiv_bounds (hf : 916 ≤ f.toNat) : 2 ≤ (tckDiv f).toNat ∧ (tckDiv f).toNat < 65536 := by
  rw [toNat_tckDiv (by omega)]
  have hlt : (60000000 + f.toNat - 1) / f.toNat < 65536 :=
    (Nat.div_lt_iff_lt_mul (by omega)).mpr (by omega)
  omega

theorem toNat_tckGet (hf : 916 ≤ f.toNat) :
    (s.jtagTckFreqSet f).2.jtagTckFreqGet.toNat = 60000000 / (tckDiv f).toNat := by
  obtain ⟨h2, hlt⟩ := tckDiv_bounds hf
  exact generated h2 (by omega)

theorem toNat_tckFreq (hf : 916 ≤ f.toNat) :
    (s.jtagTckFreqSet f).2.tckFreq.toNat = 60000000 / ((tckDiv f).toNat + 2) := by
  obtain ⟨-, hlt⟩ := tckDiv_bounds hf
  show (jtagFmain / (tckDiv f + 2)).toNat = _
  rw [BitVec.toNat_udiv, BitVec.toNat_add, toNat_ofNat_fmain]
  congr 1
  show ((tckDiv f).toNat + 2) % 2 ^ 32 = _
  omega

/-- Where the divisor fits the register, it divides by no less than the quotient. -/
theorem tck_le_iff (hf : 0 < f.toNat) :
    (s.jtagTckFreqSet f).2.jtagTckFreqGet.toNat ≤ f.toNat ↔ 916 ≤ f.toNat := by
  constructor
  · intro hle
    have hge : 915 ≤ (s.jtagTckFreqSet f).2.jtagTckFreqGet.toNat := generated_ge _
    by_contra hlt
    -- the divisor for 915 Hz has lost its highest bit
    obtain rfl : f = 915 := BitVec.eq_of_toNat_eq (show f.toNat = 915 by omega)
    have hfast : ¬ (jtagFmain / (((tckDiv 915 - 2).setWidth 16).setWidth 32 + 2)).toNat ≤ 915 := by
      decide
    exact hfast hle
  · intro hge
    rw [toNat_tckGet hge, toNat_tckDiv hf]
    refine Nat.div_le_of_le_mul ?_
    have hdiv := Nat.div_add_mod (60000000 + f.toNat - 1) f.toNat
    have hmod := Nat.mod_lt (60000000 + f.toNat - 1) hf
    have hmax := Nat.mul_le_mul_right f.toNat
      (Nat.le_max_right 2 ((60000000 + f.toNat - 1) / f.toNat))
    rw [Nat.mul_comm f.toNat] at hdiv
    omega

/-- The quotient is rounded down for the other generator. -/
theorem toNat_rtckGet (hf : 916 ≤ f.toNat) (hle : f.toNat ≤ 30000000) :
    (s.jtagRtckFreqSet f).2.jtagRtckFreqGet.toNat = 60000000 / (60000000 / f.toNat) := by
  have hquot : (jtagFmain / f).toNat = 60000000 / f.toNat := BitVec.toNat_udiv
  have h2 : 2 ≤ 60000000 / f.toNat := (Nat.le_div_iff_mul_le (by omega)).mpr (by omega)
  have hlt : 60000000 / f.toNat < 65538 := (Nat.div_lt_iff_lt_mul (by omega)).mpr (by omega)
  rw [← hquot] at h2 hlt ⊢
  exact generated h2 hlt

end Generators

/-! ## Clocks that are no faster than requested -/

/-- Neither generator gives more than the frequency that it is set to, and the cached frequency of
the first one is what it gives. -/
structure ClkGen.NotFaster (s : ClkGen) (f : Word) : Prop where
  tck : (s.jtagTckFreqSet f).2.jtagTckFreqGet ≤ f
  cached : (s.jtagTckFreqSet f).2.tckFreq = (s.jtagTckFreqSet f).2.jtagTckFreqGet
  rtck : (s.jtagRtckFreqSet f).2.jtagRtckFreqGet ≤ f

section Quotients

variable {n f k r q : ℕ}

/-- Division by the quotient gives the divisor back unless the remainder is too large. -/
theorem div_div_le_iff (hn : n = f * k + r) (hk : 0 < k) : n / k ≤ f ↔ r < k := by
  rw [← Nat.lt_succ_iff, Nat.div_lt_iff_lt_mul hk, hn, Nat.succ_mul, Nat.add_lt_add_iff_left]

/-- A quotient that two more in the divisor do not change is small. -/
theorem two_mul_quotient_lt (hq : q * (k + 2) ≤ n) (hlt : n < (q + 1) * k) : 2 * q < k := by
  rw [Nat.mul_add] at hq
  rw [Nat.add_mul, Nat.one_mul] at hlt
  omega

/-- The condition on the divisors, by the quotient and the remainder of the main clock. -/
theorem quotients_iff {n f g k r d : ℕ} (hf : f = g + 1) (hn : n = f * k + r) (hr : r < f)
    (hk : 2 ≤ k) (hd : d = max 2 ((n + g) / f)) :
    n / (d + 2) = n / d ∧ n / k ≤ f ↔ r ≠ 0 ∧ 3 * g ≤ k + r := by
  rw [div_div_le_iff hn (by omega)]
  subst hf
  rw [Nat.add_mul, Nat.one_mul] at hn
  by_cases h0 : r = 0
  · -- the divisor is exact, and two more give less
    have hceil : (n + g) / (g + 1) = k :=
      Nat.div_eq_of_lt_le (by rw [Nat.mul_add, Nat.mul_comm k]; omega)
        (by rw [Nat.mul_add, Nat.add_mul, Nat.mul_comm k]; omega)
    have hdk : d = k := by omega
    have hquot : n / d = g + 1 :=
      Nat.div_eq_of_lt_le (by rw [hdk, Nat.add_mul]; omega)
        (by rw [hdk, Nat.add_mul, Nat.add_mul]; omega)
    have hless : n / (d + 2) < g + 1 := by
      rw [Nat.div_lt_iff_lt_mul (by omega), hdk, Nat.add_mul, Nat.mul_add]
      omega
    constructor
    · rintro ⟨heq, -⟩
      omega
    · rintro ⟨hne, -⟩
      exact absurd h0 hne
  · have hceil : (n + g) / (g + 1) = k + 1 :=
      Nat.div_eq_of_lt_le (by rw [Nat.mul_add, Nat.add_mul, Nat.mul_comm k]; omega)
        (by rw [Nat.mul_add, Nat.add_mul, Nat.add_mul, Nat.mul_comm k]; omega)
    have hdk : d = k + 1 := by omega
    rw [hdk]
    constructor
    · rintro ⟨heq, -⟩
      have hle := Nat.div_mul_le_self n (k + 1 + 2)
      have hlt := (Nat.div_lt_iff_lt_mul (show 0 < k + 1 by omega)).mp
        (Nat.lt_succ_self (n / (k + 1)))
      rw [heq] at hle
      have hsmall := two_mul_quotient_lt hle hlt
      generalize n / (k + 1) = q at hle hlt hsmall
      -- the frequency is below the quotient, which is therefore one less than the frequency
      have hgk : g < k := by
        by_contra hge
        have hmul := Nat.mul_le_mul_right k (Nat.not_lt.mp hge)
        nlinarith
      have hgq : g ≤ q := by
        by_contra hlt'
        have hmul := Nat.mul_le_mul_right (k + 1) (Nat.not_le.mp hlt')
        rw [Nat.mul_add g] at hmul
        omega
      have hmul := (Nat.mul_le_mul_right (k + 1 + 2) hgq).trans hle
      rw [Nat.mul_add, Nat.mul_add] at hmul
      omega
    · rintro ⟨-, hle⟩
      have hmore : n / (k + 1 + 2) = g :=
        Nat.div_eq_of_lt_le (by rw [Nat.mul_add, Nat.mul_add]; omega)
          (by rw [Nat.add_mul, Nat.mul_add, Nat.mul_add]; omega)
      have hquot : n / (k + 1) = g :=
        Nat.div_eq_of_lt_le (by rw [Nat.mul_add]; omega) (by rw [Nat.add_mul, Nat.mul_add]; omega)
      exact ⟨hmore.trans hquot.symm, by omega⟩

end Quotients

/-- The clocks are no faster than requested for some frequencies below 5.5 kHz only. -/
theorem notFaster_iff (s : ClkGen) {f : Word} (hf : 1 ≤ f.toNat) :
    s.NotFaster f ↔ 916 ≤ f.toNat ∧ 60000000 % f.toNat ≠ 0 ∧
      3 * f.toNat ≤ 60000000 / f.toNat + 60000000 % f.toNat + 3 := by
  have hn := Nat.div_add_mod 60000000 f.toNat
  have hr := Nat.mod_lt 60000000 hf
  obtain ⟨g, hg⟩ : ∃ g, f.toNat = g + 1 := ⟨f.toNat - 1, by omega⟩
  have hparts : 916 ≤ f.toNat → f.toNat ≤ 30000000 →
      (60000000 / ((tckDiv f).toNat + 2) = 60000000 / (tckDiv f).toNat ∧
          60000000 / (60000000 / f.toNat) ≤ f.toNat ↔
        60000000 % f.toNat ≠ 0 ∧ 3 * g ≤ 60000000 / f.toNat + 60000000 % f.toNat) := by
    intro hge hle
    have hk : 2 ≤ 60000000 / f.toNat := (Nat.le_div_iff_mul_le hf).mpr (by omega)
    refine quotients_iff hg hn.symm hr hk ((toNat_tckDiv hf).trans ?_)
    rw [hg]
    rfl
  constructor
  · rintro ⟨htck, hcached, hrtck⟩
    have hge := (tck_le_iff hf).mp (BitVec.le_def.mp htck)
    have heq := congrArg BitVec.toNat hcached
    rw [toNat_tckFreq hge, toNat_tckGet hge] at heq
    -- from 30 MHz on the divisor is two
    have hle : f.toNat ≤ 30000000 := by
      by_contra hgt
      have hquot : (60000000 + f.toNat - 1) / f.toNat < 3 :=
        (Nat.div_lt_iff_lt_mul hf).mpr (by omega)
      have hdiv : (tckDiv f).toNat = 2 := by
        rw [toNat_tckDiv hf]
        omega
      rw [hdiv] at heq
      exact absurd heq (by decide)
    rw [BitVec.le_def, toNat_rtckGet hge hle] at hrtck
    obtain ⟨hne, hsmall⟩ := (hparts hge hle).mp ⟨heq, hrtck⟩
    exact ⟨hge, hne, by omega⟩
  · rintro ⟨hge, hne, hsmall⟩
    have hle : f.toNat ≤ 30000000 := by
      by_contra hgt
      have hk : 60000000 / f.toNat < 2 := (Nat.div_lt_iff_lt_mul hf).mpr (by omega)
      omega
    obtain ⟨heq, hrtck⟩ := (hparts hge hle).mpr ⟨hne, by omega⟩
    refine ⟨BitVec.le_def.mpr ((tck_le_iff hf).mpr hge), BitVec.eq_of_toNat_eq ?_, ?_⟩
    · rw [toNat_tckFreq hge, toNat_tckGet hge, heq]
    · rw [BitVec.le_def, toNat_rtckGet hge hle]
      exact hrtck

/-- The registers after a reset. -/
def ClkGen.reset : ClkGen := ⟨0, 0, 0⟩

theorem notFaster_iff_1001 : 1 ≤ (1001 : Word).toNat ∧ ClkGen.reset.NotFaster 1001 :=
  ⟨by decide, (notFaster_iff ClkGen.reset (by decide)).mpr (by decide)⟩

/-- At 100 kHz, which the driver starts with, the cached frequency is 99667 Hz. -/
theorem cached_below_generated : ¬ ∀ (s : ClkGen) (f : Word), 1 ≤ f.toNat → s.NotFaster f := by
  intro h
  have hcached := (h ClkGen.reset 100000 (by decide)).cached
  exact absurd hcached (by decide)

end YardIce.Jtag
