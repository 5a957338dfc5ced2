import YardIce.Jtag.TapSetup
import Mathlib.Algebra.Order.BigOperators.Group.List
import Mathlib.Algebra.Order.Group.Nat

/-!
# Probing the scan chain

`jtag_chain_probe` shifts ones through the instruction registers and finds their lengths in the bits
that come back: each register captures a one in its first bit and zeros in the others, and the ones
that were shifted in follow.

## Implementation notes

`jtag_ir_scan` is a parameter: the value it returns and the vector it leaves for a vector of ones.
The lengths go to an array of bytes; a store behind its end has no value. `max` is an `int`. The
address for the count is not `NULL`.
-/

namespace YardIce.Jtag

abbrev Byte := BitVec 8

/-- `JTAG_OK`. -/
def jtagOk : Int := 0

/-- `JTAG_ERR_TOO_MANY_TAPS`. -/
def jtagErrTooManyTaps : Int := -206

/-- `JTAG_VEC_BITS_MAX`. -/
def jtagVecBitsMax : Nat := 256

/-- `vec_ones` of a vector of that size. -/
def vecOfOnes : List Word := List.replicate (jtagVecBitsMax / 32) 0xffffffff

/-- The bits of a word, the least significant one first. -/
def wordBits (w : Word) : List Bool := (List.range 32).map w.getLsbD

/-- The bits of a vector in the order in which they were shifted. -/
def vecBits (vec : List Word) : List Bool := vec.flatMap wordBits

/-! ## The scan of the bits -/

/-- The variables of the two loops, with the array. -/
structure Probe where
  ones : Nat
  zeros : Nat
  cnt : Nat
  irlen : List Byte
  deriving DecidableEq

/-- What a turn of the inner loop ends with: the next one, the `break`, or the `return` because of
too many devices. -/
inductive Turn
  | next (s : Probe)
  | leave (s : Probe)
  | tooMany (s : Probe)
  deriving DecidableEq

/-- `irlen[cnt] = len`. -/
def Probe.store (s : Probe) (len : Nat) : Option (List Byte) :=
  if s.cnt < s.irlen.length then some (s.irlen.set s.cnt (BitVec.ofNat 8 len)) else none

/-- The body of the inner loop. -/
def probeBit (max : Int) (bit : Bool) (s : Probe) : Option Turn :=
  if bit then
    let s := { s with ones := s.ones + 1 }
    if (s.cnt : Int) = max then some (.tooMany s)
    else if 0 < s.zeros then do
      let irlen ← s.store (s.zeros + s.ones)
      return .next { s with irlen := irlen, cnt := s.cnt + 1, zeros := 0 }
    else some (.next { s with zeros := 0 })
  else
    let s := { s with zeros := s.zeros + 1 }
    -- 2 ones ??
    if 1 < s.ones then some (.leave s) else some (.next { s with ones := 0 })

/-- The inner loop, over the bits of a word. -/
def probeBits (max : Int) : List Bool → Probe → Option Turn
  | [], s => some (.next s)
  | bit :: bits, s =>
      match probeBit max bit s with
      | some (.next s) => probeBits max bits s
      | turn => turn

/-- The outer loop. After a `break` it goes on with the next word. -/
def probeWords (max : Int) : List Word → Probe → Option Turn
  | [], s => some (.next s)
  | w :: ws, s =>
      match probeBits max (wordBits w) s with
      | some (.next s) => probeWords max ws s
      | some (.leave s) => probeWords max ws s
      | turn => turn

/-- `jtag_chain_probe`: the value returned, the count if it is stored, and the array. -/
def jtagChainProbe (jtagIrScan : List Word → Int × List Word) (irlen : List Byte) (max : Int) :
    Option (Int × Option Nat × List Byte) := do
  let (ret, vec) := jtagIrScan vecOfOnes
  if ret ≠ jtagOk then return (ret, none, irlen)
  match ← probeWords max vec ⟨0, 0, 0, irlen⟩ with
  | .tooMany s => return (jtagErrTooManyTaps, none, s.irlen)
  | .next s | .leave s =>
      let irlen ← s.store 0
      return (jtagOk, some s.cnt, irlen)

/-! ## Chains -/

/-- What instruction registers of some lengths capture. -/
def captured (lens : List Nat) : List Bool :=
  lens.flatMap fun len => true :: List.replicate (len - 1) false

/-- The scan of a chain: the bits captured come back, and ones behind them. -/
structure Answers (jtagIrScan : List Word → Int × List Word) (lens : List Nat) : Prop where
  ok : (jtagIrScan vecOfOnes).1 = jtagOk
  bits : vecBits (jtagIrScan vecOfOnes).2 =
    captured lens ++ List.replicate (jtagVecBitsMax - lens.sum) true

/-- The probe finds the lengths. -/
def Probes (jtagIrScan : List Word → Int × List Word) (irlen : List Byte) (max : Int)
    (lens : List Nat) : Prop :=
  ∃ out, jtagChainProbe jtagIrScan irlen max = some (jtagOk, some lens.length, out) ∧
    ∀ i < lens.length, (out.getD i 0).toNat = lens.getD i 0

/-! ## The loops -/

section Loops

variable {max : Int} {s : Probe}

theorem probeBits_append (max : Int) (as bs : List Bool) (s : Probe) :
    probeBits max (as ++ bs) s =
      match probeBits max as s with
      | some (.next s) => probeBits max bs s
      | turn => turn := by
  induction as generalizing s with
  | nil => rfl
  | cons a as ih =>
      rw [List.cons_append, probeBits, probeBits]
      cases probeBit max a s with
      | none => rfl
      | some turn =>
          cases turn with
          | next s => exact ih s
          | leave s => rfl
          | tooMany s => rfl

theorem probeBits_trans {as bs : List Bool} {s₁ : Probe} {turn : Option Turn}
    (has : probeBits max as s = some (.next s₁)) (hbs : probeBits max bs s₁ = turn) :
    probeBits max (as ++ bs) s = turn := by
  rw [probeBits_append, has]
  exact hbs

/-- Without a `break` the words are scanned like the list of their bits. -/
theorem probeWords_eq {ws : List Word} {turn : Turn} (hturn : ∀ s', turn ≠ .leave s')
    (h : probeBits max (vecBits ws) s = some turn) : probeWords max ws s = some turn := by
  induction ws generalizing s with
  | nil => exact h
  | cons w ws ih =>
      rw [vecBits, List.flatMap_cons, probeBits_append] at h
      rw [probeWords]
      cases hw : probeBits max (wordBits w) s with
      | none =>
          rw [hw] at h
          cases h
      | some turn' =>
          rw [hw] at h
          cases turn' with
          | next s => exact ih h
          | leave s =>
              cases h
              exact absurd rfl (hturn s)
          | tooMany s => exact h

theorem probeBits_zeros (max : Int) (n : Nat) (s : Probe) (hones : s.ones ≤ 1) :
    probeBits max (List.replicate (n + 1) false) s =
      some (.next { s with ones := 0, zeros := s.zeros + (n + 1) }) := by
  have hone : ¬1 < s.ones := by omega
  have hbit : probeBit max false s = some (.next { s with ones := 0, zeros := s.zeros + 1 }) := by
    simp [probeBit, hone]
  induction n generalizing s with
  | zero => simp [probeBits, hbit]
  | succ n ih =>
      rw [List.replicate_succ, probeBits, hbit]
      simp only
      rw [ih _ (Nat.zero_le _) (by simp) (by simp [probeBit])]
      simp only [Nat.add_assoc, Nat.add_comm 1]

theorem probeBits_ones (n : Nat) (hzeros : s.zeros = 0) (hmax : (s.cnt : Int) ≠ max) :
    probeBits max (List.replicate n true) s = some (.next { s with ones := s.ones + n }) := by
  induction n generalizing s with
  | zero => rfl
  | succ n ih =>
      have hbit : probeBit max true s = some (.next { s with ones := s.ones + 1 }) := by
        simp [probeBit, hzeros, hmax]
      have hrest := ih (s := { s with ones := s.ones + 1 }) hzeros hmax
      rw [List.replicate_succ, probeBits, hbit]
      simp only [hrest, Nat.add_assoc, Nat.add_comm 1]

/-- A one behind zeros stores a length. -/
theorem probeBit_store (hzeros : 0 < s.zeros) (hones : s.ones = 0) (hmax : (s.cnt : Int) ≠ max)
    (hcnt : s.cnt < s.irlen.length) : probeBit max true s = some (.next
      ⟨1, 0, s.cnt + 1, s.irlen.set s.cnt (BitVec.ofNat 8 (s.zeros + 1))⟩) := by
  simp [probeBit, Probe.store, hzeros, hones, hmax, hcnt]

end Loops
/-! ## The scan of a chain -/

/-- The scan within the zeros of a register of length `len`, with the lengths `found` stored. -/
structure Inside (irlen : List Byte) (found : List Nat) (len : Nat) (s : Probe) : Prop where
  ones : s.ones = 0
  zeros : s.zeros + 1 = len
  cnt : s.cnt = found.length
  irlen : s.irlen = found.map (BitVec.ofNat 8) ++ irlen.drop found.length

section Chains

variable {max : Int} {irlen : List Byte} {found : List Nat} {len : Nat} {s : Probe}

theorem stored_eq (hlt : found.length < irlen.length) (b : Byte) :
    (found.map (BitVec.ofNat 8) ++ irlen.drop found.length).set found.length b =
      found.map (BitVec.ofNat 8) ++ b :: irlen.drop (found.length + 1) := by
  have hle : (found.map (BitVec.ofNat 8)).length ≤ found.length := (List.length_map _).le
  rw [List.drop_eq_getElem_cons hlt, List.set_append_right _ _ hle, List.length_map, Nat.sub_self,
    List.set_cons_zero]

/-- The one behind a register stores its length. -/
theorem Inside.store (h : Inside irlen found len s) (hlen : 2 ≤ len)
    (hmax : (found.length : Int) ≠ max) (hlt : found.length < irlen.length) :
    probeBit max true s = some (.next ⟨1, 0, found.length + 1,
      (found ++ [len]).map (BitVec.ofNat 8) ++ irlen.drop (found.length + 1)⟩) := by
  have hzeros := h.zeros
  have hcnt : s.cnt < s.irlen.length := by
    rw [h.cnt, h.irlen, List.length_append, List.length_map, List.length_drop]
    omega
  rw [probeBit_store (by omega) h.ones (by rw [h.cnt]; exact hmax) hcnt, h.zeros, h.cnt, h.irlen,
    stored_eq hlt]
  simp

theorem Inside.next (h : Inside irlen found len s) (hlen : 2 ≤ len)
    (hmax : (found.length : Int) ≠ max) (hlt : found.length < irlen.length) {len' : Nat}
    (hlen' : 2 ≤ len') : ∃ s', probeBits max (true :: List.replicate (len' - 1) false) s =
      some (.next s') ∧ Inside irlen (found ++ [len]) len' s' := by
  obtain ⟨n, rfl⟩ := Nat.exists_eq_add_of_le hlen'
  have hcount : 2 + n - 1 = n + 1 := by omega
  rw [probeBits, h.store hlen hmax hlt, hcount]
  simp only
  rw [probeBits_zeros max n _ le_rfl]
  refine ⟨_, rfl, rfl, ?_, ?_, ?_⟩
  · simp only
    omega
  · rw [List.length_append, List.length_singleton]
  · rw [List.length_append, List.length_singleton]

/-- The registers are passed one after the other. -/
theorem Inside.chain {lens : List Nat} (h : Inside irlen found len s)
    (hlens : ∀ l ∈ len :: lens, 2 ≤ l) (hmax : (found.length + lens.length : Int) ≤ max)
    (hlt : found.length + lens.length ≤ irlen.length) :
    ∃ s' found' len', probeBits max (captured lens) s = some (.next s') ∧
      found' ++ [len'] = found ++ len :: lens ∧ Inside irlen found' len' s' := by
  induction lens generalizing found len s with
  | nil => exact ⟨s, found, len, rfl, rfl, h⟩
  | cons l lens ih =>
      rw [List.forall_mem_cons] at hlens
      rw [List.length_cons] at hmax hlt
      push_cast at hmax
      have hne : (found.length : Int) ≠ max := by omega
      obtain ⟨s₁, hseg, h₁⟩ := h.next hlens.1 hne (by omega) (hlens.2 l List.mem_cons_self)
      have hfound : (found ++ [len]).length = found.length + 1 := List.length_append
      have hmax' : ((found ++ [len]).length + lens.length : Int) ≤ max := by
        rw [hfound]
        push_cast
        omega
      obtain ⟨s', found', len', hrest, heq, h'⟩ := ih h₁ hlens.2 hmax' (by omega)
      refine ⟨s', found', len', ?_, ?_, h'⟩
      · rw [captured, List.flatMap_cons]
        exact probeBits_trans hseg hrest
      · rw [heq, List.append_assoc]
        rfl

/-- The first register of a chain. -/
theorem inside_first (hmax : (0 : Int) ≠ max) (hlen : 2 ≤ len) :
    ∃ s, probeBits max (true :: List.replicate (len - 1) false) ⟨0, 0, 0, irlen⟩ = some (.next s) ∧
      Inside irlen [] len s := by
  obtain ⟨n, rfl⟩ := Nat.exists_eq_add_of_le hlen
  have hcount : 2 + n - 1 = n + 1 := by omega
  have hbit : probeBit max true ⟨0, 0, 0, irlen⟩ = some (.next ⟨1, 0, 0, irlen⟩) := by
    simp [probeBit, hmax]
  rw [probeBits, hbit, hcount]
  simp only
  rw [probeBits_zeros max n _ le_rfl]
  refine ⟨_, rfl, rfl, ?_, rfl, rfl⟩
  simp only
  omega

/-- All registers of a chain of at most `max` have been passed. -/
theorem chain_inside {lens : List Nat} (hne : lens ≠ []) (hlens : ∀ l ∈ lens, 2 ≤ l)
    (hmax : (lens.length : Int) ≤ max) (hlt : max ≤ irlen.length) :
    ∃ s found len, probeBits max (captured lens) ⟨0, 0, 0, irlen⟩ = some (.next s) ∧
      found ++ [len] = lens ∧ Inside irlen found len s := by
  cases lens with
  | nil => exact absurd rfl hne
  | cons l lens =>
      rw [List.length_cons] at hmax
      push_cast at hmax
      have hne' : (0 : Int) ≠ max := by omega
      have hmax' : (([] : List Nat).length + lens.length : Int) ≤ max := by
        rw [List.length_nil]
        push_cast
        omega
      obtain ⟨s₁, hseg, h₁⟩ := @inside_first max irlen l hne' (hlens l List.mem_cons_self)
      obtain ⟨s, found, len, hrest, heq, h⟩ := h₁.chain hlens hmax' (by
        rw [List.length_nil]
        omega)
      refine ⟨s, found, len, ?_, heq, h⟩
      rw [captured, List.flatMap_cons]
      exact probeBits_trans hseg hrest

end Chains
/-! ## The probe -/

section Probing

variable {jtagIrScan : List Word → Int × List Word} {irlen : List Byte} {max : Int}
  {lens found : List Nat} {len : Nat} {s : Probe}

/-- The ones behind a chain: the first stores the last length, and the second is counted as one
device too many if there are `max`. -/
theorem Inside.rest (h : Inside irlen found len s) (hlen : 2 ≤ len)
    (hmax : (found.length + 1 : Int) ≤ max) (hlt : max ≤ irlen.length) (n : Nat) :
    probeBits max (List.replicate (n + 1) true) s =
      some (if n ≠ 0 ∧ (found.length + 1 : Int) = max then
        .tooMany ⟨2, 0, found.length + 1,
          (found ++ [len]).map (BitVec.ofNat 8) ++ irlen.drop (found.length + 1)⟩
      else .next ⟨n + 1, 0, found.length + 1,
        (found ++ [len]).map (BitVec.ofNat 8) ++ irlen.drop (found.length + 1)⟩) := by
  have hne : (found.length : Int) ≠ max := by omega
  rw [List.replicate_succ, probeBits, h.store hlen hne (by omega)]
  simp only
  by_cases hfull : (found.length + 1 : Int) = max
  · cases n with
    | zero => rfl
    | succ n =>
        rw [if_pos ⟨Nat.succ_ne_zero n, hfull⟩, List.replicate_succ, probeBits]
        simp [probeBit, hfull]
  · rw [if_neg fun h => hfull h.2, probeBits_ones n rfl (by push_cast; exact hfull)]
    simp only [Nat.add_comm 1]

/-- What the loops leave of the vector of a chain. -/
theorem probeWords_chain (hscan : Answers jtagIrScan lens) (hne : lens ≠ [])
    (hlens : ∀ l ∈ lens, 2 ≤ l) (hsum : lens.sum < jtagVecBitsMax)
    (hmax : (lens.length : Int) ≤ max) (hlt : max ≤ irlen.length) :
    probeWords max (jtagIrScan vecOfOnes).2 ⟨0, 0, 0, irlen⟩ =
      some (if lens.sum + 1 ≠ jtagVecBitsMax ∧ (lens.length : Int) = max then
        .tooMany ⟨2, 0, lens.length,
          lens.map (BitVec.ofNat 8) ++ irlen.drop lens.length⟩
      else .next ⟨jtagVecBitsMax - lens.sum, 0, lens.length,
        lens.map (BitVec.ofNat 8) ++ irlen.drop lens.length⟩) := by
  obtain ⟨s, found, len, hbits, rfl, h⟩ := chain_inside hne hlens hmax hlt
  have hlength : (found ++ [len]).length = found.length + 1 := List.length_append
  have hlen : 2 ≤ len := hlens len (List.mem_append_right _ List.mem_cons_self)
  obtain ⟨n, hn⟩ : ∃ n, jtagVecBitsMax - (found ++ [len]).sum = n + 1 :=
    Nat.exists_eq_add_one.mpr (by omega)
  have hlast : (found ++ [len]).sum + 1 ≠ jtagVecBitsMax ↔ n ≠ 0 := by omega
  rw [hlength] at hmax ⊢
  push_cast at hmax ⊢
  have hrest := h.rest hlen hmax hlt n
  have hscanned := probeBits_trans hbits hrest
  rw [← hn, ← hscan.bits] at hscanned
  simp only [hlast]
  apply probeWords_eq
  · intro s'
    split <;> simp
  · rw [hscanned]

theorem getD_stored {i : Nat} (hi : i < lens.length) (hle : ∀ l ∈ lens, l < 256)
    (tail : List Byte) :
    ((lens.map (BitVec.ofNat 8) ++ tail).getD i 0).toNat = lens.getD i 0 := by
  have hget : i < (lens.map (BitVec.ofNat 8)).length := by rwa [List.length_map]
  simp only [List.getD_eq_getElem?_getD, List.getElem?_append_left hget, List.getElem?_map,
    List.getElem?_eq_getElem hi, Option.map_some, Option.getD_some, BitVec.toNat_ofNat]
  exact Nat.mod_eq_of_lt (hle _ (List.getElem_mem hi))

/-- When the loops end, the probe finds the lengths if there is room for the zero behind them. -/
theorem probes_of_next (hscan : Answers jtagIrScan lens) (hle : ∀ l ∈ lens, l < 256) {n : Nat}
    (hwords : probeWords max (jtagIrScan vecOfOnes).2 ⟨0, 0, 0, irlen⟩ =
      some (.next ⟨n, 0, lens.length, lens.map (BitVec.ofNat 8) ++ irlen.drop lens.length⟩)) :
    Probes jtagIrScan irlen max lens ↔ lens.length < irlen.length := by
  have hlength : lens.length < (lens.map (BitVec.ofNat 8) ++ irlen.drop lens.length).length ↔
      lens.length < irlen.length := by
    rw [List.length_append, List.length_map, List.length_drop]
    omega
  rw [Probes, jtagChainProbe]
  simp only [hscan.ok, hwords, Probe.store, hlength, ne_eq, not_true_eq_false, if_false,
    Option.bind_eq_bind, Option.bind_some]
  by_cases hroom : lens.length < irlen.length
  · simp only [hroom, if_true, Option.bind_some, Option.pure_def, Option.some.injEq, Prod.mk.injEq,
      true_and, iff_true]
    refine ⟨_, rfl, ?_⟩
    intro i hi
    rw [stored_eq hroom]
    exact getD_stored hi hle _
  · simp only [hroom, if_false, Option.bind_none, reduceCtorEq, false_and, exists_false]

/-- A chain of at most `max` devices is found exactly if it has fewer, or if a single bit of the
vector is behind it and the array is longer than `max`. -/
theorem probes_iff (hscan : Answers jtagIrScan lens) (hne : lens ≠ [])
    (hlens : ∀ l ∈ lens, 2 ≤ l) (hsum : lens.sum < jtagVecBitsMax)
    (hmax : (lens.length : Int) ≤ max) (hlt : max ≤ irlen.length) :
    Probes jtagIrScan irlen max lens ↔ (lens.length : Int) < max ∨
      lens.sum + 1 = jtagVecBitsMax ∧ lens.length < irlen.length := by
  have hle : ∀ l ∈ lens, l < 256 := fun l hl => (List.le_sum_of_mem hl).trans_lt hsum
  have hwords := probeWords_chain hscan hne hlens hsum hmax hlt
  by_cases hfull : lens.sum + 1 ≠ jtagVecBitsMax ∧ (lens.length : Int) = max
  · rw [if_pos hfull] at hwords
    constructor
    · rintro ⟨out, hout, -⟩
      rw [jtagChainProbe] at hout
      simp [hscan.ok, hwords, jtagOk, jtagErrTooManyTaps] at hout
    · rintro (hless | ⟨hlast, -⟩)
      · omega
      · exact absurd hlast hfull.1
  · rw [if_neg hfull] at hwords
    rw [probes_of_next hscan hle hwords]
    omega

/-- The scan of a chain of one register of four bits. -/
def fourBitScan (_ : List Word) : Int × List Word :=
  (jtagOk, 0xfffffff1 :: List.replicate 7 0xffffffff)

theorem fourBitScan_answers : Answers fourBitScan [4] := by
  constructor <;> decide +kernel

theorem probes_iff_one_of_two : Probes fourBitScan [0x55, 0x55] 2 [4] :=
  (probes_iff fourBitScan_answers (by decide) (by decide) (by decide) (by decide) (by decide)).mpr
    (by decide)

/-- With room for a single device it is one too many. -/
theorem not_probes_one_of_one : ¬Probes fourBitScan [0x55, 0x55] 1 [4] := by
  rintro ⟨out, hout, -⟩
  have herror : jtagChainProbe fourBitScan [0x55, 0x55] 1 =
      some (jtagErrTooManyTaps, none, [4, 0x55]) := by
    decide
  rw [herror] at hout
  cases hout

end Probing

end YardIce.Jtag
