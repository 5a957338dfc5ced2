import YardIce.Lib.Bits
import Mathlib.Data.Finset.Range
import Mathlib.Logic.Function.Basic

/-!
# Slot allocators

A bit of an allocation bitmap is set while its object is used. The bits behind the last object are
set from the start.

## Implementation notes

A shift by a register takes the low byte of it, as the processor does. The callers start the
search with an unsigned field, and no sum leaves an `int`.
-/

namespace YardIce.Thinkos

open Lib

/-! ## The functions -/

/-- `__clz` -/
def clz (x : BitVec 32) : Nat := x.clz.toNat

/-- `__rbit` -/
def rbit (x : BitVec 32) : BitVec 32 := x.reverse

/-- `__bit_mem_wr(ptr, bit, 1)` in a word. -/
def bitSet (x : BitVec 32) (bit : Nat) : BitVec 32 := x ||| (1#32 <<< bit)

/-- `__bit_mem_wr(ptr, bit, 0)` in a word. -/
def bitClr (x : BitVec 32) (bit : Nat) : BitVec 32 := x &&& ~~~(1#32 <<< bit)

/-- What a register gives as the amount of a shift. -/
def shiftAmount (n : Int) : Nat := (n % 256).toNat

/-- `thinkos_alloc_lo`: its value and the word at `ptr`. -/
def thinkosAllocLo (word : BitVec 32) (start : Int) : Int × BitVec 32 :=
  let idx := clz (rbit (~~~(word >>> shiftAmount start))) + start
  if 32 ≤ idx then (-1, word) else (idx, bitSet word idx.toNat)

/-- `thinkos_alloc_hi`: its value and the word at `ptr`. -/
def thinkosAllocHi (word : BitVec 32) (start : Int) : Int × BitVec 32 :=
  let start := if 31 < start then 31 else start
  let idx := start - clz (~~~(word <<< shiftAmount (31 - start)))
  if idx < 0 then (-1, word) else (idx, bitSet word idx.toNat)

/-- The words of a bitmap. -/
abbrev Bitmap := Nat → BitVec 32

/-- The loop of `thinkos_bmp_alloc` from the word `i` on. -/
def bmpSearch (bmp : Bitmap) : Nat → Nat → Int × Bitmap
  | 0, _ => (-1, bmp)
  | left + 1, i =>
      let j := clz (rbit (~~~(bmp i)))
      if j < 32 then (32 * i + j, Function.update bmp i (bitSet (bmp i) j))
      else bmpSearch bmp left (i + 1)

/-- `thinkos_bmp_alloc` -/
def thinkosBmpAlloc (bmp : Bitmap) (bits : Nat) : Int × Bitmap :=
  bmpSearch bmp ((bits + 31) / 32) 0

/-- What `thinkos_init` makes of the bitmap of `bits` objects. -/
def thinkosInit (bmp : Bitmap) (bits : Nat) : Bitmap := fun i =>
  if i < bits / 32 then 0
  else if i = bits / 32 ∧ bits % 32 ≠ 0 then 0xffffffff#32 <<< (bits % 32) else bmp i

/-- The services that free an object, with the check of their argument. -/
def bmpFree (bmp : Bitmap) (bits idx : Nat) : Bitmap :=
  if bits ≤ idx then bmp else Function.update bmp (idx / 32) (bitClr (bmp (idx / 32)) (idx % 32))

/-! ## The first clear bit -/

theorem clz_le_32 (x : BitVec 32) : clz x ≤ 32 := by
  have hle := BitVec.clz_le (x := x)
  exact BitVec.le_def.mp hle

theorem clz_lt_iff (x : BitVec 32) : clz x < 32 ↔ x ≠ 0 :=
  Iff.trans (BitVec.lt_def (x := x.clz) (y := 32)).symm BitVec.clz_lt_iff_ne_zero

theorem clz_rbit (x : BitVec 32) : clz (rbit x) = x.ctz.toNat :=
  congrArg BitVec.toNat BitVec.ctz_eq_reverse_clz.symm

/-- The number of trailing ones is the place of the first clear bit. -/
theorem trailing_ones (x : BitVec 32) :
    (∀ j < clz (rbit (~~~x)), j < 32 → x.getLsbD j = true) ∧
      (clz (rbit (~~~x)) < 32 → x.getLsbD (clz (rbit (~~~x))) = false) := by
  rw [clz_rbit]
  refine ⟨fun j hj hlt => ?_, fun hlt => ?_⟩
  · have hbit := BitVec.getLsbD_false_of_lt_ctz hj
    rw [BitVec.getLsbD_not] at hbit
    simpa [hlt] using hbit
  · have hne : ~~~x ≠ 0 := BitVec.ctz_lt_iff_ne_zero.mp (BitVec.lt_def.mpr hlt)
    have hbit := BitVec.getLsbD_true_ctz_of_ne_zero hne
    rw [BitVec.getLsbD_not] at hbit
    simpa [hlt] using hbit

/-- The number of leading ones is the distance of the last clear bit from the top. -/
theorem leading_ones (x : BitVec 32) :
    (∀ j < 32, 32 - clz (~~~x) ≤ j → x.getLsbD j = true) ∧
      (clz (~~~x) < 32 → x.getLsbD (31 - clz (~~~x)) = false) := by
  refine ⟨fun j hj hle => ?_, fun hlt => ?_⟩
  · have hbit : (~~~x).getLsbD j = false := by
      refine Nat.testBit_lt_two_pow (BitVec.toNat_lt_two_pow_sub_clz.trans_le ?_)
      exact Nat.pow_le_pow_right (by decide) hle
    rw [BitVec.getLsbD_not] at hbit
    simpa [hj] using hbit
  · have hbit := BitVec.getLsbD_true_clz_of_ne_zero (by decide) ((clz_lt_iff _).mp hlt)
    rw [BitVec.getLsbD_not] at hbit
    have hclear := (Bool.and_eq_true_iff.mp hbit).2
    rw [Bool.not_eq_true'] at hclear
    exact hclear

/-! ## The words of the threads -/

/-- The value is the first clear bit of those that are sought, which is set then, or -1 when all of
them are set. -/
def Takes (before : Nat → Nat → Prop) (sought : Nat → Prop) (word : BitVec 32)
    (r : Int × BitVec 32) : Prop :=
  (∃ i : Nat, i < 32 ∧ r.1 = i ∧ sought i ∧ word.getLsbD i = false ∧
    (∀ j < 32, sought j → before j i → word.getLsbD j = true) ∧
    ∀ j, r.2.getLsbD j = true ↔ j = i ∨ word.getLsbD j = true) ∨
  (r = (-1, word) ∧ ∀ j < 32, sought j → word.getLsbD j = true)

theorem shiftAmount_of_lt {n : Nat} (h : n < 256) : shiftAmount n = n := by
  unfold shiftAmount
  rw [Int.emod_eq_of_lt (by omega) (by omega), Int.toNat_natCast]

theorem thinkosAllocLo_takes (word : BitVec 32) {start : Int} (hstart : 0 ≤ start) :
    Takes (· < ·) (fun j => start ≤ j) word (thinkosAllocLo word start) := by
  obtain ⟨s, rfl⟩ := Int.eq_ofNat_of_zero_le hstart
  obtain ⟨hset, hclr⟩ := trailing_ones (word >>> shiftAmount s)
  unfold thinkosAllocLo
  generalize hk : clz (rbit (~~~(word >>> shiftAmount s))) = k at hset hclr
  simp only
  split_ifs with hidx
  · refine Or.inr ⟨rfl, fun j hj hs => ?_⟩
    rw [shiftAmount_of_lt (by omega)] at hset
    have hbit := hset (j - s) (by omega) (by omega)
    rw [BitVec.getLsbD_ushiftRight, Nat.add_sub_cancel' (by omega)] at hbit
    exact hbit
  · rw [shiftAmount_of_lt (by omega)] at hset hclr
    have hclear := hclr (by omega)
    rw [BitVec.getLsbD_ushiftRight] at hclear
    have htoNat : ((k : Int) + s).toNat = s + k := by omega
    rw [htoNat]
    refine Or.inl ⟨s + k, by omega, by omega, show (s : Int) ≤ (s + k : Nat) by omega, hclear,
      fun j hj hs hlt => ?_, getLsbD_set word (by omega)⟩
    have hbit := hset (j - s) (by omega) (by omega)
    rw [BitVec.getLsbD_ushiftRight, Nat.add_sub_cancel' (by omega)] at hbit
    exact hbit

theorem getLsbD_shiftLeft_add (word : BitVec 32) {j n : Nat} (h : j + n < 32) :
    (word <<< n).getLsbD (j + n) = word.getLsbD j := by
  rw [BitVec.getLsbD_shiftLeft, Nat.add_sub_cancel]
  simp [h]

theorem thinkosAllocHi_takes (word : BitVec 32) (start : Int) :
    Takes (· > ·) (fun j => (j : Int) ≤ start) word (thinkosAllocHi word start) := by
  unfold thinkosAllocHi
  simp only
  generalize hs : (if 31 < start then 31 else start) = s
  have hsought : ∀ j : Nat, j < 32 → ((j : Int) ≤ start ↔ (j : Int) ≤ s) := fun j hj => by
    rw [← hs]
    split_ifs <;> omega
  have hs31 : s ≤ 31 := by
    rw [← hs]
    split_ifs <;> omega
  obtain ⟨hset, hclr⟩ := leading_ones (word <<< shiftAmount (31 - s))
  generalize clz (~~~(word <<< shiftAmount (31 - s))) = k at hset hclr
  by_cases hneg : s < 0
  · rw [if_pos (by omega)]
    exact Or.inr ⟨rfl, fun j hj hle => absurd ((hsought j hj).mp hle) (by omega)⟩
  obtain ⟨n, hn⟩ := Int.eq_ofNat_of_zero_le (show 0 ≤ 31 - s by omega)
  have hamount : shiftAmount (31 - s) = n := by
    rw [hn]
    exact shiftAmount_of_lt (by omega)
  rw [hamount] at hset hclr
  split_ifs with hidx
  · refine Or.inr ⟨rfl, fun j hj hle => ?_⟩
    have hle := (hsought j hj).mp hle
    rw [← getLsbD_shiftLeft_add word (show j + n < 32 by omega)]
    exact hset _ (by omega) (by omega)
  · have hclear := hclr (by omega)
    have htoNat : (s - k).toNat = 31 - k - n := by omega
    rw [htoNat]
    refine Or.inl ⟨31 - k - n, by omega, by omega, (hsought _ (by omega)).mpr (by omega), ?_,
      fun j hj hle hlt => ?_, getLsbD_set word (by omega)⟩
    · rw [← getLsbD_shiftLeft_add word (show 31 - k - n + n < 32 by omega),
        Nat.sub_add_cancel (by omega)]
      exact hclear
    · have hle := (hsought j hj).mp hle
      rw [← getLsbD_shiftLeft_add word (show j + n < 32 by omega)]
      exact hset _ (by omega) (by omega)

/-! ## Bitmaps -/

/-- A bit of a bitmap. -/
def Bitmap.bit (bmp : Bitmap) (idx : Nat) : Bool := (bmp (idx / 32)).getLsbD (idx % 32)

theorem Bitmap.bit_update (bmp : Bitmap) {idx : Nat} {word : BitVec 32} {P : Nat → Prop}
    (h : ∀ j < 32, word.getLsbD j = true ↔ P (32 * (idx / 32) + j))
    (hP : ∀ i, i / 32 ≠ idx / 32 → (P i ↔ bmp.bit i = true)) (i : Nat) :
    Bitmap.bit (Function.update bmp (idx / 32) word) i = true ↔ P i := by
  unfold Bitmap.bit
  by_cases hi : i / 32 = idx / 32
  · rw [hi, Function.update_self, h _ (Nat.mod_lt _ (by decide)), ← hi, Nat.div_add_mod]
  · rw [Function.update_of_ne hi]
    exact (hP i hi).symm

theorem Bitmap.bit_set (bmp : Bitmap) (idx i : Nat) :
    Bitmap.bit (Function.update bmp (idx / 32) (bitSet (bmp (idx / 32)) (idx % 32))) i = true ↔
      i = idx ∨ bmp.bit i = true := by
  refine bmp.bit_update (P := fun i => i = idx ∨ bmp.bit i = true) (fun j hj => ?_) (fun i hi =>
    ⟨fun h => h.resolve_left fun heq => hi (congrArg (· / 32) heq), Or.inr⟩) i
  have hdiv : (32 * (idx / 32) + j) / 32 = idx / 32 := by omega
  have hmod : (32 * (idx / 32) + j) % 32 = j := by omega
  unfold Bitmap.bit
  rw [hdiv, hmod]
  refine (getLsbD_set _ (Nat.mod_lt _ (by decide)) j).trans (or_congr_left ?_)
  omega

theorem Bitmap.bit_clr (bmp : Bitmap) (idx i : Nat) :
    Bitmap.bit (Function.update bmp (idx / 32) (bitClr (bmp (idx / 32)) (idx % 32))) i = true ↔
      bmp.bit i = true ∧ i ≠ idx := by
  refine bmp.bit_update (P := fun i => bmp.bit i = true ∧ i ≠ idx) (fun j hj => ?_) (fun i hi =>
    and_iff_left fun heq => hi (congrArg (· / 32) heq)) i
  have hdiv : (32 * (idx / 32) + j) / 32 = idx / 32 := by omega
  have hmod : (32 * (idx / 32) + j) % 32 = j := by omega
  unfold Bitmap.bit
  rw [hdiv, hmod]
  refine (getLsbD_clr _ (Nat.mod_lt _ (by decide)) j).trans (and_congr_right fun _ => ?_)
  omega

/-- The search takes the first clear bit of the words that are left, if there is one. -/
theorem bmpSearch_cases (bmp : Bitmap) (left i : Nat) :
    (∃ idx : Nat, idx < 32 * (i + left) ∧ bmp.bit idx = false ∧ bmpSearch bmp left i =
      ((idx : Int), Function.update bmp (idx / 32) (bitSet (bmp (idx / 32)) (idx % 32)))) ∨
    bmpSearch bmp left i = (-1, bmp) ∧
      ∀ idx, 32 * i ≤ idx → idx < 32 * (i + left) → bmp.bit idx = true := by
  induction left generalizing i with
  | zero => exact Or.inr ⟨rfl, fun idx hle hlt => absurd hle (Nat.not_le_of_lt hlt)⟩
  | succ left ih =>
      obtain ⟨hset, hclr⟩ := trailing_ones (bmp i)
      unfold bmpSearch
      generalize clz (rbit (~~~(bmp i))) = j at hset hclr
      simp only
      split_ifs with hj
      · have hdiv : (32 * i + j) / 32 = i := by omega
        have hmod : (32 * i + j) % 32 = j := by omega
        refine Or.inl ⟨32 * i + j, by omega, ?_, ?_⟩
        · unfold Bitmap.bit
          rw [hdiv, hmod]
          exact hclr hj
        · rw [hdiv, hmod]
          rfl
      · rcases ih (i + 1) with ⟨idx, hlt, hbit, hsearch⟩ | ⟨hsearch, hall⟩
        · exact Or.inl ⟨idx, by omega, hbit, hsearch⟩
        · refine Or.inr ⟨hsearch, fun idx hle hlt => ?_⟩
          by_cases hnext : 32 * (i + 1) ≤ idx
          · exact hall idx hnext (by omega)
          · have hdiv : idx / 32 = i := by omega
            unfold Bitmap.bit
            rw [hdiv]
            exact hset _ (by omega) (Nat.mod_lt _ (by decide))

/-- A call for a bitmap. -/
inductive SlotCall
  | alloc
  | free (idx : Nat)

/-- A call, with the objects that are allocated and were not freed since. -/
def SlotCall.run (bits : Nat) : SlotCall → Bitmap × Finset Nat → Bitmap × Finset Nat
  | alloc, s =>
      let r := thinkosBmpAlloc s.1 bits
      (r.2, if r.1 < 0 then s.2 else insert r.1.toNat s.2)
  | free idx, s => (bmpFree s.1 bits idx, s.2.erase idx)

theorem SlotCall.run_alloc (bits : Nat) (s : Bitmap × Finset Nat) :
    alloc.run bits s = ((thinkosBmpAlloc s.1 bits).2,
      if (thinkosBmpAlloc s.1 bits).1 < 0 then s.2
        else insert (thinkosBmpAlloc s.1 bits).1.toNat s.2) :=
  rfl

theorem SlotCall.run_free (bits idx : Nat) (s : Bitmap × Finset Nat) :
    (free idx).run bits s = (bmpFree s.1 bits idx, s.2.erase idx) := rfl

/-- The bitmap and the allocated objects after some calls behind `thinkos_init`. -/
def afterCalls (bmp : Bitmap) (bits : Nat) (calls : List SlotCall) : Bitmap × Finset Nat :=
  calls.foldl (fun s call => call.run bits s) (thinkosInit bmp bits, ∅)

/-- The bits that are set are those of the allocated objects and those behind the last object. -/
structure Accounts (bits : Nat) (s : Bitmap × Finset Nat) : Prop where
  bit : ∀ i < 32 * ((bits + 31) / 32), s.1.bit i = true ↔ i ∈ s.2 ∨ bits ≤ i
  used : ∀ i ∈ s.2, i < bits

namespace Accounts

variable {bits : Nat} {s : Bitmap × Finset Nat}

theorem init (bmp : Bitmap) (bits : Nat) : Accounts bits (thinkosInit bmp bits, ∅) := by
  refine ⟨fun i hi => ?_, fun i hi => absurd hi (Finset.notMem_empty i)⟩
  unfold Bitmap.bit thinkosInit
  simp only [Finset.notMem_empty, false_or]
  split_ifs with hlow hlast
  · exact iff_of_false (by simp) (by omega)
  · rw [BitVec.getLsbD_shiftLeft, show (0xffffffff#32 : BitVec 32) = BitVec.allOnes 32 from rfl,
      BitVec.getLsbD_allOnes]
    simp only [Bool.and_eq_true, decide_eq_true_eq, Bool.not_eq_true', decide_eq_false_iff_not]
    omega
  · exact absurd hi (by omega)

/-- An object that is not allocated is found, unless there is none. -/
theorem alloc (h : Accounts bits s) :
    (∃ idx < bits, idx ∉ s.2 ∧ thinkosBmpAlloc s.1 bits =
      ((idx : Int), Function.update s.1 (idx / 32) (bitSet (s.1 (idx / 32)) (idx % 32)))) ∨
    thinkosBmpAlloc s.1 bits = (-1, s.1) ∧ ∀ i < bits, i ∈ s.2 := by
  rcases bmpSearch_cases s.1 ((bits + 31) / 32) 0 with ⟨idx, hlt, hbit, hsearch⟩ | ⟨hsearch, hall⟩
  · rw [Nat.zero_add] at hlt
    have hclear := mt (h.bit idx hlt).mpr (Bool.eq_false_iff.mp hbit)
    exact Or.inl ⟨idx, Nat.lt_of_not_le fun hle => hclear (Or.inr hle),
      fun hused => hclear (Or.inl hused), hsearch⟩
  · refine Or.inr ⟨hsearch, fun i hi => ?_⟩
    have hword : i < 32 * ((bits + 31) / 32) := by omega
    have hset := hall i (Nat.zero_le i) (by rw [Nat.zero_add]; exact hword)
    exact ((h.bit i hword).mp hset).resolve_right (Nat.not_le_of_lt hi)

theorem run (h : Accounts bits s) (call : SlotCall) : Accounts bits (call.run bits s) := by
  cases call with
  | alloc =>
      rcases h.alloc with ⟨idx, hlt, -, halloc⟩ | ⟨halloc, -⟩
      · rw [SlotCall.run_alloc, halloc]
        simp only [if_neg (Int.not_lt.mpr (Int.natCast_nonneg idx)), Int.toNat_natCast]
        refine ⟨fun i hi => ?_, fun i hi => ?_⟩
        · rw [Bitmap.bit_set, h.bit i hi, Finset.mem_insert, or_assoc]
        · rcases Finset.mem_insert.mp hi with rfl | hi
          · exact hlt
          · exact h.used i hi
      · rw [SlotCall.run_alloc, halloc]
        exact h
  | free idx =>
      rw [SlotCall.run_free]
      unfold bmpFree
      split_ifs with hidx
      · rw [Finset.erase_eq_of_notMem fun hmem => absurd (h.used idx hmem) (Nat.not_lt_of_le hidx)]
        exact h
      · refine ⟨fun i hi => ?_, fun i hi => h.used i (Finset.mem_of_mem_erase hi)⟩
        rw [Bitmap.bit_clr, h.bit i hi, Finset.mem_erase]
        constructor
        · rintro ⟨hused | hbehind, hne⟩
          · exact Or.inl ⟨hne, hused⟩
          · exact Or.inr hbehind
        · rintro (⟨hne, hused⟩ | hbehind)
          · exact ⟨Or.inl hused, hne⟩
          · exact ⟨Or.inr hbehind, fun heq => hidx (heq ▸ hbehind)⟩

theorem afterCalls (bmp : Bitmap) (bits : Nat) (calls : List SlotCall) :
    Accounts bits (afterCalls bmp bits calls) := by
  unfold Thinkos.afterCalls
  induction calls using List.reverseRecOn with
  | nil => exact init bmp bits
  | append_singleton calls call ih =>
      rw [List.foldl_append]
      exact ih.run call

end Accounts

end YardIce.Thinkos
