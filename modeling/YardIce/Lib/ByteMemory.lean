import Mathlib.Data.BitVec
import Mathlib.Tactic.IntervalCases

/-!
# Byte-addressed memory

Stores of several bytes at an address, and the four byte lanes of a word. Addresses are words,
so a store may go on at the lowest address behind the highest.
-/

namespace YardIce.Lib

/-! ## Stores -/

section Stores

variable {w : Nat} {β : Type*}

/-- Store `n` bytes from an address on. -/
def putBytes (mem : BitVec w → β) (base : BitVec w) (n : Nat) (f : Nat → β) : BitVec w → β :=
  fun a => if (a - base).toNat < n then f (a - base).toNat else mem a

variable {mem : BitVec w → β} {base : BitVec w} {n m : Nat} {f g : Nat → β}

@[simp] theorem putBytes_zero : putBytes mem base 0 f = mem := rfl

theorem offset_toNat {i : Nat} (hi : i < 2 ^ w) : (base + BitVec.ofNat w i - base).toNat = i := by
  rw [add_sub_cancel_left, BitVec.toNat_ofNat, Nat.mod_eq_of_lt hi]

theorem putBytes_of_lt {i : Nat} (hi : i < n) (hn : n ≤ 2 ^ w) :
    putBytes mem base n f (base + BitVec.ofNat w i) = f i := by
  rw [putBytes, offset_toNat (by lia), if_pos hi]

theorem putBytes_of_le {a : BitVec w} (ha : n ≤ (a - base).toNat) :
    putBytes mem base n f a = mem a :=
  if_neg (by lia)

theorem putBytes_congr (h : ∀ i < n, f i = g i) : putBytes mem base n f = putBytes mem base n g := by
  funext a
  simp only [putBytes]
  split
  · next hlt => exact h _ hlt
  · rfl

/-- The offset behind the first `n` bytes. -/
theorem sub_add_toNat (a : BitVec w) (hn : n < 2 ^ w) :
    (a - (base + BitVec.ofNat w n)).toNat =
      if n ≤ (a - base).toNat then (a - base).toNat - n else (a - base).toNat + 2 ^ w - n := by
  have hlt := (a - base).isLt
  rw [sub_add_eq_sub_sub, BitVec.toNat_sub, BitVec.toNat_ofNat, Nat.mod_eq_of_lt hn]
  generalize (a - base).toNat = x at hlt
  split
  · next hle =>
    have heq : 2 ^ w - n + x = x - n + 2 ^ w := by lia
    rw [heq, Nat.add_mod_right, Nat.mod_eq_of_lt (by lia)]
  · rw [Nat.mod_eq_of_lt (by lia)]
    lia

/-- Stores of neighbouring bytes are one store. -/
theorem putBytes_append (h : n + m ≤ 2 ^ w) :
    putBytes (putBytes mem base n f) (base + BitVec.ofNat w n) m g =
      putBytes mem base (n + m) fun i => if i < n then f i else g (i - n) := by
  rcases Nat.eq_zero_or_pos m with rfl | hm
  · rw [putBytes_zero]
    exact putBytes_congr fun i hi => (if_pos hi).symm
  · funext a
    have hlt := (a - base).isLt
    simp only [putBytes, sub_add_toNat a (by lia : n < 2 ^ w)]
    generalize (a - base).toNat = x at hlt
    by_cases hn : x < n
    · have hle : ¬ n ≤ x := by lia
      have hfar : ¬ x + 2 ^ w - n < m := by lia
      have hin : x < n + m := by lia
      simp only [hle, hfar, hn, hin, if_true, if_false]
    · have hle : n ≤ x := by lia
      have hin : x - n < m ↔ x < n + m := by lia
      simp only [hle, hn, hin, if_true, if_false]

end Stores

/-! ## Lanes -/

/-- A byte of a word. -/
def lane (data : BitVec 32) (k : Nat) : BitVec 8 := (data >>> (8 * k)).setWidth 8

/-- The word with four bytes. -/
def lanes (l : Nat → BitVec 8) : BitVec 32 := l 3 ++ l 2 ++ l 1 ++ l 0

theorem lane_lanes (l : Nat → BitVec 8) {k : Nat} (hk : k < 4) : lane (lanes l) k = l k := by
  refine BitVec.eq_of_getLsbD_eq fun i hi => ?_
  simp only [lane, lanes, BitVec.getLsbD_setWidth, BitVec.getLsbD_ushiftRight,
    BitVec.getLsbD_append, hi, decide_true, Bool.true_and]
  interval_cases k
  · simp [hi]
  · rw [if_neg (by lia), if_pos (by lia)]
    congr 1
    lia
  · rw [if_neg (by lia), if_neg (by lia), if_pos (by lia)]
    congr 1
    lia
  · rw [if_neg (by lia), if_neg (by lia), if_neg (by lia)]
    congr 1
    lia

/-- The bits of a lane. -/
theorem lane_getLsbD (x : BitVec 32) (k : Nat) {j : Nat} (hj : j < 8) :
    (lane x k).getLsbD j = x.getLsbD (8 * k + j) := by
  simp [lane, hj]

theorem lane_shiftRight (x : BitVec 32) (k i : Nat) : lane (x >>> (8 * k)) i = lane x (k + i) := by
  refine BitVec.eq_of_getLsbD_eq fun j hj => ?_
  rw [lane_getLsbD _ _ hj, lane_getLsbD _ _ hj, BitVec.getLsbD_ushiftRight]
  congr 1
  lia

theorem lane_shiftLeft (x : BitVec 32) {k i : Nat} (h : k + i < 4) :
    lane (x <<< (8 * k)) (k + i) = lane x i := by
  refine BitVec.eq_of_getLsbD_eq fun j hj => ?_
  have hwidth : 8 * (k + i) + j < 32 := by lia
  have hge : ¬ 8 * (k + i) + j < 8 * k := by lia
  have hsub : 8 * (k + i) + j - 8 * k = 8 * i + j := by lia
  rw [lane_getLsbD _ _ hj, lane_getLsbD _ _ hj, BitVec.getLsbD_shiftLeft, hsub]
  simp [hwidth, hge]

/-- The low half has the low bytes. -/
theorem lane_half (x : BitVec 32) {i : Nat} (hi : i < 2) :
    lane ((x.setWidth 16).setWidth 32) i = lane x i := by
  refine BitVec.eq_of_getLsbD_eq fun j hj => ?_
  have hwidth : 8 * i + j < 16 := by lia
  have hwidth' : 8 * i + j < 32 := by lia
  simp [lane, hj, hwidth, hwidth']

@[simp] theorem lane_byte (x : BitVec 8) : lane (x.setWidth 32) 0 = x := by
  refine BitVec.eq_of_getLsbD_eq fun j hj => ?_
  have hwidth : j < 32 := by lia
  rw [lane_getLsbD _ _ hj, BitVec.getLsbD_setWidth]
  simp [hwidth]

/-- The lanes of a byte that is shifted to the lane `k`. -/
theorem lane_placed (x : BitVec 8) (k : Nat) {i : Nat} (hi : i < 4) :
    lane (x.setWidth 32 <<< (8 * k)) i = if i = k then x else 0 := by
  refine BitVec.eq_of_getLsbD_eq fun j hj => ?_
  have hwidth : 8 * i + j < 32 := by lia
  rw [lane_getLsbD _ _ hj, BitVec.getLsbD_shiftLeft, BitVec.getLsbD_setWidth]
  by_cases heq : i = k
  · have hge : ¬8 * i + j < 8 * k := by lia
    have hsub : 8 * i + j - 8 * k = j := by lia
    have hwidth' : j < 32 := by lia
    rw [if_pos heq, hsub]
    simp [hwidth, hge, hwidth']
  · rw [if_neg heq]
    by_cases hlt : 8 * i + j < 8 * k
    · simp [hlt]
    · have hout : x.getLsbD (8 * i + j - 8 * k) = false :=
        BitVec.getLsbD_of_ge x _ (by lia)
      rw [hout]
      simp

theorem lane_or (x y : BitVec 32) (i : Nat) : lane (x ||| y) i = lane x i ||| lane y i := by
  refine BitVec.eq_of_getLsbD_eq fun j hj => ?_
  rw [BitVec.getLsbD_or, lane_getLsbD _ _ hj, lane_getLsbD _ _ hj, lane_getLsbD _ _ hj,
    BitVec.getLsbD_or]

/-- The word that is made of four bytes. -/
theorem lane_word (f : Nat → BitVec 8) {i : Nat} (hi : i < 4) :
    lane ((f 0).setWidth 32 ||| (f 1).setWidth 32 <<< 8 ||| (f 2).setWidth 32 <<< 16 |||
      (f 3).setWidth 32 <<< 24) i = f i := by
  have h0 := lane_placed (f 0) 0 hi
  have h1 := lane_placed (f 1) 1 hi
  have h2 := lane_placed (f 2) 2 hi
  have h3 := lane_placed (f 3) 3 hi
  rw [Nat.mul_zero, BitVec.shiftLeft_zero] at h0
  rw [lane_or, lane_or, lane_or, h0]
  refine (congrArg₂ (· ||| ·) (congrArg₂ (· ||| ·) (congrArg _ h1) h2) h3).trans ?_
  obtain rfl | rfl | rfl | rfl : i = 0 ∨ i = 1 ∨ i = 2 ∨ i = 3 := by lia
  · simp
  · simp
  · simp
  · simp

/-- The halfword that is made of two bytes. -/
theorem lane_halfword (f : Nat → BitVec 8) {i : Nat} (hi : i < 2) :
    lane (((f 0).setWidth 16 ||| (f 1).setWidth 16 <<< 8 : BitVec 16).setWidth 32) i = f i := by
  refine BitVec.eq_of_getLsbD_eq fun j hj => ?_
  rw [lane_getLsbD _ _ hj]
  obtain rfl | rfl : i = 0 ∨ i = 1 := by lia
  · have hwidth : j < 16 := by lia
    have hwidth' : j < 32 := by lia
    simp [hj, hwidth, hwidth']
  · have hwidth : 8 + j < 16 := by lia
    have hwidth' : 8 + j < 32 := by lia
    simp [hj, hwidth, hwidth']

/-- The lanes of a halfword of two equal bytes. -/
theorem lane_twice (b : BitVec 8) {i : Nat} (hi : i < 2) : lane ((b ++ b).setWidth 32) i = b := by
  refine BitVec.eq_of_getLsbD_eq fun j hj => ?_
  rw [lane_getLsbD _ _ hj, BitVec.getLsbD_setWidth, BitVec.getLsbD_append]
  obtain rfl | rfl : i = 0 ∨ i = 1 := by lia
  · have hwidth : j < 32 := by lia
    simp [hj, hwidth]
  · have hwidth : 8 + j < 32 := by lia
    simp [hwidth]

theorem lanes_twice (b : BitVec 8) : b ++ b ++ (b ++ b) = lanes fun _ => b := by
  have hassoc := (@BitVec.append_assoc 16 8 8 (b ++ b) b b).symm
  rw [lanes, ← hassoc]
  rfl

/-! ## Buffers -/

section Buffers

variable {β : Type*} {buf : Nat → β} {p n m : Nat} {f g : Nat → β}

/-- Fill `n` places of a buffer. -/
def fill (buf : Nat → β) (p n : Nat) (f : Nat → β) : Nat → β :=
  fun i => if p ≤ i ∧ i < p + n then f (i - p) else buf i

theorem fill_zero : fill buf p 0 f = buf :=
  funext fun _ => if_neg (by lia)

theorem fill_of_mem {i : Nat} (hp : p ≤ i) (hi : i < p + n) : fill buf p n f i = f (i - p) :=
  if_pos ⟨hp, hi⟩

theorem fill_of_not_mem {i : Nat} (hi : ¬(p ≤ i ∧ i < p + n)) : fill buf p n f i = buf i :=
  if_neg hi

theorem fill_congr (h : ∀ i < n, f i = g i) : fill buf p n f = fill buf p n g := by
  funext i
  simp only [fill]
  split
  · exact h _ (by lia)
  · rfl

theorem fill_append : fill (fill buf p n f) (p + n) m g =
    fill buf p (n + m) fun i => if i < n then f i else g (i - n) := by
  funext i
  simp only [fill]
  by_cases hp : p ≤ i ∧ i < p + n
  · have hfar : ¬(p + n ≤ i ∧ i < p + n + m) := by lia
    have hall : p ≤ i ∧ i < p + (n + m) := by lia
    have hlt : i - p < n := by lia
    rw [if_neg hfar, if_pos hp, if_pos hall, if_pos hlt]
  · have hlt : p ≤ i → ¬ i - p < n := by lia
    rw [if_neg hp]
    by_cases hq : p + n ≤ i ∧ i < p + n + m
    · rw [if_pos hq, if_pos (by lia), if_neg (hlt (by lia))]
      congr 1
      lia
    · rw [if_neg hq, if_neg (by lia)]

end Buffers

end YardIce.Lib
