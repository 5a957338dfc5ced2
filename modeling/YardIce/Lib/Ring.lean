import Mathlib.Data.BitVec
import Mathlib.Logic.Function.Basic

/-!
# Rings with free running counters

A ring of `2 ^ k` slots between one writer and one reader. Positions are counted
without end from a base; a counter of `w` bits holds a position modulo `2 ^ w`, and
the slot of a position is named by its last `k` bits.
-/

namespace YardIce.Lib

namespace Ring

/-! ## Counters -/

section Counters

variable {w : Nat}

/-- The number of positions between two counters. -/
theorem toNat_sub_counter {i j : Nat} (hji : j ≤ i) (hlt : i < j + 2 ^ w) :
    (BitVec.ofNat w i - BitVec.ofNat w j).toNat = i - j := by
  obtain ⟨d, rfl⟩ := Nat.exists_eq_add_of_le hji
  have hd : d < 2 ^ w := by omega
  rw [BitVec.ofNat_add, add_sub_cancel_left, BitVec.toNat_ofNat, Nat.mod_eq_of_lt hd,
    Nat.add_sub_cancel_left]

theorem counter_add (i j : Nat) :
    BitVec.ofNat w i + BitVec.ofNat w j = BitVec.ofNat w (i + j) :=
  (BitVec.ofNat_add i j).symm

theorem counter_succ (i : Nat) : BitVec.ofNat w i + 1 = BitVec.ofNat w (i + 1) :=
  counter_add i 1

/-- Less than a turn apart, positions have the same counter only if they are equal. -/
theorem counter_ne {i j : Nat} (hij : i < j) (hlt : j < i + 2 ^ w) :
    BitVec.ofNat w i ≠ BitVec.ofNat w j := by
  intro h
  have hd := toNat_sub_counter (w := w) hij.le hlt
  rw [h, sub_self] at hd
  simp only [BitVec.ofNat_eq_ofNat, BitVec.toNat_zero] at hd
  omega

/-- The slot of a position does not depend on how wide its counter is. -/
theorem setWidth_counter {k : Nat} (hk : k ≤ w) (i : Nat) :
    (BitVec.ofNat w i).setWidth k = BitVec.ofNat k i := by
  rw [BitVec.setWidth_ofNat_of_le hk]

end Counters

/-! ## Contents -/

variable {k : Nat} {α : Type*} {slot : BitVec k → α} {b lo : Nat} {log : List α}

/-- The slots hold the entries of `log` from `lo` on; its first entry is at position `b`. -/
def Holds (slot : BitVec k → α) (b : Nat) (log : List α) (lo : Nat) : Prop :=
  ∀ i (hi : i < log.length), lo ≤ i → slot (BitVec.ofNat k (b + i)) = log[i]

theorem holds_nil : Holds slot b [] lo := fun _ hi => absurd hi (Nat.not_lt_zero _)

theorem Holds.mono (h : Holds slot b log lo) {lo' : Nat} (hlo : lo ≤ lo') :
    Holds slot b log lo' :=
  fun i hi hle => h i hi (hlo.trans hle)

/-- A slot outside of the window may be written. -/
theorem Holds.update (h : Holds slot b log lo) {j : Nat} (hj : log.length ≤ j)
    (hfree : j < lo + 2 ^ k) (v : α) :
    Holds (Function.update slot (BitVec.ofNat k (b + j)) v) b log lo := by
  intro i hi hle
  have hne : BitVec.ofNat k (b + i) ≠ BitVec.ofNat k (b + j) :=
    counter_ne (by omega) (by omega)
  rw [Function.update_of_ne hne]
  exact h i hi hle

/-- Entries that were written behind the window become part of it. -/
theorem Holds.append (h : Holds slot b log lo) {ws : List α}
    (hws : ∀ i (hi : i < ws.length), slot (BitVec.ofNat k (b + (log.length + i))) = ws[i]) :
    Holds slot b (log ++ ws) lo := by
  intro i hi hle
  rcases Nat.lt_or_ge i log.length with hlt | hge
  · rw [List.getElem_append_left hlt]
    exact h i hlt hle
  · rw [List.getElem_append_right hge]
    have hw := hws (i - log.length) (by simp only [List.length_append] at hi; omega)
    rwa [Nat.add_sub_cancel' hge] at hw

/-- The writer adds one entry. -/
theorem Holds.push (h : Holds slot b log lo) (hfree : log.length < lo + 2 ^ k) (v : α) :
    Holds (Function.update slot (BitVec.ofNat k (b + log.length)) v) b (log ++ [v]) lo := by
  apply (h.update le_rfl hfree v).append
  intro i hi
  obtain rfl : i = 0 := by simpa using hi
  simp

/-- Reading `n` slots from `lo` on gives the next `n` entries. -/
theorem Holds.read (h : Holds slot b log lo) {n : Nat} (hn : lo + n ≤ log.length) :
    (List.range n).map (fun i => slot (BitVec.ofNat k (b + (lo + i)))) =
      (log.drop lo).take n := by
  apply List.ext_getElem
  · simp only [List.length_map, List.length_range, List.length_take, List.length_drop]
    omega
  · intro i h₁ h₂
    simp only [List.length_map, List.length_range] at h₁
    simp only [List.getElem_map, List.getElem_range, List.getElem_take, List.getElem_drop]
    exact h (lo + i) (by omega) (by omega)

end Ring

end YardIce.Lib
