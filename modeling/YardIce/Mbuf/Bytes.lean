import YardIce.Mbuf.Queue
import Mathlib.Tactic.Linarith

/-!
# The bytes a chain of buffers holds

Byte `pos` of a chain lies in its buffer number `pos / 124`, at `pos % 124`. A
queue holds `len` bytes of its chain from byte `offs` on.
-/

namespace YardIce.MbufPool

open Lib

/-- Byte number `pos` of the buffers `l`, counted from the start of the first one. -/
def byteAt (data : Mbuf → Nat → UInt8) (l : List Mbuf) (pos : Nat) : UInt8 :=
  match l[pos / mbufDataSize]? with
  | some b => data b (pos % mbufDataSize)
  | none => 0

/-- The `len` bytes of the buffers `l` from byte `offs` on. -/
def chainBytes (data : Mbuf → Nat → UInt8) (l : List Mbuf) (offs len : Nat) : List UInt8 :=
  (List.range len).map fun i => byteAt data l (offs + i)

variable {data data' : Mbuf → Nat → UInt8} {l : List Mbuf} {b m : Mbuf} {offs len n : Nat}

@[simp] theorem chainBytes_length (data : Mbuf → Nat → UInt8) (l : List Mbuf) (offs len : Nat) :
    (chainBytes data l offs len).length = len := by
  simp [chainBytes]

@[simp] theorem readBytes_length (data : Mbuf → Nat → UInt8) (m : Mbuf) (offs n : Nat) :
    (readBytes data m offs n).length = n := by
  simp [readBytes]

@[simp] theorem chainBytes_zero (data : Mbuf → Nat → UInt8) (l : List Mbuf) (offs : Nat) :
    chainBytes data l offs 0 = [] := rfl

theorem chainBytes_add (data : Mbuf → Nat → UInt8) (l : List Mbuf) (offs n len : Nat) :
    chainBytes data l offs (n + len) = chainBytes data l offs n ++ chainBytes data l (offs + n) len := by
  simp [chainBytes, List.range_add, Function.comp_def, Nat.add_assoc]

theorem chainBytes_drop (data : Mbuf → Nat → UInt8) (l : List Mbuf) (offs : Nat) (h : n ≤ len) :
    (chainBytes data l offs len).drop n = chainBytes data l (offs + n) (len - n) := by
  obtain ⟨k, rfl⟩ := Nat.exists_eq_add_of_le h
  rw [chainBytes_add, List.drop_append_of_le_length (by simp)]
  simp [List.drop_of_length_le]

theorem chainBytes_take (data : Mbuf → Nat → UInt8) (l : List Mbuf) (offs : Nat) (h : n ≤ len) :
    (chainBytes data l offs len).take n = chainBytes data l offs n := by
  obtain ⟨k, rfl⟩ := Nat.exists_eq_add_of_le h
  rw [chainBytes_add, List.take_append_of_le_length (by simp)]
  simp [List.take_of_length_le]

theorem chainBytes_congr (h : ∀ b ∈ l, data' b = data b) :
    chainBytes data' l offs len = chainBytes data l offs len := by
  apply List.map_congr_left
  intro i _
  simp only [byteAt]
  cases hb : l[(offs + i) / mbufDataSize]? with
  | none => rfl
  | some b => simp only [h b (List.mem_of_getElem? hb)]

theorem byteAt_append_left {pos : Nat} (h : pos < mbufDataSize * l.length) (v : List Mbuf) :
    byteAt data (l ++ v) pos = byteAt data l pos := by
  have hlt : pos / mbufDataSize < l.length := Nat.div_lt_of_lt_mul h
  simp only [byteAt, List.getElem?_append_left hlt]

/-- Bytes inside the first buffers do not depend on the buffers after them. -/
theorem chainBytes_append_left (h : offs + len ≤ mbufDataSize * l.length) (v : List Mbuf) :
    chainBytes data (l ++ v) offs len = chainBytes data l offs len := by
  apply List.map_congr_left
  intro i hi
  rw [List.mem_range] at hi
  exact byteAt_append_left (by lia) v

theorem byteAt_cons_add (b : Mbuf) (l : List Mbuf) (pos : Nat) :
    byteAt data (b :: l) (mbufDataSize + pos) = byteAt data l pos := by
  have h₁ : (mbufDataSize + pos) / mbufDataSize = pos / mbufDataSize + 1 := by
    simp only [mbufDataSize]; lia
  have h₂ : (mbufDataSize + pos) % mbufDataSize = pos % mbufDataSize := by
    simp only [mbufDataSize]; lia
  simp only [byteAt, h₁, h₂, List.getElem?_cons_succ]

/-- Skipping the whole first buffer. -/
theorem chainBytes_cons (b : Mbuf) (l : List Mbuf) (len : Nat) :
    chainBytes data (b :: l) mbufDataSize len = chainBytes data l 0 len := by
  apply List.map_congr_left
  intro i _
  rw [byteAt_cons_add, Nat.zero_add]

/-- Bytes inside the first buffer are read from it alone. -/
theorem chainBytes_head (h : offs + n ≤ mbufDataSize) :
    chainBytes data (b :: l) offs n = readBytes data b offs n := by
  apply List.map_congr_left
  intro i hi
  rw [List.mem_range] at hi
  have h₁ : (offs + i) / mbufDataSize = 0 := Nat.div_eq_of_lt (by lia)
  have h₂ : (offs + i) % mbufDataSize = offs + i := Nat.mod_eq_of_lt (by lia)
  simp only [byteAt, h₁, h₂, List.getElem?_cons_zero]

/-- Skipping whole buffers. -/
theorem chainBytes_skip (l : List Mbuf) (pos len : Nat) :
    chainBytes data l pos len =
      chainBytes data (l.drop (pos / mbufDataSize)) (pos % mbufDataSize) len := by
  apply List.map_congr_left
  intro i _
  have hpos : pos + i = mbufDataSize * (pos / mbufDataSize) + (pos % mbufDataSize + i) := by
    rw [← Nat.add_assoc, Nat.div_add_mod]
  have h₁ : (pos + i) / mbufDataSize =
      pos / mbufDataSize + (pos % mbufDataSize + i) / mbufDataSize := by
    simp only [mbufDataSize]; lia
  have h₂ : (pos + i) % mbufDataSize = (pos % mbufDataSize + i) % mbufDataSize := by
    simp only [mbufDataSize]; lia
  simp only [byteAt, h₁, h₂, List.getElem?_drop]

/-- Writing `src` where the data ends, inside the last buffer, appends `src`. -/
theorem chainBytes_write {src : List UInt8} (hm : m ∉ l)
    (hidx : (offs + len) / mbufDataSize = l.length)
    (hfit : (offs + len) % mbufDataSize + src.length ≤ mbufDataSize) :
    chainBytes (writeBytes data m ((offs + len) % mbufDataSize) src) (l ++ [m]) offs
        (len + src.length) =
      chainBytes data (l ++ [m]) offs len ++ src := by
  rw [chainBytes_add]
  congr 1
  · -- old bytes: in an earlier buffer, or before the write in the last one
    apply List.map_congr_left
    intro i hi
    rw [List.mem_range] at hi
    simp only [byteAt]
    cases hb : (l ++ [m])[(offs + i) / mbufDataSize]? with
    | none => rfl
    | some b =>
        by_cases hlt : (offs + i) / mbufDataSize < l.length
        · rw [List.getElem?_append_left hlt] at hb
          have hbm : b ≠ m := fun he => hm (he ▸ List.mem_of_getElem? hb)
          simp [writeBytes, hbm]
        · have hmod : (offs + i) % mbufDataSize < (offs + len) % mbufDataSize := by
            simp only [mbufDataSize] at hidx hlt ⊢; lia
          have : ¬(offs + len) % mbufDataSize ≤ (offs + i) % mbufDataSize := by lia
          simp [writeBytes, this]
  · apply List.ext_getElem
    · simp
    · intro i hi hi'
      simp only [chainBytes, List.getElem_map, List.getElem_range, byteAt]
      have hdiv : (offs + len + i) / mbufDataSize = l.length := by
        simp only [mbufDataSize] at hidx hfit ⊢; lia
      have hmod : (offs + len + i) % mbufDataSize = (offs + len) % mbufDataSize + i := by
        simp only [mbufDataSize] at hidx hfit ⊢; lia
      rw [hdiv]
      simp [writeBytes, hmod, hi']

end YardIce.MbufPool
