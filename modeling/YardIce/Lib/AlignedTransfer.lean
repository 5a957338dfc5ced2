import Mathlib.Data.BitVec
import Mathlib.Data.List.Basic

/-!
# Transfers by aligned units

A transfer of a range moves a byte and a halfword until its address is that of a word, then words,
and a halfword and a byte at its end. Where the words are moved one by one, it is a run over units
of one, two and four bytes.
-/

namespace YardIce.Lib

/-- The place of a transfer: what is done, and the address and length of the rest. A length
that would fall below zero is zero, which the tests do not tell apart. -/
structure Place (σ : Type*) where
  st : σ
  addr : BitVec 32
  len : Nat

namespace Place

variable {σ : Type*}

/-- The first byte, if the address is not even. -/
def firstByte (byte : σ → BitVec 32 → σ) (c : Place σ) : Place σ :=
  if c.addr &&& 1 ≠ 0 then ⟨byte c.st c.addr, c.addr + 1, c.len - 1⟩ else c

/-- The first halfword, if the address is not that of a word. -/
def firstHalf (half : σ → BitVec 32 → σ) (c : Place σ) : Place σ :=
  if 2 ≤ c.len ∧ c.addr &&& 2 ≠ 0 then ⟨half c.st c.addr, c.addr + 2, c.len - 2⟩ else c

/-- The words: as many as `count` makes of the length. -/
def words (count : Nat → Nat) (ws : σ → BitVec 32 → Nat → BitVec 32 × σ) (c : Place σ) : Place σ :=
  if 4 ≤ c.len then
    let (addr, s) := ws c.st c.addr (count c.len)
    ⟨s, addr, c.len - count c.len * 4⟩
  else c

/-- The last halfword. -/
def lastHalf (half : σ → BitVec 32 → σ) (c : Place σ) : Place σ :=
  if 2 ≤ c.len then ⟨half c.st c.addr, c.addr + 2, c.len - 2⟩ else c

/-- The last byte. -/
def lastByte (byte : σ → BitVec 32 → σ) (c : Place σ) : σ :=
  if 0 < c.len then byte c.st c.addr else c.st

/-- A transfer with the functions for its bytes, halfwords and words. -/
def transfer (s : σ) (addr : BitVec 32) (len : Nat) (byte half : σ → BitVec 32 → σ)
    (count : Nat → Nat) (ws : σ → BitVec 32 → Nat → BitVec 32 × σ) : σ :=
  if len = 0 then s
  else
    ((((Place.mk s addr len).firstByte byte).firstHalf half).words count ws
      |>.lastHalf half).lastByte byte

end Place

/-! ## Units -/

section Units

variable {σ : Type*}

/-- Words one by one. -/
def wordByWord (word : σ → BitVec 32 → σ) : σ → BitVec 32 → Nat → BitVec 32 × σ
  | s, addr, 0 => (addr, s)
  | s, addr, n + 1 => wordByWord word (word s addr) (addr + 4) n

/-- A run over units of the given sizes. -/
def runUnits (unit : Nat → σ → BitVec 32 → σ) : List Nat → σ → BitVec 32 → σ
  | [], s, _ => s
  | n :: us, s, addr => runUnits unit us (unit n s addr) (addr + BitVec.ofNat 32 n)

/-- The sizes of the units of a range. -/
def units (addr : BitVec 32) (len : Nat) : List Nat :=
  let first := if addr &&& 1 ≠ 0 ∧ 0 < len then 1 else 0
  let half := if 2 ≤ len - first ∧ (addr + BitVec.ofNat 32 first) &&& 2 ≠ 0 then 2 else 0
  let rest := len - first - half
  List.replicate first 1 ++ List.replicate (half / 2) 2 ++ List.replicate (rest / 4) 4 ++
    List.replicate (rest % 4 / 2) 2 ++ List.replicate (rest % 2) 1

theorem runUnits_append (unit : Nat → σ → BitVec 32 → σ) (us vs : List Nat) (s : σ)
    (addr : BitVec 32) : runUnits unit (us ++ vs) s addr =
      runUnits unit vs (runUnits unit us s addr) (addr + BitVec.ofNat 32 us.sum) := by
  induction us generalizing s addr with
  | nil => simp [runUnits]
  | cons n us ih =>
      rw [List.cons_append, runUnits, ih, List.sum_cons, BitVec.ofNat_add, BitVec.add_assoc]
      rfl

theorem wordByWord_eq (unit : Nat → σ → BitVec 32 → σ) (s : σ) (addr : BitVec 32) (n : Nat) :
    wordByWord (unit 4) s addr n =
      (addr + BitVec.ofNat 32 (n * 4), runUnits unit (List.replicate n 4) s addr) := by
  induction n generalizing s addr with
  | zero => simp [wordByWord, runUnits]
  | succ n ih =>
      have hsum : (n + 1) * 4 = 4 + n * 4 := by lia
      rw [wordByWord, ih, hsum, BitVec.ofNat_add, ← BitVec.add_assoc]
      rfl

theorem sum_units (addr : BitVec 32) (len : Nat) : (units addr len).sum = len := by
  unfold units
  simp only [List.sum_append, List.sum_replicate_nat]
  split
  · split <;> lia
  · split <;> lia

/-- A place behind some units. -/
def Place.run (unit : Nat → σ → BitVec 32 → σ) (us : List Nat) (c : Place σ) : Place σ :=
  ⟨runUnits unit us c.st c.addr, c.addr + BitVec.ofNat 32 us.sum, c.len - us.sum⟩

theorem Place.run_append (unit : Nat → σ → BitVec 32 → σ) (us vs : List Nat) (c : Place σ) :
    (c.run unit us).run unit vs = c.run unit (us ++ vs) := by
  unfold Place.run
  rw [runUnits_append, List.sum_append, BitVec.ofNat_add, BitVec.add_assoc, Nat.sub_sub]

theorem Place.run_nil (unit : Nat → σ → BitVec 32 → σ) (c : Place σ) : c.run unit [] = c := by
  simp [Place.run, runUnits]

namespace Place

variable (unit : Nat → σ → BitVec 32 → σ) (c : Place σ)

theorem firstByte_run (h : 0 < c.len) : c.firstByte (unit 1) =
    c.run unit (List.replicate (if c.addr &&& 1 ≠ 0 ∧ 0 < c.len then 1 else 0) 1) := by
  unfold firstByte
  by_cases hodd : c.addr &&& 1 ≠ 0
  · rw [if_pos hodd, if_pos ⟨hodd, h⟩]
    rfl
  · rw [if_neg hodd, if_neg fun hc => hodd hc.1]
    exact (run_nil unit c).symm

theorem firstHalf_run : c.firstHalf (unit 2) =
    c.run unit (List.replicate ((if 2 ≤ c.len ∧ c.addr &&& 2 ≠ 0 then 2 else 0) / 2) 2) := by
  unfold firstHalf
  split
  · rfl
  · exact (run_nil unit c).symm

theorem words_run : c.words (fun len => len / 4) (wordByWord (unit 4)) =
    c.run unit (List.replicate (c.len / 4) 4) := by
  unfold words
  split
  · rw [wordByWord_eq]
    simp [run]
  · rw [Nat.div_eq_of_lt (by lia)]
    exact (run_nil unit c).symm

theorem lastHalf_run (h : c.len < 4) :
    c.lastHalf (unit 2) = c.run unit (List.replicate (c.len / 2) 2) := by
  unfold lastHalf
  split
  · have hone : c.len / 2 = 1 := by lia
    rw [hone]
    rfl
  · rw [Nat.div_eq_of_lt (by lia)]
    exact (run_nil unit c).symm

theorem lastByte_run (h : c.len < 2) :
    c.lastByte (unit 1) = (c.run unit (List.replicate c.len 1)).st := by
  unfold lastByte
  split
  · have hone : c.len = 1 := by lia
    rw [hone]
    rfl
  · have hzero : c.len = 0 := by lia
    rw [hzero, List.replicate_zero, run_nil]

theorem run_len (us : List Nat) : (c.run unit us).len = c.len - us.sum := rfl

end Place

/-- A transfer with words one by one is a run over the units of its range. -/
theorem transfer_eq_runUnits (unit : Nat → σ → BitVec 32 → σ) (s : σ) (addr : BitVec 32)
    (len : Nat) :
    Place.transfer s addr len (unit 1) (unit 2) (fun len => len / 4) (wordByWord (unit 4)) =
      runUnits unit (units addr len) s addr := by
  rcases Nat.eq_zero_or_pos len with rfl | hlen
  · simp [Place.transfer, units, runUnits]
  · unfold Place.transfer units
    rw [if_neg (by lia), Place.firstByte_run unit _ hlen]
    generalize (if addr &&& 1 ≠ 0 ∧ 0 < len then 1 else 0) = first
    simp only
    rw [Place.firstHalf_run, Place.run_append]
    generalize hhalf : (if 2 ≤ len - first ∧ (addr + BitVec.ofNat 32 first) &&& 2 ≠ 0 then 2
      else 0) = half
    have hhalf' : (if 2 ≤ ((Place.mk s addr len).run unit (List.replicate first 1)).len ∧
        ((Place.mk s addr len).run unit (List.replicate first 1)).addr &&& 2 ≠ 0 then 2
      else 0) = half := by
      simp only [Place.run, List.sum_replicate_nat, Nat.mul_one]
      exact hhalf
    have hsum : half / 2 * 2 = half := by
      rw [← hhalf]
      split <;> rfl
    have hrest : ((Place.mk s addr len).run unit
        (List.replicate first 1 ++ List.replicate (half / 2) 2)).len = len - first - half := by
      simp only [Place.run, List.sum_append, List.sum_replicate_nat, Nat.mul_one, hsum, Nat.sub_sub]
    rw [hhalf', Place.words_run, hrest, Place.run_append]
    generalize hr : len - first - half = rest at hrest
    have hrest' : ((Place.mk s addr len).run unit
        (List.replicate first 1 ++ List.replicate (half / 2) 2 ++
          List.replicate (rest / 4) 4)).len = rest % 4 := by
      simp only [Place.run, List.sum_append, List.sum_replicate_nat] at hrest ⊢
      lia
    rw [Place.lastHalf_run unit _ (by lia), hrest', Place.run_append]
    have hlast : ((Place.mk s addr len).run unit
        (List.replicate first 1 ++ List.replicate (half / 2) 2 ++ List.replicate (rest / 4) 4 ++
          List.replicate (rest % 4 / 2) 2)).len = rest % 2 := by
      simp only [Place.run, List.sum_append, List.sum_replicate_nat] at hrest' ⊢
      lia
    rw [Place.lastByte_run unit _ (by lia), hlast, Place.run_append]
    rfl

end Units

end YardIce.Lib
