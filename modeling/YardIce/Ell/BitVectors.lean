import Mathlib.Data.BitVec
import Mathlib.Data.Finset.Basic
import Mathlib.Data.Finset.Range
import Mathlib.Data.Finset.Filter

/-!
# Bit vectors

`bitvec.c`. A `BITVEC` is the array that `calloc` gave, as a list of its words, and stands for the
set of the numbers whose bits are set. The functions that change a vector report whether they did.
-/

namespace YardIce.Ell

abbrev Word := BitVec 32

/-- `BitVecSetSize`, the number of words -/
def bitVecSetSize (lastsymnum : ℕ) : ℕ := (lastsymnum + 31) / 32

/-- `BitVecNew` -/
def bitVecNew (bitvecsize : ℕ) : List Word := List.replicate bitvecsize 0

/-- The loop of `BitVecUnion`. -/
def unionLoop : List Word → List Word → Bool → List Word × Bool
  | old :: x, y :: ys, changed =>
    let new := old ||| y
    let (x, changed) := unionLoop x ys (if changed then changed else new != old)
    (new :: x, changed)
  | x, _, changed => (x, changed)

/-- `BitVecUnion` -/
def bitVecUnion (x y : List Word) : List Word × Bool := unionLoop x y false

/-- `BitVecTest` -/
def bitVecTest (x : List Word) (pos : ℕ) : Word := x.getD (pos / 32) 0 &&& 1#32 <<< (pos % 32)

/-- `BitVecAdd` -/
def bitVecAdd (x : List Word) (pos : ℕ) : List Word × Bool :=
  let old := bitVecTest x pos
  let x := x.set (pos / 32) (x.getD (pos / 32) 0 ||| 1#32 <<< (pos % 32))
  (x, old != bitVecTest x pos)

/-! ## The sets -/

/-- The numbers whose bits are set. -/
def members (x : List Word) : Finset ℕ :=
  (Finset.range (32 * x.length)).filter fun pos => bitVecTest x pos ≠ 0

variable {x y : List Word} {pos : ℕ}

theorem bitVecTest_ne_zero :
    bitVecTest x pos ≠ 0 ↔ (x.getD (pos / 32) 0).getLsbD (pos % 32) = true := by
  have hpos : pos % 32 < 32 := Nat.mod_lt _ (by decide)
  rw [bitVecTest]
  generalize x.getD (pos / 32) 0 = w
  generalize pos % 32 = k at hpos ⊢
  constructor
  · intro hne
    by_contra hbit
    apply hne
    apply BitVec.eq_of_getLsbD_eq
    intro i hi
    show _ = (0#32).getLsbD i
    rw [BitVec.getLsbD_and, BitVec.getLsbD_shiftLeft, BitVec.getLsbD_one, BitVec.getLsbD_zero]
    rcases Nat.lt_trichotomy i k with hlt | rfl | hgt
    · simp [hlt]
    · simp [Bool.not_eq_true _ |>.mp hbit]
    · simp [show ¬ i - k = 0 by omega]
  · intro hbit hzero
    have hk : (w &&& 1#32 <<< k).getLsbD k = true := by
      rw [BitVec.getLsbD_and, BitVec.getLsbD_shiftLeft, BitVec.getLsbD_one, hbit]
      simp [hpos]
    rw [hzero] at hk
    cases hk.symm.trans BitVec.getLsbD_zero

theorem mem_members : pos ∈ members x ↔ bitVecTest x pos ≠ 0 := by
  rw [members, Finset.mem_filter, Finset.mem_range]
  refine ⟨fun h => h.2, fun h => ⟨?_, h⟩⟩
  by_contra hout
  rw [bitVecTest_ne_zero, List.getD_eq_getElem?_getD, List.getElem?_eq_none (by omega)] at h
  simp at h

/-- Vectors of one size that stand for one set are the same. -/
theorem members_inj (hlen : x.length = y.length) : members x = members y ↔ x = y := by
  refine ⟨fun h => ?_, fun h => by rw [h]⟩
  apply List.ext_getElem hlen
  intro i hx hy
  apply BitVec.eq_of_getLsbD_eq
  intro k hk
  have hmem : 32 * i + k ∈ members x ↔ 32 * i + k ∈ members y := by rw [h]
  have hdiv : (32 * i + k) / 32 = i := by omega
  have hmod : (32 * i + k) % 32 = k := by omega
  rw [mem_members, mem_members, bitVecTest_ne_zero, bitVecTest_ne_zero, hdiv, hmod,
    List.getD_eq_getElem?_getD, List.getD_eq_getElem?_getD, List.getElem?_eq_getElem hx,
    List.getElem?_eq_getElem hy, Option.getD_some, Option.getD_some] at hmem
  exact Bool.eq_iff_iff.mpr hmem

@[simp] theorem members_new (size : ℕ) : members (bitVecNew size) = ∅ := by
  apply Finset.eq_empty_of_forall_notMem
  intro pos hpos
  rw [mem_members, bitVecTest_ne_zero, bitVecNew, List.getD_eq_getElem?_getD,
    List.getElem?_replicate] at hpos
  split at hpos
  · simp at hpos
  · simp at hpos

/-! ## What the functions change -/

/-- A vector after a function that reports a change: `p` was added to its set. -/
structure Added (x : List Word) (p : Finset ℕ) (r : List Word × Bool) : Prop where
  length : r.1.length = x.length
  members : members r.1 = members x ∪ p
  changed : r.2 = true ↔ r.1 ≠ x

theorem unionLoop_changed (hlen : x.length = y.length) (changed : Bool) :
    (unionLoop x y changed).1 = List.zipWith (· ||| ·) x y ∧
      ((unionLoop x y changed).2 = true ↔ changed = true ∨ List.zipWith (· ||| ·) x y ≠ x) := by
  induction x generalizing y changed with
  | nil =>
      cases y with
      | nil => simp [unionLoop]
      | cons b y => cases hlen
  | cons a x ih =>
      cases y with
      | nil => cases hlen
      | cons b y =>
          obtain ⟨hval, hchanged⟩ := ih (Nat.succ.inj hlen)
            (if changed then changed else a ||| b != a)
          rw [unionLoop]
          refine ⟨by rw [List.zipWith_cons_cons, ← hval], ?_⟩
          dsimp only
          rw [hchanged, List.zipWith_cons_cons, Ne, Ne, List.cons.injEq]
          cases changed with
          | false => simp only [Bool.false_eq_true, if_false, bne_iff_ne]; tauto
          | true => simp

theorem bitVecUnion_added (hlen : x.length = y.length) : Added x (members y) (bitVecUnion x y) := by
  obtain ⟨hval, hchanged⟩ := unionLoop_changed hlen false
  have hsize : (bitVecUnion x y).1.length = x.length := by
    rw [bitVecUnion, hval, List.length_zipWith, ← hlen, Nat.min_self]
  refine ⟨hsize, ?_, ?_⟩
  · ext pos
    rw [Finset.mem_union, mem_members, mem_members, mem_members, bitVecTest_ne_zero,
      bitVecTest_ne_zero, bitVecTest_ne_zero, bitVecUnion, hval]
    simp only [List.getD_eq_getElem?_getD]
    rcases Nat.lt_or_ge (pos / 32) x.length with hin | hout
    · have hy : pos / 32 < y.length := hlen ▸ hin
      rw [List.getElem?_zipWith, List.getElem?_eq_getElem hin, List.getElem?_eq_getElem hy]
      simp
    · have hy : y.length ≤ pos / 32 := hlen ▸ hout
      rw [List.getElem?_zipWith, List.getElem?_eq_none hout, List.getElem?_eq_none hy]
      simp
  · rw [bitVecUnion, hchanged, hval]
    simp

theorem bitVecAdd_added (hpos : pos < 32 * x.length) : Added x {pos} (bitVecAdd x pos) := by
  have hin : pos / 32 < x.length := by omega
  have hbit : pos % 32 < 32 := Nat.mod_lt _ (by decide)
  have hmembers : members (bitVecAdd x pos).1 = members x ∪ {pos} := by
    ext p
    rw [Finset.mem_union, Finset.mem_singleton, mem_members, mem_members, bitVecTest_ne_zero,
      bitVecTest_ne_zero, bitVecAdd]
    dsimp only
    simp only [List.getD_eq_getElem?_getD]
    rcases Nat.decEq (pos / 32) (p / 32) with hne | heq
    · rw [List.getElem?_set_ne hne]
      refine ⟨.inl, fun h => h.resolve_right ?_⟩
      rintro rfl
      exact hne rfl
    · rw [← heq, List.getElem?_set_self hin, List.getElem?_eq_getElem hin]
      simp only [Option.getD_some, BitVec.getLsbD_or, BitVec.getLsbD_shiftLeft, BitVec.getLsbD_one,
        Bool.or_eq_true]
      have hp : p % 32 < 32 := Nat.mod_lt _ (by decide)
      have hiff : p = pos ↔ p % 32 = pos % 32 := by omega
      rw [hiff]
      refine or_congr_right ?_
      simp only [Bool.and_eq_true, decide_eq_true_eq, Bool.not_eq_true', decide_eq_false_iff_not]
      omega
  refine ⟨by rw [bitVecAdd, List.length_set], hmembers, ?_⟩
  have hlen : (bitVecAdd x pos).1.length = x.length := by rw [bitVecAdd, List.length_set]
  have hnew : bitVecTest (bitVecAdd x pos).1 pos ≠ 0 := by
    rw [← mem_members, hmembers]
    exact Finset.mem_union_right _ (Finset.mem_singleton_self pos)
  show (bitVecTest x pos != bitVecTest (bitVecAdd x pos).1 pos) = true ↔ _
  rw [bne_iff_ne, Ne, Ne, not_iff_not, ← members_inj hlen, hmembers, Finset.union_eq_left,
    Finset.singleton_subset_iff, mem_members]
  constructor
  · intro hold
    rw [hold]
    exact hnew
  · intro hold
    have hsame : (bitVecAdd x pos).1 = x := by
      rw [← members_inj hlen, hmembers, Finset.union_eq_left, Finset.singleton_subset_iff,
        mem_members]
      exact hold
    rw [hsame]

end YardIce.Ell
