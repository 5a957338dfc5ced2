import YardIce.IceDrv.ShortTransfers

/-!
# Answers that are too long

A region operation may return more than it was asked for. `ice_mem_read` then returns more than the
length of the request, by as much as the last answer is longer than the rest.
-/

namespace YardIce.IceDrv

variable {σ : Type}

/-- From a place in a region, an answer that ends the transfer leaves the value returned at `m` at
most. -/
def Fits (m : Int) (op : RegionOp σ) (e : MemEntry σ) (len : Word) :
    Nat → Word → Word → Cursor σ → Prop
  | 0, _, _, _ => True
  | left + 1, n, offs, c =>
      let ret := (answer op e offs n c).1
      if ret ≠ asked n c ∧ ret.msb = true then True
      else if ret ≠ asked n c ∧ ret = 0 then True
      else if c.rem ≤ ret then (len + (ret - c.rem)).toInt ≤ m
      else Fits m op e len left e.size (offs + ret) (turn op e offs n c)

instance decidableFits (m : Int) (op : RegionOp σ) (e : MemEntry σ) (len : Word) :
    (left : Nat) → (n offs : Word) → (c : Cursor σ) → Decidable (Fits m op e len left n offs c)
  | 0, _, _, _ => isTrue trivial
  | left + 1, n, offs, c =>
      have := decidableFits m op e len left e.size (offs + (answer op e offs n c).1)
        (turn op e offs n c)
      inferInstanceAs (Decidable (
        if (answer op e offs n c).1 ≠ asked n c ∧ (answer op e offs n c).1.msb = true then True
        else if (answer op e offs n c).1 ≠ asked n c ∧ (answer op e offs n c).1 = 0 then True
        else if c.rem ≤ (answer op e offs n c).1 then
          (len + ((answer op e offs n c).1 - c.rem)).toInt ≤ m
        else Fits m op e len left e.size (offs + (answer op e offs n c).1) (turn op e offs n c)))

/-- The answers for a region from the address of a cursor. -/
def RegionFits (m : Int) (op : RegionOp σ) (e : MemEntry σ) (len : Word) (c : Cursor σ) : Prop :=
  let memStart := e.addr.base + e.addr.offs
  let blk := (c.addr - memStart) / e.size
  let n := e.size - (c.addr - (memStart + blk * e.size))
  Fits m op e len (e.count.toNat - blk.toNat) n (c.addr - e.addr.base) c

instance (m : Int) (op : RegionOp σ) (e : MemEntry σ) (len : Word) (c : Cursor σ) :
    Decidable (RegionFits m op e len c) :=
  decidableFits m op e len _ _ _ c

section Value

variable {m : Int} {op : RegionOp σ} {e : MemEntry σ} {len : Word}

/-- What a region is left with: the value returned is at most `m` if the answers fit, and a
transfer that goes on has a rest. -/
def Outcome.Bounded (m : Int) (len : Word) (fits : Prop) : Outcome σ → Prop
  | .returned ret _ => ret.toInt ≤ m ↔ fits
  | .running c => fits ∧ c.rem ≤ len

theorem blkLoop_bounded (hm : (len.toNat : Int) ≤ m) (left : Nat) (n offs : Word) (c : Cursor σ)
    (hrem : c.rem ≤ len) :
    (blkLoop op e len left n offs c).Bounded m len (Fits m op e len left n offs c) := by
  induction left generalizing n offs c with
  | zero => exact ⟨trivial, hrem⟩
  | succ left ih =>
      rw [blkLoop_answer]
      unfold Fits
      dsimp only
      by_cases hneg : (answer op e offs n c).1 ≠ asked n c ∧ (answer op e offs n c).1.msb = true
      · rw [if_pos hneg, if_pos hneg]
        have hlt : (answer op e offs n c).1.toInt < 0 := BitVec.toInt_neg_of_msb_true hneg.2
        exact iff_of_true (by omega) trivial
      · rw [if_neg hneg, if_neg hneg]
        by_cases hzero : (answer op e offs n c).1 ≠ asked n c ∧ (answer op e offs n c).1 = 0
        · rw [if_pos hzero, if_pos hzero]
          exact ⟨trivial, hrem⟩
        · rw [if_neg hzero, if_neg hzero]
          by_cases hle : c.rem ≤ (answer op e offs n c).1
          · rw [if_pos hle, if_pos hle]
            exact Iff.rfl
          · rw [if_neg hle, if_neg hle]
            have hlt := BitVec.not_le.mp hle
            refine ih e.size _ _ ?_
            show c.rem - (answer op e offs n c).1 ≤ len
            rw [BitVec.le_def] at hrem ⊢
            rw [BitVec.lt_def] at hlt
            rw [BitVec.toNat_sub_of_le (BitVec.le_of_lt (BitVec.lt_def.mpr hlt))]
            omega

/-- The value that a transfer returns is at most `m` if the answers fit. -/
theorem memLoop_le_iff (op : MemOper σ → RegionOp σ) (hmsb : len.msb = false)
    (hm : (len.toNat : Int) ≤ m) (map : List (MemEntry σ)) (c : Cursor σ) (hrem : c.rem ≤ len) :
    (memLoop op false len map c).1.toInt ≤ m ↔
      ∀ v ∈ visits op false len map c, RegionFits m (op v.1.op) v.1 len v.2 := by
  induction map generalizing c with
  | nil =>
      have hsub := BitVec.toNat_sub_of_le hrem
      have hnat : (len - c.rem).toNat ≤ len.toNat := by omega
      have hlen := BitVec.msb_eq_false_iff_two_mul_lt.mp hmsb
      refine iff_of_true ?_ (by simp [visits])
      show (len - c.rem).toInt ≤ m
      rw [BitVec.toInt_eq_toNat_of_lt (by omega)]
      omega
  | cons e rest ih =>
      unfold memLoop visits
      simp only
      split
      · exact ih c hrem
      · split
        · exact ih c hrem
        · have hbounded := @blkLoop_bounded _ m (op e.op) e len hm
            (e.count.toNat - ((c.addr - (e.addr.base + e.addr.offs)) / e.size).toNat)
            (e.size - (c.addr - (e.addr.base + e.addr.offs +
              (c.addr - (e.addr.base + e.addr.offs)) / e.size * e.size))) (c.addr - e.addr.base) c hrem
          change (regionLoop (op e.op) e len c).Bounded m len
            (RegionFits m (op e.op) e len c) at hbounded
          simp only [Bool.false_eq_true, false_and, if_false]
          change (match regionLoop (op e.op) e len c with
            | .returned ret d => (ret, d)
            | .running d => memLoop op false len rest d).1.toInt ≤ m ↔ _
          rw [List.forall_mem_cons]
          cases ho : regionLoop (op e.op) e len c with
          | returned ret d =>
              rw [ho] at hbounded
              simpa [Outcome.Bounded] using hbounded
          | running d =>
              rw [ho] at hbounded
              exact (ih d hbounded.2).trans (and_iff_right hbounded.1).symm

/-- A read returns at most `m` if no answer is too long. -/
theorem iceMemRead_le_iff (hmsb : len.msb = false) (hm : (len.toNat : Int) ≤ m)
    (map : List (MemEntry σ)) (addr : Word) (s : σ) :
    (iceMemRead map addr len s).1.toInt ≤ m ↔
      ∀ v ∈ readVisits map addr len s, RegionFits m v.1.op.read v.1 len v.2 :=
  memLoop_le_iff MemOper.read hmsb hm map _ (BitVec.le_refl len)

end Value

end YardIce.IceDrv
