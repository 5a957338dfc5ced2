import YardIce.IceDrv.MemMap
import Mathlib.Data.List.Basic
import Mathlib.Tactic.Ring

/-!
# The memory map is flat

A transfer over a map of disjoint ascending regions moves the longest covered prefix
of the requested range, byte by byte in order, whatever the blocks of the regions.

## Implementation notes

Addresses of the specification are natural numbers: a region that ends at the top of
the address space has no successor, while the 32-bit cursor wraps to zero there.
-/

namespace YardIce.IceDrv

variable {σ : Type}

namespace MemEntry

/-- The first address of a region. -/
def start (e : MemEntry σ) : Nat := (e.addr.base + e.addr.offs).toNat

/-- The number of bytes of a region. -/
def bytes (e : MemEntry σ) : Nat := e.count.toNat * e.size.toNat

/-- An address of a region. -/
def Covers (e : MemEntry σ) (a : Nat) : Prop := e.start ≤ a ∧ a < e.start + e.bytes

instance (e : MemEntry σ) (a : Nat) : Decidable (e.Covers a) :=
  inferInstanceAs (Decidable (_ ∧ _))

/-- Neither the size of the region nor its end wraps. -/
def NonWrapping (e : MemEntry σ) : Prop := e.bytes < 2 ^ 32 ∧ e.start + e.bytes ≤ 2 ^ 32

/-- The region is marked `MEM_RO`. -/
def ReadOnly (e : MemEntry σ) : Prop := e.flags &&& memRo ≠ 0

end MemEntry

/-- The non-empty entries describe disjoint, non-wrapping regions in ascending order. -/
structure FlatMap (map : List (MemEntry σ)) : Prop where
  nonWrapping : ∀ e ∈ map, e.bytes ≠ 0 → e.NonWrapping
  ascending : map.Pairwise fun e f =>
    e.bytes ≠ 0 → f.bytes ≠ 0 → e.start + e.bytes ≤ f.start

/-- Some region of the map holds the address. -/
def Covered (map : List (MemEntry σ)) (a : Nat) : Prop := ∃ e ∈ map, e.Covers a

instance (map : List (MemEntry σ)) (a : Nat) : Decidable (Covered map a) :=
  inferInstanceAs (Decidable (∃ e ∈ map, _))

/-- A transfer of `k` bytes touches the regions of its start and of its bytes. -/
def Touched (e : MemEntry σ) (a k : Nat) : Prop := ∃ i < max k 1, e.Covers (a + i)

/-- The first `k` of `len` addresses are the longest covered prefix. -/
structure LongestPrefix (map : List (MemEntry σ)) (a len k : Nat) : Prop where
  le : k ≤ len
  covered : ∀ i < k, Covered map (a + i)
  maximal : k < len → ¬ Covered map (a + k)

/-- The bytes of a transfer of `m` bytes between the buffer at `p` and the target at
`a`: pairs of a buffer position and a target address, in order. -/
def span (p : Nat) (a : Word) (m : Nat) : List (Nat × Word) :=
  (List.range m).map fun i => (p + i, a + BitVec.ofNat 32 i)

namespace Call

/-- The bytes that a call is asked to move. -/
def bytes (c : Call σ) : List (Nat × Word) := span c.ptr c.ref.addr c.n.toNat

/-- All the bytes of a call are in one block of its region. -/
def InBlock (c : Call σ) : Prop :=
  ∃ b < c.entry.count.toNat,
    c.entry.start + b * c.entry.size.toNat ≤ c.ref.addr.toNat ∧
    c.ref.addr.toNat + c.n.toNat ≤ c.entry.start + (b + 1) * c.entry.size.toNat

end Call

/-- The operation transfers exactly the bytes asked, one `move` for each. -/
def Exact (move : σ → Nat × Word → σ) (op : RegionOp σ) : Prop :=
  ∀ ref p n s, n.toNat < 2 ^ 31 →
    op ref p n s = (n, (span p ref.addr n.toNat).foldl move s)

/-! ## Bytes moved -/

@[simp] theorem span_zero (p : Nat) (a : Word) : span p a 0 = [] := rfl

theorem span_add (p : Nat) (a : Word) (m k : Nat) :
    span p a (m + k) = span p a m ++ span (p + m) (a + BitVec.ofNat 32 m) k := by
  simp only [span, List.range_add, List.map_append, List.map_map, Function.comp_def,
    BitVec.ofNat_add, Nat.add_assoc, BitVec.add_assoc]

/-- Between two cursors of a transfer `m` bytes were moved, by calls to regions of the
map that stay in their block. -/
def Moved (move : σ → Nat × Word → σ) (map : List (MemEntry σ)) (c c' : Cursor σ)
    (m : Nat) : Prop :=
  c'.target = (span c.ptr c.addr m).foldl move c.target ∧
  ∃ new, c'.calls = c.calls ++ new ∧ new.flatMap Call.bytes = span c.ptr c.addr m ∧
    ∀ call ∈ new, call.entry ∈ map ∧ call.InBlock

section Moved

variable {move : σ → Nat × Word → σ} {map map' : List (MemEntry σ)} {c c' d : Cursor σ}

theorem Moved.refl (c : Cursor σ) : Moved move map c c 0 := by
  exact ⟨rfl, [], by simp, rfl, by simp⟩

theorem Moved.mono {m : Nat} (h : Moved move map c c' m) (hm : ∀ e ∈ map, e ∈ map') :
    Moved move map' c c' m := by
  obtain ⟨ht, new, hn, hb, hc⟩ := h
  exact ⟨ht, new, hn, hb, fun call hcall => ⟨hm _ (hc call hcall).1, (hc call hcall).2⟩⟩

theorem Moved.trans {m k : Nat} (h : Moved move map c c' m)
    (ha : c'.addr = c.addr + BitVec.ofNat 32 m) (hp : c'.ptr = c.ptr + m)
    (h' : Moved move map c' d k) : Moved move map c d (m + k) := by
  obtain ⟨ht, new, hn, hb, hc⟩ := h
  obtain ⟨ht', new', hn', hb', hc'⟩ := h'
  refine ⟨?_, new ++ new', ?_, ?_, ?_⟩
  · rw [ht', ht, ha, hp, span_add, List.foldl_append]
  · rw [hn', hn, List.append_assoc]
  · rw [List.flatMap_append, hb, hb', ha, hp, span_add]
  · intro call hcall
    exact (List.mem_append.mp hcall).elim (hc call) (hc' call)

end Moved

/-! ## The blocks of a region -/

/-- The cursor after an exact call for `n` bytes at `offs`. -/
def Cursor.called (move : σ → Nat × Word → σ) (c : Cursor σ) (e : MemEntry σ)
    (offs n : Word) : Cursor σ :=
  { c with
    target := (span c.ptr (e.addr.base + offs) n.toNat).foldl move c.target
    calls := c.calls ++ [⟨e, ⟨e.addr.base, offs⟩, c.ptr, n⟩] }

/-- The cursor moved on by `n` bytes. -/
def Cursor.advanced (c : Cursor σ) (n : Word) : Cursor σ :=
  { c with rem := c.rem - n, addr := c.addr + n, ptr := c.ptr + n.toNat }

section Blocks

variable {move : σ → Nat × Word → σ} {op : RegionOp σ} {e : MemEntry σ} {c : Cursor σ}
  {len n offs : Word} {left b : Nat}

/-- With exact operations a block either completes the request or is moved whole. -/
theorem blkLoop_succ (hx : Exact move op) (hrem : c.rem.toNat < 2 ^ 31) :
    blkLoop op e len (left + 1) n offs c =
      if c.rem ≤ n then .returned len (c.called move e offs c.rem)
      else blkLoop op e len left e.size (offs + n) ((c.called move e offs n).advanced n) := by
  by_cases hle : c.rem ≤ n
  · have hmin : (if c.rem < n then c.rem else n) = c.rem := by
      split
      · rfl
      · next hlt => exact BitVec.le_antisymm (BitVec.not_lt.mp hlt) hle
    simp only [blkLoop, hmin, hx _ _ _ _ hrem, if_pos hle]
    simp [Cursor.called, MemRef.addr]
  · have hlt : ¬ c.rem < n := fun h => hle (BitVec.le_of_lt h)
    have hn : n.toNat < 2 ^ 31 := by
      have : n.toNat < c.rem.toNat := BitVec.lt_def.mp (BitVec.not_le.mp hle)
      lia
    simp only [blkLoop, if_neg hlt, hx _ _ _ _ hn, if_neg hle]
    simp [Cursor.called, Cursor.advanced, MemRef.addr]

/-- An exact call inside block `b` moves its bytes. -/
theorem Cursor.called_moved (hb : b < e.count.toNat) (ha : e.addr.base + offs = c.addr)
    (hlo : e.start + b * e.size.toNat ≤ c.addr.toNat)
    (hhi : c.addr.toNat + n.toNat ≤ e.start + (b + 1) * e.size.toNat) :
    Moved move [e] c (c.called move e offs n) n.toNat := by
  rw [Moved, ← ha]
  refine ⟨rfl, [⟨e, ⟨e.addr.base, offs⟩, c.ptr, n⟩], rfl, by simp [Call.bytes, MemRef.addr], ?_⟩
  intro call hcall
  obtain rfl := List.mem_singleton.mp hcall
  rw [← ha] at hlo hhi
  exact ⟨List.mem_singleton_self e, b, hb, hlo, hhi⟩

/-- The cursor left the region: it moved the `m` bytes up to the end and stands there. -/
def LeftRegion (move : σ → Nat × Word → σ) (e : MemEntry σ) (c d : Cursor σ) (m : Nat) :
    Prop :=
  Moved move [e] c d m ∧ d.addr = c.addr + BitVec.ofNat 32 m ∧ d.ptr = c.ptr + m ∧
    d.rem.toNat + m = c.rem.toNat

/-- A whole block moved, then the loop from the next one. -/
theorem Cursor.called_leftRegion (hb : b < e.count.toNat) (ha : e.addr.base + offs = c.addr)
    (hlo : e.start + b * e.size.toNat ≤ c.addr.toNat)
    (hhi : c.addr.toNat + n.toNat ≤ e.start + (b + 1) * e.size.toNat) (hn : n ≤ c.rem) :
    LeftRegion move e c ((c.called move e offs n).advanced n) n.toNat := by
  have hsub : (c.rem - n).toNat = c.rem.toNat - n.toNat := BitVec.toNat_sub_of_le hn
  have hle : n.toNat ≤ c.rem.toNat := BitVec.le_def.mp hn
  refine ⟨Cursor.called_moved hb ha hlo hhi, ?_, rfl, ?_⟩
  · simp [Cursor.called, Cursor.advanced]
  · change (c.rem - n).toNat + n.toNat = c.rem.toNat
    lia

theorem LeftRegion.trans {c' d : Cursor σ} {m k : Nat} (h : LeftRegion move e c c' m)
    (h' : LeftRegion move e c' d k) : LeftRegion move e c d (m + k) := by
  obtain ⟨hm, ha, hp, hr⟩ := h
  obtain ⟨hm', ha', hp', hr'⟩ := h'
  refine ⟨hm.trans ha hp hm', ?_, ?_, ?_⟩
  · rw [ha', ha, BitVec.ofNat_add, BitVec.add_assoc]
  · rw [hp', hp, Nat.add_assoc]
  · lia

/-- The loop from address `a` in block `b` completes the request, or moves the bytes up
to the end of the region. -/
theorem blkLoop_exact {a : Nat} (len : Word) (hx : Exact move op) (hw : e.NonWrapping)
    (hsize : 0 < e.size.toNat) (hrem : c.rem.toNat < 2 ^ 31) (hgo : 0 < left ∨ 0 < c.rem.toNat)
    (hb : b + left = e.count.toNat) (haddr : c.addr = BitVec.ofNat 32 a)
    (hoffs : e.addr.base + offs = c.addr) (hn : 0 < n.toNat)
    (hlo : e.start + b * e.size.toNat ≤ a) (hend : a ≤ e.start + e.bytes)
    (hhi : a + n.toNat = e.start + (b + 1) * e.size.toNat) :
    (c.rem.toNat ≤ e.start + e.bytes - a ∧
      ∃ d, blkLoop op e len left n offs c = .returned len d ∧
        Moved move [e] c d c.rem.toNat) ∨
    (e.start + e.bytes - a < c.rem.toNat ∧
      ∃ d, blkLoop op e len left n offs c = .running d ∧
        LeftRegion move e c d (e.start + e.bytes - a)) := by
  induction left generalizing a b n offs c with
  | zero =>
      have hbytes : b * e.size.toNat = e.bytes := by rw [MemEntry.bytes, ← hb, Nat.add_zero]
      have hzero : e.start + e.bytes - a = 0 := by lia
      right
      rw [hzero]
      exact ⟨by lia, c, rfl, Moved.refl c, by simp, rfl, rfl⟩
  | succ left ih =>
      have hbc : b < e.count.toNat := by lia
      have hblk : (b + 1) * e.size.toNat ≤ e.bytes := Nat.mul_le_mul_right _ hbc
      have hnat : c.addr.toNat = a := by
        rw [haddr, BitVec.toNat_ofNat]
        exact Nat.mod_eq_of_lt (by have := hw.2; lia)
      rw [blkLoop_succ hx hrem]
      split
      · next hle =>
          have hle' := BitVec.le_def.mp hle
          left
          exact ⟨by lia, _, rfl, Cursor.called_moved hbc hoffs (by lia) (by lia)⟩
      · next hle =>
          have hlt : n.toNat < c.rem.toNat := BitVec.lt_def.mp (BitVec.not_le.mp hle)
          have hstep : LeftRegion move e c ((c.called move e offs n).advanced n) n.toNat :=
            Cursor.called_leftRegion hbc hoffs (by lia) (by lia)
              (BitVec.le_of_lt (BitVec.not_le.mp hle))
          obtain ⟨hmoved, had, hptr, hrm⟩ := hstep
          generalize (c.called move e offs n).advanced n = c' at hmoved had hptr hrm ⊢
          have hb' : b + 1 + left = e.count.toNat := by lia
          have haddr' : c'.addr = BitVec.ofNat 32 (a + n.toNat) := by
            rw [had, haddr, BitVec.ofNat_add]
          have hoffs' : e.addr.base + (offs + n) = c'.addr := by
            rw [had, ← hoffs, BitVec.ofNat_toNat, BitVec.setWidth_eq, BitVec.add_assoc]
          have hhi' : a + n.toNat + e.size.toNat = e.start + (b + 1 + 1) * e.size.toNat := by
            rw [Nat.succ_mul (b + 1)]
            lia
          have hrest := ih (by lia) (Or.inr (by lia)) hb' haddr' hoffs' hsize
            (by lia) (by lia) hhi'
          obtain ⟨hr, d, hd, hm⟩ | ⟨hr, d, hd, hm⟩ := hrest
          · left
            refine ⟨by lia, d, hd, ?_⟩
            rw [← hrm, Nat.add_comm]
            exact hmoved.trans had hptr hm
          · right
            have hsum : e.start + e.bytes - a = n.toNat + (e.start + e.bytes - (a + n.toNat)) := by
              lia
            refine ⟨by lia, d, hd, ?_⟩
            rw [hsum]
            exact LeftRegion.trans ⟨hmoved, had, hptr, hrm⟩ hm

end Blocks

/-! ## The regions of a map -/

section Regions

variable {e : MemEntry σ} {map : List (MemEntry σ)} {a m k : Nat}

theorem toNat_size_product (hw : e.NonWrapping) : (e.count * e.size).toNat = e.bytes := by
  rw [BitVec.toNat_mul]
  exact Nat.mod_eq_of_lt hw.1

theorem bytes_ne_zero (h : e.count * e.size ≠ 0) : e.bytes ≠ 0 := by
  intro hz
  apply h
  apply BitVec.eq_of_toNat_eq
  rw [BitVec.toNat_mul]
  change e.bytes % 2 ^ 32 = 0
  rw [hz]

/-- A region with an address does not look empty. -/
theorem size_product_ne_zero (hw : e.bytes ≠ 0 → e.NonWrapping) (hc : e.Covers a) :
    e.count * e.size ≠ 0 := by
  intro hz
  have hne : e.bytes ≠ 0 := by
    have h1 := hc.1
    have h2 := hc.2
    lia
  apply hne
  rw [← toNat_size_product (hw hne), hz]
  rfl

theorem size_pos (hne : e.bytes ≠ 0) : 0 < e.size.toNat := by
  by_contra hz
  apply hne
  rw [MemEntry.bytes, Nat.eq_zero_of_not_pos hz, Nat.mul_zero]

/-- The 32-bit bounds of a region test for its addresses. -/
theorem outside_iff (hw : e.NonWrapping) (hne : e.bytes ≠ 0) (x : Word) :
    (x < e.addr.base + e.addr.offs ∨
      e.addr.base + e.addr.offs + e.count * e.size - 1 < x) ↔ ¬ e.Covers x.toNat := by
  have hprod := toNat_size_product hw
  have hend : (e.addr.base + e.addr.offs + e.count * e.size - 1).toNat =
      e.start + e.bytes - 1 := by
    have hlt := hw.2
    change (e.addr.base + e.addr.offs).toNat + e.bytes ≤ 2 ^ 32 at hlt
    change _ = (e.addr.base + e.addr.offs).toNat + e.bytes - 1
    generalize e.addr.base + e.addr.offs = x at hlt ⊢
    generalize e.count * e.size = y at hprod ⊢
    rw [← hprod] at hlt hne ⊢
    bv_omega
  rw [BitVec.lt_def, BitVec.lt_def, hend, MemEntry.Covers, MemEntry.start]
  change (x.toNat < e.start ∨ _) ↔ _
  have : e.start = (e.addr.base + e.addr.offs).toNat := rfl
  lia

theorem longestPrefix_exists (map : List (MemEntry σ)) (a len : Nat) :
    ∃ k, LongestPrefix map a len k := by
  induction len with
  | zero => exact ⟨0, le_rfl, by simp, by simp⟩
  | succ len ih =>
      obtain ⟨k, hk⟩ := ih
      by_cases hlt : k < len
      · exact ⟨k, by lia, hk.covered, fun _ => hk.maximal hlt⟩
      · have heq : k = len := Nat.le_antisymm hk.le (Nat.not_lt.mp hlt)
        subst heq
        by_cases hc : Covered map (a + k)
        · refine ⟨k + 1, le_rfl, ?_, by simp⟩
          intro i hi
          obtain hik | rfl := Nat.lt_succ_iff_lt_or_eq.mp hi
          · exact hk.covered i hik
          · exact hc
        · exact ⟨k, by lia, hk.covered, fun _ => hc⟩

theorem LongestPrefix.eq_zero {len : Nat} (hk : LongestPrefix map a len k)
    (h : ¬ Covered map a) : k = 0 := by
  by_contra hne
  exact h (hk.covered 0 (Nat.pos_of_ne_zero hne))

theorem LongestPrefix.congr {map' : List (MemEntry σ)} {len : Nat}
    (hk : LongestPrefix map a len k) (h : ∀ i, Covered map (a + i) ↔ Covered map' (a + i)) :
    LongestPrefix map' a len k :=
  ⟨hk.le, fun i hi => (h i).mp (hk.covered i hi), fun hlt hc => hk.maximal hlt ((h k).mpr hc)⟩

theorem LongestPrefix.of_not_covered {map' : List (MemEntry σ)} {len : Nat}
    (hk : LongestPrefix map a len k) (h : ¬ Covered map a) (h' : ¬ Covered map' a) :
    LongestPrefix map' a len k := by
  have hz := hk.eq_zero h
  subst hz
  exact ⟨hk.le, by simp, fun _ => h'⟩

theorem covered_cons : Covered (e :: map) a ↔ e.Covers a ∨ Covered map a := by
  simp [Covered]

/-- An entry that does not hold the address plays no part from there on. -/
theorem LongestPrefix.skip {len : Nat} (hf : FlatMap (e :: map))
    (hk : LongestPrefix (e :: map) a len k) (ha : ¬ e.Covers a) :
    LongestPrefix map a len k := by
  by_cases hlt : a < e.start ∧ e.bytes ≠ 0
  · -- the later regions start above `e`, so `a` is in none of them
    have hno : ¬ Covered map a := by
      rintro ⟨f, hfm, hc⟩
      have hasc := List.rel_of_pairwise_cons hf.ascending hfm hlt.2
        (by have := hc.1; have := hc.2; lia)
      have := hc.1
      lia
    exact hk.of_not_covered (by rw [covered_cons]; tauto) hno
  · apply hk.congr
    intro i
    rw [covered_cons]
    constructor
    · rintro (hc | hc)
      · have h1 := hc.1
        have h2 := hc.2
        exact absurd ⟨by lia, by lia⟩ ha
      · exact hc
    · exact Or.inr

/-- From an address of the first region the prefix runs to the end of the region and on. -/
theorem LongestPrefix.leave {len : Nat} (hf : FlatMap (e :: map))
    (hk : LongestPrefix (e :: map) a len k) (ha : e.Covers a)
    (hlt : e.start + e.bytes - a < len) :
    ∃ k', k = e.start + e.bytes - a + k' ∧
      LongestPrefix map (e.start + e.bytes) (len - (e.start + e.bytes - a)) k' := by
  obtain ⟨hlo, hhi⟩ := ha
  have hin : ∀ i < e.start + e.bytes - a, Covered (e :: map) (a + i) := by
    intro i hi
    exact covered_cons.mpr (Or.inl ⟨by lia, by lia⟩)
  have hge : e.start + e.bytes - a ≤ k := by
    by_contra hnot
    exact hk.maximal (by lia) (hin k (by lia))
  have hshift : ∀ i, a + (e.start + e.bytes - a + i) = e.start + e.bytes + i := by lia
  have hk' : LongestPrefix (e :: map) (e.start + e.bytes) (len - (e.start + e.bytes - a))
      (k - (e.start + e.bytes - a)) := by
    refine ⟨by have := hk.le; lia, ?_, ?_⟩
    · intro i hi
      rw [← hshift]
      exact hk.covered _ (by lia)
    · intro hl
      rw [← hshift, Nat.add_sub_cancel' hge]
      exact hk.maximal (by lia)
  refine ⟨k - (e.start + e.bytes - a), by lia, hk'.skip hf ?_⟩
  rintro ⟨-, h⟩
  lia

theorem LongestPrefix.inside {len : Nat} (hk : LongestPrefix (e :: map) a len k)
    (ha : e.Covers a) (hle : len ≤ e.start + e.bytes - a) : k = len := by
  obtain ⟨hlo, hhi⟩ := ha
  refine Nat.le_antisymm hk.le ?_
  by_contra hnot
  exact hk.maximal (by lia) (covered_cons.mpr (Or.inl ⟨by lia, by lia⟩))

/-- The block that holds an address, and the bytes from the address to its end, as the
code computes them. -/
theorem firstBlock {x : Word} (hc : e.Covers x.toNat) :
    let blk := (x - (e.addr.base + e.addr.offs)) / e.size
    let n := e.size - (x - (e.addr.base + e.addr.offs + blk * e.size))
    blk.toNat < e.count.toNat ∧ 0 < n.toNat ∧
      e.start + blk.toNat * e.size.toNat ≤ x.toNat ∧
      x.toNat + n.toNat = e.start + (blk.toNat + 1) * e.size.toNat := by
  intro blk n
  obtain ⟨hlo, hhi⟩ := hc
  have hstart : (e.addr.base + e.addr.offs).toNat = e.start := rfl
  have hoff : (x - (e.addr.base + e.addr.offs)).toNat = x.toNat - e.start :=
    BitVec.toNat_sub_of_le (BitVec.le_def.mpr hlo)
  have hblk : blk.toNat = (x.toNat - e.start) / e.size.toNat := by
    rw [BitVec.toNat_udiv, hoff]
  have hsize : 0 < e.size.toNat := size_pos (by lia)
  have hcount : blk.toNat < e.count.toNat := by
    rw [hblk]
    apply Nat.div_lt_of_lt_mul
    rw [Nat.mul_comm]
    change x.toNat - e.start < e.bytes
    lia
  have hdiv : blk.toNat * e.size.toNat + (x.toNat - e.start) % e.size.toNat =
      x.toNat - e.start := by
    rw [hblk, Nat.mul_comm]
    exact Nat.div_add_mod _ _
  have hmod : (x.toNat - e.start) % e.size.toNat < e.size.toNat := Nat.mod_lt _ hsize
  have hx := x.isLt
  have hbstart : (e.addr.base + e.addr.offs + blk * e.size).toNat =
      e.start + blk.toNat * e.size.toNat := by
    rw [BitVec.toNat_add, BitVec.toNat_mul, Nat.add_mod_mod, hstart]
    exact Nat.mod_eq_of_lt (by lia)
  have hrest : (x - (e.addr.base + e.addr.offs + blk * e.size)).toNat =
      (x.toNat - e.start) % e.size.toNat := by
    rw [BitVec.toNat_sub_of_le (BitVec.le_def.mpr (by lia)), hbstart]
    lia
  have hn : n.toNat = e.size.toNat - (x.toNat - e.start) % e.size.toNat := by
    rw [BitVec.toNat_sub_of_le (BitVec.le_def.mpr (by lia)), hrest]
  rw [Nat.succ_mul]
  exact ⟨hcount, by lia, by lia, by lia⟩

/-- The blocks of a region from any of its addresses. -/
theorem region_exact {move : σ → Nat × Word → σ} {op : RegionOp σ} {c : Cursor σ} (len : Word)
    (hx : Exact move op) (hw : e.NonWrapping) (hrem : c.rem.toNat < 2 ^ 31)
    (hc : e.Covers c.addr.toNat) :
    let blk := (c.addr - (e.addr.base + e.addr.offs)) / e.size
    let n := e.size - (c.addr - (e.addr.base + e.addr.offs + blk * e.size))
    let run := blkLoop op e len (e.count.toNat - blk.toNat) n (c.addr - e.addr.base) c
    let m := e.start + e.bytes - c.addr.toNat
    (c.rem.toNat ≤ m ∧ ∃ d, run = .returned len d ∧ Moved move [e] c d c.rem.toNat) ∨
    (m < c.rem.toNat ∧ ∃ d, run = .running d ∧ LeftRegion move e c d m) := by
  intro blk n run m
  obtain ⟨hblk, hn, hlo, hhi⟩ := firstBlock hc
  have hoffs : e.addr.base + (c.addr - e.addr.base) = c.addr := by
    rw [BitVec.add_comm, BitVec.sub_add_cancel]
  have hne : e.bytes ≠ 0 := by
    have h1 := hc.1
    have h2 := hc.2
    lia
  exact blkLoop_exact len hx hw (size_pos hne) hrem (Or.inl (Nat.sub_pos_of_lt hblk))
    (Nat.add_sub_cancel' (Nat.le_of_lt hblk)) (by simp) hoffs hn hlo (Nat.le_of_lt hc.2) hhi

end Regions

/-! ## The whole transfer -/

section Transfer

variable {move : σ → Nat × Word → σ} {op : MemOper σ → RegionOp σ} {guarded : Bool}
  {map : List (MemEntry σ)} {c : Cursor σ} {len : Word} {a k : Nat}

theorem FlatMap.tail {e : MemEntry σ} (h : FlatMap (e :: map)) : FlatMap map :=
  ⟨fun f hf => h.nonWrapping f (List.mem_cons_of_mem e hf), h.ascending.of_cons⟩

theorem FlatMap.head {e : MemEntry σ} (h : FlatMap (e :: map)) : e.bytes ≠ 0 → e.NonWrapping :=
  h.nonWrapping e List.mem_cons_self

/-- The regions after a non-empty one start inside the address space. -/
theorem FlatMap.end_lt {e : MemEntry σ} (h : FlatMap (e :: map)) (hne : e.bytes ≠ 0) :
    ∀ f ∈ map, f.bytes ≠ 0 → e.start + e.bytes < 2 ^ 32 := by
  intro f hf hfne
  have hasc := List.rel_of_pairwise_cons h.ascending hf hne hfne
  have hw := (h.tail.nonWrapping f hf hfne).2
  lia

/-- While bytes remain, a region that holds none of the prefix does not hold its start. -/
theorem LongestPrefix.readOnly_rest {rem : Nat} (hk : LongestPrefix map a rem k)
    (hrem : 0 < rem) (h : ∀ e ∈ map, e.ReadOnly → ∀ i < k, ¬ e.Covers (a + i)) :
    ∀ e ∈ map, e.ReadOnly → ¬ Touched e a k := by
  rintro e he hero ⟨i, hi, hc⟩
  by_cases hik : i < k
  · exact h e he hero i hik hc
  · have hz : i = 0 := by lia
    have hkz : k = 0 := by lia
    subst hz
    subst hkz
    exact hk.maximal hrem ⟨e, he, hc⟩

theorem returned_length {rem rem' : Word} {m : Nat} (h : rem'.toNat + m = rem.toNat) (k : Nat) :
    len - rem' + BitVec.ofNat 32 k = len - rem + BitVec.ofNat 32 (m + k) := by
  have hrem : rem = rem' + BitVec.ofNat 32 m := by
    apply BitVec.eq_of_toNat_eq
    rw [BitVec.toNat_add, BitVec.toNat_ofNat, Nat.add_mod_mod, h]
    exact (Nat.mod_eq_of_lt rem.isLt).symm
  rw [hrem, BitVec.ofNat_add]
  ring

theorem memLoop_exact (len : Word) (hf : FlatMap map) (hx : ∀ e ∈ map, Exact move (op e.op))
    (hk : LongestPrefix map a c.rem.toNat k)
    (hro : guarded = true → ∀ e ∈ map, e.ReadOnly → ¬ Touched e a k)
    (haddr : c.addr = BitVec.ofNat 32 a) (hin : ∀ e ∈ map, e.bytes ≠ 0 → a < 2 ^ 32)
    (hrem : c.rem.toNat < 2 ^ 31) :
    ∃ d, memLoop op guarded len map c = (len - c.rem + BitVec.ofNat 32 k, d) ∧
      Moved move map c d k := by
  induction map generalizing a k c with
  | nil =>
      have hz := hk.eq_zero (by simp [Covered])
      subst hz
      exact ⟨c, by simp [memLoop], Moved.refl c⟩
  | cons e map ih =>
      have htail : ∀ f ∈ map, f ∈ e :: map := fun f => List.mem_cons_of_mem e
      have hskip : ¬ e.Covers a → ∃ d,
          memLoop op guarded len map c = (len - c.rem + BitVec.ofNat 32 k, d) ∧
          Moved move (e :: map) c d k := by
        intro hc
        obtain ⟨d, hd, hm⟩ := ih hf.tail (fun f hfm => hx f (htail f hfm)) (hk.skip hf hc)
          (fun hg f hfm => hro hg f (htail f hfm)) haddr (fun f hfm => hin f (htail f hfm)) hrem
        exact ⟨d, hd, hm.mono htail⟩
      simp only [memLoop]
      split
      · next hz =>
          apply hskip
          intro hc
          exact (size_product_ne_zero hf.head hc) hz
      · next hnz =>
          have hne : e.bytes ≠ 0 := bytes_ne_zero hnz
          have hw : e.NonWrapping := hf.head hne
          have hnat : c.addr.toNat = a := by
            rw [haddr, BitVec.toNat_ofNat]
            exact Nat.mod_eq_of_lt (hin e List.mem_cons_self hne)
          split
          · next hout =>
              rw [outside_iff hw hne, hnat] at hout
              exact hskip hout
          · next hout =>
              rw [outside_iff hw hne, not_not] at hout
              split
              · next hg =>
                  rw [hnat] at hout
                  exact absurd ⟨0, by simp, hout⟩ (hro hg.1 e List.mem_cons_self hg.2)
              · obtain ⟨hr, d, hd, hm⟩ | ⟨hr, d, hd, hm, hda, hdp, hdr⟩ :=
                  region_exact len (hx e List.mem_cons_self) hw hrem hout
                · rw [hnat] at hr hout
                  have hkr := hk.inside hout hr
                  subst hkr
                  rw [hd]
                  exact ⟨d, by simp, hm.mono (by simp)⟩
                · rw [hnat] at hr hout hm hda hdp hdr
                  obtain ⟨k', rfl, hk'⟩ := hk.leave hf hout hr
                  have hsum : a + (e.start + e.bytes - a) = e.start + e.bytes :=
                    Nat.add_sub_cancel' (Nat.le_of_lt hout.2)
                  have hdrem : d.rem.toNat = c.rem.toNat - (e.start + e.bytes - a) := by lia
                  have hda' : d.addr = BitVec.ofNat 32 (e.start + e.bytes) := by
                    rw [hda, haddr, ← BitVec.ofNat_add, hsum]
                  rw [← hdrem] at hk'
                  obtain ⟨d', hd', hm'⟩ := ih hf.tail (fun f hfm => hx f (htail f hfm)) hk'
                    (fun hg => hk'.readOnly_rest (by lia) fun f hfm hfro i hi hfc => by
                      rw [← hsum, Nat.add_assoc] at hfc
                      exact hro hg f (htail f hfm) hfro ⟨_, by lia, hfc⟩)
                    hda' (hf.end_lt hne) (by lia)
                  refine ⟨d', ?_, (hm.mono (by simp)).trans hda hdp (hm'.mono htail)⟩
                  rw [hd]
                  simp only [hd', Prod.mk.injEq, and_true]
                  exact returned_length hdr k'

end Transfer

/-! ## Reading and writing bytes -/

/-- The memory of the target and the buffer of the caller. -/
structure Copy where
  mem : Word → BitVec 8
  buf : Nat → BitVec 8

namespace Copy

/-- One byte from the target into the buffer. -/
def readByte (s : Copy) (b : Nat × Word) : Copy :=
  { s with buf := Function.update s.buf b.1 (s.mem b.2) }

/-- One byte from the buffer into the target. -/
def writeByte (s : Copy) (b : Nat × Word) : Copy :=
  { s with mem := Function.update s.mem b.2 (s.buf b.1) }

theorem foldl_readByte (s : Copy) (a : Word) (k : Nat) :
    (span 0 a k).foldl readByte s =
      { s with buf := fun i => if i < k then s.mem (a + BitVec.ofNat 32 i) else s.buf i } := by
  induction k with
  | zero => simp
  | succ k ih =>
      rw [span_add, List.foldl_append, ih]
      simp only [span, List.range_one, List.map_cons, List.map_nil, List.foldl_cons,
        List.foldl_nil, readByte, Nat.zero_add, Nat.add_zero,
        BitVec.add_zero, Copy.mk.injEq, true_and]
      ext i
      by_cases hi : i = k
      · subst hi
        simp
      · rw [Function.update_of_ne hi]
        have hlt : i < k + 1 ↔ i < k := by lia
        simp only [hlt]

theorem foldl_writeByte (s : Copy) (a : Word) {k : Nat} (hk : k ≤ 2 ^ 32) :
    (span 0 a k).foldl writeByte s =
      { s with mem := fun x =>
          if (x - a).toNat < k then s.buf (x - a).toNat else s.mem x } := by
  induction k with
  | zero => simp
  | succ k ih =>
      rw [span_add, List.foldl_append, ih (by lia)]
      simp only [span, List.range_one, List.map_cons, List.map_nil, List.foldl_cons,
        List.foldl_nil, writeByte, Nat.zero_add, Nat.add_zero,
        BitVec.add_zero, Copy.mk.injEq, and_true]
      ext x
      have hkn : (BitVec.ofNat 32 k).toNat = k := by
        rw [BitVec.toNat_ofNat]
        exact Nat.mod_eq_of_lt (by lia)
      by_cases hx : x = a + BitVec.ofNat 32 k
      · subst hx
        have hsub : a + BitVec.ofNat 32 k - a = BitVec.ofNat 32 k := by
          rw [BitVec.add_comm, BitVec.add_sub_cancel]
        rw [Function.update_self, hsub, hkn, if_pos (Nat.lt_succ_self k)]
      · rw [Function.update_of_ne hx]
        have hne : (x - a).toNat ≠ k := by
          intro he
          apply hx
          rw [← hkn] at he
          rw [← BitVec.eq_of_toNat_eq he, BitVec.add_comm, BitVec.sub_add_cancel]
        have hlt : (x - a).toNat < k + 1 ↔ (x - a).toNat < k := by lia
        simp only [hlt]

end Copy

/-- A call of `ice_mem_read` or `ice_mem_write` moved exactly the first `k` bytes from
`addr`, in order, by calls that stay in their blocks, and returned `k`. -/
structure Transferred (map : List (MemEntry σ)) (addr : Word) (k : Nat)
    (r : Word × Cursor σ) : Prop where
  ret : r.1.toInt = k
  bytes : r.2.calls.flatMap Call.bytes = span 0 addr k
  blocks : ∀ call ∈ r.2.calls, call.entry ∈ map ∧ call.InBlock

/-- The whole loop from the start of a request. -/
theorem memLoop_transferred {move : σ → Nat × Word → σ} {op : MemOper σ → RegionOp σ}
    {guarded : Bool} {map : List (MemEntry σ)} {addr len : Word} {k : Nat} (s : σ)
    (hf : FlatMap map) (hx : ∀ e ∈ map, Exact move (op e.op)) (hlen : len.toNat < 2 ^ 31)
    (hk : LongestPrefix map addr.toNat len.toNat k)
    (hro : guarded = true → ∀ e ∈ map, e.ReadOnly → ¬ Touched e addr.toNat k) :
    Transferred map addr k (memLoop op guarded len map ⟨addr, len, 0, s, []⟩) ∧
      (memLoop op guarded len map ⟨addr, len, 0, s, []⟩).2.target =
        (span 0 addr k).foldl move s := by
  obtain ⟨d, hd, ht, new, hn, hb, hc⟩ := memLoop_exact (c := ⟨addr, len, 0, s, []⟩)
    len hf hx hk hro (by simp) (fun _ _ _ => addr.isLt) hlen
  simp only [List.nil_append] at hn
  rw [hd]
  refine ⟨⟨?_, by rw [hn, hb], by rw [hn]; exact hc⟩, ht⟩
  have hkl := hk.le
  simp only [BitVec.sub_self, BitVec.zero_add]
  rw [BitVec.toInt_eq_toNat_of_lt, BitVec.toNat_ofNat]
  · lia
  · rw [BitVec.toNat_ofNat]
    lia

/-- The memory map is flat: over disjoint ascending regions with exact operations a read
or a write moves the longest covered prefix of the range. -/
theorem memMap_flat (map : List (MemEntry Copy)) (hf : FlatMap map)
    (hread : ∀ e ∈ map, Exact Copy.readByte e.op.read)
    (hwrite : ∀ e ∈ map, Exact Copy.writeByte e.op.write)
    (addr len : Word) (hlen : len.toNat < 2 ^ 31) (s : Copy) :
    ∃ k, LongestPrefix map addr.toNat len.toNat k ∧
      Transferred map addr k (iceMemRead map addr len s) ∧
      (iceMemRead map addr len s).2.target =
        { s with buf := fun i =>
            if i < k then s.mem (addr + BitVec.ofNat 32 i) else s.buf i } ∧
      ((∀ e ∈ map, e.ReadOnly → ¬ Touched e addr.toNat k) →
        Transferred map addr k (iceMemWrite map addr len s) ∧
        (iceMemWrite map addr len s).2.target =
          { s with mem := fun x =>
              if (x - addr).toNat < k then s.buf (x - addr).toNat else s.mem x }) := by
  obtain ⟨k, hk⟩ := longestPrefix_exists map addr.toNat len.toNat
  have hkl : k ≤ 2 ^ 32 := by
    have := hk.le
    lia
  refine ⟨k, hk, ?_⟩
  constructor
  · exact (memLoop_transferred s hf hread hlen hk (by simp)).1
  · constructor
    · rw [← Copy.foldl_readByte]
      exact (memLoop_transferred s hf hread hlen hk (by simp)).2
    · intro hro
      rw [← Copy.foldl_writeByte s addr hkl]
      exact memLoop_transferred s hf hwrite hlen hk (fun _ => hro)

/-- A region of exact operations. -/
def exactEntry (base offs count size : Word) : MemEntry Copy where
  flags := 0
  addr := ⟨base, offs⟩
  count := count
  size := size
  op :=
    { read := fun ref p n s => (n, (span p ref.addr n.toNat).foldl Copy.readByte s)
      write := fun ref p n s => (n, (span p ref.addr n.toNat).foldl Copy.writeByte s) }

/-- Two adjacent regions with different blocks around an empty entry. -/
def adjacentMap : List (MemEntry Copy) :=
  [exactEntry 0x1000 0 2 4, exactEntry 0 0 0 16, exactEntry 0x1000 8 1 16]

theorem memMap_flat_adjacent :
    FlatMap adjacentMap ∧
    Transferred adjacentMap 0x1002 12
      (iceMemRead adjacentMap 0x1002 12 ⟨fun a => a.setWidth 8, fun _ => 0⟩) := by
  have hf : FlatMap adjacentMap := by
    constructor
    · intro e he hne
      simp only [adjacentMap, List.mem_cons, List.not_mem_nil, or_false] at he
      obtain rfl | rfl | rfl := he
      · exact ⟨by decide, by decide⟩
      · exact absurd rfl hne
      · exact ⟨by decide, by decide⟩
    · simp [adjacentMap, MemEntry.bytes, MemEntry.start, exactEntry]
  have hx : ∀ e ∈ adjacentMap,
      Exact Copy.readByte e.op.read ∧ Exact Copy.writeByte e.op.write := by
    intro e he
    simp only [adjacentMap, List.mem_cons, List.not_mem_nil, or_false] at he
    obtain rfl | rfl | rfl := he
    all_goals exact ⟨fun _ _ _ _ _ => rfl, fun _ _ _ _ _ => rfl⟩
  obtain ⟨k, hk, ht, -⟩ := memMap_flat adjacentMap hf (fun e he => (hx e he).1)
    (fun e he => (hx e he).2) 0x1002 12 (by decide) ⟨fun a => a.setWidth 8, fun _ => 0⟩
  have hall : ∀ i < 12, Covered adjacentMap (0x1002 + i) := by decide
  have hk12 : k = 12 := by
    refine Nat.le_antisymm hk.le ?_
    by_contra hlt
    exact hk.maximal (Nat.not_le.mp hlt) (hall k (Nat.not_le.mp hlt))
  subst hk12
  exact ⟨hf, ht⟩

end YardIce.IceDrv
