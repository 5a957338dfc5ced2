import YardIce.IceDrv.MemMap

/-!
# Erasing a range of the memory map

`ice_mem_erase` of `ice_drv.c`. The driver of a region erases a unit of its own and returns the
size of it, which may be more than the bytes asked; the loop over the blocks goes on behind it.

## Implementation notes

The loop over the blocks has at most as many turns as there are blocks left. The loop that skips
the blocks of a long unit takes off at least one byte in each turn.
-/

namespace YardIce.IceDrv

/-- The erase operation of a region: a reference and a size. -/
abbrev EraseOp (σ : Type) := MemRef → Word → σ → Word × σ

/-- `ice_mem_entry_t`, as far as it is used to erase. -/
structure EraseEntry (σ : Type) where
  flags : BitVec 8
  addr : MemRef
  count : Word
  size : Word
  erase : EraseOp σ

/-- The variables of `ice_mem_erase` in a region. -/
structure ErasePos where
  blk : Nat
  rem : Word
  addr : Word
  offs : Word

/-- What the loop over the blocks of a region ends with. -/
inductive EraseOutcome (σ : Type) where
  | returned (ret : Word) (s : σ)
  | running (p : ErasePos) (s : σ)

variable {σ : Type}

/-- `while (ret > n)` -/
def skipBlocks (n : Word) : Nat → Word → ErasePos → Word × ErasePos
  | 0, ret, p => (ret, p)
  | turns + 1, ret, p =>
      if n < ret then
        skipBlocks n turns (ret - n)
          { blk := p.blk + 1, rem := p.rem - n, addr := p.addr + n, offs := p.offs + n }
      else (ret, p)

/-- The loop over the blocks of a region; `n` are the bytes up to the end of the block. -/
def eraseBlkLoop (e : EraseEntry σ) (len : Word) : Nat → Word → ErasePos → σ → EraseOutcome σ
  | 0, _, p, s => .running p s
  | turns + 1, n, p, s =>
      if p.blk < e.count.toNat then
        let n := if p.rem < n then p.rem else n
        let (ret, s) := e.erase ⟨e.addr.base, p.offs⟩ n s
        -- a negative value is an error, a unit of no size leaves the region
        if ret ≠ n ∧ ret.msb then .returned ret s
        else if ret ≠ n ∧ ret = 0 then .running p s
        else if p.rem ≤ ret then .returned (len + (ret - p.rem)) s
        else
          let (ret, p) := skipBlocks e.size ret.toNat ret p
          eraseBlkLoop e len turns e.size
            { blk := p.blk + 1, rem := p.rem - ret, addr := p.addr + ret, offs := p.offs + ret } s
      else .running p s

/-- The loop over the entries of the map. -/
def eraseLoop (len : Word) : List (EraseEntry σ) → Word → Word → σ → Word × σ
  | [], _, rem, s => (len - rem, s)
  | e :: rest, addr, rem, s =>
      let size := e.count * e.size
      if size = 0 then eraseLoop len rest addr rem s
      else
        let memStart := e.addr.base + e.addr.offs
        let memEnd := memStart + size - 1
        if addr < memStart ∨ memEnd < addr then eraseLoop len rest addr rem s
        else if e.flags &&& memRo ≠ 0 then (-1, s)
        else
          let blk := (addr - memStart) / e.size
          let blkStart := memStart + blk * e.size
          let n := e.size - (addr - blkStart)
          match eraseBlkLoop e len (e.count.toNat - blk.toNat) n
              { blk := blk.toNat, rem := rem, addr := addr, offs := addr - e.addr.base } s with
          | .returned ret s => (ret, s)
          | .running p s => eraseLoop len rest p.addr p.rem s

/-- `ice_mem_erase` -/
def iceMemErase (map : List (EraseEntry σ)) (addr len : Word) (s : σ) : Word × σ :=
  eraseLoop len map addr len s

/-- A unit that is a whole number of blocks. -/
theorem skipBlocks_blocks {n : Word} {j turns : Nat} {ret : Word} (p : ErasePos)
    (hn : n ≠ 0) (hret : ret.toNat = (j + 1) * n.toNat) (hturns : j < turns) :
    skipBlocks n turns ret p =
      (n, { blk := p.blk + j, rem := p.rem - (ret - n), addr := p.addr + (ret - n)
            offs := p.offs + (ret - n) }) := by
  have hpos : 0 < n.toNat := Nat.pos_of_ne_zero fun h => hn (BitVec.eq_of_toNat_eq h)
  induction j generalizing turns ret p with
  | zero =>
      have heq : ret = n := BitVec.eq_of_toNat_eq (by omega)
      obtain ⟨turns, rfl⟩ : ∃ k, turns = k + 1 := ⟨turns - 1, by omega⟩
      unfold skipBlocks
      rw [if_neg (by rw [heq]; exact BitVec.lt_irrefl n), heq]
      simp
  | succ j ih =>
      obtain ⟨turns, rfl⟩ : ∃ k, turns = k + 1 := ⟨turns - 1, by omega⟩
      have hmul : (j + 1 + 1) * n.toNat = (j + 1) * n.toNat + n.toNat := Nat.succ_mul ..
      have hmul' : (j + 1) * n.toNat = j * n.toNat + n.toNat := Nat.succ_mul ..
      have hlt : n < ret := BitVec.lt_def.mpr (by omega)
      have hrest : (ret - n).toNat = (j + 1) * n.toNat := by
        rw [BitVec.toNat_sub_of_le (BitVec.le_of_lt hlt)]
        omega
      unfold skipBlocks
      rw [if_pos hlt, ih _ hrest (by omega)]
      congr 1
      rw [ErasePos.mk.injEq]
      refine ⟨Nat.add_right_comm .., ?_, ?_, ?_⟩ <;> bv_omega

/-- One turn of the loop, with a unit that is a whole number of blocks. -/
theorem eraseBlkLoop_unit {e : EraseEntry σ} {len n r : Word} {turns j : Nat} {p : ErasePos}
    {s s' : σ} (hblk : p.blk < e.count.toNat) (hsize : e.size ≠ 0)
    (hcall : e.erase ⟨e.addr.base, p.offs⟩ (if p.rem < n then p.rem else n) s = (r, s'))
    (hr : r.toNat = (j + 1) * e.size.toNat) (hmsb : r.msb = false) :
    eraseBlkLoop e len (turns + 1) n p s =
      if p.rem ≤ r then .returned (len + (r - p.rem)) s'
      else
        eraseBlkLoop e len turns e.size
          { blk := p.blk + (j + 1), rem := p.rem - r, addr := p.addr + r, offs := p.offs + r }
          s' := by
  have hpos : 0 < e.size.toNat := Nat.pos_of_ne_zero fun h => hsize (BitVec.eq_of_toNat_eq h)
  have hle : j + 1 ≤ r.toNat := hr ▸ Nat.le_mul_of_pos_right _ hpos
  have hne : r ≠ 0 := fun h => absurd hle (by simp [h])
  have hskip := skipBlocks_blocks p hsize hr hle
  have hback : ∀ x : Word, x - (r - e.size) - e.size = x - r := fun x => by bv_omega
  have hon : ∀ x : Word, x + (r - e.size) + e.size = x + r := fun x => by bv_omega
  rw [eraseBlkLoop, if_pos hblk]
  simp only [hcall]
  rw [if_neg (by simp [hmsb]), if_neg (fun h => hne h.2)]
  simp only [hskip, hback, hon, Nat.add_assoc]

/-- A region that does not hold the address is skipped. -/
theorem eraseLoop_skip {e : EraseEntry σ} {len addr rem : Word} {rest : List (EraseEntry σ)} {s : σ}
    (hout : addr < e.addr.base + e.addr.offs ∨
      e.addr.base + e.addr.offs + e.count * e.size - 1 < addr) :
    eraseLoop len (e :: rest) addr rem s = eraseLoop len rest addr rem s := by
  rw [eraseLoop]
  simp only [if_pos hout, ite_self]

/-- The region that holds the address. -/
theorem eraseLoop_returned {e : EraseEntry σ} {len addr rem ret : Word}
    {rest : List (EraseEntry σ)} {s s' : σ} (hsize : e.count * e.size ≠ 0)
    (hin : ¬ (addr < e.addr.base + e.addr.offs ∨
      e.addr.base + e.addr.offs + e.count * e.size - 1 < addr))
    (hflags : e.flags &&& memRo = 0)
    (hrun : eraseBlkLoop e len
      (e.count.toNat - ((addr - (e.addr.base + e.addr.offs)) / e.size).toNat)
      (e.size - (addr - (e.addr.base + e.addr.offs +
        (addr - (e.addr.base + e.addr.offs)) / e.size * e.size)))
      { blk := ((addr - (e.addr.base + e.addr.offs)) / e.size).toNat, rem := rem, addr := addr
        offs := addr - e.addr.base } s = .returned ret s') :
    eraseLoop len (e :: rest) addr rem s = (ret, s') := by
  rw [eraseLoop]
  simp only [if_neg hsize, if_neg hin, if_neg (not_not.mpr hflags), hrun]

end YardIce.IceDrv
