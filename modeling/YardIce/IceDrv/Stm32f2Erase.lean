import YardIce.IceDrv.MemErase
import Mathlib.Tactic.IntervalCases

/-!
# Erasing the flash of the STM32F2

`stm32f2xx_flash_erase` below `ice_mem_erase`. The map has blocks of 16 KiB; the sectors of the
flash have 16, 64 and 128 KiB.

## Implementation notes

The flash controller of the target is modelled by its registers and by the numbers of the sectors
it was told to erase.
-/

namespace YardIce.IceDrv

/-! ## The flash controller -/

/-- `STM32F_BASE_FLASH` -/
def stm32fBaseFlash : Word := 0x40023c00

def flashAcr : Word := 0x00
def flashKeyr : Word := 0x04
def flashSr : Word := 0x0c
def flashCr : Word := 0x10

def flashKey1 : Word := 0x45670123
def flashKey2 : Word := 0xcdef89ab

/-- `LOCK` -/
def crLock : Word := 0x80000000
/-- `STRT` -/
def crStrt : Word := 0x10000
/-- `SER` -/
def crSer : Word := 0x2
/-- `BSY` -/
def srBsy : Word := 0x10000
/-- `DCEN | ICEN` -/
def acrEnable : Word := 0x600
/-- `DCRST | ICRST` -/
def acrReset : Word := 0x1800

/-- `SNB` -/
def snb (sect : Word) : Word := (sect &&& 0xf) <<< 3

/-- The controller: `busy` reads of `FLASH_SR` will still show `BSY`. -/
structure FlashTarget where
  cr : Word
  acr : Word
  armed : Bool
  busy : Nat
  sectors : List Nat
  deriving DecidableEq

namespace FlashTarget

/-- A register is read. -/
def rd32 (addr : Word) (t : FlashTarget) : Word × FlashTarget :=
  if addr = stm32fBaseFlash + flashCr then (t.cr, t)
  else if addr = stm32fBaseFlash + flashAcr then (t.acr, t)
  else if addr = stm32fBaseFlash + flashSr then
    (if t.busy = 0 then 0 else srBsy, { t with busy := t.busy - 1 })
  else (0, t)

/-- A register is written; an erase that is started takes `duration` reads of `FLASH_SR`. -/
def wr32 (duration : Nat → Nat) (addr v : Word) (t : FlashTarget) : FlashTarget :=
  if addr = stm32fBaseFlash + flashKeyr then
    if v = flashKey1 then { t with armed := true }
    else if v = flashKey2 ∧ t.armed then { t with armed := false, cr := t.cr &&& ~~~crLock }
    else { t with armed := false }
  else if addr = stm32fBaseFlash + flashAcr then { t with acr := v }
  else if addr = stm32fBaseFlash + flashCr then
    if t.busy ≠ 0 ∨ t.cr &&& crLock ≠ 0 then t
    else if v &&& crSer ≠ 0 ∧ v &&& crStrt ≠ 0 then
      { t with
        cr := v
        busy := duration t.sectors.length
        sectors := t.sectors ++ [((v >>> 3) &&& 0xf).toNat] }
    else { t with cr := v }
  else t

end FlashTarget

/-! ## The driver -/

/-- The sector and the size of the unit to erase. -/
def flashUnit (page : Nat) : Nat × Nat :=
  if page ≤ 3 then (page, 16384)
  else if page ≤ 7 then (4, 65536)
  else ((page - 1) / 8 + 5, 131072)

/-- The loop over `FLASH_SR`. -/
def flashPoll : Nat → FlashTarget → Bool × FlashTarget
  | 0, t =>
      let (sr, t) := t.rd32 (stm32fBaseFlash + flashSr)
      (sr &&& srBsy = 0, t)
  | again + 1, t =>
      let (sr, t) := t.rd32 (stm32fBaseFlash + flashSr)
      if sr &&& srBsy = 0 then (true, t) else flashPoll again t

/-- `if (cr & LOCK)`: flash write is unlocked. -/
def unlock (duration : Nat → Nat) (t : FlashTarget) : FlashTarget :=
  let (cr, t) := t.rd32 (stm32fBaseFlash + flashCr)
  if cr &&& crLock ≠ 0 then
    (t.wr32 duration (stm32fBaseFlash + flashKeyr) flashKey1).wr32 duration
      (stm32fBaseFlash + flashKeyr) flashKey2
  else t

/-- `SER | SNB(sect) | STRT` -/
def eraseCommand (sect : Nat) : Word := crSer ||| snb (BitVec.ofNat 32 sect) ||| crStrt

/-- `stm32f2xx_flash_erase` -/
def stm32f2xxFlashErase (duration : Nat → Nat) (ref : MemRef) (_len : Word) (t : FlashTarget) :
    Word × FlashTarget :=
  let (sect, size) := flashUnit (ref.offs.toNat / 16384)
  let t := unlock duration t
  let (acr, t) := t.rd32 (stm32fBaseFlash + flashAcr)
  let t := t.wr32 duration (stm32fBaseFlash + flashAcr) (acr &&& ~~~acrEnable ||| acrReset)
  let t := t.wr32 duration (stm32fBaseFlash + flashCr) (eraseCommand sect)
  let (ready, t) := flashPoll (4096 * 32) t
  if ready then
    (BitVec.ofNat 32 size, t.wr32 duration (stm32fBaseFlash + flashAcr) acr)
  else (-1, t)

/-- The flash region of `stm32f20xxe_mem`. -/
def flashEntry (duration : Nat → Nat) : EraseEntry FlashTarget :=
  ⟨0, ⟨0x08000000, 0⟩, 32, 16384, stm32f2xxFlashErase duration⟩

/-- `stm32f20xxe_mem`. The operations of the other regions are those of the core. -/
def stm32f20xxeMem (duration : Nat → Nat) (cm3Ram : EraseOp FlashTarget) :
    List (EraseEntry FlashTarget) :=
  [⟨0, ⟨0x00000000, 0⟩, 64, 65536, cm3Ram⟩,
    flashEntry duration,
    ⟨0, ⟨0x20000000, 0⟩, 1, 114688, cm3Ram⟩,
    ⟨0, ⟨0x20000000, 114688⟩, 1, 16384, cm3Ram⟩,
    ⟨0, ⟨0x40000000, 0x00024000⟩, 1, 4096, cm3Ram⟩,
    ⟨0, ⟨0xe000e000, 0⟩, 1, 0x1000, cm3Ram⟩]

/-! ## One unit -/

section Unit

variable {duration : Nat → Nat} {t : FlashTarget}

theorem rd32_sr (t : FlashTarget) :
    t.rd32 (stm32fBaseFlash + flashSr) =
      (if t.busy = 0 then 0 else srBsy, { t with busy := t.busy - 1 }) := rfl

theorem flashPoll_ready {again : Nat} (h : t.busy ≤ again) :
    flashPoll again t = (true, { t with busy := 0 }) := by
  induction again generalizing t with
  | zero =>
      have hidle : t.busy = 0 := Nat.le_zero.mp h
      simp only [flashPoll, rd32_sr, hidle, if_true]
      rfl
  | succ again ih =>
      unfold flashPoll
      by_cases hidle : t.busy = 0
      · simp only [rd32_sr, hidle, if_true]
        rfl
      · simp only [rd32_sr, if_neg hidle]
        rw [if_neg (by decide), ih (by show t.busy - 1 ≤ again; lia)]

theorem unlock_spec (duration : Nat → Nat) (t : FlashTarget) :
    (unlock duration t).cr &&& crLock = 0 ∧ (unlock duration t).busy = t.busy ∧
    (unlock duration t).sectors = t.sectors := by
  have hread : t.rd32 (stm32fBaseFlash + flashCr) = (t.cr, t) := rfl
  unfold unlock
  rw [hread]
  simp only []
  split_ifs with hlock
  · refine ⟨?_, rfl, rfl⟩
    show t.cr &&& ~~~crLock &&& crLock = 0
    rw [BitVec.and_assoc, show ~~~crLock &&& crLock = 0#32 from by decide, BitVec.and_zero]
    rfl
  · exact ⟨not_not.mp hlock, rfl, rfl⟩

theorem eraseCommand_fields : ∀ sect < 16,
    ((eraseCommand sect >>> 3) &&& 0xf).toNat = sect ∧
    eraseCommand sect &&& crSer ≠ 0 ∧ eraseCommand sect &&& crStrt ≠ 0 := by
  decide

/-- The erase of a sector is started and awaited. -/
theorem erase_started {t : FlashTarget} (hidle : t.busy = 0) (hlock : t.cr &&& crLock = 0)
    (hduration : ∀ i, duration i ≤ 4096 * 32) {sect : Nat} (hsect : sect < 16) :
    flashPoll (4096 * 32) (t.wr32 duration (stm32fBaseFlash + flashCr) (eraseCommand sect)) =
      (true, { t with cr := eraseCommand sect, sectors := t.sectors ++ [sect] }) := by
  obtain ⟨hsnb, hser, hstrt⟩ := eraseCommand_fields sect hsect
  have hwrite : t.wr32 duration (stm32fBaseFlash + flashCr) (eraseCommand sect) =
      { t with
        cr := eraseCommand sect, busy := duration t.sectors.length
        sectors := t.sectors ++ [sect] } := by
    unfold FlashTarget.wr32
    rw [if_neg (by decide), if_neg (by decide), if_pos rfl,
      if_neg (not_or.mpr ⟨not_not.mpr hidle, not_not.mpr hlock⟩), if_pos ⟨hser, hstrt⟩, hsnb]
  rw [hwrite, flashPoll_ready (hduration _)]
  show (true, FlashTarget.mk _ _ _ 0 _) = (true, FlashTarget.mk _ _ _ t.busy _)
  rw [hidle]

/-- The driver erases one sector and returns the size of the unit. -/
theorem stm32f2xxFlashErase_eq (hidle : t.busy = 0) (hduration : ∀ i, duration i ≤ 4096 * 32)
    {ref : MemRef} (hsect : (flashUnit (ref.offs.toNat / 16384)).1 < 16) (len : Word) :
    ∃ t', stm32f2xxFlashErase duration ref len t =
        (BitVec.ofNat 32 (flashUnit (ref.offs.toNat / 16384)).2, t') ∧
      t'.busy = 0 ∧ t'.sectors = t.sectors ++ [(flashUnit (ref.offs.toNat / 16384)).1] := by
  obtain ⟨hlock, hbusy, hsectors⟩ := unlock_spec duration t
  have hstarted := erase_started (t := (unlock duration t).wr32 duration
    (stm32fBaseFlash + flashAcr) ((unlock duration t).acr &&& ~~~acrEnable ||| acrReset))
    (hbusy.trans hidle) hlock hduration hsect
  have hread : (unlock duration t).rd32 (stm32fBaseFlash + flashAcr) =
      ((unlock duration t).acr, unlock duration t) := rfl
  unfold stm32f2xxFlashErase
  simp only [hread, hstarted, if_true]
  exact ⟨_, rfl, hbusy.trans hidle, congrArg (· ++ _) hsectors⟩

end Unit

/-! ## The units that are erased -/

/-- The sectors that are erased from `pos` on, until `fin` is passed. -/
def eraseWalk (fin : Nat) : Nat → Nat → List Nat
  | 0, _ => []
  | turns + 1, pos =>
      let (sect, size) := flashUnit (pos / 16384)
      sect :: if fin ≤ pos + size then [] else eraseWalk fin turns (pos + size)

/-- A unit is a whole number of blocks. -/
theorem flashUnit_size (page : Nat) :
    ∃ j, j < 8 ∧ (flashUnit page).2 = (j + 1) * 16384 := by
  unfold flashUnit
  split_ifs
  · exact ⟨0, by decide, rfl⟩
  · exact ⟨3, by decide, rfl⟩
  · exact ⟨7, by decide, rfl⟩

theorem flashUnit_sect {page : Nat} (h : page < 32) : (flashUnit page).1 < 16 := by
  unfold flashUnit
  split_ifs <;> simp only [] <;> lia

/-- The loop erases the units of the walk and returns at the end of the last one. -/
theorem eraseBlkLoop_walk {duration : Nat → Nat} (hduration : ∀ i, duration i ≤ 4096 * 32)
    (len : Word) (hlen : len.toNat ≤ 524288) {fin turns pos : Nat} (hfin : fin ≤ 524288)
    {n : Word} {p : ErasePos} {t : FlashTarget} (hidle : t.busy = 0)
    (hlt : pos < fin) (hoffs : p.offs.toNat = pos) (hrem : p.rem.toNat = fin - pos)
    (hblk : p.blk = pos / 16384) (hturns : 32 ≤ turns + p.blk) (hn : n.toNat ≤ 16384) :
    ∃ ret t', eraseBlkLoop (flashEntry duration) len turns n p t = .returned ret t' ∧
      t'.sectors = t.sectors ++ eraseWalk fin turns pos ∧
      len.toNat ≤ ret.toNat ∧ ret.toNat < 2 ^ 31 := by
  induction turns generalizing pos n p t with
  | zero => lia
  | succ turns ih =>
      obtain ⟨j, hj, hsize⟩ := flashUnit_size (pos / 16384)
      have hin : p.blk < (flashEntry duration).count.toNat := by
        show p.blk < 32
        lia
      have hsect : (flashUnit ((MemRef.mk 0x08000000 p.offs).offs.toNat / 16384)).1 < 16 :=
        flashUnit_sect (by show p.offs.toNat / 16384 < 32; lia)
      obtain ⟨t', hcall, hidle', hsectors⟩ := stm32f2xxFlashErase_eq hidle hduration hsect
        (if p.rem < n then p.rem else n)
      rw [show (MemRef.mk 0x08000000 p.offs).offs.toNat = pos from hoffs] at hcall hsectors
      rw [hsize] at hcall
      have hr : (BitVec.ofNat 32 ((j + 1) * 16384)).toNat = (j + 1) * 16384 := by
        rw [BitVec.toNat_ofNat, Nat.mod_eq_of_lt (by lia)]
      generalize BitVec.ofNat 32 ((j + 1) * 16384) = r at hcall hr
      have hmsb : r.msb = false := by
        rw [BitVec.msb_eq_false_iff_two_mul_lt]
        lia
      rw [eraseBlkLoop_unit (e := flashEntry duration) hin
        (show (16384 : Word) ≠ 0 from by decide) hcall hr hmsb]
      simp only [eraseWalk, hsize]
      have hend : p.rem ≤ r ↔ fin ≤ pos + (j + 1) * 16384 := by
        rw [BitVec.le_def, hr, hrem]
        lia
      by_cases hlast : fin ≤ pos + (j + 1) * 16384
      · rw [if_pos (hend.mpr hlast), if_pos hlast]
        refine ⟨_, t', rfl, hsectors, ?_⟩
        rw [BitVec.toNat_add, BitVec.toNat_sub_of_le (hend.mpr hlast), hr, hrem]
        lia
      · rw [if_neg (mt hend.mp hlast), if_neg hlast]
        obtain ⟨ret, u, hrun, hu, hlow, hhigh⟩ := ih (n := (flashEntry duration).size)
          (p := ⟨p.blk + (j + 1), p.rem - r, p.addr + r, p.offs + r⟩) hidle'
          (show pos + (j + 1) * 16384 < fin by lia)
          (by show (p.offs + r).toNat = _; rw [BitVec.toNat_add, hoffs, hr]; lia)
          (by
            show (p.rem - r).toNat = _
            rw [BitVec.toNat_sub_of_le (BitVec.le_def.mpr (by lia)), hr, hrem]
            lia)
          (by show p.blk + (j + 1) = _; lia) (by show 32 ≤ turns + (p.blk + (j + 1)); lia)
          (le_of_eq rfl)
        refine ⟨ret, u, hrun, ?_, hlow, hhigh⟩
        rw [hu, hsectors, List.append_assoc, List.singleton_append]

/-- The first address of the flash. -/
def flashBase : Nat := 0x08000000

/-- A range of the flash is erased by the loop over its blocks. -/
theorem iceMemErase_walk {duration : Nat → Nat} (hduration : ∀ i, duration i ≤ 4096 * 32)
    (cm3Ram : EraseOp FlashTarget) {t : FlashTarget} (hidle : t.busy = 0) {addr len : Word}
    (hpos : 0 < len.toNat) (hstart : flashBase ≤ addr.toNat)
    (hend : addr.toNat + len.toNat ≤ flashBase + 524288) :
    ∃ ret t', iceMemErase (stm32f20xxeMem duration cm3Ram) addr len t = (ret, t') ∧
      t'.sectors = t.sectors ++ eraseWalk (addr.toNat - flashBase + len.toNat)
        (32 - (addr.toNat - flashBase) / 16384) (addr.toNat - flashBase) ∧
      len.toNat ≤ ret.toNat ∧ ret.toNat < 2 ^ 31 := by
  unfold flashBase at *
  have hoffs : (addr - 0x08000000#32).toNat = addr.toNat - 0x08000000 :=
    BitVec.toNat_sub_of_le (BitVec.le_def.mpr hstart)
  have hblk : ((addr - 0x08000000#32) / 16384#32).toNat = (addr.toNat - 0x08000000) / 16384 := by
    rw [BitVec.toNat_udiv, hoffs]
    rfl
  have hn : (16384#32 - (addr - (0x08000000#32 +
      (addr - 0x08000000#32) / 16384#32 * 16384#32))).toNat ≤ 16384 := by
    generalize (addr - 0x08000000#32) / 16384#32 = q at hblk
    bv_omega
  obtain ⟨ret, t', hrun, hsectors, hret⟩ := eraseBlkLoop_walk hduration len (by lia)
    (p := ⟨((addr - 0x08000000#32) / 16384#32).toNat, len, addr, addr - 0x08000000#32⟩)
    (show addr.toNat - 0x08000000 + len.toNat ≤ 524288 by lia) hidle
    (Nat.lt_add_of_pos_right hpos) hoffs (Nat.add_sub_cancel_left ..).symm hblk
    (show 32 ≤ 32 - ((addr - 0x08000000#32) / 16384#32).toNat +
      ((addr - 0x08000000#32) / 16384#32).toNat by lia) hn
  rw [hblk] at hsectors
  refine ⟨ret, t', ?_, hsectors, hret⟩
  have hboot : (0 : Word) + 0 + 64 * 65536 - 1 < addr := by
    rw [show (0 : Word) + 0 + 64 * 65536 - 1 = 4194303#32 from by decide, BitVec.lt_def,
      BitVec.toNat_ofNat]
    lia
  have hbase : (flashEntry duration).addr.base = 0x08000000#32 := rfl
  have hfirst : (flashEntry duration).addr.base + (flashEntry duration).addr.offs =
      0x08000000#32 := BitVec.add_zero _
  have hsize : (flashEntry duration).size = 16384#32 := rfl
  have hcount : (flashEntry duration).count.toNat = 32 := rfl
  have hbytes : (flashEntry duration).count * (flashEntry duration).size = 524288#32 := by
    rw [hsize]
    exact (by decide : (32#32 : Word) * 16384#32 = 524288#32)
  unfold iceMemErase stm32f20xxeMem
  rw [eraseLoop_skip (e := ⟨0, ⟨0, 0⟩, 64, 65536, cm3Ram⟩) (.inr hboot)]
  refine eraseLoop_returned (e := flashEntry duration) ?_ ?_ (BitVec.zero_and) ?_
  · rw [hbytes]
    decide
  · rw [hfirst, hbytes, show 0x08000000#32 + 524288#32 - 1 = 0x0807ffff#32 from by decide, not_or,
      BitVec.not_lt, BitVec.not_lt, BitVec.le_def, BitVec.le_def, BitVec.toNat_ofNat,
      BitVec.toNat_ofNat]
    lia
  · simp only [hcount, hsize, hbase]
    exact hrun

/-! ## The sectors -/

/-- The sector of an offset: 4 of 16 KiB, one of 64 KiB, the others of 128 KiB. -/
def sectorOf (offs : Nat) : Nat :=
  if offs < 65536 then offs / 16384 else if offs < 131072 then 4 else offs / 131072 + 4

/-- The first offset of a sector. -/
def sectorStart (k : Nat) : Nat := if k ≤ 4 then 16384 * k else 131072 * (k - 4)

theorem le_sectorOf_iff (k offs : Nat) : k ≤ sectorOf offs ↔ sectorStart k ≤ offs := by
  unfold sectorOf sectorStart
  split_ifs <;> lia

theorem sectorStart_lt (k : Nat) : sectorStart k + 16384 ≤ sectorStart (k + 1) := by
  unfold sectorStart
  split_ifs <;> lia

/-- The sector has a byte of the range. -/
def Touches (start fin k : Nat) : Prop := ∃ a, start ≤ a ∧ a < fin ∧ sectorOf a = k

theorem touches_iff {start fin : Nat} (h : start < fin) (k : Nat) :
    Touches start fin k ↔ sectorOf start ≤ k ∧ k ≤ sectorOf (fin - 1) := by
  constructor
  · rintro ⟨a, hle, hlt, rfl⟩
    refine ⟨(le_sectorOf_iff _ _).mpr ?_, (le_sectorOf_iff _ _).mpr ?_⟩
    · exact ((le_sectorOf_iff _ start).mp le_rfl).trans hle
    · exact ((le_sectorOf_iff _ a).mp le_rfl).trans (Nat.le_sub_one_of_lt hlt)
  · rintro ⟨hlow, hhigh⟩
    -- the first byte of the sector that is not before the range
    refine ⟨max start (sectorStart k), le_max_left .., ?_, le_antisymm ?_ ?_⟩
    · have hend := (le_sectorOf_iff _ _).mp hhigh
      exact max_lt h (by lia)
    · by_contra hlt
      have hnext := (le_sectorOf_iff (k + 1) _).mp (Nat.lt_of_not_le hlt)
      have hstart := mt (le_sectorOf_iff (k + 1) start).mpr (by lia)
      have hgap := sectorStart_lt k
      rcases max_choice start (sectorStart k) with hmax | hmax <;> lia
    · exact (le_sectorOf_iff _ _).mpr (le_max_right ..)

/-- The block is the first one of its sector. -/
def AtSectorStart (page : Nat) : Prop := page ≤ 4 ∨ page % 8 = 0

/-- The walk goes from sector to sector. -/
theorem mem_eraseWalk {fin turns k r : Nat} (hfin : fin ≤ 524288) (hr : r < 16384)
    (hlt : sectorStart k + r < fin) (hturns : 8 ≤ turns + k) (j : Nat) :
    j ∈ eraseWalk fin turns (sectorStart k + r) ↔
      k ≤ j ∧ (j = k ∨ sectorStart j + r < fin) := by
  induction turns generalizing k with
  | zero =>
      unfold sectorStart at hlt
      split_ifs at hlt <;> lia
  | succ turns ih =>
      have hunit : flashUnit ((sectorStart k + r) / 16384) =
          (k, sectorStart (k + 1) - sectorStart k) := by
        unfold flashUnit
        unfold sectorStart at hlt ⊢
        split_ifs at hlt ⊢ <;> rw [Prod.mk.injEq] <;> lia
      have hgap := sectorStart_lt k
      have hnext : sectorStart k + r + (sectorStart (k + 1) - sectorStart k) =
          sectorStart (k + 1) + r := by lia
      have hmono : k + 1 ≤ j → sectorStart (k + 1) ≤ sectorStart j := fun hle => by
        unfold sectorStart
        split_ifs <;> lia
      simp only [eraseWalk, hunit, hnext]
      split_ifs with hlast
      · rw [List.mem_singleton]
        lia
      · rw [List.mem_cons, ih (by lia) (by lia)]
        constructor
        · rintro (rfl | ⟨hle, rfl | hlt⟩) <;> lia
        · rintro ⟨hle, rfl | hlt⟩ <;> grind

/-- A walk that is not at the start of a sector erases the sectors behind it. -/
theorem lt_of_mem_eraseWalk {fin turns pos j : Nat} (hlow : 8 ≤ pos / 16384)
    (hpos : pos / 16384 % 8 ≠ 0) (hj : j ∈ eraseWalk fin turns pos) : sectorOf pos < j := by
  induction turns generalizing pos with
  | zero => exact absurd hj (List.not_mem_nil)
  | succ turns ih =>
      have hunit : flashUnit (pos / 16384) = (pos / 131072 + 5, 131072) := by
        unfold flashUnit
        rw [if_neg (by lia), if_neg (by lia), Prod.mk.injEq]
        lia
      have hsector : sectorOf pos = pos / 131072 + 4 := by
        unfold sectorOf
        rw [if_neg (by lia), if_neg (by lia)]
      have hnext : sectorOf (pos + 131072) = pos / 131072 + 5 := by
        unfold sectorOf
        rw [if_neg (by lia), if_neg (by lia)]
        lia
      simp only [eraseWalk, hunit] at hj
      rcases List.mem_cons.mp hj with rfl | hj
      · lia
      · split_ifs at hj with hlast
        · exact absurd hj (List.not_mem_nil)
        · have hlt := ih (by lia) (by lia) hj
          lia

/-- The range from `start` to `fin` is erased as it should be. It starts in a block whose number
leads to its sector. If it is in several sectors, it starts in the first block of its sector, and
its end is further in its sector than its start is in its block. -/
def WellPlaced (start fin : Nat) : Prop :=
  (start / 16384 < 8 ∨ start / 16384 % 8 = 0) ∧
  (sectorOf (fin - 1) = sectorOf start ∨
    AtSectorStart (start / 16384) ∧
      sectorStart (sectorOf (fin - 1)) + start % 16384 < fin)

instance (start fin : Nat) : Decidable (WellPlaced start fin) := by
  unfold WellPlaced AtSectorStart
  infer_instance

theorem eraseWalk_exact_iff {start fin : Nat} (hlt : start < fin) (hfin : fin ≤ 524288) :
    (∀ k, k ∈ eraseWalk fin (32 - start / 16384) start ↔ Touches start fin k) ↔
      WellPlaced start fin := by
  simp only [touches_iff hlt]
  have hhigh := (le_sectorOf_iff (sectorOf (fin - 1)) (fin - 1)).mp le_rfl
  have hover := mt (le_sectorOf_iff (sectorOf (fin - 1) + 1) (fin - 1)).mpr (by lia)
  have hmono : ∀ {a b : Nat}, a ≤ b → sectorStart a ≤ sectorStart b := fun hle => by
    unfold sectorStart
    split_ifs <;> lia
  by_cases hat : AtSectorStart (start / 16384)
  · have hstart : start = sectorStart (sectorOf start) + start % 16384 := by
      unfold AtSectorStart at hat
      unfold sectorStart sectorOf
      split_ifs <;> lia
    have hturns : 8 ≤ 32 - start / 16384 + sectorOf start := by
      unfold sectorOf
      split_ifs <;> lia
    have hmem := mem_eraseWalk (r := start % 16384) hfin (Nat.mod_lt _ (by decide))
      (by rwa [← hstart]) hturns
    rw [← hstart] at hmem
    simp only [hmem]
    have hsector : sectorOf start ≤ sectorOf (fin - 1) :=
      (le_sectorOf_iff _ _).mpr (((le_sectorOf_iff _ start).mp le_rfl).trans (by lia))
    have hfirst : start / 16384 < 8 ∨ start / 16384 % 8 = 0 := hat.imp_left (by lia)
    constructor
    · intro hall
      refine ⟨hfirst, ((hall _).mpr ⟨hsector, le_rfl⟩).2.imp_right fun hlast => ⟨hat, hlast⟩⟩
    · rintro ⟨-, hlast⟩ k
      constructor
      · rintro ⟨hle, hk⟩
        refine ⟨hle, ?_⟩
        rcases hk with rfl | hk
        · exact hsector
        · exact (le_sectorOf_iff _ _).mpr (by lia)
      · rintro ⟨hle, hk⟩
        refine ⟨hle, ?_⟩
        rcases hlast with hone | ⟨-, hlast⟩
        · exact .inl (le_antisymm (hone ▸ hk) hle)
        · exact .inr ((Nat.add_le_add_right (hmono hk) _).trans_lt hlast)
  · have hnot := not_or.mp hat
    by_cases hfour : start / 16384 < 8
    · -- the rest of the 64 KiB sector is taken for a whole one
      have hself : sectorOf start = 4 := by
        unfold sectorOf
        split_ifs <;> lia
      have hunit : flashUnit (start / 16384) = (4, 65536) := by
        unfold flashUnit
        rw [if_neg (by lia), if_pos (by lia)]
      obtain ⟨turns, hturns⟩ : ∃ turns, 32 - start / 16384 = turns + 1 :=
        ⟨31 - start / 16384, by lia⟩
      rw [hturns]
      simp only [eraseWalk, hunit, hself]
      by_cases hone : sectorOf (fin - 1) = 4
      · have hlast : fin ≤ start + 65536 := by
          rw [hone, show sectorStart (4 + 1) = 131072 from rfl] at hover
          lia
        refine iff_of_true (fun k => ?_) ⟨.inl hfour, .inl (hone.trans hself.symm)⟩
        rw [if_pos hlast, List.mem_singleton, hone]
        exact ⟨fun heq => ⟨heq.ge, heq.le⟩, fun h => le_antisymm h.2 h.1⟩
      · refine iff_of_false (fun hall => ?_) fun hwell =>
          hwell.2.elim (fun heq => hone (heq.trans hself)) fun h => hat h.1
        have hsector : sectorOf start ≤ sectorOf (fin - 1) :=
          (le_sectorOf_iff _ _).mpr (((le_sectorOf_iff _ start).mp le_rfl).trans (by lia))
        have hfive : sectorOf (start + 65536) = 5 := by
          unfold sectorOf
          split_ifs <;> lia
        rcases List.mem_cons.mp ((hall 5).mpr ⟨by decide, by lia⟩) with heq | hin
        · lia
        · split_ifs at hin with hlast
          · exact absurd hin (List.not_mem_nil)
          · have hlt := lt_of_mem_eraseWalk (by lia) (by unfold AtSectorStart at hat; lia) hin
            lia
    · have hself : sectorOf start ∉ eraseWalk fin (32 - start / 16384) start := fun hin =>
        absurd (lt_of_mem_eraseWalk (by lia) hnot.2 hin) (lt_irrefl _)
      refine iff_of_false (fun hall => hself ((hall _).mpr ⟨le_rfl, ?_⟩)) fun hwell => ?_
      · exact (le_sectorOf_iff _ _).mpr (((le_sectorOf_iff _ start).mp le_rfl).trans (by lia))
      · exact hwell.1.elim hfour hnot.2

/-- What an erase of `len` bytes at `addr` has to do with the sectors of the flash, and return. -/
def ErasesExactly (duration : Nat → Nat) (cm3Ram : EraseOp FlashTarget) (addr len : Word)
    (t : FlashTarget) : Prop :=
  ∃ ret t' new, iceMemErase (stm32f20xxeMem duration cm3Ram) addr len t = (ret, t') ∧
    t'.sectors = t.sectors ++ new ∧
    (∀ k, k ∈ new ↔
      Touches (addr.toNat - flashBase) (addr.toNat - flashBase + len.toNat) k) ∧
    (len.toNat : Int) ≤ ret.toInt

/-- The sectors of a range of the flash are erased exactly if the range is well placed. -/
theorem ice_mem_erase_exact_iff (duration : Nat → Nat) (hduration : ∀ i, duration i ≤ 4096 * 32)
    (cm3Ram : EraseOp FlashTarget) (t : FlashTarget) (hidle : t.busy = 0) (addr len : Word)
    (hpos : 0 < len.toNat) (hstart : flashBase ≤ addr.toNat)
    (hend : addr.toNat + len.toNat ≤ flashBase + 524288) :
    ErasesExactly duration cm3Ram addr len t ↔
      WellPlaced (addr.toNat - flashBase) (addr.toNat - flashBase + len.toNat) := by
  obtain ⟨ret, t', hrun, hsectors, hlow, hhigh⟩ :=
    iceMemErase_walk hduration cm3Ram hidle hpos hstart hend
  rw [← eraseWalk_exact_iff (Nat.lt_add_of_pos_right hpos) (by lia)]
  constructor
  · rintro ⟨ret₂, t₂, new, hrun₂, hnew, htouch, -⟩
    obtain ⟨-, rfl⟩ := Prod.mk.inj (hrun.symm.trans hrun₂)
    obtain rfl := List.append_cancel_left (hsectors.symm.trans hnew)
    exact htouch
  · intro htouch
    refine ⟨ret, t', _, hrun, hsectors, htouch, ?_⟩
    rw [BitVec.toInt_eq_toNat_of_lt (by lia)]
    exact Int.ofNat_le.mpr hlow

theorem ice_mem_erase_exact_two :
    ErasesExactly (fun _ => 3) (fun _ n t => (n, t)) 0x0800c800 0x5000 ⟨crLock, 0x700, false, 0, []⟩ :=
  (ice_mem_erase_exact_iff (fun _ => 3) (by simp) (fun _ n t => (n, t)) ⟨crLock, 0x700, false, 0, []⟩
    rfl 0x0800c800 0x5000 (by decide) (by decide) (by decide)).mpr (by decide)

/-- A kilobyte in the second block of a 128 KiB sector: the next sector is erased. -/
theorem second_block_erases_next :
    ¬ ErasesExactly (fun _ => 0) (fun _ n t => (n, t)) 0x08024000 0x400
      ⟨crLock, 0x700, false, 0, []⟩ := by
  rintro ⟨ret, t', new, hrun, hnew, htouch, -⟩
  obtain ⟨-, rfl⟩ := Prod.mk.inj hrun
  have hsix : (6 : Nat) ∈ new := by
    rw [List.nil_append] at hnew
    rw [← hnew]
    decide
  exact absurd ((touches_iff (by decide) 6).mp ((htouch 6).mp hsix)) (by decide)

end YardIce.IceDrv
