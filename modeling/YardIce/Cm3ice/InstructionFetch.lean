import YardIce.Adi.BlockTransfer
import YardIce.Cm3ice.Core

/-!
# Instruction fetches of the disassembler

`core_read_memory` of `cm3ice.c`, the callback of `cm3_print_insn`, over the debug port with the
target's memory. Every halfword is read from the address of the first one.

## Implementation notes

The acknowledgements of the halfword reads are given. A write of `CTRL/STAT` clears the sticky
flags that are set in it; its other bits are those that were read.
-/

namespace YardIce.Cm3ice

open YardIce.Adi YardIce.Lib

/-- `DP_STICKYERR`. -/
def dpStickyErr : Word := 1 <<< 5

/-- `DP_STICKYORUN`, `DP_STICKYCMP` and `DP_STICKYERR`. -/
def dpSticky : Word := 1 <<< 1 ||| 1 <<< 4 ||| dpStickyErr

/-- A tap: its bus, `adi_dp_ctrl_stat_ready`, `adi_dp_reg_ctrl_stat` and the acknowledgements of
the halfword reads to come. -/
structure Tap where
  bus : Bus
  ready : Bool
  ctrlStat : Word
  acks : Nat → Ack

/-- `jtag_mem_ap_rd16`. -/
def Tap.jtagMemApRd16 (t : Tap) (addr : Word) : Ack × BitVec 16 × Tap :=
  let (data, bus) := t.bus.jtagMemApRd16 addr
  (t.acks 0, data, { t with bus, ready := true, acks := fun n => t.acks (n + 1) })

/-- `cm3ice_rd16`. -/
def cm3iceRd16 (t : Tap) (addr : Word) : Int × BitVec 16 × Tap :=
  let (ack, data, t) := t.jtagMemApRd16 addr
  if ack ≠ .ok then (iceErrJtag, data, t) else (iceOk, data, t)

/-- `jtag_dp_ctrl_stat_get`. -/
def Tap.jtagDpCtrlStatGet (t : Tap) : Word × Tap :=
  let bus := if t.ready then t.bus else t.bus.dpaccRd.2
  let (stat, bus) := bus.dpaccRd
  (stat, { t with bus, ready := true, ctrlStat := stat })

/-- `jtag_dp_ctrl_set`. -/
def Tap.jtagDpCtrlSet (t : Tap) (bitmap : Word) : Tap :=
  let v := t.ctrlStat ||| bitmap
  { t with
    ready := true
    ctrlStat := v
    bus := { t.bus with ctrlStat := t.bus.ctrlStat &&& ~~~(v &&& dpSticky) } }

/-- The loop of `core_read_memory` from `pos` on, with `n` turns left. -/
def readHalves (addr : Word) : Nat → Nat → (Nat → BitVec 16) → Tap → Bool × (Nat → BitVec 16) × Tap
  | 0, _, data, t => (true, data, t)
  | n + 1, pos, data, t =>
    let (ret, half, t) := cm3iceRd16 t addr
    let data := Function.update data pos half
    if ret ≠ iceOk then (false, data, t) else readHalves addr n (pos + 1) data t

/-- `core_read_memory`, with what its array `data` holds at first. -/
def coreReadMemory (t : Tap) (addr : Word) (buf : Nat → BitVec 8) (len : Word)
    (data : Nat → BitVec 16) : Int × (Nat → BitVec 8) × Tap :=
  let (ok, data, t) := readHalves addr (len.toNat / 2) 0 data t
  if ok = false then (-1, buf, t)
  else
    let (stat, t) := t.jtagDpCtrlStatGet
    if stat &&& dpStickyErr ≠ 0 then (-1, buf, t.jtagDpCtrlSet dpStickyErr)
    else (0, fill buf 0 len.toNat fun i => lane ((data (i / 2)).setWidth 32) (i % 2), t)

/-! ## One halfword -/

/-- The address of the halfword that holds a byte. -/
def halfAt (addr : Word) : Word := BitVec.ofNat 32 (addr.toNat / 2 * 2)

theorem bit_one_iff (addr : Word) : addr &&& 2 ≠ 0 ↔ addr.toNat % 4 / 2 = 1 := by
  have hlow : addr &&& 3 = BitVec.ofNat 32 (addr.toNat % 4) := by
    rw [← low_bits, BitVec.ofNat_toNat, BitVec.setWidth_eq]
  have hbit : addr &&& 2 = BitVec.ofNat 32 (addr.toNat % 4) &&& 2 := by
    rw [← hlow, BitVec.and_assoc]
    rfl
  have hcases : addr.toNat % 4 = 0 ∨ addr.toNat % 4 = 1 ∨ addr.toNat % 4 = 2 ∨
      addr.toNat % 4 = 3 := by omega
  rw [hbit]
  rcases hcases with h | h | h | h <;> rw [h] <;> decide

/-- The lanes of the halfword that an access reads, aligned or not. -/
theorem lane_half_data {b q : Bus} {addr : Word} (hq : Aimed b cswHalfword addr addr q) {i : Nat}
    (hi : i < 2) : lane q.drwData (addr.toNat % 4 / 2 * 2 + i) =
      b.mem (halfAt addr + BitVec.ofNat 32 i) := by
  have hlt := addr.isLt
  have hsize : q.hw.accessSize = 2 := hq.size_eq (Or.inr (Or.inl ⟨rfl, rfl⟩))
  have hnat : addr.toNat / 4 * 4 + (addr.toNat % 4 / 2 * 2 + i) = addr.toNat / 2 * 2 + i := by omega
  have hmod : (addr.toNat / 2 * 2 + i) % 2 ^ 32 = addr.toNat / 2 * 2 + i :=
    Nat.mod_eq_of_lt (by omega)
  rw [Bus.drwData, lane_lanes _ (by omega)]
  simp only [hq.hwTar, hnat]
  rw [if_pos, hq.mem, halfAt, BitVec.ofNat_add]
  rw [Hw.Transfers, hsize, hq.hwTar, BitVec.toNat_ofNat, hmod]
  omega

/-- An address lands where the last access was made. -/
theorem after_again {b q : Bus} {addr : Word} (h : After b addr addr 2 q) : Lands q addr addr where
  toSynced := h.toSynced
  hwTar := by
    intro htar
    rw [h.tar] at htar
    by_cases hs : b.Single
    · rw [if_pos hs] at htar
      exact absurd htar (add_ne_self (by decide) (by decide))
    · rw [h.hwTar, if_neg hs]
  stale := fun hne => absurd rfl hne
  page := rfl

/-- A read of a halfword, and the port for another one at the same address. -/
theorem rd16_again {b : Bus} {addr : Word} (h : Lands b addr addr) :
    (∀ i < 2, lane ((b.jtagMemApRd16 addr).1.setWidth 32) i =
        b.mem (halfAt addr + BitVec.ofNat 32 i)) ∧
      (b.jtagMemApRd16 addr).2.mem = b.mem ∧ Lands (b.jtagMemApRd16 addr).2 addr addr ∧
      (b.jtagMemApRd16 addr).2.ctrlStat = b.ctrlStat ∧
      (b.jtagMemApRd16 addr).2.result = b.ctrlStat := by
  have hq : Aimed b cswHalfword addr (b.reached addr) (b.aim cswHalfword addr) :=
    aim_aimed h.toSynced addr (by decide)
  rw [h.reached] at hq
  have hafter : After b addr addr 2 (b.jtagMemApRd16 addr).2 := by
    unfold Bus.jtagMemApRd16
    simp only [hq.apaccRd, Bus.dpaccRd]
    exact hq.after (Or.inr (Or.inl ⟨rfl, rfl⟩)) rfl rfl
  have hport : (b.jtagMemApRd16 addr).2.mem = b.mem ∧
      (b.jtagMemApRd16 addr).2.ctrlStat = b.ctrlStat ∧
      (b.jtagMemApRd16 addr).2.result = b.ctrlStat := by
    unfold Bus.jtagMemApRd16 Bus.countTar
    simp only [hq.apaccRd, Bus.dpaccRd]
    split
    · exact ⟨hq.mem, rfl, rfl⟩
    · exact ⟨hq.mem, rfl, rfl⟩
  refine ⟨?_, hport.1, after_again hafter, hport.2⟩
  intro i hi
  unfold Bus.jtagMemApRd16
  simp only [hq.apaccRd, Bus.dpaccRd]
  rw [lane_half _ hi, ← lane_half_data hq hi]
  by_cases hbit : addr &&& 2 ≠ 0
  · rw [if_pos hbit, (bit_one_iff addr).mp hbit]
    exact lane_shiftRight _ 2 i
  · have hzero : addr.toNat % 4 / 2 = 0 := by
      have hne := mt (bit_one_iff addr).mpr hbit
      omega
    rw [if_neg hbit, hzero, Nat.zero_mul, Nat.zero_add]

/-! ## The loop -/

section Loop

variable {addr : Word} {n pos : Nat} {data : Nat → BitVec 16} {t : Tap}

/-- A turn with an acknowledged read. -/
theorem readHalves_succ (hack : t.acks 0 = .ok) : readHalves addr (n + 1) pos data t =
    readHalves addr n (pos + 1) (Function.update data pos (t.bus.jtagMemApRd16 addr).1)
      (t.jtagMemApRd16 addr).2.2 := by
  have hrd : cm3iceRd16 t addr = (iceOk, (t.bus.jtagMemApRd16 addr).1, (t.jtagMemApRd16 addr).2.2) := by
    unfold cm3iceRd16 Tap.jtagMemApRd16
    simp only [hack]
    rfl
  rw [readHalves, hrd]
  exact if_neg (not_not.mpr rfl)

theorem readHalves_ok (hacks : ∀ i < n, t.acks i = .ok) :
    (readHalves addr n pos data t).1 = true := by
  induction n generalizing pos data t with
  | zero => rfl
  | succ n ih =>
      rw [readHalves_succ (hacks 0 (by omega))]
      exact ih fun i hi => hacks (i + 1) (by omega)

theorem readHalves_frame {j : Nat} (hacks : ∀ i < n, t.acks i = .ok) (hj : j < pos) :
    (readHalves addr n pos data t).2.1 j = data j := by
  induction n generalizing pos data t with
  | zero => rfl
  | succ n ih =>
      rw [readHalves_succ (hacks 0 (by omega)), ih (fun i hi => hacks (i + 1) (by omega)) (by omega)]
      exact Function.update_of_ne (by omega) _ _

/-- Every turn reads the same halfword. -/
theorem readHalves_data (hl : Lands t.bus addr addr) (hacks : ∀ i < n, t.acks i = .ok) {j : Nat}
    (hpos : pos ≤ j) (hj : j < pos + n) {i : Nat} (hi : i < 2) :
    lane (((readHalves addr n pos data t).2.1 j).setWidth 32) i =
      t.bus.mem (halfAt addr + BitVec.ofNat 32 i) := by
  induction n generalizing pos data t with
  | zero => omega
  | succ n ih =>
      obtain ⟨hdata, hmem, hl', -⟩ := rd16_again hl
      have hacks' : ∀ i < n, (t.jtagMemApRd16 addr).2.2.acks i = .ok :=
        fun i hi => hacks (i + 1) (by omega)
      rw [readHalves_succ (hacks 0 (by omega))]
      by_cases hlt : pos < j
      · rw [ih hl' hacks' hlt (by omega)]
        exact congrFun hmem _
      · obtain rfl : j = pos := by omega
        rw [readHalves_frame hacks' (by omega), Function.update_self]
        exact hdata i hi

/-- The status that is captured behind the loop. -/
theorem readHalves_stat (hl : Lands t.bus addr addr) (hacks : ∀ i < n, t.acks i = .ok)
    (hn : 0 < n) : (readHalves addr n pos data t).2.2.jtagDpCtrlStatGet.1 = t.bus.ctrlStat := by
  induction n generalizing pos data t with
  | zero => omega
  | succ n ih =>
      obtain ⟨-, -, hl', hctrl, hresult⟩ := rd16_again hl
      rw [readHalves_succ (hacks 0 (by omega))]
      rcases Nat.eq_zero_or_pos n with rfl | hpos
      · exact hresult
      · rw [ih hl' (fun i hi => hacks (i + 1) (by omega)) hpos]
        exact hctrl

end Loop

/-! ## The callback -/

/-- A failed call leaves the buffer. -/
theorem coreReadMemory_failed {t : Tap} {addr : Word} {buf : Nat → BitVec 8} {len : Word}
    {data : Nat → BitVec 16} (h : (coreReadMemory t addr buf len data).1 ≠ 0) :
    (coreReadMemory t addr buf len data).2.1 = buf := by
  unfold coreReadMemory at h ⊢
  dsimp only at h ⊢
  split
  · rfl
  · next hok =>
    rw [if_neg hok] at h
    split
    · rfl
    · next hstat =>
      rw [if_neg hstat] at h
      exact absurd rfl h

theorem coreReadMemory_buf {t : Tap} {addr : Word} (hl : Lands t.bus addr addr)
    (buf : Nat → BitVec 8) (len : Word) (data : Nat → BitVec 16) (heven : len.toNat % 2 = 0)
    (hacks : ∀ i < len.toNat / 2, t.acks i = .ok) (hsticky : t.bus.ctrlStat &&& dpStickyErr = 0)
    {i : Nat} (hi : i < len.toNat) : (coreReadMemory t addr buf len data).2.1 i =
      t.bus.mem (halfAt addr + BitVec.ofNat 32 (i % 2)) := by
  have hstat := @readHalves_stat addr _ 0 data t hl hacks (by omega)
  unfold coreReadMemory
  simp only [readHalves_ok hacks, hstat, hsticky, Bool.true_eq_false, if_false, ne_eq,
    not_true_eq_false]
  rw [fill_of_mem (by omega) (by omega), Nat.sub_zero]
  exact readHalves_data hl hacks (by omega) (by omega) (by omega)

/-- The buffer is filled with the bytes of the target where these are the first halfword over
and over. -/
theorem coreReadMemory_bytes_iff {t : Tap} {addr : Word} (h : Synced t.bus)
    (htar : t.bus.cache.tar = addr → t.bus.hw.tar = addr) (buf : Nat → BitVec 8) {len : Word}
    (data : Nat → BitVec 16) (heven : len.toNat % 2 = 0)
    (hacks : ∀ i < len.toNat / 2, t.acks i = .ok) (hsticky : t.bus.ctrlStat &&& dpStickyErr = 0) :
    (∀ i < len.toNat, (coreReadMemory t addr buf len data).2.1 i =
        t.bus.mem (addr + BitVec.ofNat 32 i)) ↔
      ∀ i < len.toNat, t.bus.mem (halfAt addr + BitVec.ofNat 32 (i % 2)) =
        t.bus.mem (addr + BitVec.ofNat 32 i) := by
  have hl : Lands t.bus addr addr := h.lands htar
  constructor
  · intro hall i hi
    rw [← coreReadMemory_buf hl buf len data heven hacks hsticky hi]
    exact hall i hi
  · intro hall i hi
    rw [coreReadMemory_buf hl buf len data heven hacks hsticky hi]
    exact hall i hi

/-- A port whose accesses are acknowledged. -/
def sampleTap : Tap := ⟨sampleBus, false, 0, fun _ => .ok⟩

/-- One halfword. -/
theorem coreReadMemory_bytes_halfword :
    Synced sampleTap.bus ∧ ∀ i < (2 : Word).toNat,
      (coreReadMemory sampleTap 0x104 (fun _ => 0xaa) 2 fun _ => 0).2.1 i =
        sampleTap.bus.mem (0x104 + BitVec.ofNat 32 i) := by
  refine ⟨sampleBus_synced, ?_⟩
  apply (@coreReadMemory_bytes_iff sampleTap 0x104 sampleBus_synced (by decide) (fun _ => 0xaa) 2
    (fun _ => 0) (by decide) (by decide) (by decide)).mpr
  decide

/-- The second half of a word is read as the first one. -/
theorem coreReadMemory_repeats :
    Synced sampleTap.bus ∧ (sampleTap.bus.cache.tar = 0x104 → sampleTap.bus.hw.tar = 0x104) ∧
      (∀ i < (4 : Word).toNat / 2, sampleTap.acks i = .ok) ∧
      sampleTap.bus.ctrlStat &&& dpStickyErr = 0 ∧
      (coreReadMemory sampleTap 0x104 (fun _ => 0xaa) 4 fun _ => 0).1 = 0 ∧
      (coreReadMemory sampleTap 0x104 (fun _ => 0xaa) 4 fun _ => 0).2.1 2 = 0x04 ∧
      sampleTap.bus.mem (0x104 + BitVec.ofNat 32 2) = 0x06 := by
  refine ⟨sampleBus_synced, ?_⟩
  decide

end YardIce.Cm3ice
