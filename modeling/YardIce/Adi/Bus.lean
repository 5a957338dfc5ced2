import YardIce.Adi.CacheCoherence
import YardIce.Lib.ByteMemory

/-!
# Bytes and halfwords of the target's memory

The functions of `jtag-adi.c` for one byte and one halfword, with the data that they transfer.

## Implementation notes

A scan returns the result of the access before it. An access to `DRW` transfers the bytes of
its size in their lanes; what the other lanes hold is not specified. The writes of `SELECT`,
`CSW` and `TAR` that the functions start with are those of `Port`, whose note on skipped writes
is dropped; they reach these registers as long as the cached `SELECT` is right.
-/

namespace YardIce.Adi

open YardIce.Lib

/-- The byte at an address is one that an access to `DRW` transfers. -/
def Hw.Transfers (h : Hw) (a : Word) : Prop :=
  0 < h.accessSize ∧ a.toNat / h.accessSize = h.tar.toNat / h.accessSize

instance (h : Hw) (a : Word) : Decidable (h.Transfers a) := inferInstanceAs (Decidable (_ ∧ _))

/-- The debug port with the target's memory. `result` is what the next scan captures, `idle`
what the lanes hold that are not transferred. -/
structure Bus where
  hw : Hw
  cache : Cache
  mem : Word → BitVec 8
  result : Word
  ctrlStat : Word
  idle : Nat → BitVec 8

namespace Bus

/-- The registers and their caches. -/
def port (b : Bus) : Port := ⟨b.hw, b.cache, true⟩

/-- Writes of `SELECT`, `CSW` and `TAR` and of their caches. -/
def regs (f : Port → Port) (b : Bus) : Bus :=
  { b with hw := (f b.port).hw, cache := (f b.port).cache }

/-- What a read of `DRW` returns. -/
def drwData (b : Bus) : Word :=
  lanes fun k =>
    let a := BitVec.ofNat 32 (b.hw.tar.toNat / 4 * 4 + k)
    if b.hw.Transfers a then b.mem a else b.idle k

/-- The memory after a write to `DRW`. -/
def drwStore (b : Bus) (v : Word) : Word → BitVec 8 :=
  fun a => if b.hw.Transfers a then lane v (a.toNat % 4) else b.mem a

/-- `jtag_adi_apacc_rd`. -/
def apaccRd (b : Bus) (addr : Word) : Word × Bus :=
  (b.result,
    { b with
      hw := b.hw.rd addr
      result := if b.hw.reg addr = adiApDrw then b.drwData else b.hw.value addr })

/-- `jtag_adi_apacc_wr`. -/
def apaccWr (b : Bus) (addr v : Word) : Bus :=
  { b with
    hw := b.hw.wr addr v
    mem := if b.hw.reg addr = adiApDrw then b.drwStore v else b.mem }

/-- `jtag_adi_dpacc_rd` of `CTRL/STAT`. -/
def dpaccRd (b : Bus) : Word × Bus := (b.result, { b with result := b.ctrlStat })

/-- What the byte and halfword functions start with. -/
def aim (size : Word) (b : Bus) (addr : Word) : Bus :=
  (b.regs fun p => updateTar p addr).regs fun p => updateSize p size

/-- The count of the cached `TAR` at their end. -/
def countTar (n : Nat) (b : Bus) : Bus :=
  if b.cache.csw &&& cswIncSingle ≠ 0 then
    { b with cache := { b.cache with tar := b.cache.tar + BitVec.ofNat 32 n } }
  else b

/-- `jtag_mem_ap_rd8`. -/
def jtagMemApRd8 (b : Bus) (addr : Word) : BitVec 8 × Bus :=
  let b := b.aim cswByte addr
  let (_, b) := b.apaccRd adiApDrw
  let (data, b) := b.dpaccRd
  ((data >>> (8 * (addr &&& 3).toNat)).setWidth 8, b.countTar 1)

/-- `jtag_mem_ap_rd16`. -/
def jtagMemApRd16 (b : Bus) (addr : Word) : BitVec 16 × Bus :=
  let b := b.aim cswHalfword addr
  let (_, b) := b.apaccRd adiApDrw
  let (data, b) := b.dpaccRd
  ((if addr &&& 2 ≠ 0 then data >>> 16 else data).setWidth 16, b.countTar 2)

/-- `jtag_mem_ap_wr8`. -/
def jtagMemApWr8 (b : Bus) (addr : Word) (din : BitVec 8) : Bus :=
  let data := din.setWidth 32 <<< (8 * (addr &&& 3).toNat)
  ((b.aim cswByte addr).apaccWr adiApDrw data).countTar 1

/-- `jtag_mem_ap_wr16`. -/
def jtagMemApWr16 (b : Bus) (addr : Word) (din : BitVec 16) : Bus :=
  let data := if addr &&& 2 ≠ 0 then din.setWidth 32 <<< 16 else din.setWidth 32
  ((b.aim cswHalfword addr).apaccWr adiApDrw data).countTar 2

end Bus

/-! ## Where an access goes -/

/-- The cached `SELECT` and the cached fields of `CSW` are right. -/
structure Synced (b : Bus) : Prop where
  select : b.cache.select = b.hw.select
  fields : cswFields b.cache.csw = cswFields b.hw.csw
  inc : IncKnown b.cache.csw

/-- `TAR` counts on. -/
def Bus.Single (b : Bus) : Prop := b.cache.csw &&& cswAddrInc = cswIncSingle

instance (b : Bus) : Decidable b.Single := inferInstanceAs (Decidable (_ = _))

/-- The address that an access for `addr` reaches: `TAR` is written unless the cache says that
it is there. -/
def Bus.reached (b : Bus) (addr : Word) : Word :=
  if b.cache.tar ≠ addr ∨ dpApbanksel (adiApTar ^^^ b.cache.select) ≠ 0 then addr else b.hw.tar

/-- The port before an access to `DRW` of a size, for `addr` and at `t`. -/
structure Aimed (b : Bus) (size addr t : Word) (q : Bus) : Prop extends Synced q where
  bank : dpApbanksel q.cache.select = 0
  size : q.cache.csw &&& cswSize = size
  single : q.cache.csw &&& cswAddrInc = b.cache.csw &&& cswAddrInc
  tar : q.cache.tar = addr
  hwTar : q.hw.tar = t
  mem : q.mem = b.mem

/-- The port after an access of `n` bytes for `addr` and at `t`. -/
structure After (b : Bus) (addr t : Word) (n : Nat) (q : Bus) : Prop extends Synced q where
  bank : dpApbanksel q.cache.select = 0
  single : q.cache.csw &&& cswAddrInc = b.cache.csw &&& cswAddrInc
  tar : q.cache.tar = if b.Single then addr + BitVec.ofNat 32 n else addr
  hwTar : q.hw.tar = if b.Single then Hw.bump t n else t

section Aim

variable {p : Port}

theorem updateTar_reached (h : Matched p) (addr : Word) :
    (updateTar p addr).cache.select = (updateTar p addr).hw.select ∧
      dpApbanksel (updateTar p addr).cache.select = 0 ∧
      (updateTar p addr).cache.csw = p.cache.csw ∧ (updateTar p addr).hw.csw = p.hw.csw ∧
      (updateTar p addr).cache.tar = addr ∧
      (updateTar p addr).hw.tar =
        if p.cache.tar ≠ addr ∨ dpApbanksel (adiApTar ^^^ p.cache.select) ≠ 0 then addr
        else p.hw.tar := by
  unfold updateTar
  split
  · obtain ⟨s, hs, hb⟩ := selectBank_eq h.select adiApTar
    have hb' : dpApbanksel s = 0 := hb
    rw [hs, Port.apaccWr, wr_tar hb']
    exact ⟨rfl, hb', rfl, rfl, rfl, rfl⟩
  · next hcond =>
      simp only [not_or, not_not] at hcond
      exact ⟨h.select, bank_of_xor_eq_zero hcond.2, rfl, rfl, hcond.1, rfl⟩

theorem updateSize_ready (h : Ready p) {size : Word} (hz : size &&& cswSize = size) :
    Ready (updateSize p size) ∧ (updateSize p size).cache.csw &&& cswSize = size ∧
      (updateSize p size).cache.csw &&& cswAddrInc = p.cache.csw &&& cswAddrInc ∧
      (updateSize p size).cache.tar = p.cache.tar ∧ (updateSize p size).hw.tar = p.hw.tar := by
  unfold updateSize
  split
  · have hzi : size &&& cswAddrInc = 0 := by
      rw [← hz, BitVec.and_assoc]
      exact BitVec.and_zero
    simp only
    rw [writeCsw h.select h.bank]
    refine ⟨⟨⟨h.sound, h.select, rfl⟩, h.bank⟩, ?_, ?_, rfl, rfl⟩
    · exact and_field p.cache.csw cswSize size hz
    · exact and_field_of_disjoint p.cache.csw cswSize size cswAddrInc (by decide) hzi
  · next hsize =>
      rw [h.skip_csw]
      exact ⟨h, not_not.mp hsize, rfl, rfl, rfl⟩

variable {b : Bus}

theorem Synced.matched (h : Synced b) : Matched b.port := ⟨rfl, h.select, h.fields⟩

theorem aim_aimed (h : Synced b) (addr : Word) {size : Word} (hz : size &&& cswSize = size) :
    Aimed b size addr (b.reached addr) (b.aim size addr) := by
  obtain ⟨hsel, hbank, hcsw, hhwcsw, htar, hhwtar⟩ := updateTar_reached h.matched addr
  have hready : Ready (b.regs fun p => updateTar p addr).port := by
    refine ⟨⟨rfl, hsel, ?_⟩, hbank⟩
    show cswFields (updateTar b.port addr).cache.csw = cswFields (updateTar b.port addr).hw.csw
    rw [hcsw, hhwcsw]
    exact h.fields
  obtain ⟨hready', hsize, hsingle, htar', hhwtar'⟩ := updateSize_ready hready hz
  have hinc : (b.aim size addr).cache.csw &&& cswAddrInc = b.cache.csw &&& cswAddrInc := by
    refine hsingle.trans ?_
    show (updateTar b.port addr).cache.csw &&& cswAddrInc = _
    rw [hcsw]
    rfl
  refine ⟨⟨hready'.select, hready'.fields, ?_⟩, hready'.bank, hsize, hinc, htar'.trans htar,
    hhwtar'.trans hhwtar, rfl⟩
  have hknown := h.inc
  unfold IncKnown at hknown ⊢
  rw [hinc]
  exact hknown

end Aim

/-! ## The bytes of an access -/

section Bytes

variable {h : Hw} {b : Bus} {n : Nat}

/-- An access transfers the `n` bytes at an address that is a multiple of `n`. -/
theorem transfers_iff (hn : n = 1 ∨ n = 2 ∨ n = 4) (hs : h.accessSize = n)
    (ht : h.tar.toNat % n = 0) (a : Word) : h.Transfers a ↔ (a - h.tar).toNat < n := by
  have hlt := h.tar.isLt
  have ha := a.isLt
  rw [Hw.Transfers, hs, BitVec.toNat_sub]
  rcases hn with rfl | rfl | rfl <;> lia

theorem lane_drwData (hn : n = 1 ∨ n = 2 ∨ n = 4) (hs : b.hw.accessSize = n)
    (ht : b.hw.tar.toNat % n = 0) {i : Nat} (hi : i < n) :
    lane b.drwData ((b.hw.tar.toNat + i) % 4) = b.mem (b.hw.tar + BitVec.ofNat 32 i) := by
  have hlt := b.hw.tar.isLt
  have haddr : BitVec.ofNat 32 (b.hw.tar.toNat / 4 * 4 + (b.hw.tar.toNat + i) % 4) =
      b.hw.tar + BitVec.ofNat 32 i := by
    apply BitVec.eq_of_toNat_eq
    simp only [BitVec.toNat_ofNat, BitVec.toNat_add]
    rcases hn with rfl | rfl | rfl <;> lia
  rw [Bus.drwData, lane_lanes _ (Nat.mod_lt _ (by decide))]
  simp only [haddr]
  rw [if_pos]
  rw [transfers_iff hn hs ht, offset_toNat (by lia)]
  exact hi

theorem drwStore_eq (hn : n = 1 ∨ n = 2 ∨ n = 4) (hs : b.hw.accessSize = n)
    (ht : b.hw.tar.toNat % n = 0) (v : Word) :
    b.drwStore v =
      putBytes b.mem b.hw.tar n fun i => lane v ((b.hw.tar.toNat + i) % 4) := by
  funext a
  have hlt := b.hw.tar.isLt
  have ha := a.isLt
  have hlane : (b.hw.tar.toNat + (a - b.hw.tar).toNat) % 4 = a.toNat % 4 := by
    rw [BitVec.toNat_sub]
    lia
  simp only [Bus.drwStore, putBytes, transfers_iff hn hs ht, hlane]

/-- What the byte and halfword functions read and store. -/
theorem Aimed.size_eq {size addr t : Word} {q : Bus} (hq : Aimed b size addr t q)
    (hn : (size = cswByte ∧ n = 1) ∨ (size = cswHalfword ∧ n = 2) ∨ (size = cswWord ∧ n = 4)) :
    q.hw.accessSize = n :=
  accessSize_eq ((size_of_fields hq.fields).symm.trans hq.size) hn

end Bytes

section Access

variable {b q : Bus} {size addr t : Word} {n : Nat}

/-- The registers after an access to `DRW`. -/
theorem Aimed.drw (hq : Aimed b size addr t q)
    (hn : (size = cswByte ∧ n = 1) ∨ (size = cswHalfword ∧ n = 2) ∨ (size = cswWord ∧ n = 4)) :
    q.hw.drw = { q.hw with tar := if b.Single then Hw.bump t n else t } := by
  have hhw : q.hw.csw &&& cswAddrInc = b.cache.csw &&& cswAddrInc :=
    (inc_of_fields hq.fields).symm.trans hq.single
  by_cases hs : b.Single
  · rw [if_pos hs, drw_single (hhw.trans hs), hq.size_eq hn, hq.hwTar]
  · have hoff : q.hw.csw &&& cswAddrInc = 0 := by
      have hknown := hq.inc
      unfold IncKnown at hknown
      rw [hq.single] at hknown
      exact hhw.trans (hknown.resolve_right hs)
    rw [if_neg hs, drw_off hoff, ← hq.hwTar]

/-- The count of the cached `TAR` behind an access. -/
theorem Aimed.after {r : Bus} (hq : Aimed b size addr t q)
    (hn : (size = cswByte ∧ n = 1) ∨ (size = cswHalfword ∧ n = 2) ∨ (size = cswWord ∧ n = 4))
    (hhw : r.hw = q.hw.drw) (hcache : r.cache = q.cache) : After b addr t n (r.countTar n) := by
  have hsingle : r.cache.csw &&& cswIncSingle ≠ 0 ↔ b.Single := by
    rw [hcache, Adi.single_iff hq.inc, hq.single]
    rfl
  have hregs : (r.countTar n).hw = r.hw ∧ (r.countTar n).cache.select = r.cache.select ∧
      (r.countTar n).cache.csw = r.cache.csw ∧ (r.countTar n).cache.tar =
        if b.Single then r.cache.tar + BitVec.ofNat 32 n else r.cache.tar := by
    unfold Bus.countTar
    by_cases hs : b.Single
    · rw [if_pos (hsingle.mpr hs), if_pos hs]
      exact ⟨rfl, rfl, rfl, rfl⟩
    · rw [if_neg (mt hsingle.mp hs), if_neg hs]
      exact ⟨rfl, rfl, rfl, rfl⟩
  obtain ⟨h₁, h₂, h₃, h₄⟩ := hregs
  rw [hq.drw hn] at hhw
  constructor
  case toSynced =>
    refine ⟨?_, ?_, ?_⟩
    · rw [h₁, h₂, hhw, hcache]
      exact hq.select
    · rw [h₁, h₃, hhw, hcache]
      exact hq.fields
    · rw [h₃, hcache]
      exact hq.inc
  case bank =>
    rw [h₂, hcache]
    exact hq.bank
  case single =>
    rw [h₃, hcache]
    exact hq.single
  case tar => rw [h₄, hcache, hq.tar]
  case hwTar => rw [h₁, hhw]

end Access

section Subwords

variable {b q : Bus} {size addr t : Word} {n : Nat}

theorem Aimed.reg (hq : Aimed b size addr t q) : q.hw.reg adiApDrw = adiApDrw :=
  reg_of_bank (hq.select ▸ hq.bank)

theorem Aimed.apaccRd (hq : Aimed b size addr t q) :
    q.apaccRd adiApDrw = (q.result, { q with hw := q.hw.drw, result := q.drwData }) := by
  rw [Bus.apaccRd, rd_drw (hq.select ▸ hq.bank), if_pos hq.reg]

theorem Aimed.apaccWr (hq : Aimed b size addr t q) (v : Word) :
    q.apaccWr adiApDrw v = { q with hw := q.hw.drw, mem := q.drwStore v } := by
  rw [Bus.apaccWr, wr_drw (hq.select ▸ hq.bank), if_pos hq.reg]

/-- The lanes of the word that an access for `addr` reads. -/
theorem Aimed.lane_data (hq : Aimed b size addr t q)
    (hn : (size = cswByte ∧ n = 1) ∨ (size = cswHalfword ∧ n = 2) ∨ (size = cswWord ∧ n = 4))
    (ht : t.toNat % 4 = addr.toNat % 4) (haddr : addr.toNat % n = 0) {i : Nat} (hi : i < n) :
    lane q.drwData (addr.toNat % 4 + i) = b.mem (t + BitVec.ofNat 32 i) := by
  have hcase : n = 1 ∨ n = 2 ∨ n = 4 := by lia
  have htn : q.hw.tar.toNat % n = 0 := by
    rw [hq.hwTar]
    rcases hcase with rfl | rfl | rfl <;> lia
  have hlane := lane_drwData hcase (hq.size_eq hn) htn hi
  have hidx : (q.hw.tar.toNat + i) % 4 = addr.toNat % 4 + i := by
    rw [hq.hwTar]
    rcases hcase with rfl | rfl | rfl <;> lia
  rw [hidx, hq.hwTar, hq.mem] at hlane
  exact hlane

/-- The memory after an access for `addr` that writes a word. -/
theorem Aimed.store_data (hq : Aimed b size addr t q)
    (hn : (size = cswByte ∧ n = 1) ∨ (size = cswHalfword ∧ n = 2) ∨ (size = cswWord ∧ n = 4))
    (ht : t.toNat % 4 = addr.toNat % 4) (haddr : addr.toNat % n = 0) (v : Word) :
    q.drwStore v = putBytes b.mem t n fun i => lane v (addr.toNat % 4 + i) := by
  have hcase : n = 1 ∨ n = 2 ∨ n = 4 := by lia
  have htn : q.hw.tar.toNat % n = 0 := by
    rw [hq.hwTar]
    rcases hcase with rfl | rfl | rfl <;> lia
  rw [drwStore_eq hcase (hq.size_eq hn) htn, hq.hwTar, hq.mem]
  apply putBytes_congr
  intro i hi
  congr 1
  rcases hcase with rfl | rfl | rfl <;> lia

theorem low_bits (addr : Word) : (addr &&& 3).toNat = addr.toNat % 4 := by
  rw [BitVec.toNat_and]
  exact Nat.and_two_pow_sub_one_eq_mod addr.toNat 2

/-- The shift of a halfword is that of its place in the word. -/
theorem half_shift {addr : Word} (heven : addr.toNat % 2 = 0) :
    addr &&& 2 ≠ 0 ∧ addr.toNat % 4 = 2 ∨ addr &&& 2 = 0 ∧ addr.toNat % 4 = 0 := by
  by_cases h : addr &&& 2 = 0
  · exact Or.inr ⟨h, (word_iff heven).mp h⟩
  · have hmod := mt (word_iff heven).mpr h
    exact Or.inl ⟨h, by lia⟩

@[simp] theorem countTar_mem (b : Bus) (n : Nat) : (b.countTar n).mem = b.mem := by
  unfold Bus.countTar
  split <;> rfl

theorem rd8_spec (h : Synced b) (ht : (b.reached addr).toNat % 4 = addr.toNat % 4) :
    (b.jtagMemApRd8 addr).1 = b.mem (b.reached addr) ∧
      (b.jtagMemApRd8 addr).2.mem = b.mem ∧
      After b addr (b.reached addr) 1 (b.jtagMemApRd8 addr).2 := by
  have hn : (cswByte = cswByte ∧ 1 = 1) ∨ (cswByte = cswHalfword ∧ 1 = 2) ∨
      (cswByte = cswWord ∧ 1 = 4) := Or.inl ⟨rfl, rfl⟩
  have hq : Aimed b cswByte addr (b.reached addr) (b.aim cswByte addr) := aim_aimed h addr (by decide)
  unfold Bus.jtagMemApRd8
  simp only [hq.apaccRd, Bus.dpaccRd, countTar_mem]
  refine ⟨?_, hq.mem, hq.after hn rfl rfl⟩
  rw [low_bits]
  have hlane := hq.lane_data hn ht (Nat.mod_one _) Nat.zero_lt_one
  rw [Nat.add_zero, BitVec.add_zero] at hlane
  exact hlane

theorem rd16_spec (h : Synced b) (ht : (b.reached addr).toNat % 4 = addr.toNat % 4)
    (heven : addr.toNat % 2 = 0) :
    (∀ i < 2, lane ((b.jtagMemApRd16 addr).1.setWidth 32) i =
        b.mem (b.reached addr + BitVec.ofNat 32 i)) ∧
      (b.jtagMemApRd16 addr).2.mem = b.mem ∧
      After b addr (b.reached addr) 2 (b.jtagMemApRd16 addr).2 := by
  have hn : (cswHalfword = cswByte ∧ 2 = 1) ∨ (cswHalfword = cswHalfword ∧ 2 = 2) ∨
      (cswHalfword = cswWord ∧ 2 = 4) := Or.inr (Or.inl ⟨rfl, rfl⟩)
  have hq : Aimed b cswHalfword addr (b.reached addr) (b.aim cswHalfword addr) := aim_aimed h addr (by decide)
  unfold Bus.jtagMemApRd16
  simp only [hq.apaccRd, Bus.dpaccRd, countTar_mem]
  refine ⟨?_, hq.mem, hq.after hn rfl rfl⟩
  intro i hi
  have hlane := hq.lane_data hn ht heven hi
  rw [lane_half _ hi, ← hlane]
  obtain ⟨hbit, hmod⟩ | ⟨hbit, hmod⟩ := half_shift heven
  · rw [if_pos hbit, hmod]
    exact lane_shiftRight _ 2 i
  · rw [if_neg (not_not.mpr hbit), hmod, Nat.zero_add]

theorem wr8_spec (h : Synced b) (ht : (b.reached addr).toNat % 4 = addr.toNat % 4)
    (din : BitVec 8) :
    (b.jtagMemApWr8 addr din).mem = putBytes b.mem (b.reached addr) 1 (fun _ => din) ∧
      After b addr (b.reached addr) 1 (b.jtagMemApWr8 addr din) := by
  have hn : (cswByte = cswByte ∧ 1 = 1) ∨ (cswByte = cswHalfword ∧ 1 = 2) ∨
      (cswByte = cswWord ∧ 1 = 4) := Or.inl ⟨rfl, rfl⟩
  have hq : Aimed b cswByte addr (b.reached addr) (b.aim cswByte addr) := aim_aimed h addr (by decide)
  unfold Bus.jtagMemApWr8
  simp only [hq.apaccWr, countTar_mem]
  refine ⟨?_, hq.after hn rfl rfl⟩
  rw [hq.store_data hn ht (Nat.mod_one _), low_bits]
  apply putBytes_congr
  intro i hi
  obtain rfl : i = 0 := by lia
  rw [lane_shiftLeft _ (by lia), lane_byte]

theorem wr16_spec (h : Synced b) (ht : (b.reached addr).toNat % 4 = addr.toNat % 4)
    (heven : addr.toNat % 2 = 0) (din : BitVec 16) :
    (b.jtagMemApWr16 addr din).mem =
        putBytes b.mem (b.reached addr) 2 (fun i => lane (din.setWidth 32) i) ∧
      After b addr (b.reached addr) 2 (b.jtagMemApWr16 addr din) := by
  have hn : (cswHalfword = cswByte ∧ 2 = 1) ∨ (cswHalfword = cswHalfword ∧ 2 = 2) ∨
      (cswHalfword = cswWord ∧ 2 = 4) := Or.inr (Or.inl ⟨rfl, rfl⟩)
  have hq : Aimed b cswHalfword addr (b.reached addr) (b.aim cswHalfword addr) := aim_aimed h addr (by decide)
  unfold Bus.jtagMemApWr16
  simp only [hq.apaccWr, countTar_mem]
  refine ⟨?_, hq.after hn rfl rfl⟩
  rw [hq.store_data hn ht heven]
  apply putBytes_congr
  intro i hi
  obtain ⟨hbit, hmod⟩ | ⟨hbit, hmod⟩ := half_shift heven
  · have hshift := lane_shiftLeft (din.setWidth 32) (k := 2) (i := i) (by lia)
    rw [if_pos hbit, hmod, ← hshift]
  · rw [if_neg (not_not.mpr hbit), hmod, Nat.zero_add]

end Subwords

end YardIce.Adi
