import YardIce.Adi.MemAp

/-!
# Selecting and writing registers of the access port

What an update of `SELECT`, `TAR` and the size field does when the caches of
`SELECT` and `CSW` are right.
-/

namespace YardIce.Adi

variable {p q : Port}

section Fields

theorem bank_of_xor (s a m : Word) : (s ^^^ ((a ^^^ s) &&& m)) &&& m = a &&& m := by
  ext i hi
  simp only [BitVec.getElem_and, BitVec.getElem_xor]
  cases s[i] <;> cases a[i] <;> cases m[i] <;> rfl

theorem bank_of_xor_eq_zero {s a m : Word} (h : (a ^^^ s) &&& m = 0) : s &&& m = a &&& m := by
  ext i hi
  have hbit : ((a ^^^ s) &&& m)[i] = false := by
    rw [h]
    simp
  simp only [BitVec.getElem_and, BitVec.getElem_xor] at hbit ⊢
  revert hbit
  cases s[i] <;> cases a[i] <;> cases m[i] <;> simp

/-- Replacing a field by a value inside it. -/
theorem and_field (x m v : Word) (hv : v &&& m = v) : ((x &&& ~~~m) ||| v) &&& m = v := by
  ext i hi
  have hbit : v[i] = (v[i] && m[i]) := by
    rw [← BitVec.getElem_and, hv]
  simp only [BitVec.getElem_and, BitVec.getElem_or, BitVec.getElem_not]
  revert hbit
  cases x[i] <;> cases m[i] <;> cases v[i] <;> simp

/-- A field apart from the one that is replaced. -/
theorem and_field_of_disjoint (x m v k : Word) (hm : m &&& k = 0) (hv : v &&& k = 0) :
    ((x &&& ~~~m) ||| v) &&& k = x &&& k := by
  ext i hi
  have hmbit : (m[i] && k[i]) = false := by
    rw [← BitVec.getElem_and, hm]
    simp
  have hvbit : (v[i] && k[i]) = false := by
    rw [← BitVec.getElem_and, hv]
    simp
  simp only [BitVec.getElem_and, BitVec.getElem_or, BitVec.getElem_not]
  revert hmbit hvbit
  cases x[i] <;> cases m[i] <;> cases v[i] <;> cases k[i] <;> simp

/-- The size field is part of the two fields. -/
theorem size_of_fields {x y : Word} (h : cswFields x = cswFields y) :
    x &&& cswSize = y &&& cswSize := by
  have hx : ∀ z : Word, z &&& cswSize = cswFields z &&& cswSize := by
    intro z
    rw [cswFields, BitVec.and_assoc]
    rfl
  rw [hx, hx y, h]

theorem inc_of_fields {x y : Word} (h : cswFields x = cswFields y) :
    x &&& cswAddrInc = y &&& cswAddrInc := by
  have hx : ∀ z : Word, z &&& cswAddrInc = cswFields z &&& cswAddrInc := by
    intro z
    rw [cswFields, BitVec.and_assoc]
    rfl
  rw [hx, hx y, h]

/-- What a read of `CSW` gives has the fields that were written. -/
theorem fields_of_read (csw status : Word) :
    cswFields ((csw &&& ~~~cswReadOnly) ||| (status &&& cswReadOnly)) = cswFields csw := by
  apply and_field_of_disjoint
  · decide
  · rw [BitVec.and_assoc]
    exact BitVec.and_zero

end Fields

section Address

theorem bump_eq {tar : Word} {n : Nat} (h : tar.toNat % 4096 + n < 4096) :
    Hw.bump tar n = tar + BitVec.ofNat 32 n := by
  apply BitVec.eq_of_toNat_eq
  have hlt := tar.isLt
  simp only [Hw.bump, BitVec.toNat_ofNat, BitVec.toNat_add]
  omega

theorem pageStart_iff (addr : Word) : pageStart addr = true ↔ addr.toNat % 4096 = 0 := by
  have hnat : (addr &&& 0x00000fff).toNat = addr.toNat % 4096 := by
    rw [BitVec.toNat_and]
    exact Nat.and_two_pow_sub_one_eq_mod addr.toNat 12
  unfold pageStart
  rw [beq_iff_eq]
  constructor
  · intro h
    rw [← hnat, h]
    rfl
  · intro h
    apply BitVec.eq_of_toNat_eq
    rw [hnat, h]
    rfl

end Address

section Registers

variable {h : Hw}

theorem reg_of_bank {addr : Word} (hb : dpApbanksel h.select = dpApbanksel addr) :
    h.reg addr = (addr &&& 0xf0) ||| (addr &&& 0x0c) := by
  unfold dpApbanksel at hb
  rw [Hw.reg, hb]

theorem wr_csw (hb : dpApbanksel h.select = 0) (v : Word) :
    h.wr adiApCsw v = { h with csw := v } := by
  have hreg : h.reg adiApCsw = adiApCsw := reg_of_bank hb
  simp [Hw.wr, hreg]

theorem wr_tar (hb : dpApbanksel h.select = 0) (v : Word) :
    h.wr adiApTar v = { h with tar := v } := by
  have hreg : h.reg adiApTar = adiApTar := reg_of_bank hb
  have hne : adiApTar ≠ adiApCsw := by decide
  simp [Hw.wr, hreg, hne]

theorem wr_drw (hb : dpApbanksel h.select = 0) (v : Word) : h.wr adiApDrw v = h.drw := by
  have hreg : h.reg adiApDrw = adiApDrw := reg_of_bank hb
  have hne : adiApDrw ≠ adiApCsw := by decide
  have hne' : adiApDrw ≠ adiApTar := by decide
  simp [Hw.wr, hreg, hne, hne']

theorem rd_drw (hb : dpApbanksel h.select = 0) : h.rd adiApDrw = h.drw := by
  have hreg : h.reg adiApDrw = adiApDrw := reg_of_bank hb
  simp [Hw.rd, hreg]

/-- Without increment an access to `DRW` changes nothing. -/
theorem drw_off (hi : h.csw &&& cswAddrInc = 0) : h.drw = h := by
  unfold Hw.drw
  rw [hi]
  exact if_neg (by decide)

theorem drw_single (hi : h.csw &&& cswAddrInc = cswIncSingle) :
    h.drw = { h with tar := Hw.bump h.tar h.accessSize } :=
  if_pos (Or.inl hi)

end Registers

section Selection

/-- The caches of `SELECT` and `CSW` are right. -/
structure Matched (p : Port) : Prop where
  sound : p.sound = true
  select : p.cache.select = p.hw.select
  fields : cswFields p.cache.csw = cswFields p.hw.csw

theorem skip_of_ok {ok : Bool} (h : ok = true) (p : Port) : p.skip ok = p := by
  simp [Port.skip, h]

theorem skip_select (h : p.cache.select = p.hw.select) : p.skip p.selectOk = p :=
  skip_of_ok (by simpa [Port.selectOk] using h) p

theorem Matched.skip_csw (h : Matched p) : p.skip p.cswOk = p :=
  skip_of_ok (by simpa [Port.cswOk] using h.fields) p

theorem setSelect_self (h : p.cache.select = p.hw.select) : p.setSelect p.cache.select = p := by
  obtain ⟨⟨s, csw, tar, status, other⟩, ⟨s', csw', tar'⟩, sound⟩ := p
  obtain rfl : s' = s := h
  rfl

/-- Selecting a bank writes the same word to the cache and to the register. -/
theorem selectBank_eq (h : p.cache.select = p.hw.select) (addr : Word) :
    ∃ s, p.selectBank addr = p.setSelect s ∧ dpApbanksel s = dpApbanksel addr := by
  unfold Port.selectBank
  simp only
  split
  · exact ⟨_, rfl, bank_of_xor p.cache.select addr 0xf0⟩
  · next hdiff =>
      refine ⟨p.cache.select, ?_, bank_of_xor_eq_zero (by simpa [dpApbanksel] using hdiff)⟩
      rw [skip_select h]
      exact (setSelect_self h).symm

theorem Matched.setSelect (h : Matched p) (s : Word) : Matched (p.setSelect s) :=
  ⟨h.sound, rfl, h.fields⟩

/-- A write to `CSW` with its bank selected. -/
theorem regWr_csw (hsel : p.cache.select = p.hw.select)
    (hb : dpApbanksel p.cache.select = 0) (v : Word) :
    jtagMemApRegWr p adiApCsw v = { p with hw := { p.hw with csw := v } } := by
  have hdiff : dpApbanksel (adiApCsw ^^^ p.cache.select) = 0 := by
    rw [show adiApCsw ^^^ p.cache.select = p.cache.select from BitVec.zero_xor]
    exact hb
  unfold jtagMemApRegWr
  simp only [hdiff, ne_eq, not_true_eq_false, if_false, skip_select hsel, Port.apaccWr]
  rw [wr_csw (hsel ▸ hb)]

/-- The new value of `CSW` goes to the cache and to the register. -/
theorem writeCsw (hsel : p.cache.select = p.hw.select) (hb : dpApbanksel p.cache.select = 0)
    (csw : Word) : jtagMemApRegWr (p.setCsw csw) adiApCsw csw =
      { p with cache := { p.cache with csw := csw }, hw := { p.hw with csw := csw } } := by
  have hsel' : (p.setCsw csw).cache.select = (p.setCsw csw).hw.select := hsel
  exact regWr_csw hsel' hb csw

/-- The bank of `TAR` is selected and `TAR` holds `addr`, in both places. -/
structure At (p : Port) (addr : Word) : Prop extends Matched p where
  bank : dpApbanksel p.cache.select = 0
  tar : p.cache.tar = addr
  hwTar : p.hw.tar = addr

theorem updateTar_at (h : Matched p) {addr : Word} (ht : p.cache.tar = addr → p.hw.tar = addr) :
    At (updateTar p addr) addr ∧ (updateTar p addr).cache.csw = p.cache.csw := by
  unfold updateTar
  split
  · obtain ⟨s, hs, hb⟩ := selectBank_eq h.select adiApTar
    have hb' : dpApbanksel s = 0 := hb
    rw [hs, Port.apaccWr, wr_tar hb']
    exact ⟨⟨⟨h.sound, rfl, h.fields⟩, hb', rfl, rfl⟩, rfl⟩
  · next hcond =>
      simp only [not_or, not_not] at hcond
      obtain ⟨htar, hdiff⟩ := hcond
      have hskip : p.skip p.tarOk = p :=
        skip_of_ok (by simpa [Port.tarOk, htar] using (ht htar).symm) p
      rw [skip_select h.select, hskip]
      exact ⟨⟨h, bank_of_xor_eq_zero hdiff, htar, ht htar⟩, rfl⟩

theorem updateSize_at {addr : Word} (size : Word) (h : At p addr) (hz : size &&& cswSize = size) :
    At (updateSize p size) addr ∧ (updateSize p size).cache.csw &&& cswSize = size ∧
      (updateSize p size).cache.csw &&& cswAddrInc = p.cache.csw &&& cswAddrInc := by
  unfold updateSize
  split
  · have hzi : size &&& cswAddrInc = 0 := by
      rw [← hz, BitVec.and_assoc]
      exact BitVec.and_zero
    simp only
    rw [writeCsw h.select h.bank]
    refine ⟨⟨⟨h.sound, h.select, rfl⟩, h.bank, h.tar, h.hwTar⟩, ?_, ?_⟩
    · exact and_field p.cache.csw cswSize size hz
    · exact and_field_of_disjoint p.cache.csw cswSize size cswAddrInc (by decide) hzi
  · next hsize =>
      rw [h.skip_csw]
      exact ⟨h, not_not.mp hsize, rfl⟩

end Selection

end YardIce.Adi
