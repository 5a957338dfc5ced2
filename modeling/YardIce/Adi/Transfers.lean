import YardIce.Adi.Registers

/-!
# Data accesses and the cached address

The byte and halfword functions leave the cached `TAR` right unless they end a
page. The loops over words keep `TAR` where the code thinks it is, by writing it
at every page or by staying in one.
-/

namespace YardIce.Adi

variable {p q : Port}

section Accesses

/-- The increment field is one that the code knows. -/
def IncKnown (csw : Word) : Prop := csw &&& cswAddrInc = 0 ∨ csw &&& cswAddrInc = cswIncSingle

instance (csw : Word) : Decidable (IncKnown csw) := inferInstanceAs (Decidable (_ ∨ _))

theorem single_iff {csw : Word} (h : IncKnown csw) :
    csw &&& cswIncSingle ≠ 0 ↔ csw &&& cswAddrInc = cswIncSingle := by
  have hand : csw &&& cswIncSingle = (csw &&& cswAddrInc) &&& cswIncSingle := by
    rw [BitVec.and_assoc]
    rfl
  rw [hand]
  obtain h | h := h
  · rw [h]
    decide
  · rw [h]
    decide

theorem accessSize_eq {h : Hw} {size : Word} {n : Nat} (hs : h.csw &&& cswSize = size)
    (hn : (size = cswByte ∧ n = 1) ∨ (size = cswHalfword ∧ n = 2) ∨ (size = cswWord ∧ n = 4)) :
    h.accessSize = n := by
  unfold Hw.accessSize
  rw [hs]
  obtain ⟨rfl, rfl⟩ | ⟨rfl, rfl⟩ | ⟨rfl, rfl⟩ := hn
  · rfl
  · rfl
  · rfl

/-- A port whose caches of `SELECT` and `CSW` are right, with the bank of `TAR` selected. -/
structure Ready (p : Port) : Prop extends Matched p where
  bank : dpApbanksel p.cache.select = 0

theorem At.ready {addr : Word} (h : At p addr) : Ready p := ⟨h.toMatched, h.bank⟩

/-- The state after a byte or halfword at `addr`: the cached `TAR` is right unless the
access ended a page. -/
structure Counted (csw addr : Word) (n : Nat) (q : Port) : Prop extends Ready q where
  inc : q.cache.csw &&& cswAddrInc = csw &&& cswAddrInc
  tar : (csw &&& cswAddrInc = cswIncSingle → addr.toNat % 4096 + n < 4096) →
    q.cache.tar = q.hw.tar
  next : q.cache.tar = q.hw.tar ∨
    csw &&& cswAddrInc = cswIncSingle ∧ q.cache.tar = addr + BitVec.ofNat 32 n

theorem subword_counted (h : Matched p) {addr size : Word} {n : Nat}
    (hinc : IncKnown p.cache.csw)
    (hn : (size = cswByte ∧ n = 1) ∨ (size = cswHalfword ∧ n = 2) ∨ (size = cswWord ∧ n = 4))
    (hz : size &&& cswSize = size) (ht : p.cache.tar = addr → p.hw.tar = addr)
    {drw : Port → Port}
    (hdrw : ∀ q : Port, dpApbanksel q.hw.select = 0 → drw q = { q with hw := q.hw.drw }) :
    Counted p.cache.csw addr n (subword p addr size n drw) := by
  obtain ⟨hat, hcsw⟩ := updateTar_at h ht
  obtain ⟨hat', hsize, hinc'⟩ := updateSize_at size hat hz
  unfold subword
  simp only
  rw [hcsw] at hinc'
  generalize updateSize (updateTar p addr) size = r at hat' hsize hinc'
  have hknown : IncKnown r.cache.csw := by
    unfold IncKnown
    rw [hinc']
    exact hinc
  have hhw : r.hw.csw &&& cswAddrInc = r.cache.csw &&& cswAddrInc :=
    (inc_of_fields hat'.fields).symm
  have hsz : r.hw.accessSize = n :=
    accessSize_eq ((size_of_fields hat'.fields).symm.trans hsize) hn
  rw [hdrw r (hat'.select ▸ hat'.bank)]
  simp only
  split
  · next hs =>
      have hsingle := (single_iff hknown).mp hs
      rw [drw_single (hhw.trans hsingle), hsz, hat'.hwTar]
      refine ⟨⟨⟨hat'.sound, hat'.select, hat'.fields⟩, hat'.bank⟩, hinc', ?_, ?_⟩
      · intro hpage
        have hb := bump_eq (hpage (hinc' ▸ hsingle))
        simp only [Port.setTar, hat'.tar]
        exact hb.symm
      · refine Or.inr ⟨hinc' ▸ hsingle, ?_⟩
        simp only [Port.setTar, hat'.tar]
  · next hs =>
      have hoff : r.cache.csw &&& cswAddrInc = 0 := by
        obtain hoff | hsingle := hknown
        · exact hoff
        · exact absurd ((single_iff (Or.inr hsingle)).mpr hsingle) hs
      rw [drw_off (hhw.trans hoff)]
      have heq : r.cache.tar = r.hw.tar := hat'.tar.trans hat'.hwTar.symm
      exact ⟨⟨⟨hat'.sound, hat'.select, hat'.fields⟩, hat'.bank⟩, hinc', fun _ => heq, Or.inl heq⟩

end Accesses

section Words

/-- Ready for words with single increment. -/
structure WordReady (p : Port) : Prop extends Ready p where
  size : p.cache.csw &&& cswSize = cswWord
  inc : p.cache.csw &&& cswAddrInc = cswIncSingle

/-- An access to `DRW` with a word. -/
theorem WordReady.drw (h : WordReady p) :
    p.hw.drw = { p.hw with tar := Hw.bump p.hw.tar 4 } := by
  have hinc := inc_of_fields h.fields
  have hsize := size_of_fields h.fields
  rw [drw_single (hinc.symm.trans h.inc),
    accessSize_eq (hsize.symm.trans h.size) (Or.inr (Or.inr ⟨rfl, rfl⟩))]

theorem WordReady.apaccRd (h : WordReady p) :
    p.apaccRd adiApDrw = { p with hw := { p.hw with tar := Hw.bump p.hw.tar 4 } } := by
  rw [Port.apaccRd, rd_drw (h.select ▸ h.bank), h.drw]

theorem WordReady.apaccWr (h : WordReady p) (v : Word) :
    p.apaccWr adiApDrw v = { p with hw := { p.hw with tar := Hw.bump p.hw.tar 4 } } := by
  rw [Port.apaccWr, wr_drw (h.select ▸ h.bank), h.drw]

theorem WordReady.wrTar (h : WordReady p) (v : Word) :
    p.apaccWr adiApTar v = { p with hw := { p.hw with tar := v } } := by
  rw [Port.apaccWr, wr_tar (h.select ▸ h.bank)]

theorem WordReady.setHwTar (h : WordReady p) (v : Word) :
    WordReady { p with hw := { p.hw with tar := v } } :=
  ⟨⟨⟨h.sound, h.select, h.fields⟩, h.bank⟩, h.size, h.inc⟩

theorem writeWordSingle_ready (h : Ready p) : WordReady (writeWordSingle p) ∧
    (writeWordSingle p).cache.tar = p.cache.tar ∧ (writeWordSingle p).hw.tar = p.hw.tar := by
  unfold writeWordSingle
  simp only
  rw [writeCsw h.select h.bank, BitVec.or_assoc]
  refine ⟨⟨⟨⟨h.sound, h.select, rfl⟩, h.bank⟩, ?_, ?_⟩, rfl, rfl⟩
  · have hall := and_field p.cache.csw (cswSize ||| cswAddrInc) (cswWord ||| cswIncSingle) (by decide)
    have hsub : ∀ x : Word, x &&& cswSize = (x &&& (cswSize ||| cswAddrInc)) &&& cswSize := by
      intro x
      rw [BitVec.and_assoc]
      rfl
    change ((p.cache.csw &&& ~~~(cswSize ||| cswAddrInc)) ||| (cswWord ||| cswIncSingle)) &&&
      cswSize = cswWord
    rw [hsub, hall]
    decide
  · have hall := and_field p.cache.csw (cswSize ||| cswAddrInc) (cswWord ||| cswIncSingle) (by decide)
    have hsub : ∀ x : Word, x &&& cswAddrInc = (x &&& (cswSize ||| cswAddrInc)) &&& cswAddrInc := by
      intro x
      rw [BitVec.and_assoc]
      rfl
    change ((p.cache.csw &&& ~~~(cswSize ||| cswAddrInc)) ||| (cswWord ||| cswIncSingle)) &&&
      cswAddrInc = cswIncSingle
    rw [hsub, hall]
    decide

/-- The start of the functions for words: `c` is the test that decides whether `CSW` is
written. -/
theorem startWords (h : Matched p) {c : Prop} [Decidable c]
    (hc : ¬c → p.cache.csw &&& cswSize = cswWord ∧ p.cache.csw &&& cswAddrInc = cswIncSingle) :
    ∃ q, (if c then writeWordSingle (p.selectBank adiApTar)
        else (p.selectBank adiApTar).skip (p.selectBank adiApTar).cswOk) = q ∧
      WordReady q ∧ q.cache.tar = p.cache.tar ∧ q.hw.tar = p.hw.tar := by
  obtain ⟨s, hs, hb⟩ := selectBank_eq h.select adiApTar
  have hready : Ready (p.setSelect s) := ⟨h.setSelect s, hb⟩
  refine ⟨_, rfl, ?_⟩
  rw [hs]
  split
  · exact writeWordSingle_ready hready
  · next hnc =>
      obtain ⟨hsize, hinc⟩ := hc hnc
      rw [hready.skip_csw]
      exact ⟨⟨hready, hsize, hinc⟩, rfl, rfl⟩

/-- `TAR` is written unless the cache has the address and it starts no page. -/
theorem updateTarPaged_ready (h : WordReady p) (addr : Word)
    (ht : p.cache.tar = addr → pageStart addr = true ∨ p.hw.tar = addr) :
    WordReady (updateTarPaged p addr) ∧ (updateTarPaged p addr).hw.tar = addr := by
  unfold updateTarPaged
  split
  · rw [h.wrTar]
    exact ⟨h.setHwTar addr, rfl⟩
  · next hcond =>
      simp only [not_or, not_not] at hcond
      have htar : p.hw.tar = addr := (ht hcond.1).resolve_left hcond.2
      rw [skip_of_ok (by simp [Port.tarOk, hcond.1, htar])]
      exact ⟨h, htar⟩

theorem toNat_four : (4 : Word).toNat = 4 := rfl

/-- One word and then `n` words. -/
theorem add_words (a : Word) (n : Nat) :
    a + 4 + BitVec.ofNat 32 (4 * n) = a + BitVec.ofNat 32 (4 * (n + 1)) := by
  apply BitVec.eq_of_toNat_eq
  simp only [BitVec.toNat_add, BitVec.toNat_ofNat, toNat_four]
  omega

/-- The address after the last of `n` words. -/
theorem after_last_word (a : Word) {n : Nat} (hn : 0 < n) :
    a + BitVec.ofNat 32 (4 * (n - 1)) + 4 = a + BitVec.ofNat 32 (4 * n) := by
  rw [BitVec.add_assoc, BitVec.add_comm (BitVec.ofNat 32 (4 * (n - 1))), ← BitVec.add_assoc,
    add_words, Nat.sub_add_cancel hn]

theorem aligned_add {a : Word} (h : a.toNat % 4 = 0) : (a + 4).toNat % 4 = 0 := by
  have hlt := a.isLt
  simp only [BitVec.toNat_add, toNat_four]
  omega

/-- A word that does not end a page moves `TAR` on by four. -/
theorem bump_word {a : Word} (h : a.toNat % 4 = 0) (hp : pageStart (a + 4) = false) :
    Hw.bump a 4 = a + 4 := by
  apply bump_eq
  have hne : ¬(a + 4).toNat % 4096 = 0 := by
    rw [← pageStart_iff, hp]
    decide
  have hlt := a.isLt
  simp only [BitVec.toNat_add, toNat_four] at hne
  omega

theorem readLoop_ready (n : Nat) {addr : Word} (h : WordReady p) (ha : addr.toNat % 4 = 0)
    (ht : p.hw.tar = Hw.bump addr 4) :
    WordReady (readLoop n addr p).2 ∧ (readLoop n addr p).1.toNat % 4 = 0 ∧
      (readLoop n addr p).1 = addr + BitVec.ofNat 32 (4 * n) ∧
      (readLoop n addr p).2.hw.tar = Hw.bump (readLoop n addr p).1 4 := by
  induction n generalizing p addr with
  | zero => exact ⟨h, ha, by simp [readLoop], ht⟩
  | succ n ih =>
      have hstep : ∀ q : Port, WordReady q → q.hw.tar = addr + 4 →
          WordReady (q.apaccRd adiApDrw) ∧ (q.apaccRd adiApDrw).hw.tar = Hw.bump (addr + 4) 4 := by
        intro q hq hqt
        rw [hq.apaccRd, hqt]
        exact ⟨hq.setHwTar _, rfl⟩
      have hmid : ∃ q, (if pageStart (addr + 4) then p.apaccWr adiApTar (addr + 4) else p) = q ∧
          WordReady q ∧ q.hw.tar = addr + 4 := by
        refine ⟨_, rfl, ?_⟩
        split
        · rw [h.wrTar]
          exact ⟨h.setHwTar _, rfl⟩
        · next hpage => exact ⟨h, ht.trans (bump_word ha (Bool.not_eq_true _ ▸ hpage))⟩
      obtain ⟨q, hq, hqr, hqt⟩ := hmid
      obtain ⟨hr, hrt⟩ := hstep q hqr hqt
      unfold readLoop
      simp only
      rw [hq]
      obtain ⟨h₁, h₂, h₃, h₄⟩ := ih hr (aligned_add ha) hrt
      exact ⟨h₁, h₂, h₃.trans (add_words addr n), h₄⟩

theorem writeLoop_ready (n : Nat) {addr : Word} (h : WordReady p) (ha : addr.toNat % 4 = 0)
    (ht : p.hw.tar = addr) :
    WordReady (writeLoop n addr p).2 ∧ (writeLoop n addr p).1.toNat % 4 = 0 ∧
      (writeLoop n addr p).1 = addr + BitVec.ofNat 32 (4 * n) ∧
      (writeLoop n addr p).2.hw.tar = (writeLoop n addr p).1 := by
  induction n generalizing p addr with
  | zero => exact ⟨h, ha, by simp [writeLoop], ht⟩
  | succ n ih =>
      have hw : WordReady (p.apaccWr adiApDrw 0) ∧
          (p.apaccWr adiApDrw 0).hw.tar = Hw.bump addr 4 := by
        rw [h.apaccWr, ht]
        exact ⟨h.setHwTar _, rfl⟩
      have hmid : ∃ q, (if pageStart (addr + 4) then
            (p.apaccWr adiApDrw 0).apaccWr adiApTar (addr + 4) else p.apaccWr adiApDrw 0) = q ∧
          WordReady q ∧ q.hw.tar = addr + 4 := by
        refine ⟨_, rfl, ?_⟩
        split
        · rw [hw.1.wrTar]
          exact ⟨hw.1.setHwTar _, rfl⟩
        · next hpage => exact ⟨hw.1, hw.2.trans (bump_word ha (Bool.not_eq_true _ ▸ hpage))⟩
      obtain ⟨q, hq, hqr, hqt⟩ := hmid
      unfold writeLoop
      simp only
      rw [hq]
      obtain ⟨h₁, h₂, h₃, h₄⟩ := ih hqr (aligned_add ha) hqt
      exact ⟨h₁, h₂, h₃.trans (add_words addr n), h₄⟩

theorem setLoop_ready (n : Nat) (h : WordReady p)
    (hpage : p.hw.tar.toNat % 4096 + 4 * n < 4096) :
    WordReady (setLoop n p) ∧ (setLoop n p).cache = p.cache ∧
      (setLoop n p).hw.tar = p.hw.tar + BitVec.ofNat 32 (n * 4) := by
  induction n generalizing p with
  | zero => exact ⟨h, rfl, by simp [setLoop]⟩
  | succ n ih =>
      have hbump : Hw.bump p.hw.tar 4 = p.hw.tar + BitVec.ofNat 32 4 := bump_eq (by omega)
      have hlt := p.hw.tar.isLt
      have hnat : (p.hw.tar + BitVec.ofNat 32 4).toNat % 4096 = p.hw.tar.toNat % 4096 + 4 := by
        simp only [BitVec.toNat_add, BitVec.toNat_ofNat]
        omega
      unfold setLoop
      rw [h.apaccWr, hbump]
      obtain ⟨h₁, h₂, h₃⟩ := ih (h.setHwTar (p.hw.tar + BitVec.ofNat 32 4)) (by
        simp only [hnat]
        omega)
      refine ⟨h₁, h₂, h₃.trans ?_⟩
      simp only
      rw [BitVec.add_assoc]
      congr 1
      apply BitVec.eq_of_toNat_eq
      simp only [BitVec.toNat_add, BitVec.toNat_ofNat]
      omega

/-- Where the words of `jtag_mem_ap_read` and `jtag_mem_ap_write` (`paged`) and those of
`jtag_mem_ap_set` may end. -/
def Fits (paged : Bool) (addr : Word) (n : Nat) : Prop :=
  if paged then pageStart (addr + BitVec.ofNat 32 (4 * n)) = false
  else addr.toNat % 4096 + 4 * n < 4096

instance (paged : Bool) (addr : Word) (n : Nat) : Decidable (Fits paged addr n) := by
  unfold Fits
  infer_instance

/-- The cached `TAR` can be relied on for words at `addr`. -/
def TarFor (paged : Bool) (p : Port) (addr : Word) : Prop :=
  p.cache.tar = addr → (paged = true ∧ pageStart addr = true) ∨ p.hw.tar = addr

/-- What a transfer of `n` words at `addr` leaves. -/
structure WordsDone (addr : Word) (n : Nat) (r : Word × Port) : Prop extends WordReady r.2 where
  addr_eq : r.1 = addr + BitVec.ofNat 32 (4 * n)
  tar : r.2.cache.tar = r.2.hw.tar

@[simp] theorem selectBank_csw (p : Port) (addr : Word) :
    (p.selectBank addr).cache.csw = p.cache.csw := by
  unfold Port.selectBank
  simp only
  split <;> rfl

/-- The register writes before a block of words, with the test of `CSW` of each direction. -/
theorem startBlock (h : Matched p) {addr : Word} (ht : TarFor true p addr) {c : Prop} [Decidable c]
    (hc : ¬c → p.cache.csw &&& cswSize = cswWord ∧ p.cache.csw &&& cswAddrInc = cswIncSingle) :
    ∃ r, updateTarPaged (if c then writeWordSingle (p.selectBank adiApTar)
        else (p.selectBank adiApTar).skip (p.selectBank adiApTar).cswOk) addr = r ∧
      WordReady r ∧ r.hw.tar = addr := by
  obtain ⟨q, hq, hqr, hqt, hqh⟩ := startWords h hc
  have hpaged : q.cache.tar = addr → pageStart addr = true ∨ q.hw.tar = addr := by
    intro he
    rw [hqh]
    exact (ht (hqt ▸ he)).imp And.right id
  rw [hq]
  exact ⟨_, rfl, updateTarPaged_ready hqr addr hpaged⟩

theorem readWords_done (h : Matched p) {addr : Word} {n : Nat} (ha : addr.toNat % 4 = 0)
    (hn : 0 < n) (ht : TarFor true p addr) (hfit : Fits true addr n) :
    WordsDone addr n (readWords p addr n) := by
  unfold readWords
  simp only [selectBank_csw]
  obtain ⟨r, hr, hpr, hpt⟩ := startBlock h ht (c := p.cache.csw &&& cswSize ≠ cswWord ∨
    p.cache.csw &&& cswAddrInc ≠ cswIncSingle) (by
      intro hc
      simp only [not_or, not_not] at hc
      exact hc)
  rw [hr]
  have hrd : WordReady (r.apaccRd adiApDrw) ∧ (r.apaccRd adiApDrw).hw.tar = Hw.bump addr 4 := by
    rw [hpr.apaccRd, hpt]
    exact ⟨hpr.setHwTar _, rfl⟩
  obtain ⟨h₁, h₂, h₃, h₄⟩ := readLoop_ready (n - 1) hrd.1 ha hrd.2
  have hend : (readLoop (n - 1) addr (r.apaccRd adiApDrw)).1 + 4 =
      addr + BitVec.ofNat 32 (4 * n) := by rw [h₃, after_last_word addr hn]
  refine ⟨⟨⟨⟨h₁.sound, h₁.select, h₁.fields⟩, h₁.bank⟩, h₁.size, h₁.inc⟩, hend, ?_⟩
  have hpage : pageStart ((readLoop (n - 1) addr (r.apaccRd adiApDrw)).1 + 4) = false := by
    rw [hend]
    exact hfit
  exact (bump_word h₂ hpage).symm.trans h₄.symm

theorem writeWords_done (h : Matched p) (hinc : IncKnown p.cache.csw) {addr : Word} {n : Nat}
    (ha : addr.toNat % 4 = 0) (hn : 0 < n) (ht : TarFor true p addr) (hfit : Fits true addr n) :
    WordsDone addr n (writeWords p addr n) := by
  unfold writeWords
  simp only [selectBank_csw]
  obtain ⟨r, hr, hpr, hpt⟩ := startBlock h ht (c := p.cache.csw &&& cswSize ≠ cswWord ∨
    p.cache.csw &&& cswIncSingle = 0) (by
      intro hc
      simp only [not_or, not_not] at hc
      exact ⟨hc.1, (single_iff hinc).mp hc.2⟩)
  rw [hr]
  obtain ⟨h₁, h₂, h₃, h₄⟩ := writeLoop_ready (n - 1) hpr ha hpt
  have hend : (writeLoop (n - 1) addr r).1 + 4 = addr + BitVec.ofNat 32 (4 * n) := by
    rw [h₃, after_last_word addr hn]
  have hpage : pageStart ((writeLoop (n - 1) addr r).1 + 4) = false := by
    rw [hend]
    exact hfit
  rw [h₁.apaccWr]
  refine ⟨⟨⟨⟨h₁.sound, h₁.select, h₁.fields⟩, h₁.bank⟩, h₁.size, h₁.inc⟩, hend, ?_⟩
  change (writeLoop (n - 1) addr r).1 + 4 = Hw.bump (writeLoop (n - 1) addr r).2.hw.tar 4
  rw [h₄]
  exact (bump_word h₂ hpage).symm

theorem setWords_done (h : Matched p) (hinc : IncKnown p.cache.csw) {addr : Word} {n : Nat}
    (ht : TarFor false p addr) (hfit : Fits false addr n) :
    WordsDone addr n (setWords p addr n) := by
  have ht' : p.cache.tar = addr → p.hw.tar = addr := by
    intro he
    exact (ht he).resolve_left (by simp)
  obtain ⟨hat, hcsw⟩ := updateTar_at h ht'
  obtain ⟨hat', hsize, hinc'⟩ := updateSize_at cswWord hat (by decide)
  rw [hcsw] at hinc'
  unfold setWords
  simp only
  generalize updateSize (updateTar p addr) cswWord = r at hat' hsize hinc'
  have hknown : IncKnown r.cache.csw := by
    unfold IncKnown
    rw [hinc']
    exact hinc
  have hsingle : ∃ q, (if r.cache.csw &&& cswIncSingle = 0 then
        jtagMemApRegWr (r.setCsw ((r.cache.csw &&& ~~~cswAddrInc) ||| cswIncSingle)) adiApCsw
          ((r.cache.csw &&& ~~~cswAddrInc) ||| cswIncSingle)
      else r.skip r.cswOk) = q ∧ WordReady q ∧ q.cache.tar = addr ∧ q.hw.tar = addr := by
    refine ⟨_, rfl, ?_⟩
    split
    · rw [writeCsw hat'.select hat'.bank]
      refine ⟨⟨⟨⟨hat'.sound, hat'.select, rfl⟩, hat'.bank⟩, ?_, ?_⟩, hat'.tar, hat'.hwTar⟩
      · exact (and_field_of_disjoint _ cswAddrInc cswIncSingle cswSize (by decide)
          (by decide)).trans hsize
      · exact and_field _ cswAddrInc cswIncSingle (by decide)
    · next hs =>
        rw [hat'.skip_csw]
        exact ⟨⟨hat'.ready, hsize, (single_iff hknown).mp hs⟩, hat'.tar, hat'.hwTar⟩
  obtain ⟨q, hq, hqr, hqt, hqh⟩ := hsingle
  rw [hq]
  obtain ⟨h₁, h₂, h₃⟩ := setLoop_ready n hqr (by
    rw [hqh]
    exact hfit)
  refine ⟨⟨⟨⟨h₁.sound, h₁.select, h₁.fields⟩, h₁.bank⟩, h₁.size, h₁.inc⟩, ?_, ?_⟩
  · rw [Nat.mul_comm 4 n]
  · change (setLoop n q).cache.tar + BitVec.ofNat 32 (n * 4) = (setLoop n q).hw.tar
    rw [h₂, h₃, hqt, hqh]

end Words

end YardIce.Adi
