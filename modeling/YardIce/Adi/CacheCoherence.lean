import YardIce.Lib.Runs
import YardIce.Adi.Transfers

/-!
# Coherence of the debug port caches

In a run in which no access ends on a page boundary, no register is written behind
the back of its cache and no bank is selected through the difference of two banks,
every write that the code skips is one it may skip.

## Implementation notes

The cached `TAR` may also hold the mark that `jtag_mem_ap_init` leaves there. It is
an address like any other, so an access to that address is excluded.
-/

namespace YardIce.Adi

open Lib

variable {p q : Port}

section Blocks

/-- The value that `jtag_mem_ap_init` leaves in the cached `TAR`. -/
def mark : Word := 0xffffffff

/-- The invariant between two calls. -/
structure Inv (p : Port) : Prop extends Matched p where
  tar : p.cache.tar = p.hw.tar ∨ p.cache.tar = mark

/-- An address other than the mark is in the cached `TAR` only if it is in `TAR`. -/
theorem Inv.tar_eq (h : Inv p) {addr : Word} (hne : addr ≠ mark) :
    p.cache.tar = addr → p.hw.tar = addr := by
  intro he
  obtain ht | ht := h.tar
  · rw [← ht, he]
  · exact absurd (he.symm.trans ht) hne

theorem even_iff (a : Word) : a &&& 1 = 0 ↔ a.toNat % 2 = 0 := by
  have hnat : (a &&& 1).toNat = a.toNat % 2 := by
    rw [BitVec.toNat_and]
    exact Nat.and_two_pow_sub_one_eq_mod a.toNat 1
  constructor
  · intro h
    rw [← hnat, h]
    rfl
  · intro h
    apply BitVec.eq_of_toNat_eq
    rw [hnat, h]
    rfl

/-- Among even addresses those of words have the second bit clear. -/
theorem word_iff {a : Word} (he : a.toNat % 2 = 0) : a &&& 2 = 0 ↔ a.toNat % 4 = 0 := by
  have hsplit : (a &&& 3).toNat = a.toNat % 4 := by
    rw [BitVec.toNat_and]
    exact Nat.and_two_pow_sub_one_eq_mod a.toNat 2
  have hlow : a &&& 1 = 0 := (even_iff a).mpr he
  have hor : a &&& 3 = a &&& 2 := by
    have h3 : (3 : Word) = 1 ||| 2 := by decide
    rw [h3, BitVec.and_or_distrib_left, hlow]
    exact BitVec.zero_or
  constructor
  · intro h
    rw [← hsplit, hor, h]
    rfl
  · intro h
    apply BitVec.eq_of_toNat_eq
    rw [← hor, hsplit, h]
    rfl

theorem ne_mark_of_even {a : Word} (he : a.toNat % 2 = 0) : a ≠ mark := by
  rintro rfl
  exact absurd he (by decide)

/-- The byte and halfword functions of a block transfer. -/
def Counts (f : Port → Word → Port) (n : Nat) : Prop :=
  ∀ p addr, Matched p → IncKnown p.cache.csw → (p.cache.tar = addr → p.hw.tar = addr) →
    Counted p.cache.csw addr n (f p addr)

theorem rd8_counts : Counts jtagMemApRd8 1 := by
  intro p addr h hinc ht
  refine subword_counted h hinc (Or.inl ⟨rfl, rfl⟩) (by decide) ht ?_
  intro q hq
  rw [Port.apaccRd, rd_drw hq]

theorem wr8_counts (din : Word) : Counts (fun p addr => jtagMemApWr8 p addr din) 1 := by
  intro p addr h hinc ht
  refine subword_counted h hinc (Or.inl ⟨rfl, rfl⟩) (by decide) ht ?_
  intro q hq
  rw [Port.apaccWr, wr_drw hq]

theorem rd16_counts : Counts jtagMemApRd16 2 := by
  intro p addr h hinc ht
  refine subword_counted h hinc (Or.inr (Or.inl ⟨rfl, rfl⟩)) (by decide) ht ?_
  intro q hq
  rw [Port.apaccRd, rd_drw hq]

theorem wr16_counts (din : Word) : Counts (fun p addr => jtagMemApWr16 p addr din) 2 := by
  intro p addr h hinc ht
  refine subword_counted h hinc (Or.inr (Or.inl ⟨rfl, rfl⟩)) (by decide) ht ?_
  intro q hq
  rw [Port.apaccWr, wr_drw hq]

theorem Counted.known {csw addr : Word} {n : Nat} (h : Counted csw addr n q)
    (hinc : IncKnown csw) : IncKnown q.cache.csw := by
  unfold IncKnown
  rw [h.inc]
  exact hinc

/-- Away from the end of its page an access leaves the invariant. -/
theorem Counted.inv {csw addr : Word} {n : Nat} (h : Counted csw addr n q)
    (hpage : csw &&& cswAddrInc = cswIncSingle → addr.toNat % 4096 + n < 4096) : Inv q :=
  ⟨h.toMatched, Or.inl (h.tar hpage)⟩

/-- Address and length after the first byte and halfword. -/
def lead (addr : Word) (len : Nat) : Word × Nat :=
  let (addr, len) := if addr &&& 1 ≠ 0 then (addr + 1, len - 1) else (addr, len)
  if 2 ≤ len ∧ addr &&& 2 ≠ 0 then (addr + 2, len - 2) else (addr, len)

/-- The port before the words: the cached `TAR` is right, or no access was made, or the
words start a page that `TAR` did not reach. -/
structure Led (p : Port) (addr a : Word) (q : Port) : Prop extends Matched q where
  inc : q.cache.csw &&& cswAddrInc = p.cache.csw &&& cswAddrInc
  tar : q.cache.tar = q.hw.tar ∨ q.cache.tar = mark ∧ a = addr ∨
    a ≠ addr ∧ p.cache.csw &&& cswAddrInc = cswIncSingle ∧ q.cache.tar = a ∧ pageStart a = true

theorem page_of_add {a : Word} {n : Nat} (hle : a.toNat % 4096 + n ≤ 4096)
    (hp : pageStart (a + BitVec.ofNat 32 n) = false) : a.toNat % 4096 + n < 4096 := by
  have hne : ¬(a + BitVec.ofNat 32 n).toNat % 4096 = 0 := by
    rw [← pageStart_iff, hp]
    decide
  have hlt := a.isLt
  simp only [BitVec.toNat_add, BitVec.toNat_ofNat] at hne
  lia

/-- After an access that at most ends its page. -/
theorem Counted.led {addr a : Word} {n : Nat} (h : Counted p.cache.csw a n q)
    (hle : a.toNat % 4096 + n ≤ 4096) (hne : a + BitVec.ofNat 32 n ≠ addr) :
    Led p addr (a + BitVec.ofNat 32 n) q := by
  refine ⟨h.toMatched, h.inc, ?_⟩
  cases hp : pageStart (a + BitVec.ofNat 32 n) with
  | false => exact Or.inl (h.tar fun _ => page_of_add hle hp)
  | true =>
      obtain ht | ⟨hs, ht⟩ := h.next
      · exact Or.inl ht
      · exact Or.inr (Or.inr ⟨hne, hs, ht, rfl⟩)

theorem add_ne (a : Word) {n : Nat} (hpos : 0 < n) (hn : n < 4) : a + BitVec.ofNat 32 n ≠ a := by
  intro h
  have hnat := congrArg BitVec.toNat h
  have hlt := a.isLt
  simp only [BitVec.toNat_add, BitVec.toNat_ofNat] at hnat
  lia

theorem toNat_add_mod (a : Word) (n : Nat) :
    (a + BitVec.ofNat 32 n).toNat % 4 = (a.toNat + n) % 4 := by
  have hlt := a.isLt
  simp only [BitVec.toNat_add, BitVec.toNat_ofNat]
  lia

theorem pageStart_of_odd_word {a : Word} (h : a.toNat % 4 ≠ 0) : pageStart a = false := by
  rw [← Bool.not_eq_true, pageStart_iff]
  lia

theorem Led.trans {r : Port} {addr a : Word} (h : Led q addr a r)
    (hinc : q.cache.csw &&& cswAddrInc = p.cache.csw &&& cswAddrInc) : Led p addr a r := by
  refine ⟨h.toMatched, h.inc.trans hinc, ?_⟩
  rw [← hinc]
  exact h.tar

/-- At an even address there is at most the halfword. -/
theorem first_led_even {byte half : Port → Word → Port} (hhalf : Counts half 2) (h : Inv p)
    (hinc : IncKnown p.cache.csw) {addr : Word} {len : Nat} (hodd : addr &&& 1 = 0) {c : Cursor}
    (hc : ((Cursor.mk p addr len).firstByte byte).firstHalf half = c) :
    (c.addr, c.len) = lead addr len ∧ Led p addr c.addr c.port ∧ c.addr.toNat % 2 = 0 ∧
      (2 ≤ c.len → c.addr.toNat % 4 = 0) := by
  have heven := (even_iff addr).mp hodd
  have hfirst : (Cursor.mk p addr len).firstByte byte = ⟨p, addr, len⟩ := if_neg (by simpa using hodd)
  rw [hfirst] at hc
  unfold Cursor.firstHalf at hc
  unfold lead
  simp only [hodd, ne_eq, not_true_eq_false, if_false] at hc ⊢
  by_cases hhw : 2 ≤ len ∧ ¬addr &&& 2 = 0
  · rw [if_pos hhw] at hc ⊢
    subst hc
    have hmod : addr.toNat % 4 = 2 := by
      have := mt (word_iff heven).mpr hhw.2
      lia
    have hcnt := hhalf p addr h.toMatched hinc (h.tar_eq (ne_mark_of_even heven))
    have hnext := toNat_add_mod addr 2
    refine ⟨rfl, hcnt.led (by lia) (add_ne addr (by decide) (by decide)), ?_, fun _ => ?_⟩
    · change (addr + BitVec.ofNat 32 2).toNat % 2 = 0
      lia
    · change (addr + BitVec.ofNat 32 2).toNat % 4 = 0
      lia
  · rw [if_neg hhw] at hc ⊢
    subst hc
    refine ⟨rfl, ⟨h.toMatched, rfl, h.tar.imp_right fun ht => Or.inl ⟨ht, rfl⟩⟩, heven, ?_⟩
    intro hlen
    by_contra hne
    exact hhw ⟨hlen, mt (word_iff heven).mp hne⟩

/-- At an odd address the byte comes first. -/
theorem first_led_odd {byte half : Port → Word → Port} (hbyte : Counts byte 1)
    (hhalf : Counts half 2) (h : Inv p) (hinc : IncKnown p.cache.csw) {addr : Word} {len : Nat}
    (hmark : addr = mark → p.cache.tar ≠ mark) (hodd : ¬addr &&& 1 = 0) {c : Cursor}
    (hc : ((Cursor.mk p addr len).firstByte byte).firstHalf half = c) :
    (c.addr, c.len) = lead addr len ∧ Led p addr c.addr c.port ∧ c.addr.toNat % 2 = 0 ∧
      (2 ≤ c.len → c.addr.toNat % 4 = 0) := by
  have hmod : addr.toNat % 2 = 1 := by
    have := mt (even_iff addr).mpr hodd
    lia
  have ht : p.cache.tar = addr → p.hw.tar = addr := by
    intro he
    obtain ht | ht := h.tar
    · rw [← ht, he]
    · exact absurd ht (hmark (he.symm.trans ht))
  have hcnt := hbyte p addr h.toMatched hinc ht
  have hfirst : (Cursor.mk p addr len).firstByte byte = ⟨byte p addr, addr + 1, len - 1⟩ :=
    if_pos hodd
  have hnext := toNat_add_mod addr 1
  have heven : (addr + 1).toNat % 2 = 0 := by
    change (addr + BitVec.ofNat 32 1).toNat % 2 = 0
    lia
  rw [hfirst] at hc
  unfold Cursor.firstHalf at hc
  unfold lead
  simp only [hodd, ne_eq, not_false_eq_true, if_true] at hc ⊢
  by_cases hhw : 2 ≤ len - 1 ∧ ¬(addr + 1) &&& 2 = 0
  · rw [if_pos hhw] at hc ⊢
    subst hc
    have hmod' : (addr + 1).toNat % 4 = 2 := by
      have := mt (word_iff heven).mpr hhw.2
      lia
    have hpage : pageStart (addr + BitVec.ofNat 32 1) = false :=
      pageStart_of_odd_word (a := addr + 1) (by lia)
    have hinv : Inv (byte p addr) := hcnt.inv fun _ => page_of_add (by lia) hpage
    have hcnt' := hhalf (byte p addr) (addr + 1) hcnt.toMatched (hcnt.known hinc)
      (hinv.tar_eq (ne_mark_of_even heven))
    have hnext' := toNat_add_mod (addr + 1) 2
    have hne : (addr + 1) + BitVec.ofNat 32 2 ≠ addr := by
      have := add_ne addr (n := 3) (by decide) (by decide)
      rwa [show addr + 1 + BitVec.ofNat 32 2 = addr + BitVec.ofNat 32 3 from
        BitVec.add_assoc addr 1 2]
    refine ⟨rfl, (hcnt'.led (by lia) hne).trans hcnt.inc, ?_, fun _ => ?_⟩
    · change (addr + 1 + BitVec.ofNat 32 2).toNat % 2 = 0
      lia
    · change (addr + 1 + BitVec.ofNat 32 2).toNat % 4 = 0
      lia
  · rw [if_neg hhw] at hc ⊢
    subst hc
    refine ⟨rfl, hcnt.led (by lia) (add_ne addr (by decide) (by decide)), heven, ?_⟩
    intro hlen
    by_contra hne
    exact hhw ⟨hlen, mt (word_iff heven).mp hne⟩

/-- The first byte and halfword of a block. -/
theorem first_led {byte half : Port → Word → Port} (hbyte : Counts byte 1) (hhalf : Counts half 2)
    (h : Inv p) (hinc : IncKnown p.cache.csw) {addr : Word} {len : Nat}
    (hmark : addr = mark → p.cache.tar ≠ mark) {c : Cursor}
    (hc : ((Cursor.mk p addr len).firstByte byte).firstHalf half = c) :
    (c.addr, c.len) = lead addr len ∧ Led p addr c.addr c.port ∧ c.addr.toNat % 2 = 0 ∧
      (2 ≤ c.len → c.addr.toNat % 4 = 0) := by
  by_cases hodd : addr &&& 1 = 0
  · exact first_led_even hhalf h hinc hodd hc
  · exact first_led_odd hbyte hhalf h hinc hmark hodd hc

/-- The last halfword and byte of a block keep the invariant: they end no page. -/
theorem last_inv {byte half : Port → Word → Port} (hbyte : Counts byte 1) (hhalf : Counts half 2)
    {c : Cursor} (h : Inv c.port) (hinc : IncKnown c.port.cache.csw) (heven : c.addr.toNat % 2 = 0)
    (hword : 2 ≤ c.len → c.addr.toNat % 4 = 0) : Inv ((c.lastHalf half).lastByte byte) := by
  have hend : ∀ d : Cursor, Inv d.port → IncKnown d.port.cache.csw → d.addr.toNat % 2 = 0 →
      Inv (d.lastByte byte) := by
    intro d hd hdi hde
    unfold Cursor.lastByte
    split
    · have hcnt := hbyte d.port d.addr hd.toMatched hdi (hd.tar_eq (ne_mark_of_even hde))
      exact hcnt.inv fun _ => by lia
    · exact hd
  unfold Cursor.lastHalf
  split
  · next hlen =>
      have hcnt := hhalf c.port c.addr h.toMatched hinc (h.tar_eq (ne_mark_of_even heven))
      have hmod := hword hlen
      have hnext := toNat_add_mod c.addr 2
      apply hend
      · exact hcnt.inv fun _ => by lia
      · exact hcnt.known hinc
      · change (c.addr + BitVec.ofNat 32 2).toNat % 2 = 0
        lia
  · exact hend c h hinc heven

/-- A block transfer whose byte and halfword at the start do not end a page that the rest
relies on, and whose words end where they may. -/
structure BlockOk (paged : Bool) (count : Nat → Nat) (p : Port) (addr : Word) (len : Nat) :
    Prop where
  inc : IncKnown p.cache.csw
  marked : addr = mark → p.cache.tar ≠ mark
  fits : 4 ≤ (lead addr len).2 → Fits paged (lead addr len).1 (count (lead addr len).2)
  start : (lead addr len).1 ≠ addr → p.cache.csw &&& cswAddrInc = cswIncSingle →
    paged = true ∧ 4 ≤ (lead addr len).2 ∨ pageStart (lead addr len).1 = false

instance (paged : Bool) (count : Nat → Nat) (p : Port) (addr : Word) (len : Nat) :
    Decidable (BlockOk paged count p addr len) :=
  decidable_of_iff (IncKnown p.cache.csw ∧ (addr = mark → p.cache.tar ≠ mark) ∧
      (4 ≤ (lead addr len).2 → Fits paged (lead addr len).1 (count (lead addr len).2)) ∧
      ((lead addr len).1 ≠ addr → p.cache.csw &&& cswAddrInc = cswIncSingle →
        paged = true ∧ 4 ≤ (lead addr len).2 ∨ pageStart (lead addr len).1 = false))
    ⟨fun h => ⟨h.1, h.2.1, h.2.2.1, h.2.2.2⟩, fun h => ⟨h.inc, h.marked, h.fits, h.start⟩⟩

theorem block_inv {paged : Bool} {byte half : Port → Word → Port} {count : Nat → Nat}
    {ws : Port → Word → Nat → Word × Port} (hbyte : Counts byte 1) (hhalf : Counts half 2)
    (hcount : ∀ len, 4 ≤ len → 0 < count len)
    (hws : ∀ q a n, Matched q → IncKnown q.cache.csw → a.toNat % 4 = 0 → 0 < n →
      TarFor paged q a → Fits paged a n → WordsDone a n (ws q a n))
    (h : Inv p) {addr : Word} {len : Nat} (hok : len ≠ 0 → BlockOk paged count p addr len) :
    Inv (block p addr len byte half count ws) := by
  unfold block
  split
  · exact h
  · next hlen =>
      have hb := hok hlen
      generalize hc : ((Cursor.mk p addr len).firstByte byte).firstHalf half = c
      obtain ⟨hlead, hled, heven, hword⟩ := first_led hbyte hhalf h hb.inc hb.marked hc
      have haddr : c.addr = (lead addr len).1 := congrArg Prod.fst hlead
      have hclen : c.len = (lead addr len).2 := congrArg Prod.snd hlead
      have hknown : IncKnown c.port.cache.csw := by
        unfold IncKnown
        rw [hled.inc]
        exact hb.inc
      unfold Cursor.words
      split
      · next h4 =>
          have halign := hword (by lia)
          have htar : TarFor paged c.port c.addr := by
            intro he
            obtain ht | ⟨ht, -⟩ | ⟨hne, hs, -, hpage⟩ := hled.tar
            · exact Or.inr (ht.symm.trans he)
            · exact absurd (he.symm.trans ht) (ne_mark_of_even heven)
            · rw [haddr] at hne hpage
              obtain ⟨hp, -⟩ | hnp := hb.start hne hs
              · rw [haddr]
                exact Or.inl ⟨hp, hpage⟩
              · rw [hpage] at hnp
                cases hnp
          have hdone := hws c.port c.addr (count c.len) hled.toMatched hknown halign
            (hcount c.len h4) htar (by
              rw [haddr, hclen]
              exact hb.fits (hclen ▸ h4))
          have halign' : (ws c.port c.addr (count c.len)).1.toNat % 4 = 0 := by
            rw [hdone.addr_eq, toNat_add_mod]
            lia
          apply last_inv hbyte hhalf
          · exact ⟨hdone.toMatched, Or.inl hdone.tar⟩
          · exact Or.inr hdone.inc
          · simp only
            lia
          · intro _
            exact halign'
      · next h4 =>
          apply last_inv hbyte hhalf _ hknown heven hword
          refine ⟨hled.toMatched, ?_⟩
          obtain ht | ⟨ht, -⟩ | ⟨hne, hs, -, hpage⟩ := hled.tar
          · exact Or.inl ht
          · exact Or.inr ht
          · rw [haddr] at hne hpage
            obtain ⟨-, h4'⟩ | hnp := hb.start hne hs
            · exact absurd (hclen ▸ h4') h4
            · rw [hpage] at hnp
              cases hnp

end Blocks

section Calls

/-- The register that an address reaches once its bank is selected. -/
def register (addr : Word) : Word := (addr &&& 0xf0) ||| (addr &&& 0x0c)

/-- A register write that selects no new bank, or selects it from `SELECT` zero. -/
def SelectOk (p : Port) (addr : Word) : Prop :=
  dpApbanksel (addr ^^^ p.cache.select) = 0 ∨ p.cache.select = 0

instance (p : Port) (addr : Word) : Decidable (SelectOk p addr) :=
  inferInstanceAs (Decidable (_ ∨ _))

/-- The difference of the banks is the bank when `SELECT` was zero. -/
theorem regWr_eq (h : p.cache.select = p.hw.select) {addr : Word} (hok : SelectOk p addr)
    (din : Word) : ∃ s, dpApbanksel s = dpApbanksel addr ∧
      jtagMemApRegWr p addr din = (p.setSelect s).apaccWr addr din := by
  unfold jtagMemApRegWr
  simp only
  split
  · next hdiff =>
      have hzero := hok.resolve_left hdiff
      refine ⟨_, bank_of_xor p.cache.select addr 0xf0, ?_⟩
      have hsame : p.cache.select ^^^ ((addr ^^^ p.cache.select) &&& 0xf0) =
          dpApbanksel (addr ^^^ p.cache.select) := by
        rw [hzero]
        exact BitVec.zero_xor
      rw [hsame]
      simp only [Port.setSelect]
      congr 3
  · next hdiff =>
      refine ⟨p.cache.select, bank_of_xor_eq_zero (not_not.mp hdiff), ?_⟩
      rw [skip_select h, setSelect_self h]

/-- Reading `CSW` back makes its cache right. -/
theorem reloadCsw_eq (h : p.cache.select = p.hw.select) :
    ∃ s csw, dpApbanksel s = 0 ∧ cswFields csw = cswFields p.hw.csw ∧
      reloadCsw p = (p.setSelect s).setCsw csw := by
  obtain ⟨s, hs, hb⟩ := selectBank_eq h adiApCsw
  have hb' : dpApbanksel (p.setSelect s).hw.select = dpApbanksel adiApCsw := hb
  have hreg : (p.setSelect s).hw.reg adiApCsw = adiApCsw := reg_of_bank hb'
  unfold reloadCsw jtagMemApRegRd
  simp only
  rw [hs]
  have hrd : (p.setSelect s).apaccRd adiApCsw = p.setSelect s := by
    have hne : adiApCsw ≠ adiApDrw := by decide
    simp only [Port.apaccRd, Hw.rd, hreg, if_neg hne]
  rw [hrd]
  refine ⟨s, _, hb, ?_, rfl⟩
  simp only [Hw.value, hreg, if_true]
  exact fields_of_read _ _

/-- Setting `CSW` and reading it back, whatever was written. -/
theorem setAndReload_inv (h : Inv p) (hok : SelectOk p adiApCsw) (v : Word) :
    Inv (reloadCsw (jtagMemApRegWr p adiApCsw v)) := by
  obtain ⟨s, hb, hw⟩ := regWr_eq h.select hok v
  rw [hw, Port.apaccWr, wr_csw hb]
  obtain ⟨s', csw, -, hf, hr⟩ := reloadCsw_eq (p := { p.setSelect s with
    hw := { (p.setSelect s).hw with csw := v } }) rfl
  rw [hr]
  exact ⟨⟨h.sound, rfl, hf⟩, h.tar⟩

theorem init_inv (hs : p.sound = true) (hsel : p.cache.select = p.hw.select) :
    Inv (jtagMemApInit p) := by
  obtain ⟨s, csw, hb, hf, hr⟩ := reloadCsw_eq (p := p.setTar 0xffffffff) hsel
  have hfirst : Inv (reloadCsw (p.setTar 0xffffffff)) := by
    rw [hr]
    exact ⟨⟨hs, rfl, hf⟩, Or.inr rfl⟩
  unfold jtagMemApInit
  simp only
  split
  · exact hfirst
  · apply setAndReload_inv hfirst
    left
    rw [hr, show adiApCsw ^^^ _ = _ from BitVec.zero_xor]
    exact hb

theorem regRd_inv (h : Inv p) {addr : Word}
    (hok : register addr = adiApDrw → p.cache.csw &&& cswAddrInc = 0) :
    Inv (jtagMemApRegRd p addr).2 := by
  obtain ⟨s, hs, hb⟩ := selectBank_eq h.select addr
  have hreg : (p.setSelect s).hw.reg addr = register addr := reg_of_bank hb
  unfold jtagMemApRegRd
  simp only
  rw [hs]
  have hrd : (p.setSelect s).apaccRd addr = p.setSelect s := by
    simp only [Port.apaccRd, Hw.rd, hreg]
    split
    · next hd =>
        rw [drw_off]
        exact (inc_of_fields h.fields).symm.trans (hok hd)
    · rfl
  rw [hrd]
  exact ⟨h.setSelect s, h.tar⟩

/-- A register write that agrees with the caches. -/
structure RegWrOk (p : Port) (addr din : Word) : Prop where
  select : SelectOk p addr
  csw : register addr = adiApCsw → cswFields din = cswFields p.cache.csw
  tar : register addr = adiApTar → din = p.cache.tar
  drw : register addr = adiApDrw → p.cache.csw &&& cswAddrInc = 0

instance (p : Port) (addr din : Word) : Decidable (RegWrOk p addr din) :=
  decidable_of_iff (SelectOk p addr ∧
      (register addr = adiApCsw → cswFields din = cswFields p.cache.csw) ∧
      (register addr = adiApTar → din = p.cache.tar) ∧
      (register addr = adiApDrw → p.cache.csw &&& cswAddrInc = 0))
    ⟨fun h => ⟨h.1, h.2.1, h.2.2.1, h.2.2.2⟩, fun h => ⟨h.select, h.csw, h.tar, h.drw⟩⟩

theorem regWr_inv (h : Inv p) {addr din : Word} (hok : RegWrOk p addr din) :
    Inv (jtagMemApRegWr p addr din) := by
  obtain ⟨s, hb, hw⟩ := regWr_eq h.select hok.select din
  have hreg : (p.setSelect s).hw.reg addr = register addr := reg_of_bank hb
  rw [hw, Port.apaccWr]
  simp only [Hw.wr, hreg]
  split
  · next hc => exact ⟨⟨h.sound, rfl, (hok.csw hc).symm⟩, h.tar⟩
  · split
    · next ht => exact ⟨⟨h.sound, rfl, h.fields⟩, Or.inl (hok.tar ht).symm⟩
    · split
      · next hd =>
          have hoff : (p.setSelect s).hw.csw &&& cswAddrInc = 0 :=
            (inc_of_fields h.fields).symm.trans (hok.drw hd)
          rw [drw_off hoff]
          exact ⟨h.setSelect s, h.tar⟩
      · exact ⟨h.setSelect s, h.tar⟩

theorem word_of_mask (addr : Word) : (addr &&& 0xfffffffc).toNat % 4 = 0 := by
  have hsplit : ((addr &&& 0xfffffffc) &&& 3).toNat = (addr &&& 0xfffffffc).toNat % 4 := by
    rw [BitVec.toNat_and]
    exact Nat.and_two_pow_sub_one_eq_mod (addr &&& 0xfffffffc).toNat 2
  have hzero : (addr &&& 0xfffffffc) &&& 3 = 0 := by
    rw [BitVec.and_assoc]
    exact BitVec.and_zero
  rw [← hsplit, hzero]
  rfl

theorem rd32_inv (h : Inv p) {addr : Word}
    (hpage : (addr &&& 0xfffffffc).toNat % 4096 + 4 < 4096) : Inv (jtagMemApRd32 p addr) := by
  have hword := word_of_mask addr
  have hne : addr &&& 0xfffffffc ≠ mark := ne_mark_of_even (by lia)
  unfold jtagMemApRd32
  simp only [selectBank_csw]
  obtain ⟨q, hq, hqr, hqt, hqh⟩ := startWords h.toMatched (c := p.cache.csw &&& cswSize ≠ cswWord ∨
    p.cache.csw &&& cswAddrInc ≠ cswIncSingle) (by
      intro hc
      simp only [not_or, not_not] at hc
      exact hc)
  rw [hq]
  obtain ⟨hpr, hpt⟩ := updateTarPaged_ready hqr (addr &&& 0xfffffffc) (by
    intro he
    rw [hqh]
    exact Or.inr (h.tar_eq hne (hqt ▸ he)))
  rw [hpr.apaccRd, hpt, bump_eq hpage]
  exact ⟨⟨hpr.sound, hpr.select, hpr.fields⟩, Or.inl rfl⟩

/-- Banked data registers are neither `CSW` nor `TAR` nor `DRW`. -/
theorem wr_banked {hw : Hw} (hb : dpApbanksel hw.select = 0x10) (addr v : Word) :
    hw.wr addr v = hw := by
  have hreg : hw.reg addr &&& 0x10 = 0x10 := by
    unfold dpApbanksel at hb
    rw [Hw.reg, hb]
    ext i hi
    simp only [BitVec.getElem_and, BitVec.getElem_or]
    cases (0x10 : Word)[i] <;> simp
  have hne : ∀ r : Word, r &&& 0x10 = 0 → hw.reg addr ≠ r := by
    rintro r hr rfl
    rw [hr] at hreg
    exact absurd hreg (by decide)
  simp only [Hw.wr, if_neg (hne adiApCsw (by decide)), if_neg (hne adiApTar (by decide)),
    if_neg (hne adiApDrw (by decide))]

theorem wr32_inv (h : Inv p) (addr data : Word) : Inv (jtagMemApWr32 p addr data) := by
  have heven : (addr &&& 0xfffffff0).toNat % 2 = 0 := by
    rw [← even_iff, BitVec.and_assoc]
    exact BitVec.and_zero
  unfold jtagMemApWr32
  simp only
  -- `TAR`
  have htar : ∃ q, (if p.cache.tar ≠ addr &&& 0xfffffff0 then
        ((p.selectBank adiApTar).apaccWr adiApTar (addr &&& 0xfffffff0)).setTar
          (addr &&& 0xfffffff0)
      else p.skip p.tarOk) = q ∧ Inv q := by
    refine ⟨_, rfl, ?_⟩
    split
    · obtain ⟨s, hs, hb⟩ := selectBank_eq h.select adiApTar
      rw [hs, Port.apaccWr, wr_tar hb]
      exact ⟨⟨h.sound, rfl, h.fields⟩, Or.inl rfl⟩
    · next hc =>
        have he := not_not.mp hc
        have hh := h.tar_eq (ne_mark_of_even heven) he
        rw [skip_of_ok (by simp [Port.tarOk, he, hh])]
        exact h
  obtain ⟨q, hq, hqi⟩ := htar
  rw [hq]
  -- `CSW`
  have hcsw : ∃ r, (if q.cache.csw &&& cswSize ≠ cswWord then
        updateSize (q.selectBank adiApCsw) cswWord else q.skip q.cswOk) = r ∧ Inv r := by
    refine ⟨_, rfl, ?_⟩
    split
    · obtain ⟨s, hs, hb⟩ := selectBank_eq hqi.select adiApCsw
      rw [hs]
      unfold updateSize
      split
      · simp only
        rw [writeCsw rfl hb]
        exact ⟨⟨hqi.sound, rfl, rfl⟩, hqi.tar⟩
      · rw [(hqi.setSelect s).skip_csw]
        exact ⟨hqi.setSelect s, hqi.tar⟩
    · rw [hqi.skip_csw]
      exact hqi
  obtain ⟨r, hr, hri⟩ := hcsw
  rw [hr]
  obtain ⟨s, hs, hb⟩ := selectBank_eq hri.select adiApBd0
  rw [hs, Port.apaccWr, wr_banked hb]
  exact ⟨hri.setSelect s, hri.tar⟩

/-- The byte and halfword functions keep the invariant away from the end of a page. -/
structure SubwordOk (p : Port) (addr : Word) (n : Nat) : Prop where
  inc : IncKnown p.cache.csw
  marked : addr = mark → p.cache.tar ≠ mark
  page : p.cache.csw &&& cswAddrInc = cswIncSingle → addr.toNat % 4096 + n < 4096

instance (p : Port) (addr : Word) (n : Nat) : Decidable (SubwordOk p addr n) :=
  decidable_of_iff (IncKnown p.cache.csw ∧ (addr = mark → p.cache.tar ≠ mark) ∧
      (p.cache.csw &&& cswAddrInc = cswIncSingle → addr.toNat % 4096 + n < 4096))
    ⟨fun h => ⟨h.1, h.2.1, h.2.2⟩, fun h => ⟨h.inc, h.marked, h.page⟩⟩

theorem Counts.inv {f : Port → Word → Port} {n : Nat} (hf : Counts f n) (h : Inv p) {addr : Word}
    (hok : SubwordOk p addr n) : Inv (f p addr) := by
  have ht : p.cache.tar = addr → p.hw.tar = addr := by
    intro he
    obtain ht | ht := h.tar
    · rw [← ht, he]
    · exact absurd ht (hok.marked (he.symm.trans ht))
  exact (hf p addr h.toMatched hok.inc ht).inv hok.page

end Calls

/-- The calls that leave the caches right. -/
def Careful (p : Port) : Call → Prop
  | .init | .wr32 _ _ => True
  | .regRd addr => register addr = adiApDrw → p.cache.csw &&& cswAddrInc = 0
  | .regWr addr din => RegWrOk p addr din
  | .cswSet _ _ | .cswClr _ _ => SelectOk p adiApCsw
  | .rd8 addr | .wr8 addr _ => SubwordOk p addr 1
  | .rd16 addr | .wr16 addr _ => SubwordOk p addr 2
  | .rd32 addr => (addr &&& 0xfffffffc).toNat % 4096 + 4 < 4096
  | .read addr len => len ≠ 0 → BlockOk true (fun len => len / 4) p addr len
  | .write addr len => len ≠ 0 → BlockOk true (fun len => (len + 3) / 4) p addr len
  | .set addr len => len ≠ 0 → BlockOk false (fun len => (len + 3) / 4) p addr len

instance (p : Port) : (c : Call) → Decidable (Careful p c)
  | .init | .wr32 _ _ => isTrue trivial
  | .regRd addr => inferInstanceAs (Decidable (register addr = adiApDrw → _))
  | .regWr addr din => inferInstanceAs (Decidable (RegWrOk p addr din))
  | .cswSet _ _ | .cswClr _ _ => inferInstanceAs (Decidable (SelectOk p adiApCsw))
  | .rd8 addr | .wr8 addr _ => inferInstanceAs (Decidable (SubwordOk p addr 1))
  | .rd16 addr | .wr16 addr _ => inferInstanceAs (Decidable (SubwordOk p addr 2))
  | .rd32 addr => inferInstanceAs (Decidable ((addr &&& 0xfffffffc).toNat % 4096 + 4 < 4096))
  | .read addr len =>
    inferInstanceAs (Decidable (len ≠ 0 → BlockOk true (fun len => len / 4) p addr len))
  | .write addr len =>
    inferInstanceAs (Decidable (len ≠ 0 → BlockOk true (fun len => (len + 3) / 4) p addr len))
  | .set addr len =>
    inferInstanceAs (Decidable (len ≠ 0 → BlockOk false (fun len => (len + 3) / 4) p addr len))

theorem Inv.step (h : Inv p) {c : Call} (hok : Careful p c) (hs : p.step c = some q) : Inv q := by
  cases c with
  | init => exact Option.some.inj hs ▸ init_inv h.sound h.select
  | regRd addr => exact Option.some.inj hs ▸ regRd_inv h hok
  | regWr addr din => exact Option.some.inj hs ▸ regWr_inv h hok
  | cswSet mask bitmap => exact Option.some.inj hs ▸ setAndReload_inv h hok _
  | cswClr mask bitmap => exact Option.some.inj hs ▸ setAndReload_inv h hok _
  | rd8 addr => exact Option.some.inj hs ▸ rd8_counts.inv h hok
  | wr8 addr din => exact Option.some.inj hs ▸ (wr8_counts din).inv h hok
  | rd16 addr => exact Option.some.inj hs ▸ rd16_counts.inv h hok
  | wr16 addr din => exact Option.some.inj hs ▸ (wr16_counts din).inv h hok
  | rd32 addr => exact Option.some.inj hs ▸ rd32_inv h hok
  | wr32 addr data => exact Option.some.inj hs ▸ wr32_inv h addr data
  | read addr len =>
      refine Option.some.inj hs ▸ block_inv rd8_counts rd16_counts ?_ ?_ h hok
      · intro len hlen
        lia
      · intro r a n hr _ ha hn ht hf
        exact readWords_done hr ha hn ht hf
  | write addr len =>
      refine Option.some.inj hs ▸ block_inv (wr8_counts 0) (wr16_counts 0) ?_ ?_ h hok
      · intro len hlen
        lia
      · intro r a n hr hi ha hn ht hf
        exact writeWords_done hr hi ha hn ht hf
  | set addr len =>
      refine Option.some.inj hs ▸ block_inv (wr8_counts 0) (wr16_counts 0) ?_ ?_ h hok
      · intro len hlen
        lia
      · intro r a n hr hi _ _ ht hf
        exact setWords_done hr hi ht hf

/-- A port after reset with debug enabled. -/
def samplePort : Port where
  hw := { select := 0, csw := 0, tar := 0x123, status := 0x40, other := fun _ => 0 }
  cache := { select := 0, csw := 0, tar := 0 }
  sound := true

end YardIce.Adi
