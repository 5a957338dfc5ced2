import YardIce.Adi.Bus
import YardIce.Lib.AlignedTransfer

/-!
# Ends of a block transfer

A block transfer moves a byte and a halfword until its address is that of a word, then words,
and a halfword and a byte at its end. The bytes and halfwords of `jtag_mem_ap_read` and of
`jtag_mem_ap_write` differ only in the direction of the data.

## Implementation notes

`TAR` counts inside its page, and the cached `TAR` counts on. Behind an access that ends a page
the cache has the address of the next page and `TAR` that of the same page, so that an access
which relies on the cache is made a page too low: `landing`.
-/

namespace YardIce.Adi

open YardIce.Lib

/-! ## Behind an access -/

/-- Where an access for `addr` is made behind one that `TAR` and the cache counted. -/
def landing (counted : Prop) [Decidable counted] (addr : Word) : Word :=
  if counted ∧ pageStart addr = true then addr - 4096 else addr

/-- The next access for `addr` is made at `t`, a page away at most if the cached `TAR` hides
it. -/
structure Lands (b : Bus) (addr t : Word) : Prop extends Synced b where
  hwTar : b.cache.tar = addr → b.hw.tar = t
  stale : t ≠ addr → b.Single ∧ b.cache.tar = addr ∧ dpApbanksel b.cache.select = 0
  page : t.toNat % 4096 = addr.toNat % 4096

section Landing

variable {b q : Bus} {addr t : Word} {n : Nat}

theorem landing_eq {counted : Prop} [Decidable counted] (h : ¬(counted ∧ pageStart addr = true)) :
    landing counted addr = addr :=
  if_neg h

theorem landing_page {counted : Prop} [Decidable counted] :
    (landing counted addr).toNat % 4096 = addr.toNat % 4096 := by
  have hlt := addr.isLt
  have hsub : (addr - 4096 : Word).toNat = (2 ^ 32 - 4096 + addr.toNat) % 2 ^ 32 :=
    BitVec.toNat_sub addr 4096
  unfold landing
  split
  · rw [hsub]
    lia
  · rfl

theorem landing_ne {counted : Prop} [Decidable counted] (h : landing counted addr ≠ addr) :
    counted ∧ pageStart addr = true ∧ landing counted addr = addr - 4096 := by
  by_cases hc : counted ∧ pageStart addr = true
  · exact ⟨hc.1, hc.2, if_pos hc⟩
  · exact absurd (landing_eq hc) h

theorem sub_page_ne (addr : Word) : addr - 4096 ≠ addr := by
  intro h
  have hnat := congrArg BitVec.toNat h
  have hsub : (addr - 4096 : Word).toNat = (2 ^ 32 - 4096 + addr.toNat) % 2 ^ 32 :=
    BitVec.toNat_sub addr 4096
  have hlt := addr.isLt
  lia

theorem landing_eq_iff {counted : Prop} [Decidable counted] :
    landing counted addr = addr ↔ ¬(counted ∧ pageStart addr = true) := by
  constructor
  · intro h hc
    rw [landing, if_pos hc] at h
    exact sub_page_ne addr h
  · exact landing_eq

/-- `TAR` behind an access inside its page. -/
theorem bump_landing (hpos : 0 < n) (hle : addr.toNat % 4096 + n ≤ 4096) :
    Hw.bump addr n = landing True (addr + BitVec.ofNat 32 n) := by
  have hlt := addr.isLt
  have hadd : (addr + BitVec.ofNat 32 n).toNat = (addr.toNat + n) % 2 ^ 32 := by
    simp only [BitVec.toNat_add, BitVec.toNat_ofNat]
    lia
  by_cases hend : addr.toNat % 4096 + n = 4096
  · have hpage : pageStart (addr + BitVec.ofNat 32 n) = true := by
      rw [pageStart_iff]
      lia
    rw [landing, if_pos ⟨trivial, hpage⟩]
    apply BitVec.eq_of_toNat_eq
    have hsub : (addr + BitVec.ofNat 32 n - 4096 : Word).toNat =
        (2 ^ 32 - 4096 + (addr + BitVec.ofNat 32 n).toNat) % 2 ^ 32 := BitVec.toNat_sub _ 4096
    rw [hsub, hadd]
    simp only [Hw.bump, BitVec.toNat_ofNat]
    lia
  · have hpage : ¬pageStart (addr + BitVec.ofNat 32 n) = true := by
      rw [pageStart_iff]
      lia
    rw [landing_eq fun h => hpage h.2]
    exact bump_eq (by lia)

/-- `TAR` is in the first bank. -/
theorem xor_bank (s : Word) : (adiApTar ^^^ s) &&& 0xf0 = s &&& 0xf0 := by
  ext i hi
  have hbit : (adiApTar &&& 0xf0)[i] = (0 : Word)[i] := by
    rw [show adiApTar &&& 0xf0 = 0 by decide]
  simp only [BitVec.getElem_and, BitVec.getElem_xor] at hbit ⊢
  revert hbit
  cases adiApTar[i] <;> cases s[i] <;> cases (0xf0 : Word)[i] <;> simp

theorem Lands.reached (h : Lands b addr t) : b.reached addr = t := by
  unfold Bus.reached
  split
  · next hcond =>
      by_contra hne
      obtain ⟨-, htar, hbank⟩ := h.stale (Ne.symm hne)
      have hdiff : dpApbanksel (adiApTar ^^^ b.cache.select) = 0 := by
        rw [dpApbanksel, xor_bank]
        exact hbank
      exact hcond.elim (fun h => h htar) fun h => h hdiff
  · next hcond =>
      simp only [not_or, not_not] at hcond
      exact h.hwTar hcond.1

theorem Lands.reached_mod (h : Lands b addr t) : (b.reached addr).toNat % 4 = addr.toNat % 4 := by
  rw [h.reached]
  have := h.page
  lia

theorem add_ne_self (hpos : 0 < n) (hn : n < 2 ^ 32) : addr + BitVec.ofNat 32 n ≠ addr := by
  intro h
  have hnat := congrArg BitVec.toNat h
  have hlt := addr.isLt
  simp only [BitVec.toNat_add, BitVec.toNat_ofNat] at hnat
  lia

/-- Inside a page the next access is made behind the last one. -/
theorem After.lands (h : After b addr t n q) (hl : Lands b addr t) (hpos : 0 < n)
    (hpage : addr.toNat % 4096 + n < 4096) :
    Lands q (addr + BitVec.ofNat 32 n) (t + BitVec.ofNat 32 n) := by
  have htlt := t.isLt
  have halt := addr.isLt
  have hmod := hl.page
  constructor
  case toSynced => exact h.toSynced
  case hwTar =>
    rw [h.tar, h.hwTar]
    by_cases hs : b.Single
    · rw [if_pos hs, if_pos hs]
      exact fun _ => bump_eq (by lia)
    · rw [if_neg hs]
      intro heq
      exact absurd heq.symm (add_ne_self hpos (by lia))
  case stale =>
    intro hne
    have ht : t ≠ addr := fun heq => hne (congrArg (· + BitVec.ofNat 32 n) heq)
    obtain ⟨hs, -, -⟩ := hl.stale ht
    refine ⟨h.single.trans hs, ?_, h.bank⟩
    rw [h.tar, if_pos hs]
  case page =>
    simp only [BitVec.toNat_add, BitVec.toNat_ofNat]
    lia

/-- Behind an access at its own address. -/
theorem After.lands_next (h : After b addr addr n q) (hpos : 0 < n)
    (hpage : addr.toNat % 4096 + n ≤ 4096) :
    Lands q (addr + BitVec.ofNat 32 n) (landing b.Single (addr + BitVec.ofNat 32 n)) := by
  constructor
  case toSynced => exact h.toSynced
  case hwTar =>
    rw [h.tar, h.hwTar]
    by_cases hs : b.Single
    · rw [if_pos hs, if_pos hs, bump_landing hpos hpage]
      simp [landing, hs]
    · rw [if_neg hs]
      intro heq
      exact absurd heq.symm (add_ne_self hpos (by lia))
  case stale =>
    intro hne
    obtain ⟨hs, -, -⟩ := landing_ne hne
    refine ⟨h.single.trans hs, ?_, h.bank⟩
    rw [h.tar, if_pos hs]
  case page => exact landing_page

end Landing

/-! ## The bytes and halfwords -/

/-- The byte and halfword functions of one direction. `Moved s t n s'` says that `n` bytes at
`t` were transferred between `s` and `s'`. -/
structure Mover (σ : Type*) where
  bus : σ → Bus
  byte : σ → Word → σ
  half : σ → Word → σ
  Moved : σ → Word → Nat → σ → Prop
  zero : ∀ s t, Moved s t 0 s
  add : ∀ {s₁ s₂ s₃ : σ} {t : Word} {n m : Nat}, n + m ≤ 2 ^ 32 → Moved s₁ t n s₂ →
    Moved s₂ (t + BitVec.ofNat 32 n) m s₃ → Moved s₁ t (n + m) s₃
  byte_moved : ∀ {s : σ} {addr t : Word}, Lands (bus s) addr t →
    Moved s t 1 (byte s addr) ∧ After (bus s) addr t 1 (bus (byte s addr))
  half_moved : ∀ {s : σ} {addr t : Word}, Lands (bus s) addr t → addr.toNat % 2 = 0 →
    Moved s t 2 (half s addr) ∧ After (bus s) addr t 2 (bus (half s addr))

namespace Mover

variable {σ : Type*} {M : Mover σ} {s : σ} {addr : Word} {len : Nat} {c : Place σ}

/-- A transfer on its way to the words: what is not left was transferred. -/
structure Led (M : Mover σ) (s : σ) (addr : Word) (len : Nat) (c : Place σ) : Prop where
  le : c.len ≤ len
  near : len - c.len < 4
  addr_eq : c.addr = addr + BitVec.ofNat 32 (len - c.len)
  moved : M.Moved s addr (len - c.len) c.st
  single : (M.bus c.st).cache.csw &&& cswAddrInc = (M.bus s).cache.csw &&& cswAddrInc
  lands : Lands (M.bus c.st) c.addr (landing (c.addr ≠ addr ∧ (M.bus s).Single) c.addr)

theorem Led.start (h : Lands (M.bus s) addr addr) : M.Led s addr len ⟨s, addr, len⟩ where
  le := Nat.le_refl len
  near := by simp
  addr_eq := by simp
  moved := by
    rw [Nat.sub_self]
    exact M.zero s addr
  single := rfl
  lands := by
    rw [landing_eq fun hc => hc.1.1 rfl]
    exact h

/-- One more access that is made at its own address. -/
theorem Led.next (h : M.Led s addr len c) {n : Nat} {s' : σ} (hpos : 0 < n) (hn : n ≤ c.len)
    (hnear : len - c.len + n < 4) (hmoved : M.Moved c.st c.addr n s')
    (hafter : After (M.bus c.st) c.addr c.addr n (M.bus s'))
    (hpage : c.addr.toNat % 4096 + n ≤ 4096) :
    M.Led s addr len ⟨s', c.addr + BitVec.ofNat 32 n, c.len - n⟩ := by
  have hle := h.le
  have hdone : len - (c.len - n) = len - c.len + n := by lia
  have haddr : c.addr + BitVec.ofNat 32 n = addr + BitVec.ofNat 32 (len - c.len + n) := by
    rw [h.addr_eq, BitVec.add_assoc, BitVec.ofNat_add]
  constructor
  case le => exact Nat.le_trans (Nat.sub_le _ _) hle
  case near =>
    show len - (c.len - n) < 4
    lia
  case addr_eq =>
    show c.addr + BitVec.ofNat 32 n = addr + BitVec.ofNat 32 (len - (c.len - n))
    rw [hdone, haddr]
  case moved =>
    show M.Moved s addr (len - (c.len - n)) s'
    rw [hdone]
    apply M.add (by lia) h.moved
    rw [← h.addr_eq]
    exact hmoved
  case single => exact hafter.single.trans h.single
  case lands =>
    have hne : c.addr + BitVec.ofNat 32 n ≠ addr := by
      rw [haddr]
      exact add_ne_self (by lia) (by lia)
    have hsingle : (M.bus c.st).Single ↔ (M.bus s).Single := by
      unfold Bus.Single
      rw [h.single]
    have hlands := hafter.lands_next hpos hpage
    simp only [landing, hsingle] at hlands
    simp only [landing, ne_eq, hne, not_false_eq_true, true_and]
    exact hlands

/-- A first byte or halfword at an address that does not start a page. -/
theorem Led.here (h : M.Led s addr len c)
    (hc : c.addr = addr ∨ pageStart c.addr = false) : Lands (M.bus c.st) c.addr c.addr := by
  have hlands := h.lands
  rwa [landing_eq] at hlands
  rintro ⟨⟨hne, -⟩, hpage⟩
  obtain rfl | hp := hc
  · exact hne rfl
  · rw [hp] at hpage
    cases hpage

theorem Led.firstByte (h : M.Led s addr len ⟨s, addr, len⟩) (hlen : 0 < len) :
    M.Led s addr len ((Place.mk s addr len).firstByte M.byte) ∧
      ((Place.mk s addr len).firstByte M.byte).addr.toNat % 2 = 0 := by
  unfold Place.firstByte
  split
  · next hodd =>
      have hmod := mt (even_iff addr).mpr hodd
      obtain ⟨hmoved, hafter⟩ := M.byte_moved (h.here (Or.inl rfl))
      refine ⟨h.next Nat.one_pos hlen (by simp) hmoved hafter ?_, ?_⟩
      · exact Nat.mod_lt addr.toNat (by decide)
      · have hnext := toNat_add_mod addr 1
        show (addr + BitVec.ofNat 32 1).toNat % 2 = 0
        lia
  · next heven => exact ⟨h, (even_iff addr).mp (not_not.mp heven)⟩

theorem Led.firstHalf (h : M.Led s addr len c) (hone : len - c.len < 2)
    (hhere : c.addr = addr ∨ pageStart c.addr = false ∨ c.addr &&& 2 = 0)
    (heven : c.addr.toNat % 2 = 0) :
    M.Led s addr len (c.firstHalf M.half) ∧ (c.firstHalf M.half).addr.toNat % 2 = 0 ∧
      (2 ≤ (c.firstHalf M.half).len → (c.firstHalf M.half).addr.toNat % 4 = 0) := by
  unfold Place.firstHalf
  split
  · next hcond =>
      obtain ⟨hlen, hbit⟩ := hcond
      have hmod := mt (word_iff heven).mpr hbit
      have hlands : Lands (M.bus c.st) c.addr c.addr :=
        h.here (hhere.imp_right fun hp => hp.resolve_right hbit)
      obtain ⟨hmoved, hafter⟩ := M.half_moved hlands heven
      have hnext := toNat_add_mod c.addr 2
      have hnear : len - c.len + 2 < 4 := by lia
      have hpage : c.addr.toNat % 4096 + 2 ≤ 4096 := by lia
      refine ⟨h.next Nat.two_pos hlen hnear hmoved hafter hpage, ?_, fun _ => ?_⟩
      · show (c.addr + BitVec.ofNat 32 2).toNat % 2 = 0
        lia
      · show (c.addr + BitVec.ofNat 32 2).toNat % 4 = 0
        lia
  · next hcond =>
      refine ⟨h, heven, fun hlen => ?_⟩
      by_contra hne
      exact hcond ⟨hlen, mt (word_iff heven).mp hne⟩

/-- The first byte and the first halfword. -/
theorem Led.first (h : Lands (M.bus s) addr addr) (hlen : 0 < len)
    (hc : ((Place.mk s addr len).firstByte M.byte).firstHalf M.half = c) :
    M.Led s addr len c ∧ (c.addr, c.len) = lead addr len ∧ c.addr.toNat % 2 = 0 ∧
      (2 ≤ c.len → c.addr.toNat % 4 = 0) := by
  have hstart : M.Led s addr len ⟨s, addr, len⟩ := Led.start h
  obtain ⟨hbyte, heven⟩ := hstart.firstByte hlen
  have hone : len - ((Place.mk s addr len).firstByte M.byte).len < 2 ∧
      (((Place.mk s addr len).firstByte M.byte).addr = addr ∨
        pageStart ((Place.mk s addr len).firstByte M.byte).addr = false ∨
        ((Place.mk s addr len).firstByte M.byte).addr &&& 2 = 0) := by
    unfold Place.firstByte at heven ⊢
    split
    · next hodd =>
        rw [if_pos hodd] at heven
        refine ⟨?_, Or.inr ?_⟩
        · show len - (len - 1) < 2
          lia
        · by_cases hbit : (addr + 1) &&& 2 = 0
          · exact Or.inr hbit
          · exact Or.inl (pageStart_of_odd_word (mt (word_iff heven).mpr hbit))
    · exact ⟨by simp, Or.inl rfl⟩
  obtain ⟨hled, heven', hword⟩ := hbyte.firstHalf hone.1 hone.2 heven
  rw [hc] at hled heven' hword
  refine ⟨hled, ?_, heven', hword⟩
  rw [← hc]
  unfold Place.firstHalf Place.firstByte lead
  simp only
  split <;> simp only <;> split <;> rfl

/-- The last halfword and the last byte, in the page that they land in. -/
theorem last {t : Word} (h : Lands (M.bus c.st) c.addr t) (heven : c.addr.toNat % 2 = 0)
    (hword : 2 ≤ c.len → c.addr.toNat % 4 = 0) (hlen : c.len < 4) :
    M.Moved c.st t c.len ((c.lastHalf M.half).lastByte M.byte) := by
  unfold Place.lastHalf
  by_cases htwo : 2 ≤ c.len
  · obtain ⟨hmoved, hafter⟩ := M.half_moved h heven
    have hmod := hword htwo
    have hnext := hafter.lands h (by decide) (by lia)
    rw [if_pos htwo]
    unfold Place.lastByte
    by_cases hthree : c.len = 3
    · rw [if_pos (show 0 < c.len - 2 by lia), hthree]
      exact M.add (by decide) hmoved (M.byte_moved hnext).1
    · obtain hlen' : c.len = 2 := by lia
      rw [if_neg (show ¬0 < c.len - 2 by lia), hlen']
      exact hmoved
  · rw [if_neg htwo]
    unfold Place.lastByte
    by_cases hone : 0 < c.len
    · obtain hlen' : c.len = 1 := by lia
      rw [if_pos hone, hlen']
      exact (M.byte_moved h).1
    · obtain hlen' : c.len = 0 := by lia
      rw [if_neg hone, hlen']
      exact M.zero c.st t

end Mover

/-! ## The words -/

section Words

variable {b : Bus} {addr : Word}

theorem regs_port {f : Port → Port} (h : (f b.port).sound = true) :
    (b.regs f).port = f b.port := by
  show Port.mk (f b.port).hw (f b.port).cache true = f b.port
  rw [← h]

/-- The cached `TAR` can be relied on for words that write it at the start of a page. -/
theorem Lands.tarFor {t : Word} (h : Lands b addr t) (hpage : t ≠ addr → pageStart addr = true) :
    TarFor true b.port addr := by
  intro htar
  by_cases hne : t = addr
  · exact Or.inr ((h.hwTar htar).trans hne)
  · exact Or.inl ⟨rfl, hpage hne⟩

theorem word_size (h : WordReady b.port) : b.hw.accessSize = 4 :=
  accessSize_eq ((size_of_fields h.fields).symm.trans h.size) (Or.inr (Or.inr ⟨rfl, rfl⟩))

theorem word_apaccRd (h : WordReady b.port) : b.apaccRd adiApDrw =
    (b.result, { b with hw := { b.hw with tar := Hw.bump b.hw.tar 4 }, result := b.drwData }) := by
  have hbank : dpApbanksel b.hw.select = 0 := h.select ▸ h.bank
  have hreg : b.hw.reg adiApDrw = adiApDrw := reg_of_bank hbank
  have hdrw : b.hw.drw = { b.hw with tar := Hw.bump b.hw.tar 4 } := h.drw
  rw [Bus.apaccRd, rd_drw hbank, if_pos hreg, hdrw]

theorem word_apaccWr (h : WordReady b.port) (v : Word) : b.apaccWr adiApDrw v =
    { b with hw := { b.hw with tar := Hw.bump b.hw.tar 4 }, mem := b.drwStore v } := by
  have hbank : dpApbanksel b.hw.select = 0 := h.select ▸ h.bank
  have hreg : b.hw.reg adiApDrw = adiApDrw := reg_of_bank hbank
  have hdrw : b.hw.drw = { b.hw with tar := Hw.bump b.hw.tar 4 } := h.drw
  rw [Bus.apaccWr, wr_drw hbank, if_pos hreg, hdrw]

theorem word_wrTar (h : WordReady b.port) (v : Word) :
    b.apaccWr adiApTar v = { b with hw := { b.hw with tar := v } } := by
  have hbank : dpApbanksel b.hw.select = 0 := h.select ▸ h.bank
  have hreg : b.hw.reg adiApTar = adiApTar := reg_of_bank hbank
  have hne : ¬b.hw.reg adiApTar = adiApDrw := by
    rw [hreg]
    decide
  rw [Bus.apaccWr, wr_tar hbank, if_neg hne]

/-- The lanes of a word at an address that `TAR` has. -/
theorem word_lane (h : WordReady b.port) (ht : b.hw.tar = addr) (ha : addr.toNat % 4 = 0)
    {i : Nat} (hi : i < 4) : lane b.drwData i = b.mem (addr + BitVec.ofNat 32 i) := by
  have hlane := lane_drwData (Or.inr (Or.inr rfl)) (word_size h) (ht ▸ ha) hi
  have hidx : (b.hw.tar.toNat + i) % 4 = i := by
    rw [ht]
    lia
  rw [hidx, ht] at hlane
  exact hlane

theorem word_store (h : WordReady b.port) (ht : b.hw.tar = addr) (ha : addr.toNat % 4 = 0)
    (v : Word) : b.drwStore v = putBytes b.mem addr 4 (lane v) := by
  rw [drwStore_eq (Or.inr (Or.inr rfl)) (word_size h) (ht ▸ ha), ht]
  apply putBytes_congr
  intro i hi
  congr 1
  lia

/-- Behind words, the last at `addr`. -/
theorem word_lands (h : WordReady b.port) (ht : b.hw.tar = Hw.bump addr 4)
    (ha : addr.toNat % 4 = 0) :
    Lands { b with cache := { b.cache with tar := addr + 4 } } (addr + 4)
      (landing True (addr + 4)) := by
  constructor
  case toSynced => exact ⟨h.select, h.fields, Or.inr h.inc⟩
  case hwTar =>
    intro _
    rw [show addr + 4 = addr + BitVec.ofNat 32 4 from rfl, ← bump_landing (by decide) (by lia)]
    exact ht
  case stale => exact fun _ => ⟨h.inc, rfl, h.bank⟩
  case page => exact landing_page

end Words

/-! ## A transfer as a whole -/

section Transfer

variable {σ : Type*} {s : σ} {addr : Word} {len : Nat}

/-- What the words of one direction do: `n` words for the address `a`, the first of them made at
`t`, leave `s'` with `Words s a t n s'` and the next access at `next a t n`. -/
def WordsMove (M : Mover σ) (next : Word → Word → Nat → Word)
    (Words : σ → Word → Word → Nat → σ → Prop) (ws : σ → Word → Nat → Word × σ) : Prop :=
  ∀ (s : σ) (a t : Word) (n : Nat), Lands (M.bus s) a t → (t ≠ a → pageStart a = true) →
    a.toNat % 4 = 0 → 0 < n →
    (ws s a n).1 = a + BitVec.ofNat 32 (4 * n) ∧
      Lands (M.bus (ws s a n).2) (ws s a n).1 (next a t n) ∧ Words s a t n (ws s a n).2

/-- A transfer without words. -/
theorem transfer_short {M : Mover σ} (count : Nat → Nat) (ws : σ → Word → Nat → Word × σ)
    (h : Lands (M.bus s) addr addr) (hlen : 0 < len) (hshort : (lead addr len).2 < 4) :
    ∃ c : Place σ, (c.addr, c.len) = lead addr len ∧ M.Led s addr len c ∧
      M.Moved c.st (landing (c.addr ≠ addr ∧ (M.bus s).Single) c.addr) c.len
        (Place.transfer s addr len M.byte M.half count ws) := by
  generalize hc : ((Place.mk s addr len).firstByte M.byte).firstHalf M.half = c
  obtain ⟨hled, hlead, heven, hword⟩ := Mover.Led.first h hlen hc
  have hclen : c.len = (lead addr len).2 := congrArg Prod.snd hlead
  refine ⟨c, hlead, hled, ?_⟩
  unfold Place.transfer Place.words
  rw [if_neg (by lia), hc, if_neg (by lia)]
  exact Mover.last hled.lands heven hword (by lia)

/-- A transfer with words. -/
theorem transfer_words {M : Mover σ} {next : Word → Word → Nat → Word}
    {Words : σ → Word → Word → Nat → σ → Prop} (count : Nat → Nat)
    {ws : σ → Word → Nat → Word × σ} (h : Lands (M.bus s) addr addr) (hlen : 0 < len)
    (hlong : 4 ≤ (lead addr len).2) (hcount : ∀ r, 4 ≤ r → 0 < count r ∧ r < count r * 4 + 4)
    (hws : WordsMove M next Words ws) :
    ∃ (c : Place σ) (s' : σ), (c.addr, c.len) = lead addr len ∧ M.Led s addr len c ∧
      Words c.st c.addr (landing (c.addr ≠ addr ∧ (M.bus s).Single) c.addr) (count c.len) s' ∧
      M.Moved s'
        (next c.addr (landing (c.addr ≠ addr ∧ (M.bus s).Single) c.addr) (count c.len))
        (c.len - count c.len * 4) (Place.transfer s addr len M.byte M.half count ws) := by
  generalize hc : ((Place.mk s addr len).firstByte M.byte).firstHalf M.half = c
  obtain ⟨hled, hlead, heven, hword⟩ := Mover.Led.first h hlen hc
  have hclen : c.len = (lead addr len).2 := congrArg Prod.snd hlead
  obtain ⟨hpos, hlt⟩ := hcount c.len (by lia)
  obtain ⟨haddr, hlands, hmoved⟩ := hws c.st c.addr _ (count c.len) hled.lands
    (fun hne => (landing_ne hne).2.1) (hword (by lia)) hpos
  refine ⟨c, _, hlead, hled, hmoved, ?_⟩
  have hcut : Place.words count ws c =
      ⟨(ws c.st c.addr (count c.len)).2, (ws c.st c.addr (count c.len)).1,
        c.len - count c.len * 4⟩ := if_pos (by lia)
  have hnext := toNat_add_mod c.addr (4 * count c.len)
  have hmod : (ws c.st c.addr (count c.len)).1.toNat % 4 = 0 := by
    have := hword (by lia)
    rw [haddr]
    lia
  unfold Place.transfer
  rw [if_neg (by lia), hc, hcut]
  have heven' : (ws c.st c.addr (count c.len)).1.toNat % 2 = 0 := by lia
  have hleft : c.len - count c.len * 4 < 4 := by lia
  exact Mover.last (c := ⟨(ws c.st c.addr (count c.len)).2, (ws c.st c.addr (count c.len)).1,
    c.len - count c.len * 4⟩) hlands heven' (fun _ => hmod) hleft

end Transfer

/-! ## Where a transfer is in place -/

section InPlace

variable {b : Bus} {addr : Word} {len : Nat}

/-- The address and the length behind the first byte and halfword. -/
theorem lead_addr (addr : Word) (hlen : 0 < len) :
    (lead addr len).2 ≤ len ∧ len - (lead addr len).2 < 4 ∧
      (lead addr len).1 = addr + BitVec.ofNat 32 (len - (lead addr len).2) := by
  have h1 : len - (len - 1) = 1 := by lia
  unfold lead
  by_cases hodd : addr &&& 1 ≠ 0
  · simp only [if_pos hodd]
    split
    · next hhalf =>
        have h3 : len - (len - 1 - 2) = 3 := by lia
        exact ⟨by simp only; lia, by simp only; lia, by
          simp only [h3]
          exact BitVec.add_assoc addr 1 2⟩
    · exact ⟨by simp only; lia, by simp only; lia, by simp only [h1]; rfl⟩
  · simp only [if_neg hodd]
    split
    · next hhalf =>
        have h2 : len - (len - 2) = 2 := by lia
        exact ⟨by simp only; lia, by simp only; lia, by simp only [h2]; rfl⟩
    · exact ⟨Nat.le_refl len, by simp, by simp⟩

/-- Where the first access behind the first byte and halfword is made. -/
def leadLanding (b : Bus) (addr : Word) (len : Nat) : Word :=
  landing ((lead addr len).1 ≠ addr ∧ b.Single) (lead addr len).1

/-- The address behind the words. -/
def wordsEnd (addr : Word) (len : Nat) : Word :=
  (lead addr len).1 + BitVec.ofNat 32 (4 * ((lead addr len).2 / 4))

/-- No byte or halfword at the start ends a page while `TAR` counts. -/
def LeadInPage (b : Bus) (addr : Word) (len : Nat) : Prop :=
  (lead addr len).1 = addr ∨ pageStart (lead addr len).1 = false ∨ ¬b.Single

instance (b : Bus) (addr : Word) (len : Nat) : Decidable (LeadInPage b addr len) :=
  inferInstanceAs (Decidable (_ ∨ _))

theorem leadInPage_iff : LeadInPage b addr len ↔ leadLanding b addr len = (lead addr len).1 := by
  rw [leadLanding, landing_eq_iff, LeadInPage]
  by_cases heq : (lead addr len).1 = addr
  · simp [heq]
  · cases pageStart (lead addr len).1 with
    | false => simp
    | true => simp [heq]

/-- Nothing but the memory is changed. -/
theorem Lands.with_mem {t : Word} (h : Lands b addr t) (mem : Word → BitVec 8) :
    Lands { b with mem } addr t :=
  ⟨⟨h.select, h.fields, h.inc⟩, h.hwTar, h.stale, h.page⟩

/-- Coherent caches at entry. -/
theorem Synced.lands (h : Synced b) (ht : b.cache.tar = addr → b.hw.tar = addr) :
    Lands b addr addr :=
  ⟨h, ht, fun hne => absurd rfl hne, rfl⟩

/-- A target after `jtag_mem_ap_init`, with a count of addresses and pages for memory. -/
def sampleBus : Bus where
  hw := { select := 0, csw := 0x22000012, tar := 0, status := 0x40, other := fun _ => 0 }
  cache := { select := 0, csw := 0x22000052, tar := 0 }
  mem a := BitVec.ofNat 8 (a.toNat + a.toNat / 4096)
  result := 0
  ctrlStat := 0xf0000000
  idle _ := 0

theorem sampleBus_synced : Synced sampleBus := ⟨rfl, rfl, Or.inr rfl⟩

end InPlace

end YardIce.Adi
