import YardIce.Adi.BlockWrite

/-!
# Filling a block of the target's memory

`jtag_mem_ap_set`. It has the byte and halfword functions of `jtag_mem_ap_write`, the same rounded
count of words, and a loop over words that leaves `TAR` to itself, so that words behind a page
boundary are written at the start of the page.
-/

namespace YardIce.Adi

open YardIce.Lib

/-- `cnt` of `jtag_mem_ap_set`. -/
structure FillState where
  bus : Bus
  cnt : Nat

namespace FillState

variable (val : BitVec 8)

/-- `data` of `jtag_mem_ap_set`. -/
def fillWord : Word :=
  val.setWidth 32 ||| val.setWidth 32 <<< 8 ||| val.setWidth 32 <<< 16 ||| val.setWidth 32 <<< 24

/-- A byte. For the last one the code cuts `data`, whose low byte is the value. -/
def fillByte (s : FillState) (addr : Word) : FillState :=
  ⟨s.bus.jtagMemApWr8 addr val, s.cnt + 1⟩

/-- A halfword. -/
def fillHalf (s : FillState) (addr : Word) : FillState :=
  ⟨s.bus.jtagMemApWr16 addr ((fillWord val).setWidth 16), s.cnt + 2⟩

/-- The count of `TAR` for the words. -/
def countWords (p : Port) : Port :=
  if p.cache.csw &&& cswIncSingle = 0 then
    let csw := (p.cache.csw &&& ~~~cswAddrInc) ||| cswIncSingle
    jtagMemApRegWr (p.setCsw csw) adiApCsw csw
  else p.skip p.cswOk

/-- `n` writes without regard to pages. -/
def wordLoop : Nat → Bus → Bus
  | 0, b => b
  | n + 1, b => wordLoop n (b.apaccWr adiApDrw (fillWord val))

/-- The `n` words, with the address behind them. -/
def fillWords (s : FillState) (addr : Word) (n : Nat) : Word × FillState :=
  let bus := wordLoop val n ((s.bus.aim cswWord addr).regs countWords)
  (addr + BitVec.ofNat 32 (n * 4),
    { s with
      bus := { bus with
        cache := { bus.cache with tar := bus.cache.tar + BitVec.ofNat 32 (n * 4) } }
      cnt := s.cnt + n * 4 })

end FillState

/-- `jtag_mem_ap_set`. -/
def Bus.jtagMemApSet (b : Bus) (addr : Word) (val : BitVec 8) (len : Nat) : FillState :=
  Place.transfer ⟨b, 0⟩ addr len (FillState.fillByte val) (FillState.fillHalf val)
    (fun len => (len + 3) / 4) (FillState.fillWords val)

/-! ## What the parts write -/

theorem bump_toNat (t : Word) (n : Nat) :
    (Hw.bump t n).toNat = t.toNat / 4096 * 4096 + (t.toNat + n) % 4096 := by
  have hlt := t.isLt
  simp only [Hw.bump, BitVec.toNat_ofNat]
  lia

/-- Counting twice in a page. -/
theorem bump_bump (t : Word) (n m : Nat) : Hw.bump (Hw.bump t n) m = Hw.bump t (n + m) := by
  apply BitVec.eq_of_toNat_eq
  rw [bump_toNat, bump_toNat, bump_toNat]
  lia

namespace FillState

variable {val : BitVec 8} {s s' s₁ s₂ s₃ : FillState} {addr t : Word} {n m : Nat}

theorem lane_fillWord (val : BitVec 8) {i : Nat} (hi : i < 4) : lane (fillWord val) i = val :=
  lane_word (fun _ => val) hi

/-- `n` bytes of the target from `t` on have the value. -/
structure Filled (val : BitVec 8) (s : FillState) (t : Word) (n : Nat) (s' : FillState) :
    Prop where
  mem : s'.bus.mem = putBytes s.bus.mem t n fun _ => val
  cnt : s'.cnt = s.cnt + n

theorem Filled.add (hle : n + m ≤ 2 ^ 32) (h₁ : Filled val s₁ t n s₂)
    (h₂ : Filled val s₂ (t + BitVec.ofNat 32 n) m s₃) : Filled val s₁ t (n + m) s₃ where
  mem := by
    rw [h₂.mem, h₁.mem, putBytes_append hle]
    exact putBytes_congr fun i _ => ite_self val
  cnt := by rw [h₂.cnt, h₁.cnt, Nat.add_assoc]

theorem fillByte_filled (h : Lands s.bus addr t) :
    Filled val s t 1 (s.fillByte val addr) ∧ After s.bus addr t 1 (s.fillByte val addr).bus := by
  obtain ⟨hmem, hafter⟩ := wr8_spec h.toSynced h.reached_mod val
  rw [h.reached] at hmem hafter
  exact ⟨⟨hmem, rfl⟩, hafter⟩

theorem fillHalf_filled (h : Lands s.bus addr t) (heven : addr.toNat % 2 = 0) :
    Filled val s t 2 (s.fillHalf val addr) ∧ After s.bus addr t 2 (s.fillHalf val addr).bus := by
  obtain ⟨hmem, hafter⟩ := wr16_spec h.toSynced h.reached_mod heven ((fillWord val).setWidth 16)
  rw [h.reached] at hmem hafter
  refine ⟨⟨hmem.trans (putBytes_congr fun i hi => ?_), rfl⟩, hafter⟩
  rw [lane_half _ hi]
  exact lane_fillWord val (by lia)

/-- The filling functions. -/
def mover (val : BitVec 8) : Mover FillState where
  bus := FillState.bus
  byte := fillByte val
  half := fillHalf val
  Moved := Filled val
  zero _ _ := ⟨putBytes_zero.symm, rfl⟩
  add := Filled.add
  byte_moved := fillByte_filled
  half_moved := fillHalf_filled

/-! ## The words -/

section Words

variable {b : Bus} {a u : Word}

/-- `n` words that start at `t` wrap in its page. -/
structure FilledWords (val : BitVec 8) (s : FillState) (_a t : Word) (n : Nat) (s' : FillState) :
    Prop where
  within : t.toNat % 4096 + 4 * n ≤ 4096 →
    s'.bus.mem = putBytes s.bus.mem t (4 * n) fun _ => val
  beyond : ∀ x : Word, x.toNat / 4096 ≠ t.toNat / 4096 → s'.bus.mem x = s.bus.mem x
  cnt : s'.cnt = s.cnt + 4 * n

/-- The registers before the words of a fill: `TAR` is where the cache hides it. -/
theorem countWords_ready {q : Bus} (h : Aimed b cswWord a t q) :
    WordReady (q.regs countWords).port ∧ (q.regs countWords).hw.tar = t ∧
      (q.regs countWords).cache.tar = a := by
  have hready : Ready q.port := ⟨⟨rfl, h.select, h.fields⟩, h.bank⟩
  have hcount : WordReady (countWords q.port) ∧ (countWords q.port).hw.tar = q.hw.tar ∧
      (countWords q.port).cache.tar = q.cache.tar := by
    unfold countWords
    split
    · rw [writeCsw hready.select hready.bank]
      refine ⟨⟨⟨⟨rfl, hready.select, rfl⟩, hready.bank⟩, ?_, ?_⟩, rfl, rfl⟩
      · exact (and_field_of_disjoint _ cswAddrInc cswIncSingle cswSize (by decide)
          (by decide)).trans h.size
      · exact and_field _ cswAddrInc cswIncSingle (by decide)
    · next hs =>
        rw [hready.skip_csw]
        exact ⟨⟨hready, h.size, (single_iff h.inc).mp hs⟩, rfl, rfl⟩
  obtain ⟨hword, hhwtar, htar⟩ := hcount
  refine ⟨?_, hhwtar.trans h.hwTar, htar.trans h.tar⟩
  rw [regs_port hword.sound]
  exact hword

/-- The loop over words keeps `TAR` and its writes in one page. -/
structure Looped (val : BitVec 8) (b : Bus) (u : Word) (n : Nat) (b' : Bus) : Prop where
  ready : WordReady b'.port
  cache : b'.cache = b.cache
  tar : b'.hw.tar = Hw.bump u (4 * n)
  within : u.toNat % 4096 + 4 * n ≤ 4096 → b'.mem = putBytes b.mem u (4 * n) fun _ => val
  beyond : ∀ x : Word, x.toNat / 4096 ≠ u.toNat / 4096 → b'.mem x = b.mem x

theorem wordLoop_looped (val : BitVec 8) (n : Nat) (h : WordReady b.port) (ht : b.hw.tar = u)
    (hu : u.toNat % 4 = 0) : Looped val b u n (wordLoop val n b) := by
  induction n generalizing b u with
  | zero =>
      have hzero : u = Hw.bump u (4 * 0) := by
        apply BitVec.eq_of_toNat_eq
        rw [bump_toNat]
        lia
      exact ⟨h, rfl, ht.trans hzero, fun _ => putBytes_zero.symm, fun _ _ => rfl⟩
  | succ n ih =>
      have hbump := bump_toNat u 4
      have hput : b.apaccWr adiApDrw (fillWord val) =
          { b with
            hw := { b.hw with tar := Hw.bump u 4 }
            mem := putBytes b.mem u 4 fun _ => val } := by
        rw [word_apaccWr h, word_store h ht hu, ht,
          putBytes_congr fun i hi => lane_fillWord val hi]
      have hready : WordReady (b.apaccWr adiApDrw (fillWord val)).port := by
        rw [hput]
        exact h.setHwTar _
      have hloop := ih hready (u := Hw.bump u 4) (by rw [hput]) (by lia)
      have hmem : (b.apaccWr adiApDrw (fillWord val)).mem = putBytes b.mem u 4 fun _ => val := by
        rw [hput]
      constructor
      case ready => exact hloop.ready
      case cache => exact hloop.cache
      case tar =>
        have hsum : 4 + 4 * n = 4 * (n + 1) := by lia
        refine hloop.tar.trans ?_
        rw [bump_bump, hsum]
      case within =>
        intro hle
        have hsum : 4 * (n + 1) = 4 + 4 * n := by lia
        rcases Nat.eq_zero_or_pos n with rfl | hpos
        · exact hmem
        · have hnext : Hw.bump u 4 = u + BitVec.ofNat 32 4 := bump_eq (by lia)
          rw [hsum]
          refine (hloop.within (by lia)).trans ?_
          rw [hmem, hnext, putBytes_append (by lia)]
          exact putBytes_congr fun i _ => ite_self val
      case beyond =>
        intro x hx
        have hxlt := x.isLt
        have hult := u.isLt
        refine (hloop.beyond x (by lia)).trans ?_
        rw [hmem]
        apply putBytes_of_le
        rw [BitVec.toNat_sub]
        lia

theorem fillWords_filled : WordsMove (mover val) (fun _ t n => Hw.bump t (4 * n))
    (FilledWords val) (fillWords val) := by
  intro s a t n hl _ ha _
  have hland : Lands s.bus a t := hl
  have hpage := hland.page
  have hbump := bump_toNat t (4 * n)
  have haim : Aimed s.bus cswWord a (s.bus.reached a) (s.bus.aim cswWord a) :=
    aim_aimed hland.toSynced a (by decide)
  rw [hland.reached] at haim
  obtain ⟨hready, hhwtar, htar⟩ := countWords_ready haim
  have hmem : ((s.bus.aim cswWord a).regs countWords).mem = s.bus.mem := haim.mem
  have hloop := wordLoop_looped val n hready hhwtar (by lia)
  have hcount : n * 4 = 4 * n := Nat.mul_comm n 4
  unfold fillWords
  simp only [hcount]
  generalize wordLoop val n ((s.bus.aim cswWord a).regs countWords) = r at hloop
  refine ⟨trivial, ?_, ?_⟩
  · constructor
    case toSynced => exact ⟨hloop.ready.select, hloop.ready.fields, Or.inr hloop.ready.inc⟩
    case hwTar => exact fun _ => hloop.tar
    case stale =>
      refine fun _ => ⟨hloop.ready.inc, ?_, hloop.ready.bank⟩
      show r.cache.tar + BitVec.ofNat 32 (4 * n) = a + BitVec.ofNat 32 (4 * n)
      rw [hloop.cache, htar]
    case page =>
      have halt := a.isLt
      rw [hbump]
      simp only [BitVec.toNat_add, BitVec.toNat_ofNat]
      lia
  · constructor
    case within =>
      intro hle
      refine (hloop.within hle).trans ?_
      rw [hmem]
    case beyond =>
      intro x hx
      refine (hloop.beyond x hx).trans ?_
      rw [hmem]
    case cnt => rfl

end Words

end FillState

/-! ## The block -/

section Block

open FillState

variable {b : Bus} {addr : Word} {len : Nat}

theorem fill_short (val : BitVec 8) (h : Lands b addr addr) (hlen : 0 < len)
    (hshort : (lead addr len).2 < 4) :
    (b.jtagMemApSet addr val len).cnt = len ∧
      (b.jtagMemApSet addr val len).bus.mem =
        putBytes (putBytes b.mem addr (len - (lead addr len).2) fun _ => val)
          (leadLanding b addr len) (lead addr len).2 fun _ => val := by
  have hs : Lands ((mover val).bus ⟨b, 0⟩) addr addr := h
  obtain ⟨c, hlead, hled, hlast⟩ := transfer_short (M := mover val) (fun len => (len + 3) / 4)
    (FillState.fillWords val) hs hlen hshort
  unfold leadLanding
  rw [← hlead]
  have hfirst : Filled val ⟨b, 0⟩ addr (len - c.len) c.st := hled.moved
  have hmem := hlast.mem
  have hcnt := hlast.cnt
  rw [hfirst.mem] at hmem
  rw [hfirst.cnt, Nat.zero_add, Nat.sub_add_cancel hled.le] at hcnt
  exact ⟨hcnt, hmem⟩

theorem fill_long (val : BitVec 8) (h : Lands b addr addr) (hlen : 0 < len)
    (hlong : 4 ≤ (lead addr len).2) :
    (b.jtagMemApSet addr val len).cnt =
        len - (lead addr len).2 + 4 * (((lead addr len).2 + 3) / 4) ∧
      ((leadLanding b addr len).toNat % 4096 + 4 * (((lead addr len).2 + 3) / 4) ≤ 4096 →
        (b.jtagMemApSet addr val len).bus.mem =
          putBytes (putBytes b.mem addr (len - (lead addr len).2) fun _ => val)
            (leadLanding b addr len) (4 * (((lead addr len).2 + 3) / 4)) fun _ => val) ∧
      ∀ x : Word, x.toNat / 4096 ≠ (leadLanding b addr len).toNat / 4096 →
        (b.jtagMemApSet addr val len).bus.mem x =
          putBytes b.mem addr (len - (lead addr len).2) (fun _ => val) x := by
  have hs : Lands ((mover val).bus ⟨b, 0⟩) addr addr := h
  have hcount : ∀ r, 4 ≤ r → 0 < (r + 3) / 4 ∧ r < (r + 3) / 4 * 4 + 4 := by lia
  obtain ⟨c, s', hlead, hled, hwords, hlast⟩ := transfer_words (M := mover val)
    (fun len => (len + 3) / 4) hs hlen hlong hcount fillWords_filled
  unfold leadLanding
  rw [← hlead]
  have hfirst : Filled val ⟨b, 0⟩ addr (len - c.len) c.st := hled.moved
  have hnone : c.len - (c.len + 3) / 4 * 4 = 0 := by lia
  simp only [hnone] at hlast
  have hmem := hlast.mem
  rw [putBytes_zero] at hmem
  refine ⟨?_, fun hle => hmem.trans ?_, fun x hx => (congrFun hmem x).trans ?_⟩
  · refine hlast.cnt.trans ?_
    rw [Nat.add_zero, hwords.cnt, hfirst.cnt, Nat.zero_add]
  · refine (hwords.within hle).trans ?_
    rw [hfirst.mem]
    rfl
  · refine (hwords.beyond x hx).trans ?_
    rw [hfirst.mem]

/-- `jtag_mem_ap_set` sets its range and nothing else, and returns the length. -/
def FillsBytes (b : Bus) (addr : Word) (len : Nat) : Prop :=
  ∀ (mem : Word → BitVec 8) (val : BitVec 8),
    (Bus.jtagMemApSet { b with mem } addr val len).bus.mem = putBytes mem addr len (fun _ => val) ∧
      (Bus.jtagMemApSet { b with mem } addr val len).cnt = len

/-- A fill with words has no rest behind them, and they stay in the page in which they start.
Without words, nothing is left of it or no byte or halfword in front of the rest ends a page. -/
def FillInPlace (b : Bus) (addr : Word) (len : Nat) : Prop :=
  if 4 ≤ (lead addr len).2 then
    (lead addr len).2 % 4 = 0 ∧ LeadInPage b addr len ∧
      (lead addr len).1.toNat % 4096 + (lead addr len).2 ≤ 4096
  else (lead addr len).2 = 0 ∨ LeadInPage b addr len

instance (b : Bus) (addr : Word) (len : Nat) : Decidable (FillInPlace b addr len) := by
  unfold FillInPlace
  infer_instance

/-- The two stores of a block in its place are one. -/
theorem putBytes_whole {mem : Word → BitVec 8} {f : BitVec 8} (hlen : 0 < len)
    (hint : len < 2 ^ 31) :
    putBytes (putBytes mem addr (len - (lead addr len).2) fun _ => f) (lead addr len).1
      (lead addr len).2 (fun _ => f) = putBytes mem addr len fun _ => f := by
  obtain ⟨hle, hnear, haddr⟩ := lead_addr addr hlen
  have hsum : len - (lead addr len).2 + (lead addr len).2 = len := Nat.sub_add_cancel hle
  rw [haddr, putBytes_append (by lia), hsum]
  exact putBytes_congr fun i _ => ite_self f

theorem fillsBytes_short (h : Lands b addr addr) (hlen : 0 < len) (hint : len < 2 ^ 31)
    (hshort : (lead addr len).2 < 4) :
    FillsBytes b addr len ↔ (lead addr len).2 = 0 ∨ LeadInPage b addr len := by
  have hfill := fun (mem : Word → BitVec 8) (val : BitVec 8) =>
    fill_short val (h.with_mem mem) hlen hshort
  rw [leadInPage_iff]
  constructor
  · intro hall
    by_contra hout
    obtain ⟨hpos, hne⟩ := not_or.mp hout
    have hmem := congrFun (hall (fun _ => 0) 1).1 (lead addr len).1
    rw [(hfill (fun _ => 0) 1).2, putBytes_lead (by lia) hlen hint] at hmem
    have hstale := putBytes_stale (b := b) (fun _ => 0) (fun _ => 1) (fun _ => 1) hlen (by lia)
      hne
    exact absurd (hstale.symm.trans hmem) (by decide)
  · intro hin mem val
    obtain ⟨hcnt, hmem⟩ := hfill mem val
    refine ⟨hmem.trans ?_, hcnt⟩
    obtain hzero | hland := hin
    · rw [hzero, putBytes_zero, Nat.sub_zero]
    · have hland' : leadLanding { b with mem } addr len = (lead addr len).1 := hland
      rw [hland', putBytes_whole hlen hint]

/-- An address of the range behind the first byte and halfword, in another page than the words,
is not set. -/
theorem not_fillsBytes (h : Lands b addr addr) (hlen : 0 < len) (hint : len < 2 ^ 31)
    (hlong : 4 ≤ (lead addr len).2) {i : Nat} (hi : len - (lead addr len).2 ≤ i) (hlt : i < len)
    (hpage : (addr + BitVec.ofNat 32 i).toNat / 4096 ≠ (leadLanding b addr len).toNat / 4096) :
    ¬FillsBytes b addr len := by
  intro hall
  obtain ⟨-, -, hbeyond⟩ := fill_long 1 (h.with_mem fun _ => 0) hlen hlong
  have hmem := congrFun (hall (fun _ => 0) 1).1 (addr + BitVec.ofNat 32 i)
  have hoff : (addr + BitVec.ofNat 32 i - addr).toNat = i := offset_toNat (by lia)
  have hold := hbeyond _ hpage
  rw [putBytes_of_le (by rw [hoff]; exact hi)] at hold
  rw [putBytes_of_lt hlt (by lia)] at hmem
  have hzero : (0 : BitVec 8) = 1 := hold.symm.trans hmem
  exact absurd hzero (by decide)

theorem fillsBytes_long (h : Lands b addr addr) (hlen : 0 < len) (hint : len < 2 ^ 31)
    (hlong : 4 ≤ (lead addr len).2) :
    FillsBytes b addr len ↔ (lead addr len).2 % 4 = 0 ∧ LeadInPage b addr len ∧
      (lead addr len).1.toNat % 4096 + (lead addr len).2 ≤ 4096 := by
  obtain ⟨hle, hnear, haddr⟩ := lead_addr addr hlen
  have halt := (lead addr len).1.isLt
  have hfill := fun (mem : Word → BitVec 8) (val : BitVec 8) =>
    fill_long val (h.with_mem mem) hlen hlong
  rw [leadInPage_iff]
  constructor
  · intro hall
    have hcnt := (hall (fun _ => 0) 1).2
    rw [(hfill (fun _ => 0) 1).1] at hcnt
    have hland : leadLanding b addr len = (lead addr len).1 := by
      by_contra hne
      have hstale : leadLanding b addr len = (lead addr len).1 - 4096 := (landing_ne hne).2.2
      refine not_fillsBytes h hlen hint hlong (Nat.le_refl _) (by lia) ?_ hall
      have hsub : ((lead addr len).1 - 4096 : Word).toNat =
          (2 ^ 32 - 4096 + (lead addr len).1.toNat) % 2 ^ 32 := BitVec.toNat_sub _ 4096
      rw [← haddr, hstale, hsub]
      lia
    refine ⟨by lia, hland, ?_⟩
    by_contra hover
    have hnext : (addr + BitVec.ofNat 32
        (len - (lead addr len).2 + (4096 - (lead addr len).1.toNat % 4096))).toNat =
          ((lead addr len).1.toNat + (4096 - (lead addr len).1.toNat % 4096)) % 2 ^ 32 := by
      rw [BitVec.ofNat_add, ← BitVec.add_assoc, ← haddr, BitVec.toNat_add, BitVec.toNat_ofNat,
        Nat.add_mod_mod]
    have hin : len - (lead addr len).2 + (4096 - (lead addr len).1.toNat % 4096) < len := by lia
    refine not_fillsBytes h hlen hint hlong (Nat.le_add_right _ _) hin ?_ hall
    rw [hnext, hland]
    lia
  · rintro ⟨hrest, hland, hpage⟩ mem val
    obtain ⟨hcnt, hwithin, -⟩ := hfill mem val
    have hland' : leadLanding { b with mem } addr len = (lead addr len).1 := hland
    have hwords : 4 * (((lead addr len).2 + 3) / 4) = (lead addr len).2 := by lia
    rw [hwords, Nat.sub_add_cancel hle] at hcnt
    rw [hwords, hland'] at hwithin
    exact ⟨(hwithin hpage).trans (putBytes_whole hlen hint), hcnt⟩

/-- A fill stays in its range if and only if its words end it and stay in their page or, without
words, nothing is left of it behind a page boundary. -/
theorem jtagMemApSet_bytes_iff (h : Synced b) (ht : b.cache.tar = addr → b.hw.tar = addr)
    (hlen : 0 < len) (hint : len < 2 ^ 31) : FillsBytes b addr len ↔ FillInPlace b addr len := by
  unfold FillInPlace
  by_cases hlong : 4 ≤ (lead addr len).2
  · rw [if_pos hlong, fillsBytes_long (h.lands ht) hlen hint hlong]
  · rw [if_neg hlong, fillsBytes_short (h.lands ht) hlen hint (by lia)]

/-- A byte, a halfword and three words up to a page boundary, and eight bytes over one. -/
theorem jtagMemApSet_bytes_sample :
    FillsBytes sampleBus 0xff1 15 ∧ ¬FillsBytes sampleBus 0xffc 8 :=
  ⟨(jtagMemApSet_bytes_iff sampleBus_synced (by decide) (by decide) (by decide)).mpr
      (by decide),
    mt (jtagMemApSet_bytes_iff sampleBus_synced (by decide) (by decide) (by decide)).mp
      (by decide)⟩

/-- Five bytes, of which eight are set, and eight bytes over a page boundary, of which four are
set at the start of the page before. -/
theorem jtagMemApSet_overruns :
    Synced sampleBus ∧ sampleBus.cache.tar = sampleBus.hw.tar ∧
      (sampleBus.jtagMemApSet 0x2000 0xaa 5).bus.mem 0x2005 ≠ sampleBus.mem 0x2005 ∧
      (sampleBus.jtagMemApSet 0x2000 0xaa 5).cnt ≠ 5 ∧
      (sampleBus.jtagMemApSet 0xffc 0xaa 8).bus.mem 0x1000 ≠ 0xaa ∧
      (sampleBus.jtagMemApSet 0xffc 0xaa 8).bus.mem 0 ≠ sampleBus.mem 0 := by
  refine ⟨sampleBus_synced, rfl, ?_⟩
  decide

end Block

end YardIce.Adi
