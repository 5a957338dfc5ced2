import YardIce.Adi.BlockRead

/-!
# Writing a block of the target's memory

`jtag_mem_ap_write` with the bytes of the buffer that it reads. The count of its words is rounded
up, so that behind them nothing is left, and the last word may take bytes behind the buffer.
-/

namespace YardIce.Adi

open YardIce.Lib

/-- `ptr`, an offset in the buffer, and `cnt` of `jtag_mem_ap_write`, with the places of the
buffer that were read. -/
structure WriteState where
  bus : Bus
  ptr : Nat
  cnt : Nat
  used : List Nat

namespace WriteState

variable (buf : Nat → BitVec 8)

/-- A byte of the buffer. -/
def writeByte (s : WriteState) (addr : Word) : WriteState where
  bus := s.bus.jtagMemApWr8 addr (buf s.ptr)
  ptr := s.ptr + 1
  cnt := s.cnt + 1
  used := s.ptr :: s.used

/-- A halfword of the buffer. -/
def writeHalf (s : WriteState) (addr : Word) : WriteState where
  bus := s.bus.jtagMemApWr16 addr
    ((buf s.ptr).setWidth 16 ||| (buf (s.ptr + 1)).setWidth 16 <<< 8)
  ptr := s.ptr + 2
  cnt := s.cnt + 2
  used := s.ptr :: (s.ptr + 1) :: s.used

/-- The access that writes a word of the buffer. -/
def putWord (s : WriteState) : WriteState :=
  let data := (buf s.ptr).setWidth 32 ||| (buf (s.ptr + 1)).setWidth 32 <<< 8 |||
    (buf (s.ptr + 2)).setWidth 32 <<< 16 ||| (buf (s.ptr + 3)).setWidth 32 <<< 24
  { s with
    bus := s.bus.apaccWr adiApDrw data
    used := s.ptr :: (s.ptr + 1) :: (s.ptr + 2) :: (s.ptr + 3) :: s.used }

/-- The registers before the words. -/
def startWords (addr : Word) (p : Port) : Port :=
  let p := p.selectBank adiApTar
  let p :=
    if p.cache.csw &&& cswSize ≠ cswWord ∨ p.cache.csw &&& cswIncSingle = 0 then
      writeWordSingle p
    else p.skip p.cswOk
  updateTarPaged p addr

/-- The words before the last one. -/
def wordLoop : Nat → Word → WriteState → Word × WriteState
  | 0, addr, s => (addr, s)
  | n + 1, addr, s =>
    let s := s.putWord buf
    let addr := addr + 4
    let bus := if pageStart addr then s.bus.apaccWr adiApTar addr else s.bus
    wordLoop n addr { s with bus, ptr := s.ptr + 4 }

/-- The `n` words, with the address behind them. The last one leaves `ptr`, which nothing is
left to read from. -/
def writeWords (s : WriteState) (addr : Word) (n : Nat) : Word × WriteState :=
  let bus := s.bus.regs (startWords addr)
  let (addr, s) := wordLoop buf (n - 1) addr { s with bus }
  let s := s.putWord buf
  (addr + 4,
    { s with
      bus := { s.bus with cache := { s.bus.cache with tar := addr + 4 } }
      cnt := s.cnt + n * 4 })

end WriteState

/-- `jtag_mem_ap_write`. -/
def Bus.jtagMemApWrite (b : Bus) (addr : Word) (buf : Nat → BitVec 8) (len : Nat) : WriteState :=
  Place.transfer ⟨b, 0, 0, []⟩ addr len (WriteState.writeByte buf) (WriteState.writeHalf buf)
    (fun len => (len + 3) / 4) (WriteState.writeWords buf)

/-! ## What the parts write -/

namespace WriteState

variable {buf : Nat → BitVec 8} {s s' s₁ s₂ s₃ : WriteState} {addr t : Word} {n m : Nat}

/-- `n` bytes of the buffer went to the target from `t` on. -/
structure Put (buf : Nat → BitVec 8) (s : WriteState) (t : Word) (n : Nat) (s' : WriteState) :
    Prop where
  mem : s'.bus.mem = putBytes s.bus.mem t n fun i => buf (s.ptr + i)
  ptr : s'.ptr = s.ptr + n
  cnt : s'.cnt = s.cnt + n
  used : ∀ j, j ∈ s'.used ↔ j ∈ s.used ∨ s.ptr ≤ j ∧ j < s.ptr + n

/-- `n` words of the buffer went to the target from `a` on. -/
structure PutWords (buf : Nat → BitVec 8) (s : WriteState) (a _t : Word) (n : Nat)
    (s' : WriteState) : Prop where
  mem : 4 * n ≤ 2 ^ 32 → s'.bus.mem = putBytes s.bus.mem a (4 * n) fun i => buf (s.ptr + i)
  cnt : s'.cnt = s.cnt + 4 * n
  used : ∀ j, j ∈ s'.used ↔ j ∈ s.used ∨ s.ptr ≤ j ∧ j < s.ptr + 4 * n

theorem Put.add (hle : n + m ≤ 2 ^ 32) (h₁ : Put buf s₁ t n s₂)
    (h₂ : Put buf s₂ (t + BitVec.ofNat 32 n) m s₃) : Put buf s₁ t (n + m) s₃ where
  mem := by
    rw [h₂.mem, h₁.mem, h₁.ptr, putBytes_append hle]
    apply putBytes_congr
    intro i _
    by_cases hi : i < n
    · rw [if_pos hi]
    · rw [if_neg hi, Nat.add_assoc, Nat.add_sub_cancel' (by omega)]
  ptr := by rw [h₂.ptr, h₁.ptr, Nat.add_assoc]
  cnt := by rw [h₂.cnt, h₁.cnt, Nat.add_assoc]
  used := by
    intro j
    rw [h₂.used, h₁.used, h₁.ptr, or_assoc]
    apply or_congr_right
    omega

theorem writeByte_put (h : Lands s.bus addr t) :
    Put buf s t 1 (s.writeByte buf addr) ∧ After s.bus addr t 1 (s.writeByte buf addr).bus := by
  obtain ⟨hmem, hafter⟩ := wr8_spec h.toSynced h.reached_mod (buf s.ptr)
  rw [h.reached] at hmem hafter
  refine ⟨⟨hmem.trans (putBytes_congr fun i hi => ?_), rfl, rfl, fun j => ?_⟩, hafter⟩
  · obtain rfl : i = 0 := by omega
    rfl
  · show j ∈ s.ptr :: s.used ↔ _
    rw [List.mem_cons, or_comm]
    apply or_congr_right
    omega

theorem writeHalf_put (h : Lands s.bus addr t) (heven : addr.toNat % 2 = 0) :
    Put buf s t 2 (s.writeHalf buf addr) ∧ After s.bus addr t 2 (s.writeHalf buf addr).bus := by
  obtain ⟨hmem, hafter⟩ := wr16_spec h.toSynced h.reached_mod heven
    ((buf s.ptr).setWidth 16 ||| (buf (s.ptr + 1)).setWidth 16 <<< 8)
  rw [h.reached] at hmem hafter
  refine ⟨⟨hmem.trans (putBytes_congr fun i hi => ?_), rfl, rfl, fun j => ?_⟩, hafter⟩
  · exact lane_halfword (fun i => buf (s.ptr + i)) hi
  · show j ∈ s.ptr :: (s.ptr + 1) :: s.used ↔ _
    simp only [List.mem_cons]
    by_cases hj : j ∈ s.used
    · simp only [hj, or_true, true_or]
    · simp only [hj, or_false, false_or]
      omega

/-- The writing functions. -/
def mover (buf : Nat → BitVec 8) : Mover WriteState where
  bus := WriteState.bus
  byte := writeByte buf
  half := writeHalf buf
  Moved := Put buf
  zero _ _ := ⟨putBytes_zero.symm, rfl, rfl, fun _ => ⟨Or.inl, fun h => h.resolve_right (by omega)⟩⟩
  add := Put.add
  byte_moved := writeByte_put
  half_moved := writeHalf_put

/-! ## The words -/

section Words

variable {m : Word → BitVec 8}

/-- The registers before the words of a write. -/
theorem startWords_ready {b : Bus} (h : Synced b) (ht : TarFor true b.port addr) :
    WordReady (b.regs (startWords addr)).port ∧ (b.regs (startWords addr)).hw.tar = addr := by
  obtain ⟨r, hr, hready, htar⟩ := startBlock h.matched ht
    (c := b.port.cache.csw &&& cswSize ≠ cswWord ∨ b.port.cache.csw &&& cswIncSingle = 0)
    (by
      intro hc
      simp only [not_or, not_not] at hc
      exact ⟨hc.1, (single_iff h.inc).mp hc.2⟩)
  have hstart : startWords addr b.port = r := by
    unfold startWords
    simp only [selectBank_csw]
    exact hr
  have hport : (b.regs (startWords addr)).port = r := by
    rw [regs_port (hstart ▸ hready.sound), hstart]
  refine ⟨hport ▸ hready, ?_⟩
  show (b.regs (startWords addr)).port.hw.tar = addr
  rw [hport]
  exact htar

/-- One word goes to where `TAR` is. -/
theorem putWord_put (buf : Nat → BitVec 8) (h : WordReady s.bus.port) (ht : s.bus.hw.tar = addr)
    (ha : addr.toNat % 4 = 0) :
    WordReady (s.putWord buf).bus.port ∧ (s.putWord buf).bus.hw.tar = Hw.bump addr 4 ∧
      (s.putWord buf).bus.mem = putBytes s.bus.mem addr 4 (fun i => buf (s.ptr + i)) ∧
      ∀ j, j ∈ (s.putWord buf).used ↔ j ∈ s.used ∨ s.ptr ≤ j ∧ j < s.ptr + 4 := by
  have hbus := word_apaccWr h ((buf s.ptr).setWidth 32 ||| (buf (s.ptr + 1)).setWidth 32 <<< 8 |||
    (buf (s.ptr + 2)).setWidth 32 <<< 16 ||| (buf (s.ptr + 3)).setWidth 32 <<< 24)
  rw [word_store h ht ha, ht] at hbus
  have hput : (s.putWord buf).bus = _ := hbus
  refine ⟨?_, ?_, ?_, fun j => ?_⟩
  · rw [hput]
    exact h.setHwTar _
  · rw [hput]
  · rw [hput]
    exact putBytes_congr fun i hi => lane_word (fun i => buf (s.ptr + i)) hi
  · show j ∈ s.ptr :: (s.ptr + 1) :: (s.ptr + 2) :: (s.ptr + 3) :: s.used ↔ _
    simp only [List.mem_cons]
    by_cases hj : j ∈ s.used
    · simp only [hj, or_true, true_or]
    · simp only [hj, or_false, false_or]
      omega

/-- In the loop: `TAR` is at `addr`, and `4 * n` bytes went to the target from `a` on. -/
structure Writing (buf : Nat → BitVec 8) (s : WriteState) (a : Word) (n : Nat) (addr : Word)
    (s' : WriteState) : Prop where
  ready : WordReady s'.bus.port
  tar : s'.bus.hw.tar = addr
  addr_eq : addr = a + BitVec.ofNat 32 (4 * n)
  align : addr.toNat % 4 = 0
  mem : 4 * n ≤ 2 ^ 32 → s'.bus.mem = putBytes s.bus.mem a (4 * n) fun i => buf (s.ptr + i)
  ptr : s'.ptr = s.ptr + 4 * n
  cnt : s'.cnt = s.cnt
  used : ∀ j, j ∈ s'.used ↔ j ∈ s.used ∨ s.ptr ≤ j ∧ j < s.ptr + 4 * n

variable {a : Word}

/-- One more word goes behind the others. -/
theorem Writing.put (h : Writing buf s a n addr s') :
    (4 * (n + 1) ≤ 2 ^ 32 → (s'.putWord buf).bus.mem =
        putBytes s.bus.mem a (4 * (n + 1)) fun i => buf (s.ptr + i)) ∧
      ∀ j, j ∈ (s'.putWord buf).used ↔ j ∈ s.used ∨ s.ptr ≤ j ∧ j < s.ptr + 4 * (n + 1) := by
  obtain ⟨-, -, hmem, hused⟩ := putWord_put buf h.ready h.tar h.align
  have hsum : 4 * (n + 1) = 4 * n + 4 := by omega
  rw [hsum]
  constructor
  · intro hle
    rw [hmem, h.mem (by omega), h.addr_eq, putBytes_append hle]
    apply putBytes_congr
    intro i _
    by_cases hi : i < 4 * n
    · rw [if_pos hi]
    · rw [if_neg hi, h.ptr, Nat.add_assoc, Nat.add_sub_cancel' (by omega)]
  · intro j
    rw [hused, h.used, h.ptr, or_assoc]
    apply or_congr_right
    omega

theorem wordLoop_put (k : Nat) (h : Writing buf s a n addr s') :
    Writing buf s a (n + k) (wordLoop buf k addr s').1 (wordLoop buf k addr s').2 := by
  induction k generalizing n addr s' with
  | zero => exact h
  | succ k ih =>
      obtain ⟨hready, htar, -, -⟩ := putWord_put buf h.ready h.tar h.align
      obtain ⟨hmem, hused⟩ := h.put
      have haddr : addr + 4 = a + BitVec.ofNat 32 (4 * (n + 1)) := by
        rw [h.addr_eq, BitVec.add_assoc]
        exact congrArg (a + ·) (BitVec.ofNat_add (4 * n) 4).symm
      have hnext : ∃ bus, (if pageStart (addr + 4) then
            (s'.putWord buf).bus.apaccWr adiApTar (addr + 4) else (s'.putWord buf).bus) = bus ∧
          WordReady bus.port ∧ bus.hw.tar = addr + 4 ∧ bus.mem = (s'.putWord buf).bus.mem := by
        refine ⟨_, rfl, ?_⟩
        split
        · rw [word_wrTar hready]
          exact ⟨hready.setHwTar _, rfl, rfl⟩
        · next hpage =>
            exact ⟨hready, htar.trans (bump_word h.align (Bool.not_eq_true _ ▸ hpage)), rfl⟩
      obtain ⟨bus, hbus, hready', htar', hmem'⟩ := hnext
      have hstep : Writing buf s a (n + 1) (addr + 4)
          { s'.putWord buf with bus, ptr := s'.ptr + 4 } := by
        constructor
        case ready => exact hready'
        case tar => exact htar'
        case addr_eq => exact haddr
        case align => exact aligned_add h.align
        case mem => exact fun hle => hmem'.trans (hmem hle)
        case ptr =>
          show s'.ptr + 4 = s.ptr + 4 * (n + 1)
          rw [h.ptr]
          omega
        case cnt => exact h.cnt
        case used => exact hused
      have hloop : wordLoop buf (k + 1) addr s' = wordLoop buf k (addr + 4)
          { s'.putWord buf with bus, ptr := s'.ptr + 4 } := by
        conv_lhs => unfold wordLoop
        simp only
        rw [hbus]
        rfl
      rw [hloop, show n + (k + 1) = n + 1 + k by omega]
      exact ih hstep

theorem writeWords_put : WordsMove (mover buf)
    (fun a _ n => landing True (a + BitVec.ofNat 32 (4 * n))) (PutWords buf) (writeWords buf) := by
  intro s a t n hl hpage ha hn
  obtain ⟨hready, htar⟩ := startWords_ready hl.toSynced (hl.tarFor hpage)
  have hstart : Writing buf s a 0 a { s with bus := s.bus.regs (startWords a) } := by
    constructor
    case ready => exact hready
    case tar => exact htar
    case addr_eq => exact (BitVec.add_zero a).symm
    case align => exact ha
    case mem => exact fun _ => putBytes_zero.symm
    case ptr => rfl
    case cnt => rfl
    case used => exact fun j => ⟨Or.inl, fun h => h.resolve_right (by omega)⟩
  have hloop := wordLoop_put (n - 1) hstart
  unfold writeWords
  simp only
  generalize wordLoop buf (n - 1) a { s with bus := s.bus.regs (startWords a) } = r at hloop
  obtain ⟨hready', htar', -, -⟩ := putWord_put buf hloop.ready hloop.tar hloop.align
  obtain ⟨hmem, hused⟩ := hloop.put
  have hcount : 0 + (n - 1) + 1 = n := by omega
  have hend : r.1 + 4 = a + BitVec.ofNat 32 (4 * n) := by
    rw [hloop.addr_eq, Nat.zero_add, after_last_word a hn]
  rw [hcount] at hmem hused
  refine ⟨hend, ?_, ⟨hmem, ?_, hused⟩⟩
  · rw [← hend]
    exact word_lands hready' htar' hloop.align
  · show r.2.cnt + n * 4 = s.cnt + 4 * n
    rw [hloop.cnt, Nat.mul_comm]

end Words

end WriteState

/-! ## The block -/

section Block

open WriteState

variable {b : Bus} {addr : Word} {len : Nat}

theorem write_short (buf : Nat → BitVec 8) (h : Lands b addr addr) (hlen : 0 < len)
    (hshort : (lead addr len).2 < 4) :
    (b.jtagMemApWrite addr buf len).cnt = len ∧
      (∀ j, j ∈ (b.jtagMemApWrite addr buf len).used ↔ j < len) ∧
      (b.jtagMemApWrite addr buf len).bus.mem =
        putBytes (putBytes b.mem addr (len - (lead addr len).2) buf) (leadLanding b addr len)
          (lead addr len).2 fun i => buf (len - (lead addr len).2 + i) := by
  have hs : Lands ((mover buf).bus ⟨b, 0, 0, []⟩) addr addr := h
  obtain ⟨c, hlead, hled, hlast⟩ := transfer_short (M := mover buf) (fun len => (len + 3) / 4)
    (WriteState.writeWords buf) hs hlen hshort
  unfold leadLanding
  rw [← hlead]
  have hfirst : Put buf ⟨b, 0, 0, []⟩ addr (len - c.len) c.st := hled.moved
  have hle := hled.le
  have hmem := hlast.mem
  have hcnt := hlast.cnt
  rw [hfirst.mem, hfirst.ptr] at hmem
  rw [hfirst.cnt, Nat.zero_add, Nat.sub_add_cancel hle] at hcnt
  simp only [Nat.zero_add] at hmem
  refine ⟨hcnt, fun j => ?_, hmem⟩
  refine (hlast.used j).trans ?_
  rw [hfirst.used, hfirst.ptr, List.mem_nil_iff, false_or]
  simp only [Nat.zero_add]
  omega

theorem write_long (buf : Nat → BitVec 8) (h : Lands b addr addr) (hlen : 0 < len)
    (hlong : 4 ≤ (lead addr len).2) :
    (b.jtagMemApWrite addr buf len).cnt =
        len - (lead addr len).2 + 4 * (((lead addr len).2 + 3) / 4) ∧
      (∀ j, j ∈ (b.jtagMemApWrite addr buf len).used ↔
        j < len - (lead addr len).2 + 4 * (((lead addr len).2 + 3) / 4)) ∧
      (len - (lead addr len).2 + 4 * (((lead addr len).2 + 3) / 4) ≤ 2 ^ 32 →
        (b.jtagMemApWrite addr buf len).bus.mem = putBytes b.mem addr
          (len - (lead addr len).2 + 4 * (((lead addr len).2 + 3) / 4)) buf) := by
  have hs : Lands ((mover buf).bus ⟨b, 0, 0, []⟩) addr addr := h
  have hcount : ∀ r, 4 ≤ r → 0 < (r + 3) / 4 ∧ r < (r + 3) / 4 * 4 + 4 := by omega
  obtain ⟨c, s', hlead, hled, hwords, hlast⟩ := transfer_words (M := mover buf)
    (fun len => (len + 3) / 4) hs hlen hlong hcount writeWords_put
  have haddr := hled.addr_eq
  rw [← hlead]
  have hfirst : Put buf ⟨b, 0, 0, []⟩ addr (len - c.len) c.st := hled.moved
  have hnone : c.len - (c.len + 3) / 4 * 4 = 0 := by omega
  simp only [hnone] at hlast
  refine ⟨?_, fun j => ?_, fun hle => ?_⟩
  · refine hlast.cnt.trans ?_
    rw [Nat.add_zero, hwords.cnt, hfirst.cnt, Nat.zero_add]
  · refine (hlast.used j).trans ?_
    rw [hwords.used, hfirst.used, hfirst.ptr, List.mem_nil_iff, false_or]
    simp only [Nat.zero_add]
    omega
  · refine hlast.mem.trans ?_
    rw [putBytes_zero, hwords.mem (by simp only at hle; omega), hfirst.mem, hfirst.ptr, haddr]
    simp only [Nat.zero_add] at hle ⊢
    rw [putBytes_append hle]
    apply putBytes_congr
    intro i _
    by_cases hi : i < len - c.len
    · rw [if_pos hi]
    · rw [if_neg hi, Nat.add_sub_cancel' (by omega)]

/-- `jtag_mem_ap_write` reads nothing but the buffer, writes it to its place and nothing else,
and returns the length. -/
def WritesBytes (b : Bus) (addr : Word) (len : Nat) : Prop :=
  ∀ (mem : Word → BitVec 8) (buf : Nat → BitVec 8),
    (∀ j ∈ (Bus.jtagMemApWrite { b with mem } addr buf len).used, j < len) ∧
      (Bus.jtagMemApWrite { b with mem } addr buf len).bus.mem = putBytes mem addr len buf ∧
      (Bus.jtagMemApWrite { b with mem } addr buf len).cnt = len

/-- A write with words has no rest behind them. Without words, nothing is left of it or no byte
or halfword in front of the rest ends a page. -/
def WriteInPlace (b : Bus) (addr : Word) (len : Nat) : Prop :=
  if 4 ≤ (lead addr len).2 then (lead addr len).2 % 4 = 0
  else (lead addr len).2 = 0 ∨ LeadInPage b addr len

instance (b : Bus) (addr : Word) (len : Nat) : Decidable (WriteInPlace b addr len) := by
  unfold WriteInPlace
  infer_instance

/-- Bytes that land a page too low leave the start of their own page. -/
theorem putBytes_stale (mem : Word → BitVec 8) (f g : Nat → BitVec 8) (hlen : 0 < len)
    (hshort : (lead addr len).2 < 4096) (hne : leadLanding b addr len ≠ (lead addr len).1) :
    putBytes (putBytes mem addr (len - (lead addr len).2) f) (leadLanding b addr len)
      (lead addr len).2 g (lead addr len).1 = mem (lead addr len).1 := by
  obtain ⟨hle, hnear, haddr⟩ := lead_addr addr hlen
  have hland : leadLanding b addr len = (lead addr len).1 - 4096 := (landing_ne hne).2.2
  have hfar : (lead addr len).1 - ((lead addr len).1 - 4096) = 4096 := sub_sub_cancel _ _
  have hoff : (addr + BitVec.ofNat 32 (len - (lead addr len).2) - addr).toNat =
      len - (lead addr len).2 := offset_toNat (by omega)
  rw [hland, putBytes_of_le, putBytes_of_le]
  · rw [haddr, hoff]
  · rw [hfar]
    exact Nat.le_of_lt hshort

/-- What a store of the whole block leaves behind the first byte and halfword. -/
theorem putBytes_lead {mem : Word → BitVec 8} {f : Nat → BitVec 8} (hpos : 0 < (lead addr len).2)
    (hlen : 0 < len) (hint : len < 2 ^ 31) :
    putBytes mem addr len f (lead addr len).1 = f (len - (lead addr len).2) := by
  obtain ⟨hle, hnear, haddr⟩ := lead_addr addr hlen
  rw [haddr]
  exact putBytes_of_lt (by omega) (by omega)

/-- Without words only what is behind a page boundary can go astray. -/
theorem writesBytes_short (h : Lands b addr addr) (hlen : 0 < len) (hint : len < 2 ^ 31)
    (hshort : (lead addr len).2 < 4) :
    WritesBytes b addr len ↔
      (lead addr len).2 = 0 ∨ leadLanding b addr len = (lead addr len).1 := by
  obtain ⟨hle, hnear, haddr⟩ := lead_addr addr hlen
  have hwrite := fun (mem : Word → BitVec 8) (buf : Nat → BitVec 8) =>
    write_short buf (h.with_mem mem) hlen hshort
  constructor
  · intro hall
    by_contra hout
    obtain ⟨hpos, hne⟩ := not_or.mp hout
    have hmem := congrFun (hall (fun _ => 0) fun _ => 1).2.1 (lead addr len).1
    rw [(hwrite (fun _ => 0) fun _ => 1).2.2, putBytes_lead (by omega) hlen hint] at hmem
    have hstale := putBytes_stale (b := b) (fun _ => 0) (fun _ => 1) (fun _ => 1) hlen (by omega)
      hne
    exact absurd (hstale.symm.trans hmem) (by decide)
  · intro hin mem buf
    obtain ⟨hcnt, hused, hmem⟩ := hwrite mem buf
    refine ⟨fun j => (hused j).mp, hmem.trans ?_, hcnt⟩
    obtain hzero | hland := hin
    · rw [hzero, putBytes_zero, Nat.sub_zero]
    · have hland' : leadLanding { b with mem } addr len =
          addr + BitVec.ofNat 32 (len - (lead addr len).2) := hland.trans haddr
      have hsum : len - (lead addr len).2 + (lead addr len).2 = len := Nat.sub_add_cancel hle
      rw [hland', putBytes_append (by omega), hsum]
      apply putBytes_congr
      intro i _
      by_cases hi : i < len - (lead addr len).2
      · rw [if_pos hi]
      · rw [if_neg hi, Nat.add_sub_cancel' (by omega)]

/-- A block write stays in its range and its buffer if and only if no rest is left behind words
or, without words, behind a page boundary. -/
theorem jtagMemApWrite_bytes_iff (h : Synced b) (ht : b.cache.tar = addr → b.hw.tar = addr)
    (hlen : 0 < len) (hint : len < 2 ^ 31) : WritesBytes b addr len ↔ WriteInPlace b addr len := by
  have hlands := h.lands ht
  obtain ⟨hle, hnear, haddr⟩ := lead_addr addr hlen
  unfold WriteInPlace
  by_cases hlong : 4 ≤ (lead addr len).2
  · have hwrite := fun (mem : Word → BitVec 8) (buf : Nat → BitVec 8) =>
      write_long buf (hlands.with_mem mem) hlen hlong
    rw [if_pos hlong]
    constructor
    · intro hall
      have hcnt := (hall (fun _ => 0) fun _ => 0).2.2
      rw [(hwrite (fun _ => 0) fun _ => 0).1] at hcnt
      omega
    · intro hr mem buf
      obtain ⟨hcnt, hused, hmem⟩ := hwrite mem buf
      have hsum : len - (lead addr len).2 + 4 * (((lead addr len).2 + 3) / 4) = len := by omega
      rw [hsum] at hcnt hused hmem
      exact ⟨fun j => (hused j).mp, hmem (by omega), hcnt⟩
  · rw [if_neg hlong, writesBytes_short hlands hlen hint (by omega), leadInPage_iff]

/-- A byte, a halfword and three words over a page boundary, and five bytes. -/
theorem jtagMemApWrite_bytes_sample :
    WritesBytes sampleBus 0xff9 15 ∧ ¬WritesBytes sampleBus 0x2000 5 :=
  ⟨(jtagMemApWrite_bytes_iff sampleBus_synced (by decide) (by decide) (by decide)).mpr
      (by decide),
    mt (jtagMemApWrite_bytes_iff sampleBus_synced (by decide) (by decide) (by decide)).mp
      (by decide)⟩

/-- Five bytes at a word's address: eight are read from the buffer and written, and eight are
returned. -/
theorem jtagMemApWrite_overruns :
    Synced sampleBus ∧ sampleBus.cache.tar = sampleBus.hw.tar ∧
      5 ∈ (sampleBus.jtagMemApWrite 0x2000 (fun _ => 0xaa) 5).used ∧
      (sampleBus.jtagMemApWrite 0x2000 (fun _ => 0xaa) 5).bus.mem 0x2005 ≠
        sampleBus.mem 0x2005 ∧
      (sampleBus.jtagMemApWrite 0x2000 (fun _ => 0xaa) 5).cnt ≠ 5 := by
  refine ⟨sampleBus_synced, rfl, ?_⟩
  decide

end Block

end YardIce.Adi
