import YardIce.Adi.BlockTransfer

/-!
# Reading a block of the target's memory

`jtag_mem_ap_read` with the bytes that it stores. Its words go to the start of the buffer even
behind a byte and a halfword, and the bytes behind a page boundary are read where `TAR` is.

## Implementation notes

A read of `DRW` returns the word of the read before it, so that the loop stores each word one
access late. At a page boundary `CTRL/STAT` is read for it before `TAR` is written.
-/

namespace YardIce.Adi

open YardIce.Lib

/-- `buf`, `ptr` and `cnt` of `jtag_mem_ap_read`; `ptr` is an offset in the buffer. -/
structure ReadState where
  bus : Bus
  buf : Nat → BitVec 8
  ptr : Nat
  cnt : Nat

namespace ReadState

/-- A byte of the buffer. -/
def readByte (s : ReadState) (addr : Word) : ReadState :=
  let (data, bus) := s.bus.jtagMemApRd8 addr
  { bus, buf := fill s.buf s.ptr 1 fun _ => data, ptr := s.ptr + 1, cnt := s.cnt + 1 }

/-- A halfword of the buffer. -/
def readHalf (s : ReadState) (addr : Word) : ReadState :=
  let (data, bus) := s.bus.jtagMemApRd16 addr
  { bus, buf := fill s.buf s.ptr 2 (lane (data.setWidth 32)), ptr := s.ptr + 2, cnt := s.cnt + 2 }

/-- A word of the buffer. -/
def storeWord (s : ReadState) (bus : Bus) (data : Word) : ReadState :=
  { s with bus, buf := fill s.buf s.ptr 4 (lane data), ptr := s.ptr + 4 }

/-- The registers before the words. -/
def startWords (addr : Word) (p : Port) : Port :=
  let p := p.selectBank adiApTar
  let p :=
    if p.cache.csw &&& cswSize ≠ cswWord ∨ p.cache.csw &&& cswAddrInc ≠ cswIncSingle then
      writeWordSingle p
    else p.skip p.cswOk
  updateTarPaged p addr

/-- The access for the word at `addr`, with the word before it. -/
def nextWord (bus : Bus) (addr : Word) : Word × Bus :=
  if pageStart addr then
    let (data, bus) := bus.dpaccRd
    (data, ((bus.apaccWr adiApTar addr).apaccRd adiApDrw).2)
  else bus.apaccRd adiApDrw

/-- The words behind the first one. -/
def wordLoop : Nat → Word → ReadState → Word × ReadState
  | 0, addr, s => (addr, s)
  | n + 1, addr, s =>
    let addr := addr + 4
    let (data, bus) := nextWord s.bus addr
    wordLoop n addr (s.storeWord bus data)

/-- The `n` words, with the address behind them. They are stored from `buf` on. -/
def readWords (s : ReadState) (addr : Word) (n : Nat) : Word × ReadState :=
  let bus := s.bus.regs (startWords addr)
  let (_, bus) := bus.apaccRd adiApDrw
  let (addr, s) := wordLoop (n - 1) addr { s with bus, ptr := 0 }
  let (data, bus) := s.bus.dpaccRd
  let s := s.storeWord bus data
  (addr + 4,
    { s with
      bus := { s.bus with cache := { s.bus.cache with tar := addr + 4 } }
      cnt := s.cnt + n * 4 })

end ReadState

/-- `jtag_mem_ap_read`. -/
def Bus.jtagMemApRead (b : Bus) (addr : Word) (buf : Nat → BitVec 8) (len : Nat) : ReadState :=
  Place.transfer ⟨b, buf, 0, 0⟩ addr len ReadState.readByte ReadState.readHalf
    (fun len => len / 4) ReadState.readWords

/-! ## What the parts read -/

namespace ReadState

/-- `n` bytes of the target from `t` on went to the buffer. -/
structure Got (s : ReadState) (t : Word) (n : Nat) (s' : ReadState) : Prop where
  mem : s'.bus.mem = s.bus.mem
  buf : s'.buf = fill s.buf s.ptr n fun i => s.bus.mem (t + BitVec.ofNat 32 i)
  ptr : s'.ptr = s.ptr + n
  cnt : s'.cnt = s.cnt + n

/-- `n` words of the target from `a` on went to the start of the buffer. -/
structure GotWords (s : ReadState) (a _t : Word) (n : Nat) (s' : ReadState) : Prop where
  mem : s'.bus.mem = s.bus.mem
  buf : s'.buf = fill s.buf 0 (4 * n) fun i => s.bus.mem (a + BitVec.ofNat 32 i)
  ptr : s'.ptr = 4 * n
  cnt : s'.cnt = s.cnt + 4 * n

variable {s s' s₁ s₂ s₃ : ReadState} {addr t : Word} {n m : Nat}

theorem fill_bytes {buf : Nat → BitVec 8} {p : Nat} {mem : Word → BitVec 8} :
    fill (fill buf p n fun i => mem (t + BitVec.ofNat 32 i)) (p + n) m
        (fun i => mem (t + BitVec.ofNat 32 n + BitVec.ofNat 32 i)) =
      fill buf p (n + m) fun i => mem (t + BitVec.ofNat 32 i) := by
  rw [fill_append]
  apply fill_congr
  intro i _
  by_cases hi : i < n
  · rw [if_pos hi]
  · rw [if_neg hi, BitVec.add_assoc, ← BitVec.ofNat_add, Nat.add_sub_cancel' (by lia)]

theorem Got.add (h₁ : Got s₁ t n s₂) (h₂ : Got s₂ (t + BitVec.ofNat 32 n) m s₃) :
    Got s₁ t (n + m) s₃ where
  mem := h₂.mem.trans h₁.mem
  buf := by rw [h₂.buf, h₁.mem, h₁.ptr, h₁.buf, fill_bytes]
  ptr := by rw [h₂.ptr, h₁.ptr, Nat.add_assoc]
  cnt := by rw [h₂.cnt, h₁.cnt, Nat.add_assoc]

theorem readByte_got (h : Lands s.bus addr t) :
    Got s t 1 (s.readByte addr) ∧ After s.bus addr t 1 (s.readByte addr).bus := by
  obtain ⟨hdata, hmem, hafter⟩ := rd8_spec h.toSynced h.reached_mod
  rw [h.reached] at hdata hafter
  refine ⟨⟨hmem, ?_, rfl, rfl⟩, hafter⟩
  show fill s.buf s.ptr 1 (fun _ => (s.bus.jtagMemApRd8 addr).1) = _
  rw [hdata]
  apply fill_congr
  intro i hi
  obtain rfl : i = 0 := by lia
  rw [BitVec.add_zero]

theorem readHalf_got (h : Lands s.bus addr t) (heven : addr.toNat % 2 = 0) :
    Got s t 2 (s.readHalf addr) ∧ After s.bus addr t 2 (s.readHalf addr).bus := by
  obtain ⟨hdata, hmem, hafter⟩ := rd16_spec h.toSynced h.reached_mod heven
  rw [h.reached] at hdata hafter
  refine ⟨⟨hmem, ?_, rfl, rfl⟩, hafter⟩
  exact fill_congr hdata

/-- The reading functions. -/
def mover : Mover ReadState where
  bus := ReadState.bus
  byte := readByte
  half := readHalf
  Moved := Got
  zero _ _ := ⟨rfl, fill_zero.symm, rfl, rfl⟩
  add _ h₁ h₂ := h₁.add h₂
  byte_moved := readByte_got
  half_moved := readHalf_got

/-! ## The words -/

section Words

variable {m : Word → BitVec 8}

/-- In the loop: the word at `addr` was accessed and not returned yet. -/
structure Pending (m : Word → BitVec 8) (addr : Word) (s : ReadState) : Prop where
  ready : WordReady s.bus.port
  mem : s.bus.mem = m
  tar : s.bus.hw.tar = Hw.bump addr 4
  result : ∀ i < 4, lane s.bus.result i = m (addr + BitVec.ofNat 32 i)

/-- The access for a word that `TAR` has. -/
theorem pending_of_access {b : Bus} (h : WordReady b.port) (ht : b.hw.tar = addr)
    (ha : addr.toNat % 4 = 0) (hs : s.bus = (b.apaccRd adiApDrw).2) : Pending b.mem addr s := by
  rw [word_apaccRd h, ht] at hs
  constructor
  case ready =>
    rw [hs]
    exact h.setHwTar _
  case mem => rw [hs]
  case tar => rw [hs]
  case result =>
    intro i hi
    rw [hs]
    exact word_lane h ht ha hi

/-- One turn of the loop stores the word that was pending. -/
theorem Pending.next (h : Pending m addr s) (ha : addr.toNat % 4 = 0) :
    (nextWord s.bus (addr + 4)).1 = s.bus.result ∧
      Pending m (addr + 4) (s.storeWord (nextWord s.bus (addr + 4)).2 s.bus.result) := by
  have ha' := aligned_add ha
  unfold nextWord
  by_cases hpage : pageStart (addr + 4) = true
  · have hready : WordReady s.bus.dpaccRd.2.port := h.ready
    rw [if_pos hpage]
    simp only
    rw [word_wrTar hready]
    refine ⟨rfl, ?_⟩
    rw [← h.mem]
    exact pending_of_access (b := { s.bus.dpaccRd.2 with
      hw := { s.bus.dpaccRd.2.hw with tar := addr + 4 } }) (hready.setHwTar _) rfl ha' rfl
  · have htar : s.bus.hw.tar = addr + 4 :=
      h.tar.trans (bump_word ha (Bool.not_eq_true _ ▸ hpage))
    rw [if_neg hpage]
    refine ⟨rfl, ?_⟩
    rw [← h.mem]
    exact pending_of_access h.ready htar ha' rfl

/-- What the loop has stored behind `n` words. -/
theorem wordLoop_got (n : Nat) (h : Pending m addr s) (ha : addr.toNat % 4 = 0) :
    (wordLoop n addr s).1 = addr + BitVec.ofNat 32 (4 * n) ∧
      (wordLoop n addr s).1.toNat % 4 = 0 ∧
      Pending m (wordLoop n addr s).1 (wordLoop n addr s).2 ∧
      (wordLoop n addr s).2.buf =
        fill s.buf s.ptr (4 * n) (fun i => m (addr + BitVec.ofNat 32 i)) ∧
      (wordLoop n addr s).2.ptr = s.ptr + 4 * n ∧ (wordLoop n addr s).2.cnt = s.cnt := by
  induction n generalizing addr s with
  | zero =>
      refine ⟨(BitVec.add_zero addr).symm, ha, h, fill_zero.symm, rfl, rfl⟩
  | succ n ih =>
      obtain ⟨hdata, hnext⟩ := h.next ha
      have hstep : wordLoop (n + 1) addr s = wordLoop n (addr + 4)
          (s.storeWord (nextWord s.bus (addr + 4)).2 s.bus.result) := by
        conv_lhs => unfold wordLoop
        simp only
        rw [hdata]
      rw [hstep]
      obtain ⟨haddr, halign, hpend, hbuf, hptr, hcnt⟩ := ih hnext (aligned_add ha)
      refine ⟨haddr.trans (add_words addr n), halign, hpend, ?_, ?_, hcnt⟩
      · have hword : (s.storeWord (nextWord s.bus (addr + 4)).2 s.bus.result).buf =
            fill s.buf s.ptr 4 fun i => m (addr + BitVec.ofNat 32 i) := fill_congr h.result
        have hall : 4 * (n + 1) = 4 + 4 * n := by lia
        rw [hbuf, hword, hall]
        exact fill_bytes
      · rw [hptr]
        show s.ptr + 4 + 4 * n = s.ptr + 4 * (n + 1)
        lia

/-- The registers before the words of a read. -/
theorem startWords_ready {b : Bus} (h : Synced b) (ht : TarFor true b.port addr) :
    WordReady (b.regs (startWords addr)).port ∧ (b.regs (startWords addr)).hw.tar = addr := by
  obtain ⟨r, hr, hready, htar⟩ := startBlock h.matched ht
    (c := b.port.cache.csw &&& cswSize ≠ cswWord ∨ b.port.cache.csw &&& cswAddrInc ≠ cswIncSingle)
    (by
      intro hc
      simp only [not_or, not_not] at hc
      exact hc)
  have hstart : startWords addr b.port = r := by
    unfold startWords
    simp only [selectBank_csw]
    exact hr
  have hport : (b.regs (startWords addr)).port = r := by
    rw [regs_port (hstart ▸ hready.sound), hstart]
  refine ⟨hport ▸ hready, ?_⟩
  show (b.regs (startWords addr)).port.hw.tar = addr
  rw [hport]
  exact htar

/-- The last word of the loop is stored. -/
theorem Pending.store (h : Pending m addr s) (ha : addr.toNat % 4 = 0) :
    (s.storeWord s.bus.dpaccRd.2 s.bus.result).buf =
        (fill s.buf s.ptr 4 fun i => m (addr + BitVec.ofNat 32 i)) ∧
      Lands { s.bus.dpaccRd.2 with cache := { s.bus.cache with tar := addr + 4 } } (addr + 4)
        (landing True (addr + 4)) :=
  ⟨fill_congr h.result, word_lands (b := s.bus.dpaccRd.2) h.ready h.tar ha⟩

theorem readWords_got : WordsMove mover (fun a _ n => landing True (a + BitVec.ofNat 32 (4 * n)))
    GotWords readWords := by
  intro s a t n hl hpage ha hn
  obtain ⟨hready, htar⟩ := startWords_ready hl.toSynced (hl.tarFor hpage)
  have hpend : Pending s.bus.mem a
      { s with bus := ((s.bus.regs (startWords a)).apaccRd adiApDrw).2, ptr := 0 } :=
    pending_of_access (b := s.bus.regs (startWords a)) hready htar ha rfl
  obtain ⟨haddr, halign, hlast, hbuf, hptr, hcnt⟩ := wordLoop_got (n - 1) hpend ha
  unfold readWords
  simp only
  generalize wordLoop (n - 1) a
    { s with bus := ((s.bus.regs (startWords a)).apaccRd adiApDrw).2, ptr := 0 } = r
    at haddr halign hlast hbuf hptr hcnt
  obtain ⟨hstore, hlands⟩ := hlast.store halign
  have hlen : 4 * (n - 1) + 4 = 4 * n := by lia
  have hend : r.1 + 4 = a + BitVec.ofNat 32 (4 * n) := by rw [haddr, after_last_word a hn]
  refine ⟨hend, ?_, ?_⟩
  · rw [← hend]
    exact hlands
  · constructor
    case mem => exact hlast.mem
    case buf =>
      show (r.2.storeWord r.2.bus.dpaccRd.2 r.2.bus.result).buf = _
      simp only at hbuf hptr
      rw [hstore, hbuf, hptr, haddr, fill_bytes, hlen]
    case ptr =>
      show r.2.ptr + 4 = 4 * n
      simp only at hptr
      lia
    case cnt =>
      show r.2.cnt + n * 4 = s.cnt + 4 * n
      simp only at hcnt
      lia

end Words

end ReadState

/-! ## The block -/

section Block

open ReadState

variable {b : Bus} {addr : Word} {len : Nat}

/-- Without words each byte comes from where its access lands. -/
theorem read_short (buf : Nat → BitVec 8) (h : Lands b addr addr) (hlen : 0 < len)
    (hshort : (lead addr len).2 < 4) :
    (b.jtagMemApRead addr buf len).cnt = len ∧
      (∀ i < len - (lead addr len).2,
        (b.jtagMemApRead addr buf len).buf i = b.mem (addr + BitVec.ofNat 32 i)) ∧
      ∀ i, len - (lead addr len).2 ≤ i → i < len → (b.jtagMemApRead addr buf len).buf i =
        b.mem (leadLanding b addr len + BitVec.ofNat 32 (i - (len - (lead addr len).2))) := by
  have hs : Lands (mover.bus ⟨b, buf, 0, 0⟩) addr addr := h
  obtain ⟨c, hlead, hled, hlast⟩ := transfer_short (M := mover) (fun len => len / 4)
    ReadState.readWords hs hlen hshort
  unfold leadLanding
  rw [← hlead]
  have hfirst : Got ⟨b, buf, 0, 0⟩ addr (len - c.len) c.st := hled.moved
  have hle := hled.le
  have hbuf := hlast.buf
  have hcnt := hlast.cnt
  rw [hfirst.mem, hfirst.ptr, hfirst.buf, Nat.zero_add] at hbuf
  rw [hfirst.cnt, Nat.zero_add, Nat.sub_add_cancel hle] at hcnt
  refine ⟨hcnt, fun i hi => ?_, fun i hi hlt => ?_⟩
  · refine (congrFun hbuf i).trans ?_
    rw [fill_of_not_mem (by lia), fill_of_mem (Nat.zero_le i) (by lia)]
    rfl
  · refine (congrFun hbuf i).trans ?_
    rw [fill_of_mem hi (by lia)]
    rfl

/-- With words the buffer starts with them. -/
theorem read_long (buf : Nat → BitVec 8) (h : Lands b addr addr) (hlen : 0 < len)
    (hlong : 4 ≤ (lead addr len).2) :
    (b.jtagMemApRead addr buf len).cnt = len ∧
      (∀ i < 4 * ((lead addr len).2 / 4), (b.jtagMemApRead addr buf len).buf i =
        b.mem ((lead addr len).1 + BitVec.ofNat 32 i)) ∧
      ∀ i, 4 * ((lead addr len).2 / 4) ≤ i → i < (lead addr len).2 →
        (b.jtagMemApRead addr buf len).buf i = b.mem (landing True (wordsEnd addr len) +
          BitVec.ofNat 32 (i - 4 * ((lead addr len).2 / 4))) := by
  have hs : Lands (mover.bus ⟨b, buf, 0, 0⟩) addr addr := h
  have hcount : ∀ r, 4 ≤ r → 0 < r / 4 ∧ r < r / 4 * 4 + 4 := by lia
  obtain ⟨c, s', hlead, hled, hwords, hlast⟩ := transfer_words (M := mover) (fun len => len / 4) hs
    hlen hlong hcount readWords_got
  unfold wordsEnd
  rw [← hlead]
  have hfirst : Got ⟨b, buf, 0, 0⟩ addr (len - c.len) c.st := hled.moved
  have hle := hled.le
  have hbuf := hlast.buf
  have hcnt := hlast.cnt
  rw [hwords.mem, hwords.ptr, hwords.buf, hfirst.mem] at hbuf
  rw [hwords.cnt, hfirst.cnt] at hcnt
  refine ⟨?_, fun i hi => ?_, fun i hi hlt => ?_⟩
  · refine hcnt.trans ?_
    show 0 + (len - c.len) + 4 * (c.len / 4) + (c.len - c.len / 4 * 4) = len
    lia
  · refine (congrFun hbuf i).trans ?_
    simp only at hi
    rw [fill_of_not_mem (by lia), fill_of_mem (Nat.zero_le i) (by lia)]
    rfl
  · refine (congrFun hbuf i).trans ?_
    simp only at hi hlt
    rw [fill_of_mem hi (by lia)]

/-- Two addresses of which no memory tells the bytes apart. -/
theorem addr_eq_of_bytes {x y : Word} (h : ∀ mem : Word → BitVec 8, mem x = mem y) : x = y := by
  by_contra hne
  have hone := h fun a => if a = x then 1 else 0
  rw [if_pos rfl, if_neg (Ne.symm hne)] at hone
  exact absurd hone (by decide)

/-- `jtag_mem_ap_read` returns the length and fills the buffer with the bytes at the address,
whatever they are. -/
def ReadsBytes (b : Bus) (addr : Word) (len : Nat) : Prop :=
  ∀ (mem : Word → BitVec 8) (buf : Nat → BitVec 8),
    (Bus.jtagMemApRead { b with mem } addr buf len).cnt = len ∧
      ∀ i < len, (Bus.jtagMemApRead { b with mem } addr buf len).buf i =
        mem (addr + BitVec.ofNat 32 i)

/-- A read with words starts at a word, and nothing is left of it at a page boundary. Without
words, nothing is left of it or no byte or halfword in front of the rest ends a page. -/
def ReadInPlace (b : Bus) (addr : Word) (len : Nat) : Prop :=
  if 4 ≤ (lead addr len).2 then
    (lead addr len).1 = addr ∧
      ((lead addr len).2 % 4 = 0 ∨ pageStart (wordsEnd addr len) = false)
  else
    (lead addr len).2 = 0 ∨ LeadInPage b addr len

instance (b : Bus) (addr : Word) (len : Nat) : Decidable (ReadInPlace b addr len) := by
  unfold ReadInPlace
  infer_instance

/-- Without words only what is behind a page boundary can be wrong. -/
theorem readsBytes_short (h : Lands b addr addr) (hlen : 0 < len)
    (hshort : (lead addr len).2 < 4) :
    ReadsBytes b addr len ↔
      (lead addr len).2 = 0 ∨ leadLanding b addr len = (lead addr len).1 := by
  obtain ⟨hle, hnear, haddr⟩ := lead_addr addr hlen
  have hread := fun (mem : Word → BitVec 8) (buf : Nat → BitVec 8) =>
    read_short buf (h.with_mem mem) hlen hshort
  constructor
  · intro hall
    by_cases hr : (lead addr len).2 = 0
    · exact Or.inl hr
    · refine Or.inr (addr_eq_of_bytes fun mem => ?_)
      have hbyte := (hall mem fun _ => 0).2 (len - (lead addr len).2) (by lia)
      rw [← haddr, (hread mem fun _ => 0).2.2 _ (Nat.le_refl _) (by lia), Nat.sub_self,
        BitVec.add_zero] at hbyte
      exact hbyte
  · intro hin mem buf
    obtain ⟨hcnt, hfirst, hlast⟩ := hread mem buf
    refine ⟨hcnt, fun i hi => ?_⟩
    by_cases hlt : i < len - (lead addr len).2
    · exact hfirst i hlt
    · have hland : leadLanding { b with mem } addr len = (lead addr len).1 :=
        hin.resolve_left (by lia)
      rw [hlast i (by lia) hi, hland, haddr, BitVec.add_assoc, ← BitVec.ofNat_add,
        Nat.add_sub_cancel' (by lia)]

/-- With words the bytes in front of them are lost. -/
theorem readsBytes_long (h : Lands b addr addr) (hlen : 0 < len) (hlong : 4 ≤ (lead addr len).2) :
    ReadsBytes b addr len ↔ (lead addr len).1 = addr ∧
      ((lead addr len).2 % 4 = 0 ∨ landing True (wordsEnd addr len) = wordsEnd addr len) := by
  obtain ⟨hle, hnear, haddr⟩ := lead_addr addr hlen
  have hread := fun (mem : Word → BitVec 8) (buf : Nat → BitVec 8) =>
    read_long buf (h.with_mem mem) hlen hlong
  constructor
  · intro hall
    have hstart : (lead addr len).1 = addr := by
      refine addr_eq_of_bytes fun mem => ?_
      have hbyte := (hall mem fun _ => 0).2 0 hlen
      rw [(hread mem fun _ => 0).2.1 0 (by lia), BitVec.add_zero, BitVec.add_zero] at hbyte
      exact hbyte
    refine ⟨hstart, ?_⟩
    by_cases hr : (lead addr len).2 % 4 = 0
    · exact Or.inl hr
    · refine Or.inr (addr_eq_of_bytes fun mem => ?_)
      have hbyte := (hall mem fun _ => 0).2 (4 * ((lead addr len).2 / 4)) (by lia)
      rw [(hread mem fun _ => 0).2.2 _ (Nat.le_refl _) (by lia), Nat.sub_self,
        BitVec.add_zero] at hbyte
      refine hbyte.trans ?_
      rw [wordsEnd, hstart]
  · rintro ⟨hstart, hin⟩ mem buf
    obtain ⟨hcnt, hfirst, hlast⟩ := hread mem buf
    have hall : len = (lead addr len).2 := by
      by_contra hne
      have hne' : addr + BitVec.ofNat 32 (len - (lead addr len).2) ≠ addr :=
        add_ne_self (by lia) (by lia)
      exact hne' (haddr.symm.trans hstart)
    refine ⟨hcnt, fun i hi => ?_⟩
    by_cases hlt : i < 4 * ((lead addr len).2 / 4)
    · rw [hfirst i hlt, hstart]
    · rw [hlast i (by lia) (by lia), hin.resolve_left (by lia), wordsEnd, hstart,
        BitVec.add_assoc, ← BitVec.ofNat_add, Nat.add_sub_cancel' (by lia)]

/-- A block read returns what is in the target's memory if and only if it needs no byte or
halfword in front of words and none behind a page boundary. -/
theorem jtagMemApRead_bytes_iff (h : Synced b) (ht : b.cache.tar = addr → b.hw.tar = addr)
    (hlen : 0 < len) : ReadsBytes b addr len ↔ ReadInPlace b addr len := by
  have hlands := h.lands ht
  unfold ReadInPlace
  by_cases hlong : 4 ≤ (lead addr len).2
  · rw [if_pos hlong, readsBytes_long hlands hlen hlong, landing_eq_iff, true_and,
      Bool.not_eq_true]
  · rw [if_neg hlong, readsBytes_short hlands hlen (by lia), leadInPage_iff]

/-- Two words over a page boundary, and a halfword and a byte. -/
theorem jtagMemApRead_bytes_sample :
    ReadsBytes sampleBus 0xffc 11 ∧ ¬ReadsBytes sampleBus 0x2003 9 :=
  ⟨(jtagMemApRead_bytes_iff sampleBus_synced (by decide) (by decide)).mpr (by decide),
    mt (jtagMemApRead_bytes_iff sampleBus_synced (by decide) (by decide)).mp (by decide)⟩

/-- Nine bytes at an odd address, whose words go to the start of the buffer, and five bytes of
which the last one is behind a page boundary. -/
theorem jtagMemApRead_misplaces :
    Synced sampleBus ∧ sampleBus.cache.tar = sampleBus.hw.tar ∧
      (¬∀ i < 9, (sampleBus.jtagMemApRead 0x2003 (fun _ => 0xaa) 9).buf i =
        sampleBus.mem (0x2003 + BitVec.ofNat 32 i)) ∧
      ¬∀ i < 5, (sampleBus.jtagMemApRead 0xffc (fun _ => 0xaa) 5).buf i =
        sampleBus.mem (0xffc + BitVec.ofNat 32 i) := by
  refine ⟨sampleBus_synced, rfl, ?_⟩
  decide

end Block

end YardIce.Adi
