import YardIce.Lib.Runs
import Mathlib.Data.BitVec
import Mathlib.Data.List.Basic

/-!
# The page cache of the NAND

`nand_mem_read`, `nand_mem_write` and `nand_mem_erase` go through one buffer of a page, which may
hold data that are not on the chip yet.

## Implementation notes

The chip is an array of pages. Whether an operation on it fails is an argument of the call: the
write-back of the pending page, which comes first, and the operation on the page or the block.
-/

namespace YardIce.Nand

abbrev Byte := BitVec 8
abbrev Word := BitVec 32

/-- `nand_chip_t`. A page number fits an `int`, and a page fits the buffer. -/
structure Chip where
  dataSize : Nat
  pgsPerBlk : Nat
  two_le : 2 ≤ dataSize
  le : dataSize ≤ 512
  pos : 0 < pgsPerBlk

/-- `blk_size` -/
def Chip.blkSize (c : Chip) : Nat := c.dataSize * c.pgsPerBlk

/-- The chip, and `nand_cache`, `cache_pg` and `cache_wp`. -/
structure Device where
  mem : Int → Nat → Byte
  cache : Nat → Byte
  cachePg : Int
  cacheWp : Bool

/-- Which operations on the chip fail. -/
structure Faults where
  writeBack : Bool
  transfer : Bool

namespace Device

variable (c : Chip) (s : Device)

/-- `nand_page_write` -/
def nandPageWrite (fails : Bool) (page : Int) : Option Device :=
  if fails then none
  else
    some { s with
      mem := fun pg i => if pg = page ∧ i < c.dataSize then s.cache i else s.mem pg i }

/-- `nand_page_read` -/
def nandPageRead (fails : Bool) (page : Int) : Option Device :=
  if fails then none
  else
    some { s with cache := fun i => if i < c.dataSize then s.mem page i else s.cache i }

/-- `nand_block_erase` -/
def nandBlockErase (fails : Bool) (block : Int) : Option Device :=
  if fails then none
  else
    some { s with
      mem := fun pg i =>
        if block * c.pgsPerBlk ≤ pg ∧ pg < (block + 1) * c.pgsPerBlk then 0xff else s.mem pg i }

/-- `cache_pg = -1` after a failed operation. -/
def forget : Device := { s with cacheWp := false, cachePg := -1 }

/-- The bytes up to the end of the page. -/
def chunk (offs len : Word) : Nat := min len.toNat (c.dataSize - offs.toNat % c.dataSize)

/-- `nand_mem_write`, behind the write-back. -/
def writeCached (f : Faults) (offs len : Word) (buf : Nat → Byte) : Option Nat × Device :=
  let pg := offs.toNat / c.dataSize
  let fin := (offs + len).toNat / c.dataSize
  let pos := offs.toNat % c.dataSize
  let n := chunk c offs len
  let s := { s with cache := fun i => if pos ≤ i ∧ i < pos + n then buf (i - pos) else s.cache i }
  if fin ≠ pg then
    -- write through
    match s.nandPageWrite c f.transfer pg with
    | none => (none, s.forget)
    | some s => (some n, { s with cacheWp := false, cachePg := pg })
  else (some n, { s with cacheWp := true, cachePg := pg })

/-- `nand_mem_write` -/
def nandMemWrite (f : Faults) (offs len : Word) (buf : Nat → Byte) : Option Nat × Device :=
  let pg : Int := (offs.toNat / c.dataSize : Nat)
  if pg ≠ s.cachePg ∧ s.cacheWp then
    match s.nandPageWrite c f.writeBack s.cachePg with
    | none => (none, s.forget)
    | some s => writeCached c { s with cacheWp := false } f offs len buf
  else writeCached c s f offs len buf

/-- The bytes of the page in the buffer. -/
def readCached (offs len : Word) : List Byte :=
  (List.range (chunk c offs len)).map fun i => s.cache (offs.toNat % c.dataSize + i)

/-- `nand_mem_read`, behind the write-back. -/
def readPage (f : Faults) (offs len : Word) : Option (List Byte) × Device :=
  let pg : Int := (offs.toNat / c.dataSize : Nat)
  if pg ≠ s.cachePg then
    match s.nandPageRead c f.transfer pg with
    | none => (none, s.forget)
    | some s =>
        let s := { s with cachePg := pg }
        (some (s.readCached c offs len), s)
  else (some (s.readCached c offs len), s)

/-- `nand_mem_read` -/
def nandMemRead (f : Faults) (offs len : Word) : Option (List Byte) × Device :=
  if s.cacheWp then
    match s.nandPageWrite c f.writeBack s.cachePg with
    | none => (none, s.forget)
    | some s => readPage c { s with cacheWp := false } f offs len
  else readPage c s f offs len

/-- `nand_mem_erase`, behind the write-back. -/
def eraseBlock (f : Faults) (offs len : Word) : Option Nat × Device :=
  let s := { s with cachePg := -1 }
  if offs.toNat % c.blkSize ≠ 0 then (some len.toNat, s)
  else
    match s.nandBlockErase c f.transfer (offs.toNat / c.blkSize : Nat) with
    | none => (none, s)
    | some s => (some len.toNat, s)

/-- `nand_mem_erase` -/
def nandMemErase (f : Faults) (offs len : Word) : Option Nat × Device :=
  if s.cacheWp then
    match s.nandPageWrite c f.writeBack s.cachePg with
    | none => (none, s.forget)
    | some s => eraseBlock c { s with cacheWp := false } f offs len
  else eraseBlock c s f offs len

/-- What the chip holds at an address, or will hold when the pending page is written. -/
def content (a : Nat) : Byte :=
  if s.cacheWp ∧ s.cachePg = (a / c.dataSize : Nat) then s.cache (a % c.dataSize)
  else s.mem (a / c.dataSize : Nat) (a % c.dataSize)

end Device

/-! ## Runs -/

/-- A call. -/
inductive Op where
  | read (f : Faults) (offs len : Word)
  | write (f : Faults) (offs len : Word) (buf : Nat → Byte)
  | erase (f : Faults) (offs len : Word)

/-- The device, and the value that each byte should have. -/
structure Book where
  nand : Device
  value : Nat → Byte

namespace Book

/-- A successful write is noted. -/
def noteWrite (value : Nat → Byte) (offs : Word) (buf : Nat → Byte) : Option Nat → Nat → Byte
  | none => value
  | some n => fun a =>
      if offs.toNat ≤ a ∧ a < offs.toNat + n then buf (a - offs.toNat) else value a

/-- The erase of a block is noted. -/
def noteErase (c : Chip) (value : Nat → Byte) (offs : Word) : Option Nat → Nat → Byte
  | none => value
  | some _ =>
      if offs.toNat % c.blkSize = 0 then fun a =>
        if a / c.blkSize = offs.toNat / c.blkSize then 0xff else value a
      else value

/-- A call is made. -/
def step (c : Chip) (b : Book) : Op → Option Book
  | .read f offs len => some { b with nand := (b.nand.nandMemRead c f offs len).2 }
  | .write f offs len buf =>
      let (ret, nand) := b.nand.nandMemWrite c f offs len buf
      some ⟨nand, noteWrite b.value offs buf ret⟩
  | .erase f offs len =>
      let (ret, nand) := b.nand.nandMemErase c f offs len
      some ⟨nand, noteErase c b.value offs ret⟩

/-- Nothing was done yet. -/
def start (c : Chip) (mem : Int → Nat → Byte) (cache : Nat → Byte) : Book :=
  ⟨⟨mem, cache, -1, false⟩, fun a => mem (a / c.dataSize : Nat) (a % c.dataSize)⟩

/-- The call may change the byte. -/
def Given (a : Nat) : Op → Prop
  | .read _ _ _ => False
  | .write _ offs len _ => offs.toNat ≤ a ∧ a < offs.toNat + len.toNat
  | .erase _ offs len => offs.toNat ≤ a ∧ a < offs.toNat + len.toNat

/-- A read that succeeds returns the values of the bytes. -/
def ReadsValues (c : Chip) (b : Book) : Op → Prop
  | .read f offs len => ∀ bytes, (b.nand.nandMemRead c f offs len).1 = some bytes →
      bytes = (List.range (Device.chunk c offs len)).map fun i => b.value (offs.toNat + i)
  | _ => True

/-- The call does not lose pending data, and does not go beyond the bytes it was given:
the pending page is written back; a part of a page is written only into the page that is in the
buffer; a block is erased only when the whole of it was given. -/
def Careful (c : Chip) (b : Book) : Op → Prop
  | .read f _ _ => b.nand.cacheWp = true → f.writeBack = false
  | .write f offs len _ =>
      let pg : Int := (offs.toNat / c.dataSize : Nat)
      let through := (offs + len).toNat / c.dataSize ≠ offs.toNat / c.dataSize
      if b.nand.cachePg = pg then
        b.nand.cacheWp = true → through → f.transfer = false
      else
        (b.nand.cacheWp = true → f.writeBack = false) ∧
        (offs.toNat % c.dataSize = 0 ∧ c.dataSize ≤ len.toNat ∨ through ∧ f.transfer = true)
  | .erase f offs len =>
      (b.nand.cacheWp = true → f.writeBack = false) ∧
      (offs.toNat % c.blkSize = 0 → f.transfer = true ∨ c.blkSize ≤ len.toNat)

instance (c : Chip) (b : Book) : DecidablePred (Careful c b) := fun op => by
  unfold Careful
  split <;> infer_instance

end Book

/-! ## The bytes of a page -/

/-- The bytes of a chunk are the ones of its page from its position on. -/
theorem mem_chunk_iff {ds a offs n : Nat} (hds : 0 < ds) (hn : n ≤ ds - offs % ds) :
    (offs ≤ a ∧ a < offs + n) ↔
      a / ds = offs / ds ∧ offs % ds ≤ a % ds ∧ a % ds < offs % ds + n := by
  have ha := Nat.div_add_mod a ds
  have ho := Nat.div_add_mod offs ds
  have hlt := Nat.mod_lt offs hds
  constructor
  · rintro ⟨hle, hend⟩
    have hsplit : a = offs % ds + (a - offs) + ds * (offs / ds) := by omega
    have hrest : offs % ds + (a - offs) < ds := by omega
    have hdiv : a / ds = offs / ds := by
      rw [hsplit, Nat.add_mul_div_left _ _ hds, Nat.div_eq_of_lt hrest, Nat.zero_add]
    rw [hdiv] at ha
    exact ⟨hdiv, by omega, by omega⟩
  · rintro ⟨hdiv, hle, hend⟩
    rw [hdiv] at ha
    constructor <;> omega

namespace Device

variable {c : Chip} {s : Device}

theorem chunk_le (c : Chip) (offs len : Word) :
    chunk c offs len ≤ c.dataSize - offs.toNat % c.dataSize := Nat.min_le_right ..

/-- A page in the buffer that is not pending is the one on the chip. -/
def Clean (c : Chip) (s : Device) : Prop :=
  s.cacheWp = false → ∀ pg : Nat, s.cachePg = pg → ∀ i < c.dataSize, s.cache i = s.mem pg i

theorem clean_of_invalid (h : s.cachePg = -1) : s.Clean c := fun _ _ _ => by omega

/-- The pending page was written. -/
def flushed (c : Chip) (s : Device) : Device :=
  { s with
    mem := fun pg i => if pg = s.cachePg ∧ i < c.dataSize then s.cache i else s.mem pg i
    cacheWp := false }

theorem content_flushed (h : s.cacheWp = true) (a : Nat) :
    (s.flushed c).content c a = s.content c a := by
  have hlt := Nat.mod_lt a (Nat.lt_of_lt_of_le Nat.zero_lt_two c.two_le)
  unfold flushed content
  simp only [h, Bool.false_eq_true, false_and, if_false, true_and, hlt, and_true]
  exact if_congr eq_comm rfl rfl

theorem clean_flushed (s : Device) : (s.flushed c).Clean c := fun _ _ hpg _ hi =>
  (if_pos ⟨hpg.symm, hi⟩).symm

/-- What a write of a chunk does: it succeeds, and the bytes of the chunk are changed, or it fails
and no byte is. -/
structure Writes (c : Chip) (s : Device) (offs : Word) (buf : Nat → Byte) (n : Nat)
    (r : Option Nat × Device) : Prop where
  clean : r.2.Clean c
  ret : r.1 = none ∨ r.1 = some n
  content : ∀ a, r.2.content c a =
    if r.1 = some n ∧ offs.toNat ≤ a ∧ a < offs.toNat + n then buf (a - offs.toNat)
    else s.content c a

/-- The buffer with a chunk copied into it. -/
def merged (c : Chip) (s : Device) (offs : Word) (buf : Nat → Byte) (n i : Nat) : Byte :=
  if offs.toNat % c.dataSize ≤ i ∧ i < offs.toNat % c.dataSize + n then
    buf (i - offs.toNat % c.dataSize)
  else s.cache i

/-- The page in the buffer is the one to write, or all of it is written. -/
def Fits (c : Chip) (s : Device) (offs len : Word) : Prop :=
  s.cachePg = (offs.toNat / c.dataSize : Nat) ∨
    offs.toNat % c.dataSize = 0 ∧ c.dataSize ≤ len.toNat

theorem content_merged (hclean : s.Clean c) {offs len : Word} (buf : Nat → Byte)
    (hpending : s.cacheWp = true → s.cachePg = (offs.toNat / c.dataSize : Nat))
    (hfits : s.Fits c offs len) (a : Nat) :
    (if a / c.dataSize = offs.toNat / c.dataSize then
      s.merged c offs buf (chunk c offs len) (a % c.dataSize)
    else s.mem (a / c.dataSize : Nat) (a % c.dataSize)) =
      if offs.toNat ≤ a ∧ a < offs.toNat + chunk c offs len then buf (a - offs.toNat)
      else s.content c a := by
  have hds : 0 < c.dataSize := Nat.lt_of_lt_of_le Nat.zero_lt_two c.two_le
  have hlt := Nat.mod_lt a hds
  have hiff := mem_chunk_iff (a := a) hds (chunk_le c offs len)
  have ha := Nat.div_add_mod a c.dataSize
  have ho := Nat.div_add_mod offs.toNat c.dataSize
  by_cases hpage : a / c.dataSize = offs.toNat / c.dataSize
  · rw [if_pos hpage]
    unfold merged
    by_cases hin : offs.toNat ≤ a ∧ a < offs.toNat + chunk c offs len
    · have hpos := (hiff.mp hin).2
      rw [if_pos hin, if_pos hpos]
      congr 1
      rw [hpage] at ha
      omega
    · rw [if_neg hin, if_neg fun hpos => hin (hiff.mpr ⟨hpage, hpos⟩)]
      have hcached : s.cachePg = (a / c.dataSize : Nat) := by
        rcases hfits with hpg | ⟨hzero, hlen⟩
        · rw [hpg, hpage]
        · -- all of the page is in the chunk
          exact absurd (hiff.mpr ⟨hpage, by omega, by unfold chunk; omega⟩) hin
      unfold content
      split_ifs with hwp
      · rfl
      · exact hclean (by simpa using fun h => hwp ⟨h, hcached⟩) _ hcached _ hlt
  · rw [if_neg hpage, if_neg fun hin => hpage (hiff.mp hin).1]
    unfold content
    rw [if_neg]
    rintro ⟨hwp, hpg⟩
    exact hpage (Int.ofNat.inj (hpg.symm.trans (hpending hwp)))

theorem writeCached_writes (hclean : s.Clean c) {f : Faults} {offs len : Word} (buf : Nat → Byte)
    (hpending : s.cacheWp = true → s.cachePg = (offs.toNat / c.dataSize : Nat))
    (hfits : s.Fits c offs len ∨
      (offs + len).toNat / c.dataSize ≠ offs.toNat / c.dataSize ∧ f.transfer = true)
    (hkept : s.cacheWp = true → (offs + len).toNat / c.dataSize ≠ offs.toNat / c.dataSize →
      f.transfer = false) :
    s.Writes c offs buf (chunk c offs len) (s.writeCached c f offs len buf) := by
  have hmod : ∀ a, a % c.dataSize < c.dataSize := fun a =>
    Nat.mod_lt a (Nat.lt_of_lt_of_le Nat.zero_lt_two c.two_le)
  unfold writeCached
  by_cases hthrough : (offs + len).toNat / c.dataSize ≠ offs.toNat / c.dataSize
  · simp only [if_pos hthrough, nandPageWrite]
    cases hfails : f.transfer with
    | true =>
        have hwp : s.cacheWp = false := by
          cases hwp : s.cacheWp with
          | true => exact hfails.symm.trans (hkept hwp hthrough)
          | false => rfl
        refine ⟨clean_of_invalid rfl, .inl rfl, fun a => ?_⟩
        simp only [if_true, reduceCtorEq, false_and, if_false, content, forget, hwp,
          Bool.false_eq_true]
    | false =>
        have hfits' := hfits.resolve_right fun h => Bool.false_ne_true (hfails.symm.trans h.2)
        refine ⟨fun _ pg hpg j hj => ?_, .inr rfl, fun a => ?_⟩
        · exact (if_pos ⟨hpg.symm, hj⟩).symm
        · have hmerged := content_merged hclean buf hpending hfits' a
          simp only [Bool.false_eq_true, if_false, true_and]
          rw [← hmerged]
          unfold content
          simp only [Bool.false_eq_true, false_and, if_false, hmod, and_true, Nat.cast_inj]
          rfl
  · have hfits' := hfits.resolve_right fun h => hthrough h.1
    rw [if_neg hthrough]
    refine ⟨fun h => absurd h.symm Bool.false_ne_true, .inr rfl, fun a => ?_⟩
    have hmerged := content_merged hclean buf hpending hfits' a
    simp only [true_and]
    rw [← hmerged]
    unfold content
    simp only [true_and, Nat.cast_inj]
    exact if_congr eq_comm rfl rfl

theorem nandMemWrite_writes (hclean : s.Clean c) {f : Faults} {offs len : Word}
    (buf : Nat → Byte) (hcareful :
      if s.cachePg = (offs.toNat / c.dataSize : Nat) then
        s.cacheWp = true → (offs + len).toNat / c.dataSize ≠ offs.toNat / c.dataSize →
          f.transfer = false
      else
        (s.cacheWp = true → f.writeBack = false) ∧
        (offs.toNat % c.dataSize = 0 ∧ c.dataSize ≤ len.toNat ∨
          (offs + len).toNat / c.dataSize ≠ offs.toNat / c.dataSize ∧ f.transfer = true)) :
    s.Writes c offs buf (chunk c offs len) (s.nandMemWrite c f offs len buf) := by
  unfold nandMemWrite
  by_cases hpage : s.cachePg = (offs.toNat / c.dataSize : Nat)
  · rw [if_pos hpage] at hcareful
    simp only []
    rw [if_neg fun h => h.1 hpage.symm]
    exact writeCached_writes hclean buf (fun _ => hpage) (.inl (.inl hpage)) hcareful
  · rw [if_neg hpage] at hcareful
    cases hwp : s.cacheWp with
    | false =>
        simp only [Bool.false_eq_true, and_false, if_false]
        have hno : s.cacheWp = true → False := fun h => Bool.false_ne_true (hwp.symm.trans h)
        exact writeCached_writes hclean buf (fun h => (hno h).elim) (hcareful.2.imp_left .inr)
          fun h => (hno h).elim
    | true =>
        simp only [nandPageWrite, hcareful.1 hwp, ne_eq, Ne.symm hpage, not_false_eq_true, and_self,
          if_true, Bool.false_eq_true, if_false]
        have hwrites := writeCached_writes (f := f) (clean_flushed s) buf
          (fun h => absurd h Bool.false_ne_true) (hcareful.2.imp_left .inr)
          fun h => absurd h Bool.false_ne_true
        refine ⟨hwrites.clean, hwrites.ret, fun a => ?_⟩
        have hcontent := hwrites.content a
        rwa [content_flushed hwp] at hcontent

/-- What a read does: no byte is changed, and if it succeeds it returns the bytes. -/
structure Reads (c : Chip) (s : Device) (offs : Word) (n : Nat)
    (r : Option (List Byte) × Device) : Prop where
  clean : r.2.Clean c
  content : ∀ a, r.2.content c a = s.content c a
  bytes : ∀ l, r.1 = some l → l = (List.range n).map fun i => s.content c (offs.toNat + i)

theorem readCached_eq (hclean : s.Clean c) (hwp : s.cacheWp = false) {offs len : Word}
    (hpage : s.cachePg = (offs.toNat / c.dataSize : Nat)) :
    s.readCached c offs len =
      (List.range (chunk c offs len)).map fun i => s.content c (offs.toNat + i) := by
  have hds : 0 < c.dataSize := Nat.lt_of_lt_of_le Nat.zero_lt_two c.two_le
  have ho := Nat.div_add_mod offs.toNat c.dataSize
  refine List.map_congr_left fun i hi => ?_
  obtain ⟨hdiv, -, -⟩ := (mem_chunk_iff hds (chunk_le c offs len)).mp
    ⟨Nat.le_add_right offs.toNat i, Nat.add_lt_add_left (List.mem_range.mp hi) _⟩
  have ha := Nat.div_add_mod (offs.toNat + i) c.dataSize
  rw [hdiv] at ha
  have hmod : (offs.toNat + i) % c.dataSize = offs.toNat % c.dataSize + i := by omega
  unfold content
  simp only [hwp, Bool.false_eq_true, false_and, if_false, hdiv, hmod]
  exact hclean hwp _ hpage _ (hmod ▸ Nat.mod_lt _ hds)

theorem readPage_reads (hclean : s.Clean c) (hwp : s.cacheWp = false) (f : Faults)
    (offs len : Word) : s.Reads c offs (chunk c offs len) (s.readPage c f offs len) := by
  unfold readPage
  by_cases hpage : ((offs.toNat / c.dataSize : Nat) : Int) = s.cachePg
  · simp only [hpage, ne_eq, not_true_eq_false, if_false]
    exact ⟨hclean, fun _ => rfl, fun l hl =>
      (Option.some.inj hl).symm.trans (readCached_eq hclean hwp hpage.symm)⟩
  · simp only [ne_eq, hpage, not_false_eq_true, if_true, nandPageRead]
    cases hfails : f.transfer with
    | true =>
        refine ⟨clean_of_invalid rfl, fun a => ?_, fun l hl => nomatch hl⟩
        simp only [if_true, content, forget, hwp, Bool.false_eq_true, false_and, if_false]
    | false =>
        have hloaded : Clean c { s with
            cache := fun i =>
              if i < c.dataSize then s.mem (offs.toNat / c.dataSize : Nat) i else s.cache i
            cachePg := (offs.toNat / c.dataSize : Nat) } := fun _ pg hpg i hi => by
          have hpg' : ((offs.toNat / c.dataSize : Nat) : Int) = pg := hpg
          rw [← hpg']
          exact if_pos hi
        have hsame : ∀ a, content c { s with
            cache := fun i =>
              if i < c.dataSize then s.mem (offs.toNat / c.dataSize : Nat) i else s.cache i
            cachePg := (offs.toNat / c.dataSize : Nat) } a = s.content c a := fun a => by
          simp only [content, hwp, Bool.false_eq_true, false_and, if_false]
        refine ⟨hloaded, hsame, fun l hl => ?_⟩
        rw [← Option.some.inj hl]
        refine (readCached_eq hloaded hwp rfl).trans ?_
        simp only [hsame]

theorem nandMemRead_reads (hclean : s.Clean c) {f : Faults} (offs len : Word)
    (hcareful : s.cacheWp = true → f.writeBack = false) :
    s.Reads c offs (chunk c offs len) (s.nandMemRead c f offs len) := by
  unfold nandMemRead
  cases hwp : s.cacheWp with
  | false => exact readPage_reads hclean hwp f offs len
  | true =>
      simp only [if_true, nandPageWrite, hcareful hwp, Bool.false_eq_true, if_false]
      have hreads := readPage_reads (s := s.flushed c) (clean_flushed s) rfl f offs len
      refine ⟨hreads.clean, fun a => (hreads.content a).trans (content_flushed hwp a), fun l hl => ?_⟩
      rw [hreads.bytes l hl]
      simp only [content_flushed hwp]

/-- What an erase does: if it succeeds at the start of a block, the bytes of the block are `0xff`,
else no byte is changed. -/
structure Erases (c : Chip) (s : Device) (offs : Word) (r : Option Nat × Device) : Prop where
  clean : r.2.Clean c
  content : ∀ a, r.2.content c a =
    if r.1 ≠ none ∧ offs.toNat % c.blkSize = 0 ∧ a / c.blkSize = offs.toNat / c.blkSize then 0xff
    else s.content c a

/-- The pages of a block have its bytes. -/
theorem page_in_block (c : Chip) (a b : Nat) :
    ((b : Int) * c.pgsPerBlk ≤ (a / c.dataSize : Nat) ∧
      ((a / c.dataSize : Nat) : Int) < ((b : Int) + 1) * c.pgsPerBlk) ↔ a / c.blkSize = b := by
  unfold Chip.blkSize
  rw [← Nat.div_div_eq_div_mul, Nat.div_eq_iff c.pos]
  norm_cast
  have hpos := c.pos
  have hmul : (b + 1) * c.pgsPerBlk = b * c.pgsPerBlk + c.pgsPerBlk := Nat.succ_mul ..
  omega

theorem eraseBlock_erases (hwp : s.cacheWp = false) (f : Faults) (offs len : Word) :
    s.Erases c offs (s.eraseBlock c f offs len) := by
  unfold eraseBlock
  by_cases hstart : offs.toNat % c.blkSize = 0
  · simp only [hstart, ne_eq, not_true_eq_false, if_false, nandBlockErase]
    cases hfails : f.transfer with
    | true =>
        refine ⟨clean_of_invalid rfl, fun a => ?_⟩
        simp only [if_true, ne_eq, not_true_eq_false, false_and, if_false, content, hwp,
          Bool.false_eq_true]
    | false =>
        refine ⟨clean_of_invalid rfl, fun a => ?_⟩
        simp only [content, hwp, Bool.false_eq_true, false_and, if_false, page_in_block, ne_eq,
          reduceCtorEq, not_false_eq_true, true_and, hstart]
  · simp only [hstart, ne_eq, not_false_eq_true, if_true]
    refine ⟨clean_of_invalid rfl, fun a => ?_⟩
    simp only [content, hwp, Bool.false_eq_true, false_and, and_false, if_false, hstart]

theorem nandMemErase_erases {f : Faults} (offs len : Word)
    (hcareful : s.cacheWp = true → f.writeBack = false) :
    s.Erases c offs (s.nandMemErase c f offs len) := by
  unfold nandMemErase
  cases hwp : s.cacheWp with
  | false => exact eraseBlock_erases hwp f offs len
  | true =>
      simp only [if_true, nandPageWrite, hcareful hwp, Bool.false_eq_true, if_false]
      have herases := eraseBlock_erases (c := c) (s := s.flushed c) rfl f offs len
      refine ⟨herases.clean, fun a => ?_⟩
      have hcontent := herases.content a
      rwa [content_flushed hwp] at hcontent

theorem nandMemErase_failed {f : Faults} {offs : Word} (hstart : offs.toNat % c.blkSize = 0)
    (hfails : f.transfer = true) (len : Word) : (s.nandMemErase c f offs len).1 = none := by
  have hblock : ∀ t : Device, (t.eraseBlock c f offs len).1 = none := fun t => by
    simp only [eraseBlock, hstart, ne_eq, not_true_eq_false, if_false, nandBlockErase, hfails,
      if_true]
  unfold nandMemErase
  split_ifs
  · cases hwrite : s.nandPageWrite c f.writeBack s.cachePg with
    | none => rfl
    | some t => exact hblock _
  · exact hblock s

theorem blkSize_pos (c : Chip) : 0 < c.blkSize :=
  Nat.mul_pos (Nat.lt_of_lt_of_le Nat.zero_lt_two c.two_le) c.pos

end Device

namespace Book

variable {c : Chip} {b b' : Book}

/-- Every byte is on the chip or in the pending page with its value. -/
structure Sound (c : Chip) (b : Book) : Prop where
  clean : b.nand.Clean c
  content : ∀ a, b.nand.content c a = b.value a

/-- What a call may do. -/
structure Invisible (c : Chip) (b b' : Book) (op : Op) : Prop where
  sound : b'.Sound c
  reads : b.ReadsValues c op
  outside : ∀ a, ¬ Given a op → b'.nand.content c a = b.nand.content c a

theorem sound_start (c : Chip) (mem : Int → Nat → Byte) (cache : Nat → Byte) :
    (start c mem cache).Sound c :=
  ⟨Device.clean_of_invalid rfl, fun a => by
    simp only [Device.content, start, Bool.false_eq_true, false_and, if_false]⟩

theorem read_invisible (hb : b.Sound c) {f : Faults} {offs len : Word}
    (hcareful : b.Careful c (.read f offs len)) (hstep : b.step c (.read f offs len) = some b') :
    b.Invisible c b' (.read f offs len) := by
  have hreads := Device.nandMemRead_reads hb.clean offs len hcareful
  obtain rfl := Option.some.inj hstep
  refine ⟨⟨hreads.clean, fun a => (hreads.content a).trans (hb.content a)⟩, fun l hl => ?_,
    fun a _ => hreads.content a⟩
  rw [hreads.bytes l hl]
  simp only [hb.content]

theorem write_invisible (hb : b.Sound c) {f : Faults} {offs len : Word} {buf : Nat → Byte}
    (hcareful : b.Careful c (.write f offs len buf))
    (hstep : b.step c (.write f offs len buf) = some b') :
    b.Invisible c b' (.write f offs len buf) := by
  have hwrites := Device.nandMemWrite_writes hb.clean buf hcareful
  obtain rfl := Option.some.inj hstep
  refine ⟨⟨hwrites.clean, fun a => (hwrites.content a).trans ?_⟩, trivial, fun a hout => ?_⟩
  · rw [hb.content]
    show _ = noteWrite b.value offs buf (b.nand.nandMemWrite c f offs len buf).1 a
    rcases hwrites.ret with hret | hret <;> rw [hret]
    · exact if_neg fun h => nomatch h.1
    · simp only [true_and, noteWrite]
  · refine (hwrites.content a).trans (if_neg fun h => hout ⟨h.2.1, h.2.2.trans_le ?_⟩)
    exact Nat.add_le_add_left (Nat.min_le_left ..) _

theorem erase_invisible (hb : b.Sound c) {f : Faults} {offs len : Word}
    (hcareful : b.Careful c (.erase f offs len)) (hstep : b.step c (.erase f offs len) = some b') :
    b.Invisible c b' (.erase f offs len) := by
  have herases := Device.nandMemErase_erases (c := c) offs len hcareful.1
  obtain rfl := Option.some.inj hstep
  refine ⟨⟨herases.clean, fun a => (herases.content a).trans ?_⟩, trivial, fun a hout => ?_⟩
  · rw [hb.content]
    show _ = noteErase c b.value offs (b.nand.nandMemErase c f offs len).1 a
    cases hret : (b.nand.nandMemErase c f offs len).1 with
    | none => exact if_neg fun h => h.1 rfl
    | some n =>
        simp only [ne_eq, reduceCtorEq, not_false_eq_true, true_and, noteErase]
        split_ifs <;> simp_all
  · refine (herases.content a).trans (if_neg fun h => hout ?_)
    obtain ⟨hdone, hstart, hblock⟩ := h
    have hwhole : c.blkSize ≤ len.toNat := (hcareful.2 hstart).resolve_left fun hfails =>
      hdone (Device.nandMemErase_failed hstart hfails len)
    have hlt := Nat.mod_lt a (Device.blkSize_pos c)
    have hrange := (mem_chunk_iff (n := c.blkSize) (Device.blkSize_pos c) (by omega)).mpr
      ⟨hblock, by omega, by omega⟩
    exact ⟨hrange.1, by omega⟩

theorem step_invisible (hb : b.Sound c) {op : Op} (hcareful : b.Careful c op)
    (hstep : b.step c op = some b') : b.Invisible c b' op := by
  cases op with
  | read f offs len => exact read_invisible hb hcareful hstep
  | write f offs len buf => exact write_invisible hb hcareful hstep
  | erase f offs len => exact erase_invisible hb hcareful hstep

/-- In a run of careful calls every byte keeps its value, on the chip or in the pending page, and
the next careful call returns the values of the bytes it reads and changes none outside of those it
was given. -/
theorem nand_cache_invisible (c : Chip) (mem : Int → Nat → Byte) (cache : Nat → Byte)
    (ops : List Op) (t : Book) (hcareful : Lib.Along (step c) (Careful c) (start c mem cache) ops)
    (hrun : Lib.exec (step c) (start c mem cache) ops = some t) :
    t.Sound c ∧ ∀ op t', t.Careful c op → t.step c op = some t' → t.Invisible c t' op := by
  have hsound : t.Sound c := Lib.exec_invariant
    (fun b op b' hb hop hstep => (step_invisible hb hop hstep).sound) (sound_start c mem cache)
    hcareful hrun
  exact ⟨hsound, fun op t' hop hstep => step_invisible hsound hop hstep⟩

/-- A chip with four bytes in a page and two pages in a block. -/
def small : Chip := ⟨4, 2, by decide, by decide, by decide⟩

theorem nand_cache_invisible_small :
    ∃ t : Book, t.value 1 = 7 ∧ t.Sound small ∧
      ∀ op t', t.Careful small op → t.step small op = some t' → t.Invisible small t' op :=
  ⟨_, by decide, nand_cache_invisible small (fun _ _ => 0xff) (fun _ => 0)
    [.read ⟨false, false⟩ 0 4, .write ⟨false, false⟩ 1 1 (fun _ => 7),
      .write ⟨false, true⟩ 4 4 (fun _ => 9), .erase ⟨false, false⟩ 8 8] _ (by decide) rfl⟩

/-- A byte written into a page that is not in the buffer changes the others of the page. -/
theorem partial_write_clobbers :
    ¬ ∀ (c : Chip) (mem : Int → Nat → Byte) (cache : Nat → Byte) (ops : List Op) (t : Book),
      Lib.exec (step c) (start c mem cache) ops = some t → t.Sound c := by
  intro hall
  have hbyte := (hall small (fun _ _ => 0xff) (fun _ => 0)
    [.write ⟨false, false⟩ 0 1 fun _ => 7] _ rfl).content 1
  exact absurd hbyte (by decide)

end Book

end YardIce.Nand
