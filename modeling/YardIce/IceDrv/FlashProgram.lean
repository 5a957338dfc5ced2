import YardIce.IceDrv.MemDispatch
import Mathlib.Data.List.GetD

/-!
# Programming the flash of the STM32F

`stm32f1_flash_write` and `stm32f2xx_flash_write` below `ice_mem_write`. They program whole
halfwords and whole words, and round the length up to them.

## Implementation notes

Programming a cell is a bitwise AND of its bytes. An access of the debug port goes to the cell that
holds its address, as in `jtag_mem_ap_wr16` and `jtag_mem_ap_wr32`. The flash is ready whenever the
driver polls it, and takes the keys.
-/

namespace YardIce.IceDrv

abbrev Byte := BitVec 8

/-! ## The drivers -/

/-- The flash with `LOCK` and `PG` of its control register, the memory of the caller from the
buffer on, and for the statements each byte read with the end of what the call was given. -/
structure Flash where
  locked : Bool
  pg : Bool
  mem : Word → Byte
  src : Nat → Byte
  reads : List (Nat × Nat)

namespace Flash

/-- The cell of `unit` bytes that holds an address is programmed. -/
def program (unit : Nat) (addr : Word) (data : Nat → Byte) (s : Flash) : Flash :=
  { s with
    mem := fun a =>
      if a.toNat / unit = addr.toNat / unit then s.mem a &&& data (a.toNat % unit) else s.mem a }

/-- `stm32f2_flash_wr32` and `stm32f10x_flash_wr16` -/
def flashWr (unit : Nat) (addr : Word) (data : Nat → Byte) (s : Flash) : Flash :=
  if s.locked then s else { s with pg := true }.program unit addr data

/-- `if (cr & LOCK)`: flash write is unlocked. -/
def unlock (s : Flash) : Flash := if s.locked then { s with locked := false } else s

/-- The loop over the cells; `lim` is the end of what the call was given. -/
def cellLoop (unit lim : Nat) : Nat → Nat → Word → Flash → Flash
  | 0, _, _, s => s
  | n + 1, p, addr, s =>
      let s := { s with reads := s.reads ++ (List.range unit).map fun k => (p + k, lim) }
      cellLoop unit lim n (p + unit) (addr + BitVec.ofNat 32 unit)
        (s.flashWr unit addr fun k => s.src (p + k))

end Flash

/-- The drivers, for cells of `unit` bytes. -/
def flashWrite (unit : Nat) : RegionOp Flash := fun ref p len s =>
  let n := (len + BitVec.ofNat 32 (unit - 1)) / BitVec.ofNat 32 unit
  (n * BitVec.ofNat 32 unit, s.unlock.cellLoop unit (p + len.toNat) n.toNat p ref.addr)

/-- `stm32f2xx_flash_write` -/
def stm32f2xxFlashWrite : RegionOp Flash := flashWrite 4

/-- `stm32f1_flash_write` -/
def stm32f1FlashWrite : RegionOp Flash := flashWrite 2

/-! ## The image -/

/-- A piece of the image, and what is in memory behind it. -/
structure Chunk where
  data : List Byte
  behind : Nat → Byte

/-- The memory from the buffer of a call on. -/
def Chunk.src (c : Chunk) (i : Nat) : Byte := c.data.getD i (c.behind i)

/-- The pieces are written one behind the other: each value returned with the length asked, and the
flash. -/
def writeChunks (map : List (MemEntry Flash)) : Nat → List Chunk → Flash →
    List (Word × Nat) × Flash
  | _, [], s => ([], s)
  | a, c :: cs, s =>
      let (ret, d) := iceMemWrite map (BitVec.ofNat 32 a) (BitVec.ofNat 32 c.data.length)
        { s with src := c.src }
      let (rets, s) := writeChunks map (a + c.data.length) cs d.target
      ((ret, c.data.length) :: rets, s)

/-- The erased flash -/
def Flash.erased (locked pg : Bool) : Flash := ⟨locked, pg, fun _ => 0xff, fun _ => 0, []⟩

/-- Erased flash with the image at an address -/
def imageAt (a : Nat) (image : List Byte) (x : Word) : Byte :=
  if a ≤ x.toNat then image.getD (x.toNat - a) 0xff else 0xff

/-- Every call returned the length asked and read only what it was given, and the flash holds the
image. -/
structure Programmed (a : Nat) (image : List Byte) (r : List (Word × Nat) × Flash) : Prop where
  returned : ∀ x ∈ r.1, x.1.toNat = x.2
  reads : ∀ x ∈ r.2.reads, x.1 < x.2
  flash : ∀ x, r.2.mem x = imageAt a image x

/-- The pieces begin and end in a region. -/
def InRegion (lo hi : Nat) : Nat → List Chunk → Prop
  | _, [] => True
  | a, c :: cs =>
      lo ≤ a ∧ a < hi ∧ a + c.data.length ≤ hi ∧ InRegion lo hi (a + c.data.length) cs

/-- The bytes from address `a` on are in one block of a region. -/
def MemEntry.OneBlock {σ : Type} (e : MemEntry σ) (a l : Nat) : Prop :=
  a + l ≤ e.start + ((a - e.start) / e.size.toNat + 1) * e.size.toNat

instance {σ : Type} (e : MemEntry σ) (a l : Nat) : Decidable (e.OneBlock a l) :=
  inferInstanceAs (Decidable (_ ≤ _))

/-- The pieces are whole cells, and begin at a cell or stay in a block. -/
def WholeCells (unit : Nat) (e : MemEntry Flash) : Nat → List Chunk → Prop
  | _, [] => True
  | a, c :: cs =>
      (unit ∣ c.data.length ∧ (e.OneBlock a c.data.length ∨ unit ∣ a)) ∧
        WholeCells unit e (a + c.data.length) cs

instance decidableInRegion (lo hi : Nat) : (a : Nat) → (cs : List Chunk) →
    Decidable (InRegion lo hi a cs)
  | _, [] => isTrue trivial
  | a, c :: cs =>
      have := decidableInRegion lo hi (a + c.data.length) cs
      inferInstanceAs (Decidable (lo ≤ a ∧ a < hi ∧ a + c.data.length ≤ hi ∧
        InRegion lo hi (a + c.data.length) cs))

instance decidableWholeCells (unit : Nat) (e : MemEntry Flash) : (a : Nat) → (cs : List Chunk) →
    Decidable (WholeCells unit e a cs)
  | _, [] => isTrue trivial
  | a, c :: cs =>
      have := decidableWholeCells unit e (a + c.data.length) cs
      inferInstanceAs (Decidable ((unit ∣ c.data.length ∧ (e.OneBlock a c.data.length ∨ unit ∣ a)) ∧
        WholeCells unit e (a + c.data.length) cs))

/-! ## What a call programs -/

/-- A length rounded up to whole cells. -/
def ceil (unit n : Nat) : Nat := (n + (unit - 1)) / unit * unit

/-- The flash behind `k` bytes from `p` that were programmed into the cells from address `a` on. -/
def Flash.burned (unit : Nat) (s : Flash) (p a k : Nat) : Word → Byte := fun x =>
  if a / unit * unit ≤ x.toNat ∧ x.toNat < a / unit * unit + k then
    s.mem x &&& s.src (p + (x.toNat - a / unit * unit))
  else s.mem x

/-- From `s` to `t` the cells from address `a` on were programmed, and what was given was read and
no more when `fits` holds. -/
structure Burns (unit : Nat) (s t : Flash) (p a k : Nat) (fits : Prop) : Prop where
  src : t.src = s.src
  mem : t.mem = s.burned unit p a k
  reads : (∀ x ∈ t.reads, x.1 < x.2) ↔ (∀ x ∈ s.reads, x.1 < x.2) ∧ fits

variable {unit p a k : Nat} {s t u : Flash} {fits : Prop}

theorem Burns.refl (h : t.mem = s.mem) (hsrc : t.src = s.src) (hreads : t.reads = s.reads) :
    Burns unit s t p a 0 True := by
  refine ⟨hsrc, ?_, by rw [hreads, and_true]⟩
  funext x
  rw [h, Flash.burned, if_neg (by lia)]

theorem Burns.congr {fits' : Prop} (h : Burns unit s t p a k fits) (hiff : fits ↔ fits') :
    Burns unit s t p a k fits' :=
  ⟨h.src, h.mem, by rw [h.reads, hiff]⟩

theorem Burns.trans (hu : 0 < unit) {k' : Nat} {fits' : Prop} (h : Burns unit s t p a k fits)
    (hk : unit ∣ k) (h' : Burns unit t u (p + k) (a + k) k' fits') :
    Burns unit s u p a (k + k') (fits ∧ fits') := by
  refine ⟨h'.src.trans h.src, ?_, by rw [h'.reads, h.reads, and_assoc]⟩
  obtain ⟨m, rfl⟩ := hk
  have hbase : (a + unit * m) / unit * unit = a / unit * unit + unit * m := by
    rw [Nat.add_mul_div_left _ _ hu, Nat.add_mul, Nat.mul_comm m]
  funext x
  rw [h'.mem, Flash.burned, h.mem, h.src, hbase]
  simp only [Flash.burned]
  generalize a / unit * unit = b
  generalize unit * m = n
  rcases Nat.lt_or_ge x.toNat (b + n) with hlt | hge
  · rw [if_neg (by lia)]
    rcases Nat.lt_or_ge x.toNat b with hbelow | hin
    · rw [if_neg (by lia), if_neg (by lia)]
    · rw [if_pos ⟨hin, hlt⟩, if_pos ⟨hin, by lia⟩]
  · have hoffs : p + n + (x.toNat - (b + n)) = p + (x.toNat - b) := by lia
    rw [if_neg (by lia : ¬(b ≤ x.toNat ∧ x.toNat < b + n)), hoffs]
    rcases Nat.lt_or_ge x.toNat (b + n + k') with hin | habove
    · rw [if_pos ⟨hge, hin⟩, if_pos ⟨by lia, by lia⟩]
    · rw [if_neg (by lia), if_neg (by lia)]

/-- Both units of the drivers. -/
theorem ceil_spec (hu : unit = 2 ∨ unit = 4) (n : Nat) :
    n ≤ ceil unit n ∧ ceil unit n < n + unit ∧ unit ∣ ceil unit n ∧
      (unit ∣ n ↔ ceil unit n = n) := by
  rcases hu with rfl | rfl
  · simp only [ceil]
    lia
  · simp only [ceil]
    lia

/-- A cell. -/
theorem flashWr_burns (hu : 0 < unit) (hlocked : s.locked = false) {addr : Word}
    (haddr : addr.toNat = a) :
    Burns unit s (s.flashWr unit addr fun k => s.src (p + k)) p a unit True := by
  have hwr : s.flashWr unit addr (fun k => s.src (p + k)) =
      { s with pg := true }.program unit addr fun k => s.src (p + k) := by
    rw [Flash.flashWr, if_neg (by rw [hlocked]; decide)]
  rw [hwr]
  refine ⟨rfl, ?_, by rw [and_true]; rfl⟩
  funext x
  show (if x.toNat / unit = addr.toNat / unit then s.mem x &&& s.src (p + x.toNat % unit)
    else s.mem x) = _
  rw [haddr, Flash.burned]
  have hx := Nat.div_add_mod' x.toNat unit
  have hlt := Nat.mod_lt x.toNat hu
  by_cases hcell : x.toNat / unit = a / unit
  · rw [hcell] at hx
    rw [if_pos hcell, if_pos (by lia)]
    have hoffs : x.toNat % unit = x.toNat - a / unit * unit := by lia
    rw [hoffs]
  · rw [if_neg hcell, if_neg]
    rintro ⟨hle, hlt'⟩
    exact hcell (Nat.div_eq_of_lt_le hle (by rw [Nat.succ_mul]; exact hlt'))

theorem Flash.unlock_unlocked (s : Flash) : s.unlock.locked = false ∧ s.unlock.mem = s.mem ∧
    s.unlock.src = s.src ∧ s.unlock.reads = s.reads := by
  rw [Flash.unlock]
  split
  · exact ⟨rfl, rfl, rfl, rfl⟩
  next h => exact ⟨(Bool.not_eq_true _).mp h, rfl, rfl, rfl⟩

theorem flashWr_locked (hlocked : s.locked = false) (addr : Word) (data : Nat → Byte) :
    (s.flashWr unit addr data).locked = false := by
  rw [Flash.flashWr, if_neg (by rw [hlocked]; decide)]
  exact hlocked

/-- The reads of a cell. -/
theorem cellReads_burns (hu : 0 < unit) (lim : Nat) :
    Burns unit s { s with reads := s.reads ++ (List.range unit).map fun k => (p + k, lim) } p a 0
      (p + unit ≤ lim) := by
  refine ⟨rfl, (Burns.refl rfl rfl rfl : Burns unit s s p a 0 True).mem, ?_⟩
  show (∀ x ∈ s.reads ++ (List.range unit).map fun k => (p + k, lim), x.1 < x.2) ↔ _
  rw [List.forall_mem_append, List.forall_mem_map]
  apply and_congr_right
  rintro -
  constructor
  · intro h
    have hlast := h (unit - 1) (List.mem_range.mpr (by lia))
    dsimp only at hlast
    lia
  · intro h k hk
    have hlt := List.mem_range.mp hk
    show p + k < lim
    lia

/-- The cells of a call. -/
theorem cellLoop_burns (hu : 0 < unit) (lim : Nat) (n : Nat) (hlocked : s.locked = false)
    (hend : a + n * unit ≤ 2 ^ 32) :
    Burns unit s (s.cellLoop unit lim n p (BitVec.ofNat 32 a)) p a (n * unit)
      (n = 0 ∨ p + n * unit ≤ lim) := by
  induction n generalizing s p a with
  | zero =>
      rw [Nat.zero_mul]
      exact (Burns.refl rfl rfl rfl).congr ⟨fun _ => Or.inl rfl, fun _ => trivial⟩
  | succ n ih =>
      rw [Nat.succ_mul] at hend ⊢
      have haddr : (BitVec.ofNat 32 a).toNat = a := by
        rw [BitVec.toNat_ofNat]
        exact Nat.mod_eq_of_lt (by lia)
      have hnext : BitVec.ofNat 32 a + BitVec.ofNat 32 unit = BitVec.ofNat 32 (a + unit) :=
        (BitVec.ofNat_add _ _).symm
      have hread := @cellReads_burns unit p a s hu lim
      have hlocked' : ({ s with
          reads := s.reads ++ (List.range unit).map fun k => (p + k, lim) } : Flash).locked =
          false := hlocked
      rw [Flash.cellLoop, hnext]
      generalize ({ s with
        reads := s.reads ++ (List.range unit).map fun k => (p + k, lim) } : Flash) = s₁
        at hread hlocked' ⊢
      have hcell : Burns unit s (s₁.flashWr unit (BitVec.ofNat 32 a) fun k => s₁.src (p + k)) p a
          unit (p + unit ≤ lim ∧ True) := by
        have hboth := hread.trans hu (Nat.dvd_zero unit) (flashWr_burns hu hlocked' haddr)
        rwa [Nat.zero_add] at hboth
      have hlocked₂ : (s₁.flashWr unit (BitVec.ofNat 32 a) fun k => s₁.src (p + k)).locked =
          false := flashWr_locked hlocked' _ _
      have hrest := ih (p := p + unit) hlocked₂ (by lia : a + unit + n * unit ≤ 2 ^ 32)
      have hall := hcell.trans hu (Nat.dvd_refl unit) hrest
      rw [Nat.add_comm unit] at hall
      refine hall.congr ⟨fun h => ?_, fun h => ?_⟩
      · rcases h.2 with hnone | hfits
        · have hfits := h.1.1
          rw [hnone, Nat.zero_mul]
          lia
        · lia
      · have hfits : p + (n * unit + unit) ≤ lim := h.resolve_left (Nat.succ_ne_zero n)
        exact ⟨⟨by lia, trivial⟩, Or.inr (by lia)⟩

/-- The number of cells. -/
theorem cells_toNat (hu : unit = 2 ∨ unit = 4) {len : Word} (hlen : len.toNat < 2 ^ 31) :
    ((len + BitVec.ofNat 32 (unit - 1)) / BitVec.ofNat 32 unit).toNat * unit =
      ceil unit len.toNat := by
  have hsum : (len + BitVec.ofNat 32 (unit - 1)).toNat = len.toNat + (unit - 1) := by
    rw [BitVec.toNat_add, BitVec.toNat_ofNat]
    lia
  have hunit : (BitVec.ofNat 32 unit).toNat = unit := by
    rw [BitVec.toNat_ofNat]
    lia
  rw [BitVec.toNat_udiv, hsum, hunit, ceil]

/-- A call of a driver programs its length rounded up to whole cells, and returns it. -/
theorem flashWrite_burns (hu : unit = 2 ∨ unit = 4) {ref : MemRef} {len : Word}
    (haddr : ref.addr = BitVec.ofNat 32 a) (hend : a + ceil unit len.toNat ≤ 2 ^ 32)
    (hlen : len.toNat < 2 ^ 31) :
    (flashWrite unit ref p len s).1.toNat = ceil unit len.toNat ∧
      Burns unit s (flashWrite unit ref p len s).2 p a (ceil unit len.toNat)
        (unit ∣ len.toNat) := by
  have hcells := cells_toNat hu hlen
  have hceil := ceil_spec hu len.toNat
  obtain ⟨hlocked, hmem, hsrc, hreads⟩ := s.unlock_unlocked
  rw [flashWrite]
  dsimp only
  generalize (len + BitVec.ofNat 32 (unit - 1)) / BitVec.ofNat 32 unit = n at hcells ⊢
  refine ⟨?_, ?_⟩
  · rw [BitVec.toNat_mul, BitVec.toNat_ofNat, ← hcells]
    have hunit : unit % 2 ^ 32 = unit := by lia
    rw [hunit, Nat.mod_eq_of_lt (by lia)]
  · have hunlock : Burns unit s s.unlock p a 0 True := Burns.refl hmem hsrc hreads
    have hloop := cellLoop_burns (s := s.unlock) (p := p) (by lia : 0 < unit) (p + len.toNat)
      n.toNat hlocked (by lia : a + n.toNat * unit ≤ 2 ^ 32)
    rw [hcells] at hloop
    have hall := hunlock.trans (by lia) (Nat.dvd_zero unit) hloop
    rw [Nat.zero_add] at hall
    rw [haddr]
    refine hall.congr ⟨fun h => hceil.2.2.2.mpr ?_, fun h => ⟨trivial, Or.inr ?_⟩⟩
    · rcases h.2 with hnone | hfits
      · rw [hnone, Nat.zero_mul] at hcells
        lia
      · lia
    · rw [hceil.2.2.2.mp h]

/-! ## A call of `ice_mem_write` -/

theorem ceil_mono (hu : unit = 2 ∨ unit = 4) {m n : Nat} (hle : m ≤ n) :
    ceil unit m ≤ ceil unit n := by
  rcases hu with rfl | rfl
  · simp only [ceil]
    lia
  · simp only [ceil]
    lia

theorem ceil_eq (hu : unit = 2 ∨ unit = 4) {m n : Nat} (hle : m ≤ n) (hge : n ≤ ceil unit m) :
    ceil unit m = ceil unit n := by
  rcases hu with rfl | rfl
  · simp only [ceil] at *
    lia
  · simp only [ceil] at *
    lia

theorem ceil_sub (hu : unit = 2 ∨ unit = 4) {m n : Nat} (hlt : ceil unit m < n) :
    ceil unit m + ceil unit (n - ceil unit m) = ceil unit n := by
  rcases hu with rfl | rfl
  · simp only [ceil] at *
    lia
  · simp only [ceil] at *
    lia

/-- A turn asks for the bytes up to the end of the block or of the request. -/
theorem blkLoop_cells (hu : unit = 2 ∨ unit = 4) {e : MemEntry Flash} (len : Word) (left : Nat)
    {n offs : Word} {c : Cursor Flash} {m : Nat} (haddr : c.addr = BitVec.ofNat 32 a)
    (hoffs : e.addr.base + offs = c.addr) (hm : m = min c.rem.toNat n.toNat)
    (hend : a + ceil unit m ≤ 2 ^ 32) (hlen : ceil unit m < 2 ^ 31) :
    ∃ ret : Word, ∃ t : Flash, ∃ call : Call Flash, ret.toNat = ceil unit m ∧
      Burns unit c.target t c.ptr a (ceil unit m) (unit ∣ m) ∧
      blkLoop (flashWrite unit) e len (left + 1) n offs c =
        if c.rem ≤ ret then
          .returned (len + (ret - c.rem)) { c with target := t, calls := c.calls ++ [call] }
        else
          blkLoop (flashWrite unit) e len left e.size (offs + ret)
            { rem := c.rem - ret, addr := c.addr + ret, ptr := c.ptr + ret.toNat, target := t,
              calls := c.calls ++ [call] } := by
  have hceil := ceil_spec hu m
  generalize hask : (if c.rem < n then c.rem else n) = ask
  have hasked : ask.toNat = m := by
    rw [← hask]
    split
    next hlt =>
      rw [BitVec.lt_def] at hlt
      lia
    next hge =>
      rw [BitVec.lt_def] at hge
      lia
  obtain ⟨hret, hburns⟩ := @flashWrite_burns unit c.ptr a c.target hu ⟨e.addr.base, offs⟩ ask
    (hoffs.trans haddr) (by rw [hasked]; exact hend) (by rw [hasked]; lia)
  rw [hasked] at hret hburns
  refine ⟨_, _, ⟨e, ⟨e.addr.base, offs⟩, c.ptr, ask⟩, hret, hburns, ?_⟩
  rw [blkLoop]
  simp only [hask]
  generalize (flashWrite unit ⟨e.addr.base, offs⟩ c.ptr ask c.target).1 = ret at hret ⊢
  have hmsb : ret.msb = false := BitVec.msb_eq_false_iff_two_mul_lt.mpr (by lia)
  have hzero : ret = 0 → ret = ask := by
    intro h
    have hnone : ret.toNat = 0 := by
      rw [h]
      rfl
    exact BitVec.eq_of_toNat_eq (by lia)
  rw [if_neg (by rw [hmsb]; exact fun h => Bool.false_ne_true h.2),
    if_neg fun h => h.1 (hzero h.2)]

/-- A call that reaches the end of the request is the last one. -/
theorem blkLoop_last (hu : unit = 2 ∨ unit = 4) {c : Cursor Flash} {len ret : Word} {t : Flash}
    {call : Call Flash} {m : Nat} {next o : Outcome Flash} {fits' : Prop}
    (hret : ret.toNat = ceil unit m) (hburns : Burns unit c.target t c.ptr a (ceil unit m) fits)
    (hloop : o = if c.rem ≤ ret then
        .returned (len + (ret - c.rem)) { c with target := t, calls := c.calls ++ [call] }
      else next)
    (hm : m ≤ c.rem.toNat) (hdone : c.rem.toNat ≤ ceil unit m) (hfits : fits ↔ fits') :
    ∃ d, o = .returned (len + BitVec.ofNat 32 (ceil unit c.rem.toNat - c.rem.toNat)) d ∧
      Burns unit c.target d.target c.ptr a (ceil unit c.rem.toNat) fits' := by
  have hle : c.rem ≤ ret := by
    rw [BitVec.le_def, hret]
    exact hdone
  have hsub : ret - c.rem = BitVec.ofNat 32 (ceil unit c.rem.toNat - c.rem.toNat) := by
    apply BitVec.eq_of_toNat_eq
    have hlt := ret.isLt
    rw [BitVec.toNat_sub_of_le hle, hret, ceil_eq hu hm hdone, BitVec.toNat_ofNat,
      Nat.mod_eq_of_lt]
    rw [← ceil_eq hu hm hdone]
    lia
  rw [hloop, if_pos hle, hsub]
  rw [ceil_eq hu hm hdone] at hburns
  exact ⟨_, rfl, hburns.congr hfits⟩

/-- The loop over the blocks goes on where the call before stopped, past the end of its block when
it was rounded up. -/
theorem blkLoop_burns (hu : unit = 2 ∨ unit = 4) {e : MemEntry Flash} {len : Word} {left : Nat}
    {n offs : Word} {c : Cursor Flash} (haddr : c.addr = BitVec.ofNat 32 a)
    (hoffs : e.addr.base + offs = c.addr) (hsize : unit ∣ e.size.toNat)
    (hrem : c.rem.toNat ≤ n.toNat + left * e.size.toNat)
    (hend : a + ceil unit c.rem.toNat ≤ 2 ^ 32) (hlen : ceil unit c.rem.toNat < 2 ^ 31) :
    ∃ d, blkLoop (flashWrite unit) e len (left + 1) n offs c =
        .returned (len + BitVec.ofNat 32 (ceil unit c.rem.toNat - c.rem.toNat)) d ∧
      Burns unit c.target d.target c.ptr a (ceil unit c.rem.toNat)
        (unit ∣ c.rem.toNat ∧ (c.rem.toNat ≤ n.toNat ∨ unit ∣ n.toNat)) := by
  induction left generalizing n offs c a with
  | zero =>
      have hm : min c.rem.toNat n.toNat = c.rem.toNat := by lia
      obtain ⟨ret, t, call, hret, hburns, hloop⟩ :=
        blkLoop_cells hu len 0 haddr hoffs hm.symm hend hlen
      exact blkLoop_last hu hret hburns hloop (Nat.le_refl _) (ceil_spec hu _).1
        ⟨fun h => ⟨h, Or.inl (by lia)⟩, fun h => h.1⟩
  | succ left ih =>
      obtain ⟨m, hm⟩ : ∃ m, m = min c.rem.toNat n.toNat := ⟨_, rfl⟩
      have hle : ceil unit m ≤ ceil unit c.rem.toNat := ceil_mono hu (by lia)
      have hceil := ceil_spec hu m
      obtain ⟨ret, t, call, hret, hburns, hloop⟩ :=
        blkLoop_cells hu len (left + 1) haddr hoffs hm (by lia) (by lia)
      rcases Nat.lt_or_ge (ceil unit m) c.rem.toNat with hmore | hdone
      · have hsub := ceil_sub hu hmore
        have hrest : (c.rem - ret).toNat = c.rem.toNat - ceil unit m := by
          rw [BitVec.toNat_sub_of_le (by rw [BitVec.le_def, hret]; lia), hret]
        have hret' : ret = BitVec.ofNat 32 (ceil unit m) := by
          apply BitVec.eq_of_toNat_eq
          rw [hret, BitVec.toNat_ofNat, Nat.mod_eq_of_lt (by lia)]
        have haddr' : c.addr + ret = BitVec.ofNat 32 (a + ceil unit m) := by
          rw [haddr, hret']
          exact (BitVec.ofNat_add _ _).symm
        have hoffs' : e.addr.base + (offs + ret) = c.addr + ret := by
          rw [← hoffs, BitVec.add_assoc]
        rw [Nat.succ_mul] at hrem
        obtain ⟨d, hd, hburns'⟩ := @ih (a + ceil unit m) e.size (offs + ret)
          { rem := c.rem - ret, addr := c.addr + ret, ptr := c.ptr + ret.toNat, target := t,
            calls := c.calls ++ [call] } haddr' hoffs'
          (by rw [hrest]; lia) (by rw [hrest]; lia) (by rw [hrest]; lia)
        dsimp only at hd hburns'
        rw [hrest] at hd hburns'
        rw [hret] at hburns'
        have hlast : ceil unit (c.rem.toNat - ceil unit m) - (c.rem.toNat - ceil unit m) =
            ceil unit c.rem.toNat - c.rem.toNat := by
          have hge := (ceil_spec hu (c.rem.toNat - ceil unit m)).1
          lia
        refine ⟨d, ?_, ?_⟩
        · rw [hloop, if_neg (by rw [BitVec.le_def, hret]; lia), hd, hlast]
        · rw [← hsub]
          refine (hburns.trans (by lia) hceil.2.2.1 hburns').congr ?_
          -- the block ends before the request does
          have hover : m = n.toNat ∧ n.toNat < c.rem.toNat := by lia
          rw [← hover.1]
          constructor
          · rintro ⟨hdvd, hdvd', -⟩
            have hsum := Nat.dvd_add hdvd' hceil.2.2.1
            rw [Nat.sub_add_cancel (by lia)] at hsum
            exact ⟨hsum, Or.inr hdvd⟩
          · rintro ⟨hdvd, hin | hdvd'⟩
            · lia
            · exact ⟨hdvd', Nat.dvd_sub hdvd hceil.2.2.1, Or.inr hsize⟩
      · refine blkLoop_last hu hret hburns hloop (by lia) hdone ?_
        rcases Nat.le_total c.rem.toNat n.toNat with hin | hover
        · rw [hm, Nat.min_eq_left hin]
          exact ⟨fun h => ⟨h, Or.inl hin⟩, fun h => h.1⟩
        · rw [Nat.min_eq_right hover] at hm
          subst hm
          constructor
          · intro hdvd
            have hwhole := hceil.2.2.2.mp hdvd
            exact ⟨by rw [show c.rem.toNat = n.toNat by lia]; exact hdvd, Or.inr hdvd⟩
          · rintro ⟨hdvd, hin | hdvd'⟩
            · rw [show n.toNat = c.rem.toNat by lia]
              exact hdvd
            · exact hdvd'

/-- A transfer from an address of a region that the region satisfies. -/
theorem memLoop_at {σ : Type} {op : MemOper σ → RegionOp σ} {guarded : Bool} {len ret : Word}
    {map : List (MemEntry σ)} {e : MemEntry σ} {c d : Cursor σ} (hf : FlatMap map) (he : e ∈ map)
    (hro : ¬ e.ReadOnly) (hc : e.Covers c.addr.toNat)
    (hblk : blkLoop (op e.op) e len
      (e.count.toNat - ((c.addr - (e.addr.base + e.addr.offs)) / e.size).toNat)
      (e.size - (c.addr - (e.addr.base + e.addr.offs +
        (c.addr - (e.addr.base + e.addr.offs)) / e.size * e.size)))
      (c.addr - e.addr.base) c = .returned ret d) :
    memLoop op guarded len map c = (ret, d) := by
  induction map with
  | nil => cases he
  | cons f map ih =>
      rw [memLoop]
      dsimp only
      rcases List.mem_cons.mp he with rfl | hin
      · have hne : e.bytes ≠ 0 := bytes_ne_zero (size_product_ne_zero hf.head hc)
        rw [if_neg (size_product_ne_zero hf.head hc),
          if_neg (by rw [outside_iff (hf.head hne) hne, not_not]; exact hc),
          if_neg fun h => hro h.2, hblk]
      · have hskip : ¬ f.Covers c.addr.toNat := by
          intro hfc
          have hasc := List.rel_of_pairwise_cons hf.ascending hin
            (by have := hfc.1; have := hfc.2; lia) (by have := hc.1; have := hc.2; lia)
          have hbelow := hfc.2
          have habove := hc.1
          lia
        split
        · exact ih hf.tail hin
        next hnz =>
          have hne := bytes_ne_zero hnz
          rw [if_pos ((outside_iff (hf.head hne) hne _).mpr hskip)]
          exact ih hf.tail hin

/-- A flash region of a map, in whole cells. -/
structure FlashRegion (unit : Nat) (map : List (MemEntry Flash)) (e : MemEntry Flash) : Prop where
  flat : FlatMap map
  mem : e ∈ map
  op : e.op.write = flashWrite unit
  writable : ¬ e.ReadOnly
  start : unit ∣ e.start
  size : unit ∣ e.size.toNat
  short : e.bytes < 2 ^ 31
  below : e.start + e.bytes < 2 ^ 32

variable {map : List (MemEntry Flash)} {e : MemEntry Flash}

/-- The loop over the blocks from the one of the address on, with `n` bytes left in it. -/
theorem FlashRegion.blkLoop_burns (hu : unit = 2 ∨ unit = 4) (hr : FlashRegion unit map e) {l : Nat}
    {n blk : Word} (hhi : a + l ≤ e.start + e.bytes) (hl : ceil unit l ≤ e.bytes)
    (hend : a + ceil unit l ≤ 2 ^ 32) (hblk : blk.toNat < e.count.toNat)
    (hto : a + n.toNat = e.start + (blk.toNat + 1) * e.size.toNat) :
    ∃ d, blkLoop e.op.write e (BitVec.ofNat 32 l) (e.count.toNat - blk.toNat) n
        (BitVec.ofNat 32 a - e.addr.base) ⟨BitVec.ofNat 32 a, BitVec.ofNat 32 l, 0, s, []⟩ =
        .returned (BitVec.ofNat 32 l + BitVec.ofNat 32 (ceil unit l - l)) d ∧
      Burns unit s d.target 0 a (ceil unit l)
        (unit ∣ l ∧ (a + l ≤ e.start + (blk.toNat + 1) * e.size.toNat ∨ unit ∣ a)) := by
  have hshort := hr.short
  have hge := (ceil_spec hu l).1
  have hlen : (BitVec.ofNat 32 l).toNat = l := by
    rw [BitVec.toNat_ofNat, Nat.mod_eq_of_lt (by lia)]
  have hcount : l ≤ n.toNat + (e.count.toNat - blk.toNat - 1) * e.size.toNat := by
    have hall : e.bytes = (e.count.toNat - blk.toNat - 1) * e.size.toNat +
        (blk.toNat + 1) * e.size.toNat := by
      rw [← Nat.add_mul, MemEntry.bytes]
      congr 1
      lia
    lia
  have hblock : unit ∣ n.toNat ↔ unit ∣ a := by
    have hend : unit ∣ e.start + (blk.toNat + 1) * e.size.toNat :=
      Nat.dvd_add hr.start (Dvd.dvd.mul_left hr.size _)
    rw [← hto] at hend
    exact ⟨fun h => (Nat.dvd_add_iff_left h).mpr hend, fun h => (Nat.dvd_add_iff_right h).mpr hend⟩
  have hoffs : e.addr.base + (BitVec.ofNat 32 a - e.addr.base) = BitVec.ofNat 32 a := by
    rw [BitVec.add_comm, BitVec.sub_add_cancel]
  have hleft : e.count.toNat - blk.toNat = e.count.toNat - blk.toNat - 1 + 1 := by lia
  have hloop := @IceDrv.blkLoop_burns unit a hu e (BitVec.ofNat 32 l)
    (e.count.toNat - blk.toNat - 1) n (BitVec.ofNat 32 a - e.addr.base)
    ⟨BitVec.ofNat 32 a, BitVec.ofNat 32 l, 0, s, []⟩ rfl hoffs hr.size
  dsimp only at hloop
  rw [hlen] at hloop
  obtain ⟨d, hd, hburns⟩ := hloop hcount hend (by lia)
  refine ⟨d, by rw [hr.op, hleft, hd], hburns.congr ?_⟩
  rw [← hto, hblock, Nat.add_le_add_iff_left]

/-- A call of `ice_mem_write` in a flash region programs its length rounded up to whole cells, and
returns that. -/
theorem iceMemWrite_burns (hu : unit = 2 ∨ unit = 4) (hr : FlashRegion unit map e) {l : Nat}
    (hlo : e.start ≤ a) (hlt : a < e.start + e.bytes) (hhi : a + l ≤ e.start + e.bytes) :
    (iceMemWrite map (BitVec.ofNat 32 a) (BitVec.ofNat 32 l) s).1.toNat = ceil unit l ∧
      Burns unit s (iceMemWrite map (BitVec.ofNat 32 a) (BitVec.ofNat 32 l) s).2.target 0 a
        (ceil unit l) (unit ∣ l ∧ (e.OneBlock a l ∨ unit ∣ a)) := by
  have hshort := hr.short
  have hbelow := hr.below
  have hceil := ceil_spec hu l
  have hbytes : unit ∣ e.bytes := Dvd.dvd.mul_left hr.size _
  have hfull : ceil unit l ≤ e.bytes ∧ a + ceil unit l ≤ 2 ^ 32 := by
    have hstart := hr.start
    rcases hu with rfl | rfl <;> lia
  have haddr : (BitVec.ofNat 32 a).toNat = a := by
    rw [BitVec.toNat_ofNat, Nat.mod_eq_of_lt (by lia)]
  have hcover : e.Covers (BitVec.ofNat 32 a).toNat := by
    rw [haddr]
    exact ⟨hlo, hlt⟩
  have hreturned : (BitVec.ofNat 32 l + BitVec.ofNat 32 (ceil unit l - l)).toNat = ceil unit l := by
    rw [← BitVec.ofNat_add, BitVec.toNat_ofNat, Nat.mod_eq_of_lt (by lia)]
    lia
  have hnumber : ((BitVec.ofNat 32 a - (e.addr.base + e.addr.offs)) / e.size).toNat =
      (a - e.start) / e.size.toNat := by
    rw [BitVec.toNat_udiv, BitVec.toNat_sub_of_le (BitVec.le_def.mpr (by rw [haddr]; exact hlo)),
      haddr]
    rfl
  obtain ⟨hblk, -, -, hto⟩ := firstBlock hcover
  rw [haddr] at hto
  obtain ⟨d, hd, hburns⟩ := hr.blkLoop_burns (s := s) hu hhi hfull.1 hfull.2 hblk hto
  have hcall : iceMemWrite map (BitVec.ofNat 32 a) (BitVec.ofNat 32 l) s =
      (BitVec.ofNat 32 l + BitVec.ofNat 32 (ceil unit l - l), d) :=
    @memLoop_at Flash MemOper.write true (BitVec.ofNat 32 l) _ map e
      ⟨BitVec.ofNat 32 a, BitVec.ofNat 32 l, 0, s, []⟩ d hr.flat hr.mem hr.writable hcover hd
  rw [hnumber] at hburns
  rw [hcall]
  exact ⟨hreturned, hburns⟩

/-! ## The pieces of an image -/

variable {chunks : List Chunk}

theorem and_erased (b : Byte) : b &&& 0xff = b := BitVec.and_allOnes

theorem imageAt_append (a : Nat) (image rest : List Byte) (x : Word) :
    imageAt a (image ++ rest) x = imageAt a image x &&& imageAt (a + image.length) rest x := by
  simp only [imageAt]
  rcases Nat.lt_or_ge x.toNat a with hbelow | hfrom
  · rw [if_neg (by lia), if_neg (by lia), if_neg (by lia)]
    rfl
  · rw [if_pos hfrom, if_pos hfrom]
    rcases Nat.lt_or_ge x.toNat (a + image.length) with hin | habove
    · rw [if_neg (by lia), List.getD_append _ _ _ _ (by lia), and_erased]
    · rw [if_pos habove, List.getD_append_right _ _ _ _ (by lia),
        List.getD_eq_getElem?_getD (l := image), List.getElem?_eq_none (by lia), Nat.sub_sub,
        Option.getD_none, BitVec.and_comm, and_erased]

/-- A piece of whole cells. -/
theorem Chunk.burned (c : Chunk) (s : Flash) (x : Word) :
    ({ s with src := c.src } : Flash).burned unit 0 a c.data.length x =
      s.mem x &&& imageAt (a / unit * unit) c.data x := by
  rw [Flash.burned, imageAt]
  generalize a / unit * unit = b
  dsimp only
  rcases Nat.lt_or_ge x.toNat b with hbelow | hfrom
  · rw [if_neg (by lia), if_neg (by lia), and_erased]
  · rw [if_pos hfrom]
    rcases Nat.lt_or_ge x.toNat (b + c.data.length) with hin | habove
    · rw [if_pos ⟨hfrom, hin⟩, Chunk.src, Nat.zero_add,
        List.getD_eq_getElem _ _ (by lia : x.toNat - b < c.data.length),
        List.getD_eq_getElem _ _ (by lia : x.toNat - b < c.data.length)]
    · rw [if_neg (by lia), List.getD_eq_getElem?_getD, List.getElem?_eq_none (by lia),
        Option.getD_none, and_erased]

theorem writeChunks_returned (hu : unit = 2 ∨ unit = 4) (hr : FlashRegion unit map e)
    (hin : InRegion e.start (e.start + e.bytes) a chunks) :
    (∀ x ∈ (writeChunks map a chunks s).1, x.1.toNat = x.2) ↔
      ∀ c ∈ chunks, unit ∣ c.data.length := by
  induction chunks generalizing a s with
  | nil => simp [writeChunks]
  | cons c chunks ih =>
      obtain ⟨hlo, hlt, hhi, hrest⟩ := hin
      obtain ⟨hret, -⟩ := iceMemWrite_burns (s := { s with src := c.src }) hu hr hlo hlt hhi
      rw [writeChunks]
      dsimp only
      rw [List.forall_mem_cons, List.forall_mem_cons, ih hrest, hret,
        (ceil_spec hu c.data.length).2.2.2]

theorem writeChunks_reads (hu : unit = 2 ∨ unit = 4) (hr : FlashRegion unit map e)
    (hin : InRegion e.start (e.start + e.bytes) a chunks) :
    (∀ x ∈ (writeChunks map a chunks s).2.reads, x.1 < x.2) ↔
      (∀ x ∈ s.reads, x.1 < x.2) ∧ WholeCells unit e a chunks := by
  induction chunks generalizing a s with
  | nil => simp [writeChunks, WholeCells]
  | cons c chunks ih =>
      obtain ⟨hlo, hlt, hhi, hrest⟩ := hin
      obtain ⟨-, hburns⟩ := iceMemWrite_burns (s := { s with src := c.src }) hu hr hlo hlt hhi
      rw [writeChunks]
      dsimp only
      rw [ih hrest, hburns.reads, WholeCells, and_assoc]

theorem writeChunks_mem (hu : unit = 2 ∨ unit = 4) (hr : FlashRegion unit map e)
    (hin : InRegion e.start (e.start + e.bytes) a chunks)
    (hwhole : ∀ c ∈ chunks, unit ∣ c.data.length) (x : Word) :
    (writeChunks map a chunks s).2.mem x =
      s.mem x &&& imageAt (a / unit * unit) (chunks.flatMap (·.data)) x := by
  induction chunks generalizing a s with
  | nil =>
      have hnone : imageAt (a / unit * unit) [] x = 0xff := by
        rw [imageAt, List.getD_nil, ite_self]
      rw [List.flatMap_nil, hnone, and_erased]
      rfl
  | cons c chunks ih =>
      obtain ⟨hlo, hlt, hhi, hrest⟩ := hin
      obtain ⟨-, hburns⟩ := iceMemWrite_burns (s := { s with src := c.src }) hu hr hlo hlt hhi
      obtain ⟨hdvd, hwhole⟩ := List.forall_mem_cons.mp hwhole
      have hbase : (a + c.data.length) / unit * unit = a / unit * unit + c.data.length := by
        obtain ⟨m, hm⟩ := hdvd
        rw [hm, Nat.add_mul_div_left _ _ (by lia), Nat.add_mul, Nat.mul_comm m]
      rw [writeChunks]
      dsimp only
      rw [ih hrest hwhole, hburns.mem, (ceil_spec hu _).2.2.2.mp hdvd, Chunk.burned, hbase,
        List.flatMap_cons, imageAt_append, BitVec.and_assoc]

/-- The image lies in the region. -/
theorem InRegion.total {lo hi : Nat} (hin : InRegion lo hi a chunks) (ha : a ≤ hi) :
    a + (chunks.flatMap (·.data)).length ≤ hi := by
  induction chunks generalizing a with
  | nil => exact ha
  | cons c chunks ih =>
      obtain ⟨-, -, hhi, hrest⟩ := hin
      have hall := ih hrest hhi
      rw [List.flatMap_cons, List.length_append]
      lia

theorem WholeCells.lengths (hwhole : WholeCells unit e a chunks) :
    ∀ c ∈ chunks, unit ∣ c.data.length := by
  induction chunks generalizing a with
  | nil => exact fun c hc => absurd hc List.not_mem_nil
  | cons c chunks ih => exact List.forall_mem_cons.mpr ⟨hwhole.1.1, ih hwhole.2⟩

/-- Only erased flash looks the same from two addresses. -/
theorem imageAt_shifted {b d : Nat} {image : List Byte} (hd : 0 < d)
    (hroom : b + image.length ≤ 2 ^ 32) (heq : ∀ x, imageAt b image x = imageAt (b + d) image x) :
    ∀ y ∈ image, y = 0xff := by
  have hbyte : ∀ i, image.getD i 0xff = 0xff := by
    intro i
    induction i using Nat.strongRecOn with
    | ind i ih =>
        rcases Nat.lt_or_ge i image.length with hin | hout
        · have hx : (BitVec.ofNat 32 (b + i)).toNat = b + i := by
            rw [BitVec.toNat_ofNat, Nat.mod_eq_of_lt (by lia)]
          have hi := heq (BitVec.ofNat 32 (b + i))
          rw [imageAt, imageAt, hx, if_pos (Nat.le_add_right b i), Nat.add_sub_cancel_left] at hi
          rw [hi]
          split
          next hle =>
            exact ih _ (by lia)
          next => rfl
        · rw [List.getD_eq_getElem?_getD, List.getElem?_eq_none hout, Option.getD_none]
  intro y hy
  obtain ⟨i, hi, rfl⟩ := List.getElem_of_mem hy
  rw [← hbyte i, List.getD_eq_getElem _ _ hi]

theorem imageAt_erased {image : List Byte} (hff : ∀ y ∈ image, y = 0xff) (x : Word) :
    imageAt a image x = 0xff := by
  rw [imageAt]
  split
  · rw [List.getD_eq_getElem?_getD]
    cases hi : image[x.toNat - a]? with
    | none => rfl
    | some y => exact hff y (List.mem_of_getElem? hi)
  · rfl

/-- An image is programmed as it is cut if and only if the pieces are whole cells and begin at
cells; an erased image may begin elsewhere, in pieces that stay in their blocks. -/
theorem writeChunks_programmed (hu : unit = 2 ∨ unit = 4) (hr : FlashRegion unit map e)
    (hin : InRegion e.start (e.start + e.bytes) a chunks) (ha : a < e.start + e.bytes)
    (locked pg : Bool) :
    Programmed a (chunks.flatMap (·.data)) (writeChunks map a chunks (.erased locked pg)) ↔
      WholeCells unit e a chunks ∧ (unit ∣ a ∨ ∀ y ∈ chunks.flatMap (·.data), y = 0xff) := by
  have hbelow := hr.below
  have htotal := hin.total ha.le
  have hreads := writeChunks_reads (s := .erased locked pg) hu hr hin
  have hmem := writeChunks_mem (s := .erased locked pg) hu hr hin
  have hcell := Nat.div_add_mod' a unit
  generalize chunks.flatMap (·.data) = image at htotal hmem ⊢
  constructor
  · intro h
    have hcells := (hreads.mp h.reads).2
    refine ⟨hcells, ?_⟩
    rcases Nat.eq_zero_or_pos (a % unit) with haligned | hd
    · exact Or.inl (Nat.dvd_of_mod_eq_zero haligned)
    · refine Or.inr (imageAt_shifted (b := a / unit * unit) hd (by lia) fun x => ?_)
      have hx := hmem hcells.lengths x
      rw [h.flash] at hx
      rw [hcell, hx, Flash.erased, BitVec.and_comm, and_erased]
  · rintro ⟨hcells, hplace⟩
    refine ⟨?_, hreads.mpr ⟨fun x hx => absurd hx List.not_mem_nil, hcells⟩, fun x => ?_⟩
    · exact (writeChunks_returned hu hr hin).mpr hcells.lengths
    · rw [hmem hcells.lengths, Flash.erased, BitVec.and_comm, and_erased]
      rcases hplace with haligned | hff
      · rw [Nat.div_mul_cancel haligned]
      · rw [imageAt_erased hff, imageAt_erased hff]

/-- The flash of `stm32f20xxc_mem`; reading it is not modelled. -/
def stm32f20xxcFlash : MemEntry Flash where
  flags := 0x0a
  addr := ⟨0x08000000, 0⟩
  count := 256
  size := 1024
  op := ⟨fun _ _ _ s => (0, s), stm32f2xxFlashWrite⟩

theorem stm32f20xxcFlash_region : FlashRegion 4 [stm32f20xxcFlash] stm32f20xxcFlash := by
  refine ⟨⟨?_, List.pairwise_singleton _ _⟩, List.mem_singleton_self _, rfl, ?_, ?_, ?_, ?_, ?_⟩
  · intro e he hne
    obtain rfl := List.mem_singleton.mp he
    rw [MemEntry.NonWrapping]
    decide
  · rw [MemEntry.ReadOnly]
    decide
  all_goals decide

/-- Two words in pieces of one word. -/
theorem writeChunks_programmed_words :
    Programmed 0x08000000 [1, 2, 3, 4, 5, 6, 7, 8]
      (writeChunks [stm32f20xxcFlash] 0x08000000
        [⟨[1, 2, 3, 4], fun _ => 0⟩, ⟨[5, 6, 7, 8], fun _ => 0⟩] (.erased true false)) :=
  (@writeChunks_programmed 4 0x08000000 [stm32f20xxcFlash] stm32f20xxcFlash
    [⟨[1, 2, 3, 4], fun _ => 0⟩, ⟨[5, 6, 7, 8], fun _ => 0⟩] (.inr rfl) stm32f20xxcFlash_region
    (by decide) (by decide) true false).mpr (by decide)

/-- A piece of three bytes returns four, reads behind its end and spoils the next piece. -/
theorem writeChunks_not_programmed : ¬ Programmed 0x08000000 [1, 2, 3, 4, 5, 6]
    (writeChunks [stm32f20xxcFlash] 0x08000000
      [⟨[1, 2, 3], fun _ => 0⟩, ⟨[4, 5, 6], fun _ => 0⟩] (.erased true false)) := by
  intro h
  have hreturned : (4, 3) ∈ (writeChunks [stm32f20xxcFlash] 0x08000000
      [⟨[1, 2, 3], fun _ => 0⟩, ⟨[4, 5, 6], fun _ => 0⟩] (.erased true false)).1 := by
    decide
  exact absurd (h.returned _ hreturned) (by decide)

end YardIce.IceDrv
