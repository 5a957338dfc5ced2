import YardIce.Lib.AlignedTransfer
import YardIce.Lib.ByteMemory
import YardIce.IceDrv.MemMap

/-!
# Drivers with byte accesses only

`default_mem_read` and `default_mem_write` of `ice_drv.c` over the accesses that `ice_open` fills
in for a driver. The fallbacks for halfwords and words make all their byte accesses at one address,
so that a unit keeps its last byte only.

## Implementation notes

A read leaves its value in `*val`; a function for a read takes what is there before. The values
that the accesses return are ignored by the transfers.
-/

namespace YardIce.IceDrv

open YardIce.Lib

/-- `ice_rd8_t`, `ice_rd16_t` and `ice_rd32_t`. -/
abbrev RdOp (σ : Type) (w : Nat) := Word → BitVec w → σ → Int × BitVec w × σ

/-- `ice_wr8_t`, `ice_wr16_t` and `ice_wr32_t`. -/
abbrev WrOp (σ : Type) (w : Nat) := Word → BitVec w → σ → Int × σ

variable {σ : Type}

/-- The accesses of `ice_oper`, as far as a driver has them. -/
structure IceOper (σ : Type) where
  wr8 : Option (WrOp σ 8)
  rd8 : Option (RdOp σ 8)
  wr16 : Option (WrOp σ 16)
  rd16 : Option (RdOp σ 16)
  wr32 : Option (WrOp σ 32)
  rd32 : Option (RdOp σ 32)

/-- The accesses of `ice_operations_t`. -/
structure IceOperations (σ : Type) where
  wr8 : WrOp σ 8
  rd8 : RdOp σ 8
  wr16 : WrOp σ 16
  rd16 : RdOp σ 16
  wr32 : WrOp σ 32
  rd32 : RdOp σ 32

/-- `null_ice_fail` for a read. -/
def nullIceRd {w : Nat} : RdOp σ w := fun _ data s => (-1, data, s)

/-- `null_ice_fail` for a write. -/
def nullIceWr {w : Nat} : WrOp σ w := fun _ _ s => (-1, s)

/-- `default_ice_rd16`. -/
def defaultIceRd16 (rd8 : RdOp σ 8) : RdOp σ 16 := fun addr data s =>
  let (ret, lo, s) := rd8 addr (data.extractLsb' 0 8) s
  if ret < 0 then (ret, data.extractLsb' 8 8 ++ lo, s)
  else
    let (ret, hi, s) := rd8 addr (data.extractLsb' 8 8) s
    (ret, hi ++ lo, s)

/-- `default_ice_wr16`. -/
def defaultIceWr16 (wr8 : WrOp σ 8) : WrOp σ 16 := fun addr data s =>
  let (ret, s) := wr8 addr (data.setWidth 8) s
  if ret < 0 then (ret, s) else wr8 addr ((data >>> 8).setWidth 8) s

/-- `default_ice_rd32`. -/
def defaultIceRd32 (rd16 : RdOp σ 16) : RdOp σ 32 := fun addr data s =>
  let (ret, lo, s) := rd16 addr (data.extractLsb' 0 16) s
  if ret < 0 then (ret, data.extractLsb' 16 16 ++ lo, s)
  else
    let (ret, hi, s) := rd16 addr (data.extractLsb' 16 16) s
    (ret, hi ++ lo, s)

/-- `default_ice_wr32`. -/
def defaultIceWr32 (wr16 : WrOp σ 16) : WrOp σ 32 := fun addr data s =>
  let (ret, s) := wr16 addr (data.setWidth 16) s
  if ret < 0 then (ret, s) else wr16 addr ((data >>> 16).setWidth 16) s

/-- The accesses that `ice_open` leaves: those of the driver, else those of `null_ice_oper`. -/
def iceOpen (oper : IceOper σ) : IceOperations σ :=
  let wr8 := oper.wr8.getD nullIceWr
  let rd8 := oper.rd8.getD nullIceRd
  let wr16 := oper.wr16.getD (defaultIceWr16 wr8)
  let rd16 := oper.rd16.getD (defaultIceRd16 rd8)
  { wr8, rd8, wr16, rd16
    wr32 := oper.wr32.getD (defaultIceWr32 wr16)
    rd32 := oper.rd32.getD (defaultIceRd32 rd16) }

/-! ## The transfers -/

/-- The target, the buffer, `ptr` and `cnt` of `default_mem_read`. -/
structure MemRead (σ : Type) where
  target : σ
  buf : Nat → BitVec 8
  ptr : Nat
  cnt : Nat

namespace MemRead

variable (ops : IceOperations σ) (junk : Word)

/-- A byte of the buffer. -/
def byte (s : MemRead σ) (pos : Word) : MemRead σ :=
  let (_, data, target) := ops.rd8 pos (s.buf s.ptr) s.target
  ⟨target, fill s.buf s.ptr 1 fun _ => data, s.ptr + 1, s.cnt + 1⟩

/-- A halfword, by way of a variable that holds `junk`. -/
def half (s : MemRead σ) (pos : Word) : MemRead σ :=
  let (_, data, target) := ops.rd16 pos (junk.setWidth 16) s.target
  ⟨target, fill s.buf s.ptr 2 (lane (data.setWidth 32)), s.ptr + 2, s.cnt + 2⟩

/-- A word. -/
def word (s : MemRead σ) (pos : Word) : MemRead σ :=
  let (_, data, target) := ops.rd32 pos junk s.target
  ⟨target, fill s.buf s.ptr 4 (lane data), s.ptr + 4, s.cnt + 4⟩

end MemRead

/-- `default_mem_read`. -/
def defaultMemRead (ops : IceOperations σ) (junk : Word) (addr : MemRef) (buf : Nat → BitVec 8)
    (len : Word) (target : σ) : MemRead σ :=
  Place.transfer ⟨target, buf, 0, 0⟩ addr.addr len.toNat (MemRead.byte ops)
    (MemRead.half ops junk) (fun len => len / 4) (wordByWord (MemRead.word ops junk))

/-- The target, `ptr` and `cnt` of `default_mem_write`. -/
structure MemWrite (σ : Type) where
  target : σ
  ptr : Nat
  cnt : Nat

namespace MemWrite

variable (ops : IceOperations σ) (buf : Nat → BitVec 8)

/-- A byte of the buffer. -/
def byte (s : MemWrite σ) (pos : Word) : MemWrite σ :=
  ⟨(ops.wr8 pos (buf s.ptr) s.target).2, s.ptr + 1, s.cnt + 1⟩

/-- A halfword. -/
def half (s : MemWrite σ) (pos : Word) : MemWrite σ :=
  let data := (buf s.ptr).setWidth 16 ||| (buf (s.ptr + 1)).setWidth 16 <<< 8
  ⟨(ops.wr16 pos data s.target).2, s.ptr + 2, s.cnt + 2⟩

/-- A word. -/
def word (s : MemWrite σ) (pos : Word) : MemWrite σ :=
  let data := (buf s.ptr).setWidth 32 ||| (buf (s.ptr + 1)).setWidth 32 <<< 8 |||
    (buf (s.ptr + 2)).setWidth 32 <<< 16 ||| (buf (s.ptr + 3)).setWidth 32 <<< 24
  ⟨(ops.wr32 pos data s.target).2, s.ptr + 4, s.cnt + 4⟩

end MemWrite

/-- `default_mem_write`. -/
def defaultMemWrite (ops : IceOperations σ) (addr : MemRef) (buf : Nat → BitVec 8) (len : Word)
    (target : σ) : MemWrite σ :=
  Place.transfer ⟨target, 0, 0⟩ addr.addr len.toNat (MemWrite.byte ops buf)
    (MemWrite.half ops buf) (fun len => len / 4) (wordByWord (MemWrite.word ops buf))
/-! ## The fallbacks -/

/-- A write that succeeds and leaves one byte of its value at the address. -/
def PutsByte {w : Nat} (wr : WrOp (Word → BitVec 8) w) (last : BitVec w → BitVec 8) : Prop :=
  ∀ addr x mem, 0 ≤ (wr addr x mem).1 ∧ (wr addr x mem).2 = Function.update mem addr (last x)

/-- A read that succeeds with a value made of the byte at the address. -/
def GetsByte {w : Nat} (rd : RdOp (Word → BitVec 8) w) (all : BitVec 8 → BitVec w) : Prop :=
  ∀ addr x mem, 0 ≤ (rd addr x mem).1 ∧ (rd addr x mem).2.1 = all (mem addr) ∧
    (rd addr x mem).2.2 = mem

section Fallbacks

variable {w : Nat}

/-- Both halves go to one address. -/
theorem PutsByte.wr16 {wr8 : WrOp (Word → BitVec 8) 8} (h : PutsByte wr8 id) :
    PutsByte (defaultIceWr16 wr8) fun x => (x >>> 8).setWidth 8 := by
  intro addr x mem
  obtain ⟨hret, hlow⟩ := h addr (x.setWidth 8) mem
  obtain ⟨hret', hhigh⟩ := h addr ((x >>> 8).setWidth 8) (wr8 addr (x.setWidth 8) mem).2
  unfold defaultIceWr16
  simp only [Int.not_lt.mpr hret, if_false]
  exact ⟨hret', by rw [hhigh, hlow, Function.update_idem]; rfl⟩

theorem PutsByte.wr32 {wr16 : WrOp (Word → BitVec 8) 16}
    (h : PutsByte wr16 fun x => (x >>> 8).setWidth 8) :
    PutsByte (defaultIceWr32 wr16) fun x => lane x 3 := by
  intro addr x mem
  obtain ⟨hret, hlow⟩ := h addr (x.setWidth 16) mem
  obtain ⟨hret', hhigh⟩ := h addr ((x >>> 16).setWidth 16) (wr16 addr (x.setWidth 16) mem).2
  have hlast : ((((x >>> 16).setWidth 16 : BitVec 16) >>> 8).setWidth 8 : BitVec 8) = lane x 3 := by
    refine BitVec.eq_of_getLsbD_eq fun i hi => ?_
    have hwidth : 8 + i < 16 := by lia
    have hpos : 16 + (8 + i) = 24 + i := by lia
    rw [lane_getLsbD _ _ hi]
    simp [hi, hwidth, hpos]
  unfold defaultIceWr32
  simp only [Int.not_lt.mpr hret, if_false]
  refine ⟨hret', ?_⟩
  rw [hhigh, hlow, Function.update_idem]
  exact congrArg _ hlast

theorem GetsByte.rd16 {rd8 : RdOp (Word → BitVec 8) 8} (h : GetsByte rd8 id) :
    GetsByte (defaultIceRd16 rd8) fun b => b ++ b := by
  intro addr x mem
  obtain ⟨hret, hlow, hmem⟩ := h addr (x.extractLsb' 0 8) mem
  obtain ⟨hret', hhigh, hmem'⟩ := h addr (x.extractLsb' 8 8) (rd8 addr (x.extractLsb' 0 8) mem).2.2
  unfold defaultIceRd16
  simp only [Int.not_lt.mpr hret, if_false]
  refine ⟨hret', ?_, hmem'.trans hmem⟩
  rw [hhigh, hlow, hmem]
  rfl

theorem GetsByte.rd32 {rd16 : RdOp (Word → BitVec 8) 16} (h : GetsByte rd16 fun b => b ++ b) :
    GetsByte (defaultIceRd32 rd16) fun b => lanes fun _ => b := by
  intro addr x mem
  obtain ⟨hret, hlow, hmem⟩ := h addr (x.extractLsb' 0 16) mem
  obtain ⟨hret', hhigh, hmem'⟩ :=
    h addr (x.extractLsb' 16 16) (rd16 addr (x.extractLsb' 0 16) mem).2.2
  unfold defaultIceRd32
  simp only [Int.not_lt.mpr hret, if_false]
  refine ⟨hret', ?_, hmem'.trans hmem⟩
  rw [hhigh, hlow, hmem]
  exact lanes_twice (mem addr)

end Fallbacks

/-- A driver that has byte accesses only, over a memory of bytes. -/
structure ByteOnly (oper : IceOper (Word → BitVec 8)) : Prop where
  wr8 : ∃ wr, oper.wr8 = some wr ∧ PutsByte wr id
  rd8 : ∃ rd, oper.rd8 = some rd ∧ GetsByte rd id
  wr16 : oper.wr16 = none
  rd16 : oper.rd16 = none
  wr32 : oper.wr32 = none
  rd32 : oper.rd32 = none

/-- The accesses behind `ice_open` with the byte that each leaves or finds. -/
structure OneByte (ops : IceOperations (Word → BitVec 8)) : Prop where
  wr8 : PutsByte ops.wr8 id
  rd8 : GetsByte ops.rd8 id
  wr16 : PutsByte ops.wr16 fun x => (x >>> 8).setWidth 8
  rd16 : GetsByte ops.rd16 fun b => b ++ b
  wr32 : PutsByte ops.wr32 fun x => lane x 3
  rd32 : GetsByte ops.rd32 fun b => lanes fun _ => b

theorem ByteOnly.iceOpen {oper : IceOper (Word → BitVec 8)} (h : ByteOnly oper) :
    OneByte (iceOpen oper) := by
  obtain ⟨wr, hwr, hput⟩ := h.wr8
  obtain ⟨rd, hrd, hget⟩ := h.rd8
  simp only [IceDrv.iceOpen, hwr, hrd, h.wr16, h.rd16, h.wr32, h.rd32, Option.getD_some,
    Option.getD_none]
  exact {
    wr8 := hput
    rd8 := hget
    wr16 := hput.wr16
    rd16 := hget.rd16
    wr32 := hput.wr16.wr32
    rd32 := hget.rd16.rd32 }

/-! ## Units -/

/-- A unit of `default_mem_write`. -/
def MemWrite.unit (ops : IceOperations σ) (buf : Nat → BitVec 8) :
    Nat → MemWrite σ → Word → MemWrite σ
  | 1 => byte ops buf
  | 2 => half ops buf
  | _ => word ops buf

/-- A unit of `default_mem_read`. -/
def MemRead.unit (ops : IceOperations σ) (junk : Word) : Nat → MemRead σ → Word → MemRead σ
  | 1 => byte ops
  | 2 => half ops junk
  | _ => word ops junk

theorem defaultMemWrite_eq (ops : IceOperations σ) (addr : MemRef) (buf : Nat → BitVec 8)
    (len : Word) (target : σ) : defaultMemWrite ops addr buf len target =
      runUnits (MemWrite.unit ops buf) (units addr.addr len.toNat) ⟨target, 0, 0⟩ addr.addr :=
  transfer_eq_runUnits (MemWrite.unit ops buf) _ _ _

theorem defaultMemRead_eq (ops : IceOperations σ) (junk : Word) (addr : MemRef)
    (buf : Nat → BitVec 8) (len : Word) (target : σ) : defaultMemRead ops junk addr buf len target =
      runUnits (MemRead.unit ops junk) (units addr.addr len.toNat) ⟨target, buf, 0, 0⟩ addr.addr :=
  transfer_eq_runUnits (MemRead.unit ops junk) _ _ _

/-- The sizes of the units. -/
def Size (n : Nat) : Prop := n = 1 ∨ n = 2 ∨ n = 4

theorem size_of_mem_units {addr : Word} {len n : Nat} (h : n ∈ units addr len) : Size n := by
  unfold units at h
  simp only [List.mem_append, List.mem_replicate] at h
  unfold Size
  lia

section OneUnit

variable {ops : IceOperations (Word → BitVec 8)}

/-- A unit is written as its last byte. -/
theorem OneByte.write (h : OneByte ops) (buf : Nat → BitVec 8) {n : Nat} (hn : Size n)
    (s : MemWrite (Word → BitVec 8)) (pos : Word) : MemWrite.unit ops buf n s pos =
      ⟨Function.update s.target pos (buf (s.ptr + n - 1)), s.ptr + n, s.cnt + n⟩ := by
  rcases hn with rfl | rfl | rfl
  · rw [MemWrite.unit, MemWrite.byte, (h.wr8 _ _ _).2]
    rfl
  · rw [MemWrite.unit, MemWrite.half, (h.wr16 _ _ _).2]
    congr 2
    refine BitVec.eq_of_getLsbD_eq fun i hi => ?_
    have hwidth : 8 + i < 16 := by lia
    simp [hi, hwidth]
  · rw [MemWrite.unit, MemWrite.word, (h.wr32 _ _ _).2]
    · congr 2
      exact lane_word (fun i => buf (s.ptr + i)) (by decide)
    · decide
    · decide

/-- A unit is read as one byte many times. -/
theorem OneByte.read (h : OneByte ops) (junk : Word) {n : Nat} (hn : Size n)
    (s : MemRead (Word → BitVec 8)) (pos : Word) : MemRead.unit ops junk n s pos =
      ⟨s.target, fill s.buf s.ptr n fun _ => s.target pos, s.ptr + n, s.cnt + n⟩ := by
  rcases hn with rfl | rfl | rfl
  · obtain ⟨_, hdata, hmem⟩ := h.rd8 pos (s.buf s.ptr) s.target
    show MemRead.mk _ _ _ _ = _
    rw [hdata, hmem]
    rfl
  · obtain ⟨_, hdata, hmem⟩ := h.rd16 pos (junk.setWidth 16) s.target
    show MemRead.mk _ _ _ _ = _
    rw [hdata, hmem]
    congr 1
    exact fill_congr fun i hi => lane_twice _ hi
  · obtain ⟨_, hdata, hmem⟩ := h.rd32 pos junk s.target
    show MemRead.mk _ _ _ _ = _
    rw [hdata, hmem]
    congr 1
    exact fill_congr fun i hi => lane_lanes _ hi

end OneUnit

/-! ## A write and a read over the same units -/

/-- What a transfer leaves of the buffer: each unit its last byte, at its address. -/
def storeUnits (buf : Nat → BitVec 8) : List Nat → Nat → (Word → BitVec 8) → Word → Word → BitVec 8
  | [], _, mem, _ => mem
  | n :: us, p, mem, pos => storeUnits buf us (p + n)
      (Function.update mem pos (buf (p + n - 1))) (pos + BitVec.ofNat 32 n)

/-- What a transfer makes of a memory: each unit filled with the byte at its address. -/
def loadUnits (mem : Word → BitVec 8) : List Nat → Nat → (Nat → BitVec 8) → Word → Nat → BitVec 8
  | [], _, out, _ => out
  | n :: us, p, out, pos => loadUnits mem us (p + n) (fill out p n fun _ => mem pos)
      (pos + BitVec.ofNat 32 n)

/-- The bytes of each unit are equal. -/
def EqualBytes (buf : Nat → BitVec 8) : List Nat → Nat → Prop
  | [], _ => True
  | n :: us, p => (∀ i < n, buf (p + i) = buf (p + n - 1)) ∧ EqualBytes buf us (p + n)

instance decidableEqualBytes (buf : Nat → BitVec 8) :
    (us : List Nat) → (p : Nat) → Decidable (EqualBytes buf us p)
  | [], _ => isTrue trivial
  | n :: us, p =>
    have := decidableEqualBytes buf us (p + n)
    inferInstanceAs (Decidable ((∀ i < n, buf (p + i) = buf (p + n - 1)) ∧ _))

section Runs

variable {ops : IceOperations (Word → BitVec 8)} {us : List Nat}

theorem OneByte.write_run (h : OneByte ops) (buf : Nat → BitVec 8) (hus : ∀ n ∈ us, Size n)
    (s : MemWrite (Word → BitVec 8)) (pos : Word) :
    (runUnits (MemWrite.unit ops buf) us s pos).target = storeUnits buf us s.ptr s.target pos := by
  induction us generalizing s pos with
  | nil => rfl
  | cons n us ih =>
      rw [runUnits, ih fun m hm => hus m (List.mem_cons_of_mem _ hm),
        h.write buf (hus n List.mem_cons_self)]
      rfl

theorem OneByte.read_run (h : OneByte ops) (junk : Word) (hus : ∀ n ∈ us, Size n)
    (s : MemRead (Word → BitVec 8)) (pos : Word) :
    (runUnits (MemRead.unit ops junk) us s pos).buf =
      loadUnits s.target us s.ptr s.buf pos := by
  induction us generalizing s pos with
  | nil => rfl
  | cons n us ih =>
      rw [runUnits, ih fun m hm => hus m (List.mem_cons_of_mem _ hm),
        h.read junk (hus n List.mem_cons_self)]
      rfl

theorem Size.bounds {n : Nat} (hn : Size n) : 0 < n ∧ n < 2 ^ 32 := by
  unfold Size at hn
  lia

variable {buf out : Nat → BitVec 8} {mem : Word → BitVec 8} {p : Nat} {pos : Word}

/-- A write leaves what is not in its range. -/
theorem storeUnits_frame (hus : ∀ n ∈ us, Size n) (hsum : us.sum ≤ 2 ^ 32) {a : Word}
    (ha : us.sum ≤ (a - pos).toNat) : storeUnits buf us p mem pos a = mem a := by
  induction us generalizing p mem pos with
  | nil => rfl
  | cons n us ih =>
      obtain ⟨hn, hlt⟩ := (hus n List.mem_cons_self).bounds
      rw [List.sum_cons] at hsum ha
      have hoff := @sub_add_toNat 32 pos n a hlt
      rw [if_pos (by lia)] at hoff
      rw [storeUnits, ih (fun m hm => hus m (List.mem_cons_of_mem _ hm)) (by lia) (by lia)]
      refine Function.update_of_ne ?_ _ _
      rintro rfl
      simp at ha
      lia

/-- A unit is found at its address. -/
theorem storeUnits_first {n : Nat} (hus : ∀ m ∈ n :: us, Size m) (hsum : (n :: us).sum ≤ 2 ^ 32) :
    storeUnits buf (n :: us) p mem pos pos = buf (p + n - 1) := by
  obtain ⟨hn, hlt⟩ := (hus n List.mem_cons_self).bounds
  rw [List.sum_cons] at hsum
  have hoff := @sub_add_toNat 32 pos n pos hlt
  rw [BitVec.sub_self, BitVec.toNat_zero, if_neg (by lia), Nat.zero_add] at hoff
  rw [storeUnits, storeUnits_frame (fun m hm => hus m (List.mem_cons_of_mem _ hm)) (by lia)
    (by lia), Function.update_self]

/-- A read leaves the buffer outside of its range. -/
theorem loadUnits_frame {i : Nat} (hi : i < p ∨ p + us.sum ≤ i) :
    loadUnits mem us p out pos i = out i := by
  induction us generalizing p out pos with
  | nil => rfl
  | cons n us ih =>
      rw [List.sum_cons] at hi
      rw [loadUnits, ih (by lia), fill_of_not_mem (by lia)]

/-- The buffer comes back where the bytes of each unit are equal. -/
theorem load_store_iff (hus : ∀ n ∈ us, Size n) (hsum : us.sum ≤ 2 ^ 32) :
    (∀ i < us.sum, loadUnits (storeUnits buf us p mem pos) us p out pos (p + i) = buf (p + i)) ↔
      EqualBytes buf us p := by
  induction us generalizing p mem out pos with
  | nil => simp [EqualBytes]
  | cons n us ih =>
      have hus' : ∀ m ∈ us, Size m := fun m hm => hus m (List.mem_cons_of_mem _ hm)
      have hsum' := hsum
      rw [List.sum_cons] at hsum'
      have hrest := @ih (fill out p n fun _ => buf (p + n - 1))
        (Function.update mem pos (buf (p + n - 1))) (p + n) (pos + BitVec.ofNat 32 n) hus' (by lia)
      rw [EqualBytes, ← hrest, List.sum_cons, loadUnits, storeUnits_first hus hsum, storeUnits]
      constructor
      · intro hall
        refine ⟨fun i hi => ?_, fun i hi => ?_⟩
        · have hval := hall i (by lia)
          rw [loadUnits_frame (by lia), fill_of_mem (by lia) (by lia)] at hval
          exact hval.symm
        · have hval := hall (n + i) (by lia)
          rwa [← Nat.add_assoc] at hval
      · rintro ⟨hunit, hall⟩ i hi
        by_cases hlt : i < n
        · rw [loadUnits_frame (by lia), fill_of_mem (by lia) (by lia)]
          exact (hunit i hlt).symm
        · have hval := hall (i - n) (by lia)
          rwa [Nat.add_assoc, Nat.add_sub_cancel' (by lia)] at hval

end Runs

/-- What is written comes back, and nothing else is written, where the bytes of every halfword
and word of the transfer are equal. -/
theorem defaultMem_roundtrip_iff {oper : IceOper (Word → BitVec 8)} (h : ByteOnly oper)
    (junk : Word) (addr : MemRef) (buf out : Nat → BitVec 8) (len : Word) (mem : Word → BitVec 8) :
    ((∀ i < len.toNat, (defaultMemRead (iceOpen oper) junk addr out len
        (defaultMemWrite (iceOpen oper) addr buf len mem).target).buf i = buf i) ∧
      ∀ a, len.toNat ≤ (a - addr.addr).toNat →
        (defaultMemWrite (iceOpen oper) addr buf len mem).target a = mem a) ↔
      EqualBytes buf (units addr.addr len.toNat) 0 := by
  have hus : ∀ n ∈ units addr.addr len.toNat, Size n := fun n hn => size_of_mem_units hn
  have hsum : (units addr.addr len.toNat).sum ≤ 2 ^ 32 := by
    rw [sum_units]
    exact len.isLt.le
  have hiff := @load_store_iff _ buf out mem 0 addr.addr hus hsum
  rw [defaultMemRead_eq, defaultMemWrite_eq, h.iceOpen.read_run junk hus,
    h.iceOpen.write_run buf hus, ← hiff]
  simp only [Nat.zero_add]
  rw [sum_units]
  exact and_iff_left fun a ha => storeUnits_frame hus hsum (by rwa [sum_units])

/-- A driver over a memory of bytes whose accesses return `0`. -/
def byteDriver : IceOper (Word → BitVec 8) where
  wr8 := some fun addr x mem => (0, Function.update mem addr x)
  rd8 := some fun addr _ mem => (0, mem addr, mem)
  wr16 := none
  rd16 := none
  wr32 := none
  rd32 := none

theorem byteDriver_byteOnly : ByteOnly byteDriver where
  wr8 := ⟨_, rfl, fun _ _ _ => ⟨le_refl 0, rfl⟩⟩
  rd8 := ⟨_, rfl, fun _ _ _ => ⟨le_refl 0, rfl, rfl⟩⟩
  wr16 := rfl
  rd16 := rfl
  wr32 := rfl
  rd32 := rfl

/-- Two bytes at an odd address come back. -/
theorem defaultMem_roundtrip_odd :
    (∀ i < (2 : Word).toNat, (defaultMemRead (iceOpen byteDriver) 0 ⟨0x1000, 1⟩ (fun _ => 0) 2
        (defaultMemWrite (iceOpen byteDriver) ⟨0x1000, 1⟩ (fun i => BitVec.ofNat 8 i) 2
          fun _ => 0).target).buf i = BitVec.ofNat 8 i) ∧
      ∀ a, (2 : Word).toNat ≤ (a - (MemRef.mk 0x1000 1).addr).toNat →
        (defaultMemWrite (iceOpen byteDriver) ⟨0x1000, 1⟩ (fun i => BitVec.ofNat 8 i) 2
          fun _ => 0).target a = 0 :=
  (defaultMem_roundtrip_iff byteDriver_byteOnly 0 ⟨0x1000, 1⟩ (fun i => BitVec.ofNat 8 i)
    (fun _ => 0) 2 fun _ => 0).mpr (by decide)

/-- Two different bytes at an even address come back as the last one twice. -/
theorem defaultMem_halfword_lost :
    ByteOnly byteDriver ∧
      (defaultMemRead (iceOpen byteDriver) 0 ⟨0x1000, 0⟩ (fun _ => 0) 2
        (defaultMemWrite (iceOpen byteDriver) ⟨0x1000, 0⟩ (fun i => BitVec.ofNat 8 (i + 1)) 2
          fun _ => 0).target).buf 0 = 2 ∧
      ¬∀ i < (2 : Word).toNat, (defaultMemRead (iceOpen byteDriver) 0 ⟨0x1000, 0⟩ (fun _ => 0) 2
        (defaultMemWrite (iceOpen byteDriver) ⟨0x1000, 0⟩ (fun i => BitVec.ofNat 8 (i + 1)) 2
          fun _ => 0).target).buf i = BitVec.ofNat 8 (i + 1) := by
  refine ⟨byteDriver_byteOnly, by decide, ?_⟩
  intro h
  exact absurd (h 0 (by decide)) (by decide)

end YardIce.IceDrv
