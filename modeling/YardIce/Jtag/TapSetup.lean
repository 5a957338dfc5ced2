import Mathlib.Data.BitVec
import Mathlib.Logic.Function.Basic

/-!
# The scan tables of the JTAG controller

`jtag_adi_tap_setup` writes into the memories of the controller: vectors of bits to
shift, descriptors that name a vector and a length, and pointers that designate tables
of descriptors.

## Implementation notes

The memories are half words without end; they hold anything when the setup begins.
`JTAG_VEC_BITS_MAX` is 256, as the configuration of the firmware has it. Receive vectors
are in a memory of their own, which the setup does not touch.
-/

namespace YardIce.Jtag

abbrev Word := BitVec 32

/-! ## The layout of the vectors -/

/-- `VEC_ONES`. -/
def vecOnes : Nat := 256

/-- `VEC_ONES_LEN`. -/
def vecOnesLen : Nat := 256

/-- `VEC_ZEROS`. -/
def vecZeros : Nat := vecOnes + vecOnesLen

/-- `VEC_ZEROS_LEN`. -/
def vecZerosLen : Nat := 256

/-- `VEC_DISCARD`. -/
def vecDiscard : Nat := 256

/-- `VEC_IR_RESULT`. -/
def vecIrResult : Nat := vecDiscard + 256

/-- `IR_VECTORS_BASE_ADDR`. -/
def irVectorsBaseAddr : Nat := vecZeros + vecZerosLen

/-- `VEC_DPACC_DATA`. -/
def vecDpaccData : Nat := irVectorsBaseAddr + 16

/-- `VEC_DPACC_ADDR`. -/
def vecDpaccAddr : Nat := vecDpaccData + 4

/-- `VEC_APACC_DATA`. -/
def vecApaccData : Nat := vecDpaccAddr + 4

/-- `VEC_APACC_ADDR` and `VEC_APACC_ACK`. -/
def vecApaccAddr : Nat := vecApaccData + 4

/-- `VEC_ABORT`. -/
def vecAbort : Nat := vecApaccAddr + 4

/-! ## Descriptors and pointers -/

/-- `JTAG_DESC`, with both directions least significant bit first. -/
def jtagDesc (ra ta n : Nat) : Word :=
  ((BitVec.ofNat 32 ra &&& 0x7fe) <<< 19) ||| ((BitVec.ofNat 32 ta &&& 0x7fe) <<< 9) |||
    ((BitVec.ofNat 32 n - 1) &&& 0x3ff)

/-- `JTAG_PTR`. -/
def jtagPtr (desc len : Nat) : BitVec 16 :=
  ((BitVec.ofNat 16 desc &&& 0xff) <<< 8) ||| ((BitVec.ofNat 16 len - 1) &&& 0xff)

/-- `DESC_TX_ADDR`. -/
def descTxAddr (desc : Word) : Nat := ((desc >>> 9) &&& 0x7fe).toNat

/-- `DESC_LEN`. -/
def descLen (desc : Word) : Nat := (desc &&& 0x3ff).toNat + 1

/-- The field `PTR_DESC_ADDR`. -/
def ptrDescAddr (ptr : BitVec 16) : Nat := (ptr >>> 8).toNat

/-- The number of descriptors in the field `PTR_DESC_LEN`. -/
def ptrDescLen (ptr : BitVec 16) : Nat := (ptr &&& 0xff).toNat + 1

/-! ## The controller -/

/-- The memories of the controller with the allocation cursors of the driver. -/
structure Driver where
  vec : Nat → BitVec 16
  desc : Nat → BitVec 16
  ptr : Nat → BitVec 16
  irVecAddr : Nat
  vecDescAddr : Nat

/-- `vec_wr32`. -/
def Driver.vecWr32 (d : Driver) (offs : Nat) (val : Word) : Driver :=
  { d with
    vec := Function.update (Function.update d.vec (offs / 2) (val.setWidth 16))
      (offs / 2 + 1) ((val >>> 16).setWidth 16) }

/-- `desc_wr`. -/
def Driver.descWr (d : Driver) (pos : Nat) (desc : Word) : Driver :=
  { d with
    desc := Function.update (Function.update d.desc (pos * 2) (desc.setWidth 16))
      (pos * 2 + 1) ((desc >>> 16).setWidth 16) }

/-- `ptr_wr`. -/
def Driver.ptrWr (d : Driver) (id : Nat) (ptr : BitVec 16) : Driver :=
  { d with ptr := Function.update d.ptr id ptr }

/-- The descriptor that the controller fetches. -/
def Driver.descAt (d : Driver) (pos : Nat) : Word := d.desc (pos * 2 + 1) ++ d.desc (pos * 2)

/-! ## The setup -/

/-- `ADI_IR_ABORT`. -/
def adiIrAbort : Nat := 1

/-- `ADI_IR_DPACC`. -/
def adiIrDpacc : Nat := 2

/-- `ADI_IR_APACC`. -/
def adiIrApacc : Nat := 3

/-- `ADI_DR_DPACC`. -/
def adiDrDpacc : Nat := 4

/-- `ADI_DR_APACC`. -/
def adiDrApacc : Nat := 5

/-- `ADI_DR_ABORT`. -/
def adiDrAbort : Nat := 6

/-- `JTAG_ADI_IR_ABORT`. -/
def jtagAdiIrAbort : Word := 0x08

/-- `JTAG_ADI_IR_DPACC`. -/
def jtagAdiIrDpacc : Word := 0x0a

/-- `JTAG_ADI_IR_APACC`. -/
def jtagAdiIrApacc : Word := 0x0b

/-- The fields of `jtag_tap_t` that tell its place in the chain, all of them bytes. -/
structure Tap where
  preirlen : BitVec 8
  irlen : BitVec 8
  posirlen : BitVec 8
  precnt : BitVec 8
  poscnt : BitVec 8

/-- `struct jtag3drv_desc_tab`. -/
structure DescTab where
  ptrAddr : Nat
  tabAddr : Nat
  desc : List Word

def descAdd (tab : DescTab) (rxAddr txAddr vecLen : Nat) : DescTab :=
  if 0 < vecLen then { tab with desc := tab.desc ++ [jtagDesc rxAddr txAddr vecLen] } else tab

def Driver.descTabNew (d : Driver) (ptrAddr : Nat) : DescTab := ⟨ptrAddr, d.vecDescAddr, []⟩

/-- The loop of `desc_tab_insert`. -/
def Driver.descWrAll (d : Driver) (pos : Nat) : List Word → Driver
  | [] => d
  | w :: ws => (d.descWr pos w).descWrAll (pos + 1) ws

def Driver.descTabInsert (d : Driver) (tab : DescTab) : Driver :=
  { (d.descWrAll tab.tabAddr tab.desc).ptrWr tab.ptrAddr
      (jtagPtr tab.tabAddr tab.desc.length) with
    vecDescAddr := tab.tabAddr + tab.desc.length }

/-- `jtag3drv_ir_vec_add`: the bits before the TAP get a descriptor at `addr`, which is
the address of the vector and not the place in the table that is reserved for it. -/
def Driver.irVecAdd (d : Driver) (tap : Tap) (descPtr : Nat) (vec : Word) : Driver :=
  let addr := d.irVecAddr
  let n := (tap.irlen.toNat + 7) / 8 * 2
  let d₁ := d.vecWr32 d.irVecAddr vec
  let pre := 0 < tap.preirlen.toNat
  let pos := 0 < tap.posirlen.toNat
  let d₂ := if pre then d₁.descWr addr (jtagDesc vecDiscard vecOnes tap.preirlen.toNat) else d₁
  let desc := if pre then d.vecDescAddr + 1 else d.vecDescAddr
  let d₃ := d₂.descWr desc (jtagDesc vecIrResult d.irVecAddr tap.irlen.toNat)
  let d₄ :=
    if pos then d₃.descWr (desc + 1) (jtagDesc vecDiscard vecOnes tap.posirlen.toNat) else d₃
  let tabLen := 1 + (if pre then 1 else 0) + (if pos then 1 else 0)
  { d₄.ptrWr descPtr (jtagPtr d.vecDescAddr tabLen) with
    irVecAddr := d.irVecAddr + n
    vecDescAddr := (if pos then desc + 2 else desc) + 1 }

/-- A loop that writes the same word all over a vector of `n` words. -/
def Driver.vecFill (d : Driver) (vaddr : Nat) (val : Word) : Nat → Driver
  | 0 => d
  | n + 1 => (d.vecWr32 vaddr val).vecFill (vaddr + 4) val n

/-- The table of a DR scan of an access. -/
def Driver.drTable (d : Driver) (tap : Tap) (ptr : Nat) (scan : List (Nat × Nat × Nat)) :
    Driver :=
  let tab := descAdd (d.descTabNew ptr) vecDiscard vecZeros tap.precnt.toNat
  let tab := scan.foldl (fun tab v => descAdd tab v.1 v.2.1 v.2.2) tab
  d.descTabInsert (descAdd tab vecDiscard vecZeros tap.poscnt.toNat)

/-- The IR part of `jtag_adi_tap_setup`. -/
def Driver.irSetup (d : Driver) (tap : Tap) : Driver :=
  let d := { d with irVecAddr := irVectorsBaseAddr, vecDescAddr := 1 }
  let d := d.vecFill vecOnes 0xffffff (vecOnesLen / 4)
  let d := d.vecFill vecZeros 0 (vecZerosLen / 4)
  let d := d.irVecAdd tap adiIrAbort jtagAdiIrAbort
  let d := d.irVecAdd tap adiIrDpacc jtagAdiIrDpacc
  d.irVecAdd tap adiIrApacc jtagAdiIrApacc

/-- The DR part of `jtag_adi_tap_setup`. -/
def Driver.drSetup (d : Driver) (tap : Tap) : Driver :=
  let d := d.drTable tap adiDrDpacc
    [(vecApaccAddr, vecDpaccAddr, 3), (vecDpaccData, vecDpaccData, 32)]
  let d := d.drTable tap adiDrApacc
    [(vecApaccAddr, vecApaccAddr, 3), (vecApaccData, vecApaccData, 32)]
  let d := d.drTable tap adiDrAbort [(vecAbort, vecAbort, 35)]
  (d.vecWr32 vecAbort 8).vecWr32 (vecAbort + 4) 0

/-- `jtag_adi_tap_setup`. -/
def Driver.jtagAdiTapSetup (d : Driver) (tap : Tap) : Driver := (d.irSetup tap).drSetup tap

/-! ## Scans -/

/-- The bits of a vector in the order in which they are shifted. -/
def Driver.bits (d : Driver) (addr len : Nat) : List Bool :=
  (List.range len).map fun k => (d.vec (addr / 2 + k / 16)).getLsbD (k % 16)

/-- The bits that a descriptor shifts. -/
def Driver.shift (d : Driver) (desc : Word) : List Bool := d.bits (descTxAddr desc) (descLen desc)

/-- The descriptors of the table that a pointer designates. -/
def Driver.table (d : Driver) (p : Nat) : List Word :=
  (List.range (ptrDescLen (d.ptr p))).map fun i => d.descAt (ptrDescAddr (d.ptr p) + i)

/-- The bits that a scan shifts. -/
def Driver.scan (d : Driver) (p : Nat) : List Bool := (d.table p).flatMap d.shift

/-- The bits of an instruction, with zeros behind its 32 bits. -/
def insnBits (vec : Word) (irlen : Nat) : List Bool := (List.range irlen).map vec.getLsbD

/-- What the TAP needs: ones for the TAPs before it, its instruction, ones for those after. -/
def Tap.irBits (tap : Tap) (vec : Word) : List Bool :=
  List.replicate tap.preirlen.toNat true ++ insnBits vec tap.irlen.toNat ++
    List.replicate tap.posirlen.toNat true

/-- The descriptors from `a` to `b` are not those of the table of `q`. -/
def Driver.Apart (d : Driver) (p q : Nat) : Prop :=
  ptrDescAddr (d.ptr p) + ptrDescLen (d.ptr p) ≤ ptrDescAddr (d.ptr q) ∨
    ptrDescAddr (d.ptr q) + ptrDescLen (d.ptr q) ≤ ptrDescAddr (d.ptr p)

/-- The scans of the three instructions address the TAP, and the tables are apart. -/
structure Driver.Addresses (d : Driver) (tap : Tap) : Prop where
  abort : d.scan adiIrAbort = tap.irBits jtagAdiIrAbort
  dpacc : d.scan adiIrDpacc = tap.irBits jtagAdiIrDpacc
  apacc : d.scan adiIrApacc = tap.irBits jtagAdiIrApacc
  apart : ∀ p q, 1 ≤ p → p < q → q ≤ 6 → d.Apart p q

end YardIce.Jtag
