import Mathlib.Data.BitVec

/-!
# The memory access port

The MEM-AP functions of `jtag-adi.c` over the registers of the debug port that
they cache: `SELECT` of the DP, `CSW` and `TAR` of the AP.

## Implementation notes

All accesses are acknowledged. `TAR` counts on by the access size at each access
to `DRW` while increment is on, and wraps inside its 4 KiB page; banked data
registers do not move it. The data that is transferred and the byte counts that
are returned are left out: no cache depends on them. Reads of registers other
than `CSW` and `TAR` give whatever the target says.

Where the code skips the write of a register because its cache says that the
value is there, the model notes in `sound` whether it is.
-/

namespace YardIce.Adi

abbrev Word := BitVec 32

/-- `ADI_AP_CSW`. -/
def adiApCsw : Word := 0x00

/-- `ADI_AP_TAR`. -/
def adiApTar : Word := 0x04

/-- `ADI_AP_DRW`. -/
def adiApDrw : Word := 0x0c

/-- `ADI_AP_BD0`. -/
def adiApBd0 : Word := 0x10

/-- `DP_APBANKSEL`. -/
def dpApbanksel (select : Word) : Word := select &&& 0x000000f0

/-- `CSW_SIZE`. -/
def cswSize : Word := 0x07

/-- `CSW_ADDR_INC`. -/
def cswAddrInc : Word := 0x30

/-- `CSW_INC_SINGLE`. -/
def cswIncSingle : Word := 0x10

/-- `CSW_BYTE`. -/
def cswByte : Word := 0

/-- `CSW_HALFWORD`. -/
def cswHalfword : Word := 1

/-- `CSW_WORD`. -/
def cswWord : Word := 2

/-- `CSW_DEVICE_EN`. -/
def cswDeviceEn : Word := 0x40

/-- The read-only bits of `CSW`. -/
def cswReadOnly : Word := 0x008000c0

/-- The size and increment fields of `CSW`. -/
def cswFields (csw : Word) : Word := csw &&& 0x37

/-! ## The registers of the target -/

/-- The registers of the debug port and the access port. `status` are the read-only
bits of `CSW`, `other` the values of all other registers. -/
structure Hw where
  select : Word
  csw : Word
  tar : Word
  status : Word
  other : Word → Word

namespace Hw

/-- The register that an access with the address `addr` reaches. -/
def reg (h : Hw) (addr : Word) : Word := (h.select &&& 0xf0) ||| (addr &&& 0x0c)

/-- The number of bytes of an access to `DRW`. -/
def accessSize (h : Hw) : Nat :=
  if h.csw &&& cswSize = cswByte then 1
  else if h.csw &&& cswSize = cswHalfword then 2
  else if h.csw &&& cswSize = cswWord then 4
  else 0

/-- The address after an access of `n` bytes: the low twelve bits count. -/
def bump (tar : Word) (n : Nat) : Word :=
  BitVec.ofNat 32 (tar.toNat / 4096 * 4096 + (tar.toNat + n) % 4096)

/-- An access to `DRW`. Increment is single or packed. -/
def drw (h : Hw) : Hw :=
  if h.csw &&& cswAddrInc = 0x10 ∨ h.csw &&& cswAddrInc = 0x20 then
    { h with tar := bump h.tar h.accessSize }
  else h

/-- A write to a register of the access port. -/
def wr (h : Hw) (addr v : Word) : Hw :=
  if h.reg addr = adiApCsw then { h with csw := v }
  else if h.reg addr = adiApTar then { h with tar := v }
  else if h.reg addr = adiApDrw then h.drw
  else h

/-- The value of a register of the access port. -/
def value (h : Hw) (addr : Word) : Word :=
  if h.reg addr = adiApCsw then (h.csw &&& ~~~cswReadOnly) ||| (h.status &&& cswReadOnly)
  else if h.reg addr = adiApTar then h.tar
  else h.other (h.reg addr)

/-- What a read of a register changes. -/
def rd (h : Hw) (addr : Word) : Hw := if h.reg addr = adiApDrw then h.drw else h

end Hw

/-- `adi_dp_reg_select`, `adi_mem_ap_csw` and `adi_mem_ap_tar`. -/
structure Cache where
  select : Word
  csw : Word
  tar : Word

/-- The target, the caches, and whether every write that was skipped could be. -/
structure Port where
  hw : Hw
  cache : Cache
  sound : Bool

namespace Port

/-- A write is skipped, which is right if `ok`. -/
def skip (p : Port) (ok : Bool) : Port := { p with sound := p.sound && ok }

/-- The cached `SELECT` is right. -/
def selectOk (p : Port) : Bool := p.cache.select == p.hw.select

/-- The cached size and increment fields are right. -/
def cswOk (p : Port) : Bool := cswFields p.cache.csw == cswFields p.hw.csw

/-- The cached `TAR` is right. -/
def tarOk (p : Port) : Bool := p.cache.tar == p.hw.tar

/-- `jtag_adi_apacc_wr`. -/
def apaccWr (p : Port) (addr v : Word) : Port := { p with hw := p.hw.wr addr v }

/-- `jtag_adi_apacc_rd`, for what it changes. -/
def apaccRd (p : Port) (addr : Word) : Port := { p with hw := p.hw.rd addr }

/-- Write a word to the cache and to `SELECT`. -/
def setSelect (p : Port) (s : Word) : Port :=
  { p with cache := { p.cache with select := s }, hw := { p.hw with select := s } }

/-- Write the cached `TAR`. -/
def setTar (p : Port) (tar : Word) : Port := { p with cache := { p.cache with tar := tar } }

/-- Write the cached `CSW`. -/
def setCsw (p : Port) (csw : Word) : Port := { p with cache := { p.cache with csw := csw } }

/-- The update of `SELECT` for the bank of `addr` that most functions make. -/
def selectBank (p : Port) (addr : Word) : Port :=
  let diff := dpApbanksel (addr ^^^ p.cache.select)
  if diff ≠ 0 then p.setSelect (p.cache.select ^^^ diff) else p.skip p.selectOk

end Port

/-! ## Register access -/

/-- `jtag_mem_ap_reg_rd`. -/
def jtagMemApRegRd (p : Port) (addr : Word) : Word × Port :=
  let p := p.selectBank addr
  (p.hw.value addr, p.apaccRd addr)

/-- `jtag_mem_ap_reg_wr`. It writes the difference of the banks to `SELECT`. -/
def jtagMemApRegWr (p : Port) (addr din : Word) : Port :=
  let diff := dpApbanksel (addr ^^^ p.cache.select)
  let p :=
    if diff ≠ 0 then
      { p with
        cache := { p.cache with select := p.cache.select ^^^ diff }
        hw := { p.hw with select := diff } }
    else p.skip p.selectOk
  p.apaccWr addr din

/-- The read of `CSW` that ends the functions that set it. -/
def reloadCsw (p : Port) : Port :=
  let (csw, p) := jtagMemApRegRd p adiApCsw
  p.setCsw csw

/-- `jtag_mem_ap_csw_set`. -/
def jtagMemApCswSet (p : Port) (mask bitmap : Word) : Port :=
  reloadCsw (jtagMemApRegWr p adiApCsw ((p.cache.csw &&& ~~~mask) ||| bitmap))

/-- `jtag_mem_ap_csw_clr`. -/
def jtagMemApCswClr (p : Port) (mask bitmap : Word) : Port :=
  reloadCsw (jtagMemApRegWr p adiApCsw (p.cache.csw &&& ~~~(bitmap &&& mask)))

/-- `jtag_mem_ap_init`. -/
def jtagMemApInit (p : Port) : Port :=
  let p := reloadCsw (p.setTar 0xffffffff)
  if p.cache.csw &&& cswDeviceEn = 0 then p
  else
    -- `CSW_HPROT1 | CSW_MASTER_TYPE | CSW_INC_SINGLE | CSW_WORD`
    reloadCsw (jtagMemApRegWr p adiApCsw 0x22000012)

/-! ## Bytes and halfwords -/

/-- The update of `SELECT` and `TAR` that the byte and halfword functions and
`jtag_mem_ap_set` start with. -/
def updateTar (p : Port) (addr : Word) : Port :=
  if p.cache.tar ≠ addr ∨ dpApbanksel (adiApTar ^^^ p.cache.select) ≠ 0 then
    ((p.selectBank adiApTar).apaccWr adiApTar addr).setTar addr
  else (p.skip p.selectOk).skip p.tarOk

/-- The update of the size field of `CSW`. -/
def updateSize (p : Port) (size : Word) : Port :=
  if p.cache.csw &&& cswSize ≠ size then
    let csw := (p.cache.csw &&& ~~~cswSize) ||| size
    jtagMemApRegWr (p.setCsw csw) adiApCsw csw
  else p.skip p.cswOk

/-- What the byte and halfword functions have in common: the access `drw` to `DRW` with
`n` bytes, and the count of the cached `TAR`. -/
def subword (p : Port) (addr size : Word) (n : Nat) (drw : Port → Port) : Port :=
  let p := updateTar p addr
  let p := updateSize p size
  let p := drw p
  if p.cache.csw &&& cswIncSingle ≠ 0 then p.setTar (p.cache.tar + BitVec.ofNat 32 n) else p

/-- `jtag_mem_ap_rd8`. -/
def jtagMemApRd8 (p : Port) (addr : Word) : Port :=
  subword p addr cswByte 1 fun p => p.apaccRd adiApDrw

/-- `jtag_mem_ap_wr8`. -/
def jtagMemApWr8 (p : Port) (addr din : Word) : Port :=
  subword p addr cswByte 1 fun p => p.apaccWr adiApDrw din

/-- `jtag_mem_ap_rd16`. -/
def jtagMemApRd16 (p : Port) (addr : Word) : Port :=
  subword p addr cswHalfword 2 fun p => p.apaccRd adiApDrw

/-- `jtag_mem_ap_wr16`. -/
def jtagMemApWr16 (p : Port) (addr din : Word) : Port :=
  subword p addr cswHalfword 2 fun p => p.apaccWr adiApDrw din

/-! ## Words -/

/-- Set the size and increment fields of `CSW` to a word and single increment. -/
def writeWordSingle (p : Port) : Port :=
  let csw := (p.cache.csw &&& ~~~(cswSize ||| cswAddrInc)) ||| cswWord ||| cswIncSingle
  jtagMemApRegWr (p.setCsw csw) adiApCsw csw

/-- The start of a page. -/
def pageStart (addr : Word) : Bool := addr &&& 0x00000fff == 0

/-- The update of `TAR` that the functions for words make; the cache is written later. -/
def updateTarPaged (p : Port) (addr : Word) : Port :=
  if p.cache.tar ≠ addr ∨ pageStart addr then p.apaccWr adiApTar addr else p.skip p.tarOk

/-- `jtag_mem_ap_rd32`. -/
def jtagMemApRd32 (p : Port) (addr : Word) : Port :=
  let base := addr &&& 0xfffffffc
  let p := p.selectBank adiApTar
  let p :=
    if p.cache.csw &&& cswSize ≠ cswWord ∨ p.cache.csw &&& cswAddrInc ≠ cswIncSingle then
      writeWordSingle p
    else p.skip p.cswOk
  let p := updateTarPaged p base
  (p.apaccRd adiApDrw).setTar (base + 4)

/-- `jtag_mem_ap_wr32`. -/
def jtagMemApWr32 (p : Port) (addr data : Word) : Port :=
  let base := addr &&& 0xfffffff0
  let p :=
    if p.cache.tar ≠ base then ((p.selectBank adiApTar).apaccWr adiApTar base).setTar base
    else p.skip p.tarOk
  let p :=
    if p.cache.csw &&& cswSize ≠ cswWord then updateSize (p.selectBank adiApCsw) cswWord
    else p.skip p.cswOk
  let p := p.selectBank adiApBd0
  p.apaccWr (adiApBd0 + (addr - base)) data

/-! ## Blocks -/

/-- The reads that follow the first one. -/
def readLoop : Nat → Word → Port → Word × Port
  | 0, addr, p => (addr, p)
  | n + 1, addr, p =>
    let addr := addr + 4
    let p := if pageStart addr then p.apaccWr adiApTar addr else p
    readLoop n addr (p.apaccRd adiApDrw)

/-- The `n` words of `jtag_mem_ap_read`, with the address behind them. -/
def readWords (p : Port) (addr : Word) (n : Nat) : Word × Port :=
  let p := p.selectBank adiApTar
  let p :=
    if p.cache.csw &&& cswSize ≠ cswWord ∨ p.cache.csw &&& cswAddrInc ≠ cswIncSingle then
      writeWordSingle p
    else p.skip p.cswOk
  let p := updateTarPaged p addr
  let (addr, p) := readLoop (n - 1) addr (p.apaccRd adiApDrw)
  (addr + 4, p.setTar (addr + 4))

/-- The writes before the last one. -/
def writeLoop : Nat → Word → Port → Word × Port
  | 0, addr, p => (addr, p)
  | n + 1, addr, p =>
    let p := p.apaccWr adiApDrw 0
    let addr := addr + 4
    writeLoop n addr (if pageStart addr then p.apaccWr adiApTar addr else p)

/-- The `n` words of `jtag_mem_ap_write`, with the address behind them. -/
def writeWords (p : Port) (addr : Word) (n : Nat) : Word × Port :=
  let p := p.selectBank adiApTar
  let p :=
    if p.cache.csw &&& cswSize ≠ cswWord ∨ p.cache.csw &&& cswIncSingle = 0 then
      writeWordSingle p
    else p.skip p.cswOk
  let p := updateTarPaged p addr
  let (addr, p) := writeLoop (n - 1) addr p
  (addr + 4, (p.apaccWr adiApDrw 0).setTar (addr + 4))

/-- `n` writes without regard to pages. -/
def setLoop : Nat → Port → Port
  | 0, p => p
  | n + 1, p => setLoop n (p.apaccWr adiApDrw 0)

/-- The `n` words of `jtag_mem_ap_set`, with the address behind them. -/
def setWords (p : Port) (addr : Word) (n : Nat) : Word × Port :=
  let p := updateTar p addr
  let p := updateSize p cswWord
  let p :=
    if p.cache.csw &&& cswIncSingle = 0 then
      let csw := (p.cache.csw &&& ~~~cswAddrInc) ||| cswIncSingle
      jtagMemApRegWr (p.setCsw csw) adiApCsw csw
    else p.skip p.cswOk
  let p := setLoop n p
  (addr + BitVec.ofNat 32 (n * 4), p.setTar (p.cache.tar + BitVec.ofNat 32 (n * 4)))

/-- The place of a block transfer: what is done, and the address and length of the rest. -/
structure Cursor where
  port : Port
  addr : Word
  len : Nat

namespace Cursor

/-- The first byte, if the address is not even. -/
def firstByte (byte : Port → Word → Port) (c : Cursor) : Cursor :=
  if c.addr &&& 1 ≠ 0 then ⟨byte c.port c.addr, c.addr + 1, c.len - 1⟩ else c

/-- The first halfword, if the address is not that of a word. -/
def firstHalf (half : Port → Word → Port) (c : Cursor) : Cursor :=
  if 2 ≤ c.len ∧ c.addr &&& 2 ≠ 0 then ⟨half c.port c.addr, c.addr + 2, c.len - 2⟩ else c

/-- The words: as many as `count` makes of the length. -/
def words (count : Nat → Nat) (ws : Port → Word → Nat → Word × Port) (c : Cursor) : Cursor :=
  if 4 ≤ c.len then
    let (addr, p) := ws c.port c.addr (count c.len)
    ⟨p, addr, c.len - count c.len * 4⟩
  else c

/-- The last halfword. -/
def lastHalf (half : Port → Word → Port) (c : Cursor) : Cursor :=
  if 2 ≤ c.len then ⟨half c.port c.addr, c.addr + 2, c.len - 2⟩ else c

/-- The last byte. -/
def lastByte (byte : Port → Word → Port) (c : Cursor) : Port :=
  if 0 < c.len then byte c.port c.addr else c.port

end Cursor

/-- What `jtag_mem_ap_read`, `jtag_mem_ap_write` and `jtag_mem_ap_set` have in common. -/
def block (p : Port) (addr : Word) (len : Nat) (byte half : Port → Word → Port)
    (count : Nat → Nat) (ws : Port → Word → Nat → Word × Port) : Port :=
  if len = 0 then p
  else
    ((((Cursor.mk p addr len).firstByte byte).firstHalf half).words count ws
      |>.lastHalf half).lastByte byte

/-- `jtag_mem_ap_read`. -/
def jtagMemApRead (p : Port) (addr : Word) (len : Nat) : Port :=
  block p addr len jtagMemApRd8 jtagMemApRd16 (fun len => len / 4) readWords

/-- `jtag_mem_ap_write`. -/
def jtagMemApWrite (p : Port) (addr : Word) (len : Nat) : Port :=
  block p addr len (fun p addr => jtagMemApWr8 p addr 0) (fun p addr => jtagMemApWr16 p addr 0)
    (fun len => (len + 3) / 4) writeWords

/-- `jtag_mem_ap_set`. -/
def jtagMemApSet (p : Port) (addr : Word) (len : Nat) : Port :=
  block p addr len (fun p addr => jtagMemApWr8 p addr 0) (fun p addr => jtagMemApWr16 p addr 0)
    (fun len => (len + 3) / 4) setWords

/-! ## Runs -/

/-- The calls of the access port. -/
inductive Call
  | init
  | regRd (addr : Word)
  | regWr (addr din : Word)
  | cswSet (mask bitmap : Word)
  | cswClr (mask bitmap : Word)
  | rd8 (addr : Word)
  | wr8 (addr din : Word)
  | rd16 (addr : Word)
  | wr16 (addr din : Word)
  | rd32 (addr : Word)
  | wr32 (addr data : Word)
  | read (addr : Word) (len : Nat)
  | write (addr : Word) (len : Nat)
  | set (addr : Word) (len : Nat)

/-- One call. -/
def Port.step (p : Port) : Call → Option Port
  | .init => some (jtagMemApInit p)
  | .regRd addr => some (jtagMemApRegRd p addr).2
  | .regWr addr din => some (jtagMemApRegWr p addr din)
  | .cswSet mask bitmap => some (jtagMemApCswSet p mask bitmap)
  | .cswClr mask bitmap => some (jtagMemApCswClr p mask bitmap)
  | .rd8 addr => some (jtagMemApRd8 p addr)
  | .wr8 addr din => some (jtagMemApWr8 p addr din)
  | .rd16 addr => some (jtagMemApRd16 p addr)
  | .wr16 addr din => some (jtagMemApWr16 p addr din)
  | .rd32 addr => some (jtagMemApRd32 p addr)
  | .wr32 addr data => some (jtagMemApWr32 p addr data)
  | .read addr len => some (jtagMemApRead p addr len)
  | .write addr len => some (jtagMemApWrite p addr len)
  | .set addr len => some (jtagMemApSet p addr len)

end YardIce.Adi
