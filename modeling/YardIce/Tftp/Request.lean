import YardIce.IceDrv.MemMap
import Mathlib.Data.List.Basic

/-!
# Requests of the TFTP server

`tftp_req_parse` and `tftp_decode_fname` of `tftp.c`, with `strtoul` of the C library of
the repository. Both work on the bytes of the message buffer from `th_stuff` on.

## Implementation notes

A C string is read from the list of the bytes that follow its first one. The list ends
with the message buffer, and a function that reads past it has no value. The field
`fname` of `struct tftp_req` is the start of the bytes read, and is left out. The field
`opt` holds the `opt_len` bytes of the options, so that `opt_len` is its length.
-/

namespace YardIce.Tftp

open IceDrv (Word MemEntry)

abbrev Byte := BitVec 8

/-- `TFTP_SEGSIZE`. -/
def tftpSegsize : Nat := 512

/-- `MAX_TFTP_SEGSIZE`. -/
def maxTftpSegsize : Nat := 1428

/-- The bytes of characters. -/
def chars (cs : List Char) : List Byte := cs.map fun c => BitVec.ofNat 8 c.toNat

/-- The bytes of a text. -/
def text (s : String) : List Byte := chars s.toList

/-- A C string and the bytes after its terminating zero. -/
def cstring : List Byte → Option (List Byte × List Byte)
  | [] => none
  | c :: rest =>
      if c = 0 then some ([], rest) else (cstring rest).map fun p => (c :: p.1, p.2)

/-- Whether `strcmp` of a string and a literal is zero. -/
def strcmp : List Byte → List Byte → Option Bool
  | [], _ => none
  | c :: _, [] => some (c = 0)
  | c :: rest, d :: lit => if c = d then strcmp rest lit else some false

/-! ## Numbers -/

def decDigit (c : Byte) : Option Word :=
  if 0x30 ≤ c ∧ c ≤ 0x39 then some (c - 0x30).toNat else none

/-- A hexadecimal digit; a letter is first turned to upper case. -/
def hexDigit (c : Byte) : Option Word :=
  let c := if 0x61 ≤ c then c &&& ~~~0x20 else c
  if 0x41 ≤ c ∧ c ≤ 0x46 then some (c - 0x37).toNat else decDigit c

/-- The loop of `strtoul` over the digits. -/
def digits (digit : Byte → Option Word) (base : Word) : Word → List Byte → Option (Word × List Byte)
  | _, [] => none
  | val, c :: rest =>
      match digit c with
      | some d => digits digit base (val * base + d) rest
      | none => some (val, c :: rest)

def skipBlanks : List Byte → List Byte
  | [] => []
  | c :: rest => if c = 0x20 then skipBlanks rest else c :: rest

/-- `strtoul`: the value and the bytes from `*__endp` on. -/
def strtoul (s : List Byte) (base : Nat) : Option (Word × List Byte) :=
  match skipBlanks s with
  | [] => none
  | c :: rest =>
      if (base = 0 ∨ base = 16) ∧ c = 0x30 then
        match rest with
        | [] => none
        | x :: rest' =>
            if x &&& ~~~0x20 = 0x58 then digits hexDigit 16 0 rest'
            else if base = 16 then digits hexDigit 16 0 rest
            -- the loop for base 8 stands before the first `case` and is not reached
            else some (0, rest)
      else if base = 0 ∨ base = 10 then digits decDigit 10 0 (c :: rest)
      else if base = 16 then digits hexDigit 16 0 (c :: rest)
      else some (0, c :: rest)

/-- The conversion `%d` of a number that is not negative. -/
def decimal (n : Nat) : List Byte := chars (Nat.toDigits 10 n)

/-! ## `tftp_req_parse` -/

/-- The values of `mode`. Before the first request it has none of the two it is compared
with. -/
inductive Mode
  | netascii
  | octet
  | unset
  deriving DecidableEq

/-- `struct tftp_req`. -/
structure Req where
  mode : Mode
  blksize : Nat
  opt : List Byte
  deriving DecidableEq

/-- The comparisons of `tftp_req_parse` with the names of the modes. -/
def parseMode (cp : List Byte) : Option (Option Mode) := do
  if ← strcmp cp (text "octet") then return some .octet
  if ← strcmp cp (text "netascii") then return some .netascii
  return none

/-- The option of a request: the block size and the bytes to acknowledge. -/
def parseBlksize (cp : List Byte) : Option (Nat × List Byte) := do
  if ← strcmp cp (text "blksize") then
    let (_, cp) ← cstring cp
    let (val, _) ← strtoul cp 10
    let blksize := min (val.toNat % 2 ^ 16) maxTftpSegsize
    return (blksize, text "blksize" ++ 0 :: decimal blksize ++ [0])
  return (tftpSegsize, [])

/-- `tftp_req_parse`: the value returned and the request. -/
def tftpReqParse (hdr : List Byte) (req : Req) : Option (Int × Req) := do
  let (_, cp) ← cstring hdr
  match ← parseMode cp with
  | none => return (-1, req)
  | some mode =>
      let (_, cp) ← cstring cp
      let (blksize, opt) ← parseBlksize cp
      return (0, { mode, blksize, opt })

/-! ## `tftp_decode_fname` -/

/-- `struct mem_range`. -/
structure MemRange where
  base : Word
  size : Word
  deriving DecidableEq

/-- The debugger as the server uses it: the range of the transfer, the memories of the
target by name, and what the commands and the memory accesses act on. -/
structure Debugger (σ : Type) where
  transf : MemRange
  mem : List (List Byte × MemEntry σ)
  target : σ

variable {σ : Type}

/-- A name ends at the first full stop or blank. -/
def cutName : List Byte → Option (List Byte)
  | [] => none
  | c :: rest =>
      if c = 0 then some (c :: rest)
      else if c = 0x2e ∨ c = 0x20 then some (0 :: rest)
      else (cutName rest).map (c :: ·)

/-- `ice_mem_by_name`. -/
def iceMemByName (mem : List (List Byte × MemEntry σ)) (name : List Byte) : Option (MemEntry σ) :=
  (mem.find? fun e => e.1 = name).map Prod.snd

/-- The unit after a size. -/
def sizeUnit (c : Byte) : Word :=
  if c = 0x6b ∨ c = 0x4b then 1024 else if c = 0x6d ∨ c = 0x4d then 1024 * 1024 else 1

/-- The end of a range from the text after its start; `none` inside is `BAD ADDR.`. -/
def rangeEnd (addr size : Word) : List Byte → Option (Option Word)
  | [] => none
  | c :: cp =>
      if c = 0x3a ∨ c = 0x2d then do
        let (last, _) ← strtoul cp 16
        return if last ≤ addr then none else some last
      else if c = 0x2e ∨ c = 0x5f ∨ c = 0x23 then do
        let (val, cp) ← strtoul cp 0
        let unit ← cp.head?
        return some (addr + val * sizeUnit unit)
      else return some (addr + size)

/-- Whether a file name starts with `0x`. -/
def isAddress : List Byte → Bool
  | c :: d :: _ => c = 0x30 ∧ d = 0x78
  | _ => false

/-- `tftp_decode_fname`: the value returned, the debugger, and the bytes of the name. -/
def tftpDecodeFname (dbg : Debugger σ) (fname : List Byte) :
    Option (Int × Debugger σ × List Byte) :=
  if isAddress fname then do
    let (addr, cp) ← strtoul fname 16
    match ← rangeEnd addr dbg.transf.size cp with
    | none => return (-1, dbg, fname)
    | some last => return (0, { dbg with transf := ⟨addr, last - addr⟩ }, fname)
  else do
    let fname ← cutName fname
    let (name, _) ← cstring fname
    match iceMemByName dbg.mem name with
    | none => return (0, dbg, fname)
    | some e =>
        let transf := ⟨e.addr.base + e.addr.offs, e.count * e.size⟩
        return (0, { dbg with transf := transf }, fname)

end YardIce.Tftp
