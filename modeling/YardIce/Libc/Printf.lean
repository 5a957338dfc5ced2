import Mathlib.Data.BitVec
import Mathlib.Data.List.Basic

/-!
# Formatted output

`vfprintf` goes through the format and writes the text in pieces, by the write operation of the
file.

## Implementation notes

The arguments are read by `va_arg`, which is a parameter. The digits come from `uint2dec` and its
relatives. Padding beyond the arrays `__zeros` and `__blanks` takes what stands behind them. Nothing
but the count depends on what the write operation returns.
-/

namespace YardIce.Libc

abbrev Byte := BitVec 8
abbrev Word := BitVec 32

/-- A string: its bytes are before the `NUL`, and an `int` holds its length. -/
structure CString where
  bytes : List Byte
  noNul : 0 ∉ bytes
  small : bytes.length < 2 ^ 31

/-! ## Digits -/

/-- `for (; (i); i >>= 1)`: a digit, from the weights of its bits. -/
def divDigit : List Nat → Nat → Nat → Nat → Nat × Nat
  | [], val, _, c => (c, val)
  | i :: is, val, dv, c =>
      if dv ≤ val then divDigit is (val - dv) (dv / 2) (c + i) else divDigit is val (dv / 2) c

/-- `while ((dv = *dvp++))` -/
def divDigits : List Nat → List Nat → Nat → List Byte → List Byte
  | [], _, _, s => s
  | dv :: tab, is, val, s =>
      let (c, val) := divDigit is val dv 0
      divDigits tab [8, 4, 2, 1] val
        (if c ≠ 0 ∨ s ≠ [] then s ++ [BitVec.ofNat 8 (c + 0x30)] else s)

/-- `__div_tab` of `uint2dec.c`, without the zero at its end. -/
def uintDivTab : List Nat :=
  [4000000000, 800000000, 80000000, 8000000, 800000, 80000, 8000, 800, 80, 8]

/-- `__div_tab` of `ull2dec.c`, without the zero at its end. -/
def ullDivTab : List Nat :=
  [10000000000000000000, 8000000000000000000, 800000000000000000, 80000000000000000,
    8000000000000000, 800000000000000, 80000000000000, 8000000000000, 800000000000, 80000000000,
    8000000000, 800000000, 80000000, 8000000, 800000, 80000, 8000, 800, 80, 8]

/-- `uint2dec` -/
def uint2dec (val : Word) : List Byte :=
  if val = 0 then [0x30] else divDigits uintDivTab [4, 2, 1] val.toNat []

/-- `ull2dec` -/
def ull2dec (val : BitVec 64) : List Byte :=
  if val = 0 then [0x30] else divDigits ullDivTab [4, 2, 1] val.toNat []

/-- `__hextab` -/
def hextab (c : Nat) : Byte := BitVec.ofNat 8 (if c < 10 then 0x30 + c else 0x57 + c)

/-- The loop of `uint2hex` and `ull2hex`. -/
def hexDigits {w : Nat} : Nat → BitVec w → List Byte → List Byte
  | 0, _, s => s
  | turns + 1, val, s =>
      let c := (val >>> (w - 4)).toNat
      hexDigits turns (val <<< 4) (if c ≠ 0 ∨ s ≠ [] then s ++ [hextab c] else s)

/-- `uint2hex` -/
def uint2hex (val : Word) : List Byte := if val = 0 then [0x30] else hexDigits 8 val []

/-- `ull2hex` -/
def ull2hex (val : BitVec 64) : List Byte := if val = 0 then [0x30] else hexDigits 16 val []

/-! ## The format -/

/-- `flags` -/
structure Flags where
  percent : Bool
  width : Bool
  zero : Bool
  left : Bool
  sign : Bool
  long : Bool
  long2 : Bool
  deriving DecidableEq

/-- `flags = 0` -/
def Flags.none : Flags := ⟨false, false, false, false, false, false, false⟩

/-- `va_arg` for the types that are used. -/
structure VaList (α : Type) where
  int : α → Word × α
  longLong : α → BitVec 64 × α
  str : α → CString × α

/-- What stands behind `__zeros` and `__blanks`. -/
structure Rodata where
  zeros : Nat → Byte
  blanks : Nat → Byte

/-- The variables of `vfprintf`: `lit` are the `n` bytes at `cp` that are not written yet. -/
structure Printf (α : Type) where
  flags : Flags
  w : Word
  lit : List Byte
  ap : α

section Format

variable {α : Type} (va : VaList α) (ro : Rodata)

/-- `w - n` bytes of `__zeros`, which has 32. -/
def zeros (n : Nat) : List Byte := (List.range n).map fun i => if i < 32 then 0x30 else ro.zeros i

/-- `w - n` bytes of `__blanks`, which has 64. -/
def blanks (n : Nat) : List Byte :=
  (List.range n).map fun i => if i < 64 then 0x20 else ro.blanks i

/-- What is written from `print_buf` on. -/
def printBuf (flags : Flags) (w : Word) (cp : List Byte) : List (List Byte) :=
  let n := BitVec.ofNat 32 cp.length
  let sign := if flags.sign then [[0x2d]] else []
  (if flags.left = false ∧ n.slt w then
      if flags.zero then sign ++ [zeros ro (w - n).toNat]
      else blanks ro (w - n).toNat :: sign
    else sign) ++
  cp :: if flags.left ∧ n.slt w then [blanks ro (w - n).toNat] else []

/-- `print_buf`, and the end of a conversion. -/
def Printf.print (k : Printf α) (flags : Flags) (w : Word) (cp : List Byte) :
    List (List Byte) × Printf α :=
  (printBuf ro flags w cp, { k with flags := .none, w := 0, lit := [] })

/-- `%d`: the digits of the absolute value, with `w` one less for a sign. -/
def printDec (k : Printf α) : List (List Byte) × Printf α :=
  if k.flags.long2 then
    let (val, ap) := va.longLong k.ap
    if val.msb then
      ({ k with ap := ap }).print ro { k.flags with sign := true } (k.w - 1) (ull2dec (-val))
    else ({ k with ap := ap }).print ro k.flags k.w (ull2dec val)
  else
    let (val, ap) := va.int k.ap
    if val.msb then
      ({ k with ap := ap }).print ro { k.flags with sign := true } (k.w - 1) (uint2dec (-val))
    else ({ k with ap := ap }).print ro k.flags k.w (uint2dec val)

/-- `%x` and `%u`: the digits of an unsigned value. -/
def printUnsigned (digits : Word → List Byte) (digits2 : BitVec 64 → List Byte) (k : Printf α) :
    List (List Byte) × Printf α :=
  if k.flags.long2 then
    let (val, ap) := va.longLong k.ap
    ({ k with ap := ap }).print ro k.flags k.w (digits2 val)
  else
    let (val, ap) := va.int k.ap
    ({ k with ap := ap }).print ro k.flags k.w (digits val)

/-- A character of the format, and what is written at it. -/
def Printf.char (k : Printf α) (c : Byte) : List (List Byte) × Printf α :=
  if k.flags = .none then
    if c = 0x25 then
      (if k.lit ≠ [] then [k.lit] else [],
        { k with w := 0, flags := { Flags.none with percent := true }, lit := [] })
    else ([], { k with lit := k.lit ++ [c] })
  else if 0x30 ≤ c.toNat ∧ c.toNat ≤ 0x39 then
    if k.flags.width = false ∧ c = 0x30 then
      ([], { k with flags := { k.flags with width := true, zero := true } })
    else
      ([], { k with
        flags := { k.flags with width := true }
        w := (((k.w <<< 2) + k.w) <<< 1) + BitVec.ofNat 32 (c.toNat - 0x30) })
  else if c = 0x2d then ([], { k with flags := { k.flags with left := true } })
  else if c = 0x2a then
    let (w, ap) := va.int k.ap
    ([], { k with w := w, ap := ap })
  else if c = 0x6c then
    if k.flags.long then ([], { k with flags := { k.flags with long2 := true } })
    else ([], { k with flags := { k.flags with long := true } })
  else if c = 0x63 then
    let (val, ap) := va.int k.ap
    ({ k with ap := ap }).print ro k.flags k.w [val.setWidth 8]
  else if c = 0x64 then printDec va ro k
  else if c = 0x78 then printUnsigned va ro uint2hex ull2hex k
  else if c = 0x73 then
    let (s, ap) := va.str k.ap
    ({ k with ap := ap }).print ro k.flags k.w s.bytes
  else if c = 0x75 then printUnsigned va ro uint2dec ull2dec k
  else if c = 0x70 then
    let (val, ap) := va.int k.ap
    ({ k with ap := ap }).print ro { k.flags with zero := true } 8 (uint2hex val)
  else k.print ro .none 0 [c]

end Format

/-! ## Writing -/

/-- A write operation: its value and the state it leaves. -/
abbrev Write (σ : Type) := σ → List Byte → Word × σ

section Vfprintf

variable {α σ : Type} (va : VaList α) (ro : Rodata) (write : Write σ)

/-- `cnt += f->op->write(f->data, cp, n)` -/
def emit (r : Word × σ) (cp : List Byte) : Word × σ :=
  let (n, s) := write r.2 cp
  (r.1 + n, s)

/-- The loop over the format, and the write behind it. -/
def vfprintfLoop : List Byte → Printf α → Word × σ → Word × σ
  | [], k, r => if k.lit ≠ [] then emit write r k.lit else r
  | c :: fmt, k, r =>
      let (pieces, k) := k.char va ro c
      vfprintfLoop fmt k (pieces.foldl (emit write) r)

/-- `vfprintf` -/
def vfprintf (f : σ) (fmt : CString) (ap : α) : Word × σ :=
  vfprintfLoop va ro write fmt.bytes ⟨.none, 0, [], ap⟩ (0, f)

/-- The pieces that are written. -/
def pieces : List Byte → Printf α → List (List Byte)
  | [], k => if k.lit ≠ [] then [k.lit] else []
  | c :: fmt, k => (k.char va ro c).1 ++ pieces fmt (k.char va ro c).2

theorem vfprintfLoop_eq (fmt : List Byte) (k : Printf α) (r : Word × σ) :
    vfprintfLoop va ro write fmt k r = (pieces va ro fmt k).foldl (emit write) r := by
  induction fmt generalizing k r with
  | nil =>
      unfold vfprintfLoop pieces
      split_ifs <;> rfl
  | cons c fmt ih =>
      unfold vfprintfLoop pieces
      rw [List.foldl_append, ← ih]

end Vfprintf

/-! ## The lengths of the pieces -/

section Lengths

/-- An `int` holds the length. -/
def Small (cp : List Byte) : Prop := cp.length < 2 ^ 31

theorem small_none : ∀ p ∈ ([] : List (List Byte)), Small p := fun _ hp => nomatch hp

theorem small_singleton (b : Byte) : Small [b] := Nat.one_lt_two_pow (by decide)

theorem divDigits_length (tab is : List Nat) (val : Nat) (s : List Byte) :
    (divDigits tab is val s).length ≤ s.length + tab.length := by
  induction tab generalizing is val s with
  | nil => exact le_rfl
  | cons dv tab ih =>
      unfold divDigits
      refine (ih _ _ _).trans ?_
      rw [List.length_cons]
      split_ifs
      · rw [List.length_append, List.length_singleton]
        omega
      · omega

theorem hexDigits_length {w : Nat} (turns : Nat) (val : BitVec w) (s : List Byte) :
    (hexDigits turns val s).length ≤ s.length + turns := by
  induction turns generalizing val s with
  | zero => exact le_rfl
  | succ turns ih =>
      unfold hexDigits
      refine (ih _ _).trans ?_
      split_ifs
      · rw [List.length_append, List.length_singleton]
        omega
      · omega

theorem small_uint2dec (val : Word) : Small (uint2dec val) := by
  unfold Small uint2dec
  split_ifs
  · decide
  · exact (divDigits_length ..).trans_lt (by decide)

theorem small_ull2dec (val : BitVec 64) : Small (ull2dec val) := by
  unfold Small ull2dec
  split_ifs
  · decide
  · exact (divDigits_length ..).trans_lt (by decide)

theorem small_uint2hex (val : Word) : Small (uint2hex val) := by
  unfold Small uint2hex
  split_ifs
  · decide
  · exact (hexDigits_length ..).trans_lt (by decide)

theorem small_ull2hex (val : BitVec 64) : Small (ull2hex val) := by
  unfold Small ull2hex
  split_ifs
  · decide
  · exact (hexDigits_length ..).trans_lt (by decide)

variable {α : Type} {va : VaList α} {ro : Rodata}

/-- The padding is what `w` is more than the length. -/
theorem pad_lt {cp : List Byte} {w : Word} (h : Small cp)
    (hw : (BitVec.ofNat 32 cp.length).slt w = true) :
    (w - BitVec.ofNat 32 cp.length).toNat < 2 ^ 31 := by
  unfold Small at h
  have hn : (BitVec.ofNat 32 cp.length).toNat = cp.length := by
    rw [BitVec.toNat_ofNat, Nat.mod_eq_of_lt (by omega)]
  have hlt := BitVec.slt_iff_toInt_lt.mp hw
  rw [BitVec.toInt_eq_toNat_cond, BitVec.toInt_eq_toNat_cond, hn] at hlt
  have hle : (BitVec.ofNat 32 cp.length) ≤ w := by
    rw [BitVec.le_def, hn]
    split_ifs at hlt <;> omega
  rw [BitVec.toNat_sub_of_le hle]
  split_ifs at hlt <;> omega

theorem small_printBuf (ro : Rodata) (flags : Flags) (w : Word) {cp : List Byte} (h : Small cp) :
    ∀ p ∈ printBuf ro flags w cp, Small p := by
  have hzeros : (BitVec.ofNat 32 cp.length).slt w = true →
      Small (zeros ro (w - BitVec.ofNat 32 cp.length).toNat) := fun hw => by
    unfold Small zeros
    rw [List.length_map, List.length_range]
    exact pad_lt h hw
  have hblanks : (BitVec.ofNat 32 cp.length).slt w = true →
      Small (blanks ro (w - BitVec.ofNat 32 cp.length).toNat) := fun hw => by
    unfold Small blanks
    rw [List.length_map, List.length_range]
    exact pad_lt h hw
  have hsign : ∀ p ∈ (if flags.sign then [[(0x2d : Byte)]] else []), Small p := by
    split_ifs
    · exact List.forall_mem_singleton.mpr (small_singleton _)
    · exact small_none
  unfold printBuf
  generalize (if flags.sign then [[(0x2d : Byte)]] else []) = sign at hsign
  refine List.forall_mem_append.mpr ⟨?_, List.forall_mem_cons.mpr ⟨h, ?_⟩⟩
  · split_ifs with hpad hzero
    · exact List.forall_mem_append.mpr ⟨hsign, List.forall_mem_singleton.mpr (hzeros hpad.2)⟩
    · exact List.forall_mem_cons.mpr ⟨hblanks hpad.2, hsign⟩
    · exact hsign
  · split_ifs with hpad
    · exact List.forall_mem_singleton.mpr (hblanks hpad.2)
    · exact small_none

/-- What is written at a character has small pieces, and leaves a literal that is at most one
longer. -/
structure SmallStep (k : Printf α) (r : List (List Byte) × Printf α) : Prop where
  pieces : ∀ p ∈ r.1, Small p
  lit : r.2.lit.length ≤ k.lit.length + 1

theorem SmallStep.ite {k : Printf α} {r r' : List (List Byte) × Printf α} {P : Prop} [Decidable P]
    (h : SmallStep k r) (h' : SmallStep k r') : SmallStep k (if P then r else r') := by
  split_ifs
  · exact h
  · exact h'

theorem small_print (k : Printf α) (ap : α) (flags : Flags) (w : Word) {cp : List Byte}
    (h : Small cp) : SmallStep k (({ k with ap := ap }).print ro flags w cp) :=
  ⟨small_printBuf ro flags w h, Nat.zero_le _⟩

theorem small_printDec (k : Printf α) : SmallStep k (printDec va ro k) :=
  .ite (.ite (small_print k _ _ _ (small_ull2dec _)) (small_print k _ _ _ (small_ull2dec _)))
    (.ite (small_print k _ _ _ (small_uint2dec _)) (small_print k _ _ _ (small_uint2dec _)))

theorem small_printUnsigned (k : Printf α) {digits : Word → List Byte}
    {digits2 : BitVec 64 → List Byte} (h : ∀ val, Small (digits val))
    (h2 : ∀ val, Small (digits2 val)) : SmallStep k (printUnsigned va ro digits digits2 k) :=
  .ite (small_print k _ _ _ (h2 _)) (small_print k _ _ _ (h _))

theorem small_char (k : Printf α) (c : Byte) (h : Small k.lit) : SmallStep k (k.char va ro c) := by
  have hskip : ∀ k' : Printf α, k'.lit = k.lit → SmallStep k ([], k') := fun k' hlit =>
    ⟨small_none, (congrArg List.length hlit).le.trans (Nat.le_succ _)⟩
  have hlit : ∀ p ∈ (if k.lit ≠ [] then [k.lit] else []), Small p := by
    by_cases hlit : k.lit = []
    · rw [if_neg (not_not.mpr hlit)]
      exact small_none
    · rw [if_pos hlit]
      exact List.forall_mem_singleton.mpr h
  unfold Printf.char
  refine .ite (.ite ⟨hlit, Nat.zero_le _⟩ ⟨small_none, ?_⟩) ?_
  · show (k.lit ++ [c]).length ≤ _
    rw [List.length_append, List.length_singleton]
  refine .ite (.ite (hskip _ rfl) (hskip _ rfl)) (.ite (hskip _ rfl) (.ite (hskip _ rfl) ?_))
  refine .ite (.ite (hskip _ rfl) (hskip _ rfl)) (.ite ?_ (.ite ?_ ?_))
  · exact small_print k _ _ _ (small_singleton _)
  · exact small_printDec k
  refine .ite (small_printUnsigned k small_uint2hex small_ull2hex) (.ite ?_ ?_)
  · exact small_print k _ _ _ (va.str k.ap).1.small
  refine .ite (small_printUnsigned k small_uint2dec small_ull2dec) (.ite ?_ ?_)
  · exact small_print k _ _ _ (small_uint2hex _)
  · exact small_print k k.ap _ _ (small_singleton _)

theorem small_pieces {fmt : List Byte} {k : Printf α} (h : k.lit.length + fmt.length < 2 ^ 31) :
    ∀ p ∈ pieces va ro fmt k, Small p := by
  induction fmt generalizing k with
  | nil =>
      unfold pieces
      split_ifs
      · exact List.forall_mem_singleton.mpr h
      · exact small_none
  | cons c fmt ih =>
      rw [List.length_cons] at h
      have hstep : SmallStep k (k.char va ro c) := small_char k c (by unfold Small; omega)
      exact List.forall_mem_append.mpr ⟨hstep.pieces, ih (by have := hstep.lit; omega)⟩

end Lengths

end YardIce.Libc
