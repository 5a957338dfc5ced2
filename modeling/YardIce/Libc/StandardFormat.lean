import YardIce.Libc.Decimal
import YardIce.Libc.Snprintf

/-!
# The text of a format

`vfprintf` against the text that a format stands for: literal text and conversions, each in a field
of a width with padding.

## Implementation notes

The modifiers `l` and `ll` go with the conversions of integers. The operation `write` of the file
returns what it was given, and the arguments are read by `va_arg` as in `Printf`.
-/

namespace YardIce.Libc

open Lib

/-! ## Hexadecimal digits -/

/-- The hexadecimal representation. -/
def hexadecimal (v : Nat) : List Byte := (numeral 16 v).map hextab

/-- The digits are the places from the top of the word down. -/
theorem hexDigits_eq {w : Nat} (turns k : Nat) (hw : w = 4 * (turns + k)) (val : BitVec w)
    (s : List Byte) :
    hexDigits turns val s = s ++ (if s = [] then
      (places 16 turns (val.toNat / 16 ^ k)).dropWhile (· == 0)
      else places 16 turns (val.toNat / 16 ^ k)).map hextab := by
  induction turns generalizing k val s with
  | zero => simp [hexDigits, places]
  | succ turns ih =>
      have hpow (n : Nat) : 2 ^ (4 * n) = 16 ^ n := Nat.pow_mul 2 4 n
      have htop : (val >>> (w - 4)).toNat = val.toNat / 16 ^ k / 16 ^ turns := by
        have hexp : w - 4 = 4 * (k + turns) := by omega
        rw [BitVec.toNat_ushiftRight, Nat.shiftRight_eq_div_pow, hexp, hpow, Nat.pow_add,
          Nat.div_div_eq_div_mul]
      have hrest : (val <<< 4).toNat / 16 ^ (k + 1) = val.toNat / 16 ^ k % 16 ^ turns := by
        have hexp : 2 ^ w = 16 * (16 ^ k * 16 ^ turns) := by
          have hsplit : w = 4 * (1 + (k + turns)) := by omega
          rw [hsplit, hpow, Nat.pow_add, Nat.pow_one, Nat.pow_add]
        have hshift : 2 ^ 4 = 16 := rfl
        rw [BitVec.toNat_shiftLeft, Nat.shiftLeft_eq, hexp, hshift, Nat.mul_comm _ 16,
          Nat.mul_mod_mul_left, Nat.pow_succ, Nat.mul_comm _ 16,
          Nat.mul_div_mul_left _ _ (by decide), Nat.mod_mul_right_div_self]
      have hstep : hexDigits (turns + 1) val s = hexDigits turns (val <<< 4)
          (if val.toNat / 16 ^ k / 16 ^ turns ≠ 0 ∨ s ≠ [] then
            s ++ [hextab (val.toNat / 16 ^ k / 16 ^ turns)] else s) := by
        rw [← htop]
        rfl
      rw [hstep, ih (k + 1) (by omega), hrest, places]
      by_cases hs : s = []
      · subst hs
        by_cases hc : val.toNat / 16 ^ k / 16 ^ turns = 0
        · simp [hc]
        · simp [hc]
      · simp [hs]

theorem hexadecimal_of_ne_zero {w turns : Nat} (hw : w = 4 * turns) {val : BitVec w}
    (hne : val ≠ 0) : hexDigits turns val [] = hexadecimal val.toNat := by
  have hlt : val.toNat < 16 ^ turns := by
    have hpow : 2 ^ w = 16 ^ turns := by rw [hw, Nat.pow_mul]
    exact hpow ▸ val.isLt
  have hnat : val.toNat ≠ 0 := fun h => hne (BitVec.eq_of_toNat_eq h)
  rw [hexDigits_eq turns 0 hw, if_pos rfl, Nat.pow_zero, Nat.div_one,
    dropWhile_places (by decide) hlt hnat]
  rfl

theorem uint2hex_eq (val : Word) : uint2hex val = hexadecimal val.toNat := by
  unfold uint2hex
  split_ifs with hzero
  · rw [hzero]
    rfl
  · exact hexadecimal_of_ne_zero rfl hzero

theorem ull2hex_eq (val : BitVec 64) : ull2hex val = hexadecimal val.toNat := by
  unfold ull2hex
  split_ifs with hzero
  · rw [hzero]
    rfl
  · exact hexadecimal_of_ne_zero rfl hzero

/-! ## Fields -/

/-- The sign of a negative number. -/
def minus (sign : Bool) : List Byte := if sign then [0x2d] else []

/-- A text in a field, with a sign. -/
def field (left zero sign : Bool) (w : Nat) (digits : List Byte) : List Byte :=
  let pad := w - (minus sign ++ digits).length
  if left then minus sign ++ digits ++ List.replicate pad 0x20
  else if zero then minus sign ++ List.replicate pad 0x30 ++ digits
  else List.replicate pad 0x20 ++ (minus sign ++ digits)

/-- `print_buf` writes the field, where `w` is one less for a sign. -/
theorem printBuf_flatten (ro : Rodata) {flags : Flags} {wi : Word} {w : Nat} {digits : List Byte}
    (hw : wi.toInt = (w : Int) - if flags.sign then 1 else 0) (h32 : w ≤ 32)
    (hsmall : digits.length < 2 ^ 31) :
    (printBuf ro flags wi digits).flatten =
      field flags.left flags.zero flags.sign w digits := by
  have hn : (BitVec.ofNat 32 digits.length).toInt = digits.length := by
    rw [BitVec.toInt_eq_toNat_of_lt] <;> rw [BitVec.toNat_ofNat, Nat.mod_eq_of_lt (by omega)]
    omega
  have hslt : (BitVec.ofNat 32 digits.length).slt wi = true ↔ (digits.length : Int) < wi.toInt := by
    rw [BitVec.slt_iff_toInt_lt, hn]
  have hzeros {n : Nat} (h : n ≤ 32) : zeros ro n = List.replicate n 0x30 := by
    refine List.eq_replicate_iff.mpr ⟨by simp [zeros], fun b hb => ?_⟩
    obtain ⟨i, hi, rfl⟩ := List.mem_map.mp hb
    exact if_pos ((List.mem_range.mp hi).trans_le h)
  have hblanks {n : Nat} (h : n ≤ 32) : blanks ro n = List.replicate n 0x20 := by
    refine List.eq_replicate_iff.mpr ⟨by simp [blanks], fun b hb => ?_⟩
    obtain ⟨i, hi, rfl⟩ := List.mem_map.mp hb
    exact if_pos ((List.mem_range.mp hi).trans_le (h.trans (by decide)))
  have hsign : (if flags.sign then [[(0x2d : Byte)]] else []).flatten = minus flags.sign := by
    unfold minus
    split_ifs <;> rfl
  have hmlen : ((minus flags.sign).length : Int) = if flags.sign then 1 else 0 := by
    unfold minus
    split_ifs <;> rfl
  rw [← hmlen] at hw
  have hpad (h : (digits.length : Int) < wi.toInt) :
      (wi - BitVec.ofNat 32 digits.length).toNat = w - (minus flags.sign ++ digits).length := by
    have htoNat : (BitVec.ofNat 32 digits.length).toNat = digits.length := by
      rw [BitVec.toNat_ofNat, Nat.mod_eq_of_lt (by omega)]
    have hwi : wi.toNat = w - (minus flags.sign).length := by
      rw [BitVec.toInt_eq_toNat_cond] at hw h
      split_ifs at hw h <;> omega
    have hle : BitVec.ofNat 32 digits.length ≤ wi := by
      rw [BitVec.le_def, htoNat]
      omega
    rw [BitVec.toNat_sub_of_le hle, htoNat, List.length_append]
    omega
  unfold printBuf field
  generalize (if flags.sign then [[(0x2d : Byte)]] else []) = sign at hsign
  by_cases hlt : (digits.length : Int) < wi.toInt
  · have hcode := hslt.mpr hlt
    have hle : w - (minus flags.sign ++ digits).length ≤ 32 := by omega
    simp only [hcode, hpad hlt, hzeros hle, hblanks hle]
    cases flags.left <;> cases flags.zero <;> simp [hsign]
  · have hcode : (BitVec.ofNat 32 digits.length).slt wi = false :=
      Bool.eq_false_iff.mpr fun h => hlt (hslt.mp h)
    have h0 : w - (minus flags.sign ++ digits).length = 0 := by
      rw [List.length_append]
      omega
    simp only [hcode, h0]
    cases flags.left <;> cases flags.zero <;> simp [hsign]

/-! ## Formats -/

/-- A conversion, with the number of its modifiers `l`. -/
inductive Conv where
  | d (l : Nat)
  | u (l : Nat)
  | x (l : Nat)
  | c
  | s
  | p

/-- A part of a format. Of the flags `true` is `0` and `false` is `-`; the width `some none` is
`*`. -/
inductive Item where
  | lit (c : Byte)
  | percent
  | conv (flags : List Bool) (width : Option (Option Nat)) (cv : Conv)

def flagByte (zero : Bool) : Byte := if zero then 0x30 else 0x2d

def widthText : Option (Option Nat) → List Byte
  | none => []
  | some none => [0x2a]
  | some (some n) => decimal n

def Conv.text : Conv → List Byte
  | d l => List.replicate l 0x6c ++ [0x64]
  | u l => List.replicate l 0x6c ++ [0x75]
  | x l => List.replicate l 0x6c ++ [0x78]
  | c => [0x63]
  | s => [0x73]
  | p => [0x70]

def Item.text : Item → List Byte
  | lit c => [c]
  | percent => [0x25, 0x25]
  | conv flags width cv => 0x25 :: (flags.map flagByte ++ (widthText width ++ cv.text))

def formatText (items : List Item) : List Byte := items.flatMap Item.text

/-- How values of 64 bits and pointers are written; a pointer in a field. -/
structure Digits where
  ull : BitVec 64 → List Byte
  ptr : Bool → Bool → Nat → Word → List Byte

/-- Decimal digits, and eight hexadecimal ones. -/
def standardDigits : Digits :=
  ⟨fun v => decimal v.toNat,
    fun left zero w v => field left zero false w ((places 16 8 v.toNat).map hextab)⟩

/-- What the code writes. -/
def codeDigits : Digits :=
  ⟨ull2dec, fun left _ _ v => field left true false 8 (uint2hex v)⟩

section Items

variable {α : Type} (va : VaList α) (dg : Digits)

def readWidth (ap : α) : Option (Option Nat) → Nat × α
  | none => (0, ap)
  | some none => ((va.int ap).1.toNat, (va.int ap).2)
  | some (some n) => (n, ap)

/-- The absolute value. -/
def magnitude {w : Nat} (v : BitVec w) : BitVec w := if v.msb then -v else v

def Conv.field (left zero : Bool) (w : Nat) (ap : α) : Conv → List Byte × α
  | d l =>
      if l = 2 then
        let v := va.longLong ap
        (Libc.field left zero v.1.msb w (dg.ull (magnitude v.1)), v.2)
      else
        let v := va.int ap
        (Libc.field left zero v.1.msb w (decimal (magnitude v.1).toNat), v.2)
  | u l =>
      if l = 2 then
        let v := va.longLong ap
        (Libc.field left zero false w (dg.ull v.1), v.2)
      else
        let v := va.int ap
        (Libc.field left zero false w (decimal v.1.toNat), v.2)
  | x l =>
      if l = 2 then
        let v := va.longLong ap
        (Libc.field left zero false w (hexadecimal v.1.toNat), v.2)
      else
        let v := va.int ap
        (Libc.field left zero false w (hexadecimal v.1.toNat), v.2)
  | c =>
      let v := va.int ap
      (Libc.field left false false w [v.1.setWidth 8], v.2)
  | s =>
      let v := va.str ap
      (Libc.field left false false w v.1.bytes, v.2)
  | p =>
      let v := va.int ap
      (dg.ptr left zero w v.1, v.2)

/-- The text that a format stands for. -/
def textOf : List Item → α → List Byte
  | [], _ => []
  | .lit c :: r, ap => c :: textOf r ap
  | .percent :: r, ap => 0x25 :: textOf r ap
  | .conv flags width cv :: r, ap =>
      let w := readWidth va ap width
      let t := cv.field va dg (flags.contains false) (flags.contains true) w.1 w.2
      t.1 ++ textOf r t.2

/-- There are at most two modifiers, and the flag `0` goes with numbers. -/
def Conv.Valid (zero : Bool) : Conv → Prop
  | d l => l ≤ 2
  | u l => l ≤ 2
  | x l => l ≤ 2
  | c => zero = false
  | s => zero = false
  | p => True

/-- The format is well formed, with widths up to 32. -/
def ValidFormat : List Item → α → Prop
  | [], _ => True
  | .lit c :: r, ap => c ≠ 0x25 ∧ ValidFormat r ap
  | .percent :: r, ap => ValidFormat r ap
  | .conv flags width cv :: r, ap =>
      let w := readWidth va ap width
      let t := cv.field va standardDigits (flags.contains false) (flags.contains true) w.1 w.2
      (width ≠ some (some 0) ∧ w.1 ≤ 32) ∧ cv.Valid (flags.contains true) ∧ ValidFormat r t.2

/-- The conversion is one that the code writes as it should. -/
def Conv.Good (left : Bool) (w : Nat) (ap : α) : Conv → Prop
  | d l => l = 2 → (magnitude (va.longLong ap).1).toNat < 2500000000000000000
  | u l => l = 2 → (va.longLong ap).1.toNat < 2500000000000000000
  | p => w ≤ 8 ∧ (left = true → 2 ^ 28 ≤ (va.int ap).1.toNat)
  | _ => True

def GoodFormat : List Item → α → Prop
  | [], _ => True
  | .lit _ :: r, ap => GoodFormat r ap
  | .percent :: r, ap => GoodFormat r ap
  | .conv flags width cv :: r, ap =>
      let w := readWidth va ap width
      let t := cv.field va standardDigits (flags.contains false) (flags.contains true) w.1 w.2
      cv.Good va (flags.contains false) w.1 w.2 ∧ GoodFormat r t.2

end Items

/-! ## The format in the code -/

section Code

variable {α : Type} {va : VaList α} {ro : Rodata}

/-- The flags of a conversion before its last character. -/
def convFlags (width zero left long long2 : Bool) : Flags :=
  ⟨true, width, zero, left, false, long, long2⟩

theorem convFlags_ne_none (width zero left long long2 : Bool) :
    convFlags width zero left long long2 ≠ Flags.none := by
  simp [convFlags, Flags.none]

theorem pieces_flags (flags : List Bool) (zero left : Bool) (ap : α) (rest : List Byte) :
    pieces va ro (flags.map flagByte ++ rest) ⟨convFlags zero zero left false false, 0, [], ap⟩ =
      pieces va ro rest ⟨convFlags (zero || flags.contains true) (zero || flags.contains true)
        (left || flags.contains false) false false, 0, [], ap⟩ := by
  induction flags generalizing zero left with
  | nil => simp
  | cons f flags ih =>
      rw [List.map_cons, List.cons_append, pieces]
      cases f with
      | false =>
          have hstep : Printf.char va ro ⟨convFlags zero zero left false false, 0, [], ap⟩
              (flagByte false) = ([], ⟨convFlags zero zero true false false, 0, [], ap⟩) := by
            cases zero <;> cases left <;> rfl
          rw [hstep, List.nil_append, ih]
          simp
      | true =>
          have hstep : Printf.char va ro ⟨convFlags zero zero left false false, 0, [], ap⟩
              (flagByte true) = ([], ⟨convFlags true true left false false, 0, [], ap⟩) := by
            cases zero <;> cases left <;> rfl
          rw [hstep, List.nil_append, ih]
          simp

/-- A digit of the width. -/
theorem char_digit {k : Printf α} (hk : k.flags ≠ Flags.none) {d : Nat} (hd : d < 10)
    (h : k.flags.width = true ∨ d ≠ 0) :
    k.char va ro (digitByte d) = ([], { k with
      flags := { k.flags with width := true }
      w := (((k.w <<< 2) + k.w) <<< 1) + BitVec.ofNat 32 d }) := by
  have hval : (digitByte d).toNat = d + 0x30 := by
    rw [digitByte, BitVec.toNat_ofNat, Nat.mod_eq_of_lt (by omega)]
  have hzero : ¬(k.flags.width = false ∧ digitByte d = 0x30) := by
    rintro ⟨hw, h0⟩
    have h48 := congrArg BitVec.toNat h0
    rw [hval] at h48
    have hd0 : d = 0 := by
      have h30 : (0x30 : Byte).toNat = 0x30 := rfl
      omega
    exact h.elim (fun hw' => absurd hw (by rw [hw']; decide)) fun hne => hne hd0
  rw [Printf.char, if_neg hk, if_pos (by omega), if_neg hzero, hval, Nat.add_sub_cancel]

theorem ofNat_times_ten (w d : Nat) :
    (((BitVec.ofNat 32 w <<< 2) + BitVec.ofNat 32 w) <<< 1) + BitVec.ofNat 32 d =
      BitVec.ofNat 32 (w * 10 + d) := by
  refine BitVec.eq_of_toNat_eq ?_
  simp only [BitVec.toNat_add, BitVec.toNat_shiftLeft, BitVec.toNat_ofNat, Nat.shiftLeft_eq]
  omega

theorem pieces_digits {ds : List Nat} (hds : ∀ d ∈ ds, d < 10) (zero left : Bool) (w : Nat) (ap : α)
    (rest : List Byte) :
    pieces va ro (ds.map digitByte ++ rest)
        ⟨convFlags true zero left false false, BitVec.ofNat 32 w, [], ap⟩ =
      pieces va ro rest ⟨convFlags true zero left false false,
        BitVec.ofNat 32 (readNumeral 10 w ds), [], ap⟩ := by
  induction ds generalizing w with
  | nil => rfl
  | cons d ds ih =>
      rw [List.forall_mem_cons] at hds
      rw [List.map_cons, List.cons_append, pieces,
        char_digit (convFlags_ne_none _ _ _ _ _) hds.1 (.inl rfl), List.nil_append,
        readNumeral_cons, ← ih hds.2, ← ofNat_times_ten]
      rfl

/-- The width is read, from the format or from the arguments. -/
theorem pieces_width {width : Option (Option Nat)} (hne : width ≠ some (some 0))
    (fw zero left : Bool) (ap : α) (rest : List Byte) (h32 : (readWidth va ap width).1 ≤ 32) :
    ∃ fw' w, pieces va ro (widthText width ++ rest)
        ⟨convFlags fw zero left false false, 0, [], ap⟩ =
      pieces va ro rest
        ⟨convFlags fw' zero left false false, w, [], (readWidth va ap width).2⟩ ∧
      w.toNat = (readWidth va ap width).1 := by
  obtain _ | _ | n := width
  · exact ⟨fw, 0, rfl, rfl⟩
  · refine ⟨fw, (va.int ap).1, ?_, rfl⟩
    rw [widthText, List.singleton_append, pieces]
    have hstep : Printf.char va ro ⟨convFlags fw zero left false false, 0, [], ap⟩ 0x2a =
        ([], ⟨convFlags fw zero left false false, (va.int ap).1, [], (va.int ap).2⟩) := by
      rw [Printf.char, if_neg (convFlags_ne_none _ _ _ _ _)]
      rfl
    rw [hstep, List.nil_append]
    rfl
  · have hn : n ≠ 0 := fun h => hne (by rw [h])
    have hread : readNumeral 10 0 (numeral 10 n) = n := readNumeral_numeral n
    have hlt : ∀ d ∈ numeral 10 n, d < 10 := fun d hd => lt_of_mem_numeral (by decide) hd
    refine ⟨true, BitVec.ofNat 32 n, ?_, ?_⟩
    · rw [widthText, decimal]
      cases hds : numeral 10 n with
      | nil => exact absurd hds (numeral_ne_nil n)
      | cons d ds =>
          rw [hds, List.forall_mem_cons] at hlt
          rw [hds, readNumeral_cons, Nat.zero_mul, Nat.zero_add] at hread
          rw [List.map_cons, List.cons_append, pieces,
            char_digit (convFlags_ne_none _ _ _ _ _) hlt.1 (.inr (numeral_head_ne_zero hn hds)),
            List.nil_append]
          have hw : (((0 : Word) <<< 2 + 0) <<< 1) + BitVec.ofNat 32 d = BitVec.ofNat 32 d := by
            simp
          have hgo := @pieces_digits α va ro ds hlt.2 zero left d ap rest
          rw [hread] at hgo
          rw [← hw] at hgo
          exact hgo
    · rw [BitVec.toNat_ofNat]
      exact Nat.mod_eq_of_lt (Nat.lt_of_le_of_lt h32 (by decide))

theorem pieces_long {l : Nat} (hl : l ≤ 2) (fw zero left : Bool) (w : Word) (ap : α)
    (rest : List Byte) :
    pieces va ro (List.replicate l 0x6c ++ rest) ⟨convFlags fw zero left false false, w, [], ap⟩ =
      pieces va ro rest ⟨convFlags fw zero left (decide (1 ≤ l)) (decide (l = 2)), w, [], ap⟩ := by
  have hstep (long : Bool) : Printf.char va ro ⟨convFlags fw zero left long false, w, [], ap⟩ 0x6c =
      ([], ⟨convFlags fw zero left true long, w, [], ap⟩) := by
    rw [Printf.char, if_neg (convFlags_ne_none _ _ _ _ _)]
    cases long <;> rfl
  obtain _ | _ | _ | l := l
  · rfl
  · rw [List.replicate_one, List.singleton_append, pieces, hstep]
    rfl
  · rw [List.replicate_succ, List.cons_append, pieces, hstep, List.replicate_one, List.nil_append,
      List.singleton_append, pieces, hstep]
    rfl
  · omega

/-! ## Conversions -/

/-- A text was written, and the conversion has ended. -/
structure Wrote (t : List Byte × α) (r : List (List Byte) × Printf α) : Prop where
  text : r.1.flatten = t.1
  ended : r.2 = ⟨.none, 0, [], t.2⟩

theorem Wrote.pieces_cons {t : List Byte × α} {k : Printf α} {c : Byte}
    (h : Wrote t (k.char va ro c)) (rest : List Byte) :
    (pieces va ro (c :: rest) k).flatten =
      t.1 ++ (pieces va ro rest ⟨.none, 0, [], t.2⟩).flatten := by
  rw [pieces, List.flatten_append, h.text, h.ended]

theorem toInt_width {w : Word} (h : w.toNat ≤ 32) : w.toInt = (w.toNat : Int) := by
  rw [BitVec.toInt_eq_toNat_cond, if_pos (by omega)]

/-- The width without the sign may be below zero. -/
theorem toInt_width_sub_one {w : Word} (h : w.toNat ≤ 32) :
    (w - 1).toInt = (w.toNat : Int) - 1 := by
  rw [BitVec.toInt_eq_toNat_cond, BitVec.toNat_sub]
  have hone : (1 : Word).toNat = 1 := rfl
  rw [hone]
  split_ifs <;> omega

section Conversion

variable {w : Word} (h32 : w.toNat ≤ 32)
include h32

theorem wrote_print {fl : Flags} {w0 : Word} {lit digits : List Byte} {ap : α}
    {pc fw zero left lo lo2 : Bool} (hsmall : Small digits) :
    Wrote (field left zero false w.toNat digits, ap)
      ((⟨fl, w0, lit, ap⟩ : Printf α).print ro ⟨pc, fw, zero, left, false, lo, lo2⟩ w digits) := by
  have hw : w.toInt = (w.toNat : Int) - 0 := by rw [toInt_width h32, Int.sub_zero]
  exact ⟨@printBuf_flatten ro ⟨pc, fw, zero, left, false, lo, lo2⟩ w w.toNat digits hw h32 hsmall,
    rfl⟩

theorem wrote_print_minus {fl : Flags} {w0 : Word} {lit digits : List Byte} {ap : α}
    {pc fw zero left lo lo2 : Bool} (hsmall : Small digits) :
    Wrote (field left zero true w.toNat digits, ap) ((⟨fl, w0, lit, ap⟩ : Printf α).print ro
      ⟨pc, fw, zero, left, true, lo, lo2⟩ (w - 1) digits) :=
  ⟨@printBuf_flatten ro ⟨pc, fw, zero, left, true, lo, lo2⟩ (w - 1) w.toNat digits
    (toInt_width_sub_one h32) h32 hsmall, rfl⟩

variable (fw zero left : Bool) (ap : α)

theorem wrote_dec (l : Nat) :
    Wrote ((Conv.d l).field va codeDigits left zero w.toNat ap)
      (printDec va ro ⟨convFlags fw zero left (decide (1 ≤ l)) (decide (l = 2)), w, [], ap⟩) := by
  by_cases hl : l = 2
  · simp only [Conv.field, printDec, convFlags, hl, decide_true, magnitude, if_true]
    split_ifs with hsign
    · rw [hsign]
      exact wrote_print_minus h32 (small_ull2dec _)
    · rw [Bool.eq_false_iff.mpr hsign]
      exact wrote_print h32 (small_ull2dec _)
  · simp only [Conv.field, printDec, convFlags, if_neg hl, decide_eq_false hl, magnitude,
      Bool.false_eq_true, if_false, ← uint2dec_eq_decimal]
    split_ifs with hsign
    · rw [hsign]
      exact wrote_print_minus h32 (small_uint2dec _)
    · rw [Bool.eq_false_iff.mpr hsign]
      exact wrote_print h32 (small_uint2dec _)

theorem wrote_unsigned (l : Nat) {digits : Word → List Byte} {digits2 : BitVec 64 → List Byte}
    (h : ∀ val, Small (digits val)) (h2 : ∀ val, Small (digits2 val)) :
    Wrote (if l = 2 then
        (field left zero false w.toNat (digits2 (va.longLong ap).1), (va.longLong ap).2)
      else (field left zero false w.toNat (digits (va.int ap).1), (va.int ap).2))
      (printUnsigned va ro digits digits2
        ⟨convFlags fw zero left (decide (1 ≤ l)) (decide (l = 2)), w, [], ap⟩) := by
  by_cases hl : l = 2
  · simp only [printUnsigned, convFlags, hl, decide_true, if_true]
    exact wrote_print h32 (h2 _)
  · simp only [printUnsigned, convFlags, if_neg hl, decide_eq_false hl, Bool.false_eq_true,
      if_false]
    exact wrote_print h32 (h _)

omit h32 in
theorem wrote_ptr :
    Wrote (Conv.p.field va codeDigits left zero w.toNat ap)
      (Printf.char va ro ⟨convFlags fw zero left false false, w, [], ap⟩ 0x70) := by
  rw [Printf.char, if_neg (convFlags_ne_none _ _ _ _ _)]
  exact @wrote_print α ro 8 (by decide) _ _ _ _ _ _ _ _ _ _ _ (small_uint2hex _)

theorem pieces_conv {cv : Conv} (hv : cv.Valid zero) (rest : List Byte) :
    (pieces va ro (cv.text ++ rest) ⟨convFlags fw zero left false false, w, [], ap⟩).flatten =
      (cv.field va codeDigits left zero w.toNat ap).1 ++
        (pieces va ro rest
          ⟨.none, 0, [], (cv.field va codeDigits left zero w.toNat ap).2⟩).flatten := by
  have hne (long long2 : Bool) := convFlags_ne_none fw zero left long long2
  cases cv with
  | d l =>
      rw [Conv.text, List.append_assoc, pieces_long hv]
      refine Wrote.pieces_cons ?_ rest
      rw [Printf.char, if_neg (hne _ _)]
      exact wrote_dec h32 fw zero left ap l
  | u l =>
      rw [Conv.text, List.append_assoc, pieces_long hv]
      refine Wrote.pieces_cons ?_ rest
      rw [Printf.char, if_neg (hne _ _)]
      have hgo := @wrote_unsigned α va ro w h32 fw zero left ap l _ _ small_uint2dec small_ull2dec
      simp only [uint2dec_eq_decimal] at hgo
      exact hgo
  | x l =>
      rw [Conv.text, List.append_assoc, pieces_long hv]
      refine Wrote.pieces_cons ?_ rest
      rw [Printf.char, if_neg (hne _ _)]
      have hgo := @wrote_unsigned α va ro w h32 fw zero left ap l _ _ small_uint2hex small_ull2hex
      simp only [uint2hex_eq, ull2hex_eq] at hgo
      exact hgo
  | c =>
      have hzero : zero = false := hv
      subst hzero
      refine Wrote.pieces_cons ?_ rest
      rw [Printf.char, if_neg (hne _ _)]
      exact wrote_print h32 (small_singleton _)
  | s =>
      have hzero : zero = false := hv
      subst hzero
      refine Wrote.pieces_cons ?_ rest
      rw [Printf.char, if_neg (hne _ _)]
      exact wrote_print h32 (va.str ap).1.small
  | p => exact (wrote_ptr fw zero left ap).pieces_cons rest

end Conversion

/-! ## The text in the code -/

/-- The arguments are read in the same way, whatever the digits are. -/
theorem Conv.field_snd (cv : Conv) (dg dg' : Digits) (left zero : Bool) (w : Nat) (ap : α) :
    (cv.field va dg left zero w ap).2 = (cv.field va dg' left zero w ap).2 := by
  cases cv <;> simp only [Conv.field] <;> split_ifs <;> rfl

theorem pieces_lit {lit : List Byte} {c : Byte} (hc : c ≠ 0x25) (ap : α) (rest : List Byte) :
    pieces va ro (c :: rest) ⟨.none, 0, lit, ap⟩ =
      pieces va ro rest ⟨.none, 0, lit ++ [c], ap⟩ := by
  rw [pieces, Printf.char, if_pos rfl, if_neg hc, List.nil_append]

/-- What is kept is written before a conversion. -/
theorem pieces_percent (lit : List Byte) (ap : α) (rest : List Byte) :
    (pieces va ro (0x25 :: rest) ⟨.none, 0, lit, ap⟩).flatten = lit ++
      (pieces va ro rest ⟨convFlags false false false false false, 0, [], ap⟩).flatten := by
  rw [pieces, Printf.char, if_pos rfl, if_pos rfl, List.flatten_append]
  refine congrArg (· ++ _) ?_
  cases lit with
  | nil => rfl
  | cons b lit => exact List.append_nil _

/-- What is written for a format. -/
theorem pieces_text {items : List Item} {ap : α} (h : ValidFormat va items ap) (lit : List Byte) :
    (pieces va ro (formatText items) ⟨.none, 0, lit, ap⟩).flatten =
      lit ++ textOf va codeDigits items ap := by
  induction items generalizing ap lit with
  | nil =>
      cases lit
      · rfl
      · exact (List.append_nil _).trans (List.append_nil _).symm
  | cons item items ih =>
      rw [formatText, List.flatMap_cons]
      cases item with
      | lit c =>
          rw [Item.text, List.singleton_append, pieces_lit h.1]
          refine (ih h.2 _).trans ?_
          rw [List.append_assoc]
          rfl
      | percent =>
          rw [Item.text, List.cons_append, pieces_percent]
          have hprint : Printf.char va ro
              ⟨convFlags false false false false false, 0, [], ap⟩ 0x25 =
              ([[0x25]], ⟨.none, 0, [], ap⟩) := by
            rw [Printf.char, if_neg (convFlags_ne_none _ _ _ _ _)]
            rfl
          rw [List.singleton_append, pieces, hprint, List.flatten_append]
          exact congrArg (fun t => lit ++ 0x25 :: t) (ih h [])
      | conv flags width cv =>
          obtain ⟨⟨hne, h32⟩, hcv, hrest⟩ := h
          rw [Item.text, List.cons_append, pieces_percent, List.append_assoc, pieces_flags,
            Bool.false_or, Bool.false_or, List.append_assoc]
          obtain ⟨fw, w, hread, hw⟩ := @pieces_width α va ro width hne (flags.contains true)
            (flags.contains true) (flags.contains false) ap (cv.text ++ formatText items) h32
          rw [← hw] at h32
          rw [cv.field_snd standardDigits codeDigits] at hrest
          have hgo := ih hrest []
          rw [← hw] at hgo
          rw [formatText] at hread hgo
          rw [hread, pieces_conv h32 fw _ _ _ hcv, hgo, textOf, ← hw]
          rfl

/-! ## Comparing texts -/

/-- What pads a field. -/
def blank (b : Byte) : Bool := b == 0x20 || b == 0x30

/-- A text `S` of a part of the format, and `B` in its place, which is no longer and has as much in
it that is not blank: what is behind is shifted by what is blank. -/
theorem append_shift {B S W X Y : List Byte} (hW : ∀ b ∈ W, blank b = true)
    (hlen : B.length ≤ S.length)
    (hcount : B.countP (fun b => !blank b) = S.countP fun b => !blank b)
    (h : B ++ X = W ++ (S ++ Y)) :
    ∃ V, (∀ b ∈ V, blank b = true) ∧ X = V ++ Y ∧ W ++ S = B ++ V := by
  have hnone {t : List Byte} : t.countP (fun b => !blank b) = 0 ↔ ∀ b ∈ t, blank b = true := by
    simp [List.countP_eq_zero]
  rw [← List.append_assoc] at h
  rcases List.append_eq_append_iff.mp h with ⟨V, hB, hX⟩ | ⟨V, hB, hY⟩
  · have hcounts := congrArg (List.countP fun b => !blank b) hB
    rw [List.countP_append, List.countP_append, hnone.mpr hW, hcount] at hcounts
    exact ⟨V, hnone.mp (by omega), hX, hB⟩
  · have hlengths := congrArg List.length hB
    simp only [List.length_append] at hlengths
    have hV : V = [] := List.eq_nil_of_length_eq_zero (by omega)
    subst hV
    exact ⟨[], by simp, hY.symm, by simpa using hB.symm⟩

/-- The first that a predicate does not hold of. -/
theorem first_eq {p : Byte → Bool} {u v s t : List Byte} {c d : Byte} (hu : ∀ b ∈ u, p b = true)
    (hv : ∀ b ∈ v, p b = true) (hc : p c = false) (hd : p d = false)
    (h : u ++ c :: s = v ++ d :: t) : c = d := by
  have hdrop := congrArg (List.dropWhile p) h
  rw [List.dropWhile_append_of_pos hu, List.dropWhile_append_of_pos hv,
    List.dropWhile_cons_of_neg (by simp [hc]), List.dropWhile_cons_of_neg (by simp [hd])] at hdrop
  exact (List.cons_eq_cons.mp hdrop).1

section Fields

variable (left zero sign : Bool) (w : Nat) (digits : List Byte)

theorem field_length : (field left zero sign w digits).length =
    max w (minus sign ++ digits).length := by
  unfold field
  cases left <;> cases zero <;> simp <;> omega

theorem field_countP : (field left zero sign w digits).countP (fun b => !blank b) =
    (minus sign ++ digits).countP fun b => !blank b := by
  unfold field
  cases left <;> cases zero <;> simp [List.countP_replicate, blank]

/-- A digit of a field that is not zero comes behind blanks, zeros and a sign. -/
theorem field_eq_cons (c : Byte) : ∃ u s, field left zero sign w (c :: digits) = u ++ c :: s ∧
    ∀ b ∈ u, (blank b || b == 0x2d) = true := by
  have hminus : ∀ b ∈ minus sign, (blank b || b == 0x2d) = true := by cases sign <;> simp [minus]
  unfold field
  cases left with
  | true => exact ⟨minus sign, _, List.append_assoc .., hminus⟩
  | false =>
      cases zero with
      | true =>
          refine ⟨_, _, rfl, List.forall_mem_append.mpr ⟨hminus, fun b hb => ?_⟩⟩
          rw [List.eq_of_mem_replicate hb]
          rfl
      | false =>
          refine ⟨_, _, (List.append_assoc ..).symm,
            List.forall_mem_append.mpr ⟨fun b hb => ?_, hminus⟩⟩
          rw [List.eq_of_mem_replicate hb]
          rfl

end Fields

/-! ## Pointers -/

section Pointers

variable (left zero : Bool) (w : Nat) (v : Word)

theorem hexadecimal_length_le : (hexadecimal v.toNat).length ≤ 8 := by
  rw [hexadecimal, List.length_map]
  exact numeral_length_le (by decide) (by decide) v.isLt

/-- The eight digits are zeros and the hexadecimal representation. -/
theorem places_hextab : (places 16 8 v.toNat).map hextab =
    List.replicate (8 - (hexadecimal v.toNat).length) 0x30 ++ hexadecimal v.toNat := by
  have hlt : v.toNat < 16 ^ 8 := v.isLt
  rw [places_eq (by decide) (by decide) hlt, List.map_append, List.map_replicate, hexadecimal,
    List.length_map]
  rfl

theorem codePtr_eq : codeDigits.ptr left zero w v =
    if left then
      hexadecimal v.toNat ++ List.replicate (8 - (hexadecimal v.toNat).length) 0x20
    else (places 16 8 v.toNat).map hextab := by
  show field left true false 8 (uint2hex v) = _
  rw [uint2hex_eq, places_hextab]
  cases left <;> rfl

theorem codePtr_length : (codeDigits.ptr left zero w v).length = 8 := by
  have hle := hexadecimal_length_le v
  rw [codePtr_eq]
  split_ifs
  · rw [List.length_append, List.length_replicate]
    omega
  · rw [List.length_map, places_length]

theorem standardPtr_length : (standardDigits.ptr left zero w v).length = max w 8 := by
  refine (field_length left zero false w _).trans ?_
  rw [minus, if_neg Bool.false_ne_true, List.nil_append, List.length_map, places_length]

theorem ptr_countP : (codeDigits.ptr left zero w v).countP (fun b => !blank b) =
    (standardDigits.ptr left zero w v).countP fun b => !blank b := by
  refine Eq.trans ?_ (field_countP left zero false w _).symm
  rw [codePtr_eq, places_hextab, minus, if_neg Bool.false_ne_true, List.nil_append]
  split_ifs <;> simp [List.countP_replicate, blank]

/-- Pointers of seven digits and fewer are padded on the right. -/
theorem hexadecimal_length_eq_iff : (hexadecimal v.toNat).length = 8 ↔ 2 ^ 28 ≤ v.toNat := by
  have hle := hexadecimal_length_le v
  have hlt := numeral_lt_pow_length (show 1 < 16 by decide) v.toNat
  rw [hexadecimal, List.length_map] at hle ⊢
  constructor
  · intro h
    refine Nat.le_of_not_lt fun hsmall => ?_
    have hseven := numeral_length_le (show 1 < 16 by decide) (show 0 < 7 by decide) hsmall
    omega
  · intro h
    refine Nat.le_antisymm hle (Nat.le_of_not_lt fun hseven => ?_)
    have hpow : 16 ^ (numeral 16 v.toNat).length ≤ 16 ^ 7 :=
      Nat.pow_le_pow_right (by decide) (by omega)
    omega

theorem ptr_eq_iff : codeDigits.ptr left zero w v = standardDigits.ptr left zero w v ↔
    w ≤ 8 ∧ (left = true → 2 ^ 28 ≤ v.toNat) := by
  have hlengths : w ≤ 8 ↔
      (codeDigits.ptr left zero w v).length = (standardDigits.ptr left zero w v).length := by
    rw [codePtr_length, standardPtr_length]
    omega
  have hstandard (hw : w ≤ 8) :
      standardDigits.ptr left zero w v = (places 16 8 v.toNat).map hextab := by
    show field left zero false w _ = _
    unfold field
    simp only [minus, Bool.false_eq_true, if_false, List.nil_append, List.length_map, places_length,
      Nat.sub_eq_zero_of_le hw, List.replicate_zero, List.append_nil, ite_self]
  have hdigits : (0x20 : Byte) ∉ (places 16 8 v.toNat).map hextab := by
    intro hmem
    obtain ⟨d, hd, heq⟩ := List.mem_map.mp hmem
    have hall : ∀ d < 16, hextab d ≠ 0x20 := by decide
    have hlt : v.toNat < 16 ^ 8 := v.isLt
    exact hall d (lt_of_mem_places (by decide) hlt hd) heq
  constructor
  · intro h
    have hw := hlengths.mpr (congrArg List.length h)
    refine ⟨hw, fun hleft => (hexadecimal_length_eq_iff v).mp ?_⟩
    rw [hstandard hw, codePtr_eq, if_pos hleft] at h
    have hle := hexadecimal_length_le v
    refine Nat.le_antisymm hle (Nat.le_of_not_lt fun hlt => hdigits (h ▸ ?_))
    exact List.mem_append_right _ (List.mem_replicate.mpr ⟨by omega, rfl⟩)
  · rintro ⟨hw, hleft⟩
    rw [hstandard hw, codePtr_eq]
    split_ifs with hl
    · rw [places_hextab, (hexadecimal_length_eq_iff v).mpr (hleft hl)]
      exact List.append_nil _
    · rfl

end Pointers

/-! ## Right texts -/

/-- A text that stands in the place of another: no longer, and with as much that is not blank. -/
structure Replaces (B S : List Byte) : Prop where
  length : B.length ≤ S.length
  countP : B.countP (fun b => !blank b) = S.countP fun b => !blank b

theorem Replaces.refl (S : List Byte) : Replaces S S := ⟨le_rfl, rfl⟩

/-- Wrong digits are not hidden by what is around them. -/
theorem ull2dec_good {left zero sign : Bool} {w : Nat} {v : BitVec 64} {W X Y : List Byte}
    (hW : ∀ b ∈ W, blank b = true)
    (h : field left zero sign w (ull2dec v) ++ X =
      W ++ (field left zero sign w (decimal v.toNat) ++ Y)) : v.toNat < 2500000000000000000 := by
  refine Nat.lt_of_not_le fun hle => ?_
  obtain ⟨c, d, cs, ds, hc, hd, hcs, hds, hne⟩ := ull2dec_heads hle
  obtain ⟨u, s, hu, huskip⟩ := field_eq_cons left zero sign w cs (digitByte c)
  obtain ⟨t, r, ht, htskip⟩ := field_eq_cons left zero sign w ds (digitByte d)
  rw [hc, hd, hu, ht, List.append_assoc, List.append_assoc, ← List.append_assoc W,
    List.cons_append, List.cons_append] at h
  have hdigit : ∀ d < 10, 0 < d → (blank (digitByte d) || digitByte d == 0x2d) = false := by decide
  have hWskip : ∀ b ∈ W, (blank b || b == 0x2d) = true := fun b hb => by rw [hW b hb, Bool.true_or]
  exact digitByte_ne hcs.2 hds.2 hne (first_eq huskip (List.forall_mem_append.mpr ⟨hWskip, htskip⟩)
    (hdigit c hcs.2 hcs.1) (hdigit d hds.2 hds.1) h)

section Good

variable {left zero : Bool} {w : Nat} {ap : α}

/-- A conversion that is good writes what it should. -/
theorem Conv.Good.field_eq {cv : Conv} (h : cv.Good va left w ap) :
    cv.field va codeDigits left zero w ap = cv.field va standardDigits left zero w ap := by
  cases cv with
  | d l =>
      simp only [Conv.field]
      split_ifs with hl
      · have hdec := ull2dec_eq_decimal (h hl)
        exact congrArg (fun t => (Libc.field left zero _ w t, _)) hdec
      · rfl
  | u l =>
      simp only [Conv.field]
      split_ifs with hl
      · have hdec := ull2dec_eq_decimal (h hl)
        exact congrArg (fun t => (Libc.field left zero false w t, _)) hdec
      · rfl
  | x l => rfl
  | c => rfl
  | s => rfl
  | p => exact congrArg (fun t => (t, (va.int ap).2)) ((ptr_eq_iff left zero w _).mpr h)

/-- What a conversion writes replaces what it should write, and it is good where they agree. -/
theorem Conv.replaces {cv : Conv} {W X Y : List Byte} (hW : ∀ b ∈ W, blank b = true)
    (h : (cv.field va codeDigits left zero w ap).1 ++ X =
      W ++ ((cv.field va standardDigits left zero w ap).1 ++ Y)) :
    Replaces (cv.field va codeDigits left zero w ap).1
        (cv.field va standardDigits left zero w ap).1 ∧
      ((cv.field va codeDigits left zero w ap).1 = (cv.field va standardDigits left zero w ap).1 →
        cv.Good va left w ap) := by
  have hgood (hcv : cv.Good va left w ap) :
      Replaces (cv.field va codeDigits left zero w ap).1
        (cv.field va standardDigits left zero w ap).1 := by
    rw [hcv.field_eq]
    exact .refl _
  cases cv with
  | d l =>
      have hcv : (Conv.d l).Good va left w ap := fun hl => by
        simp only [Conv.field, if_pos hl] at h
        exact ull2dec_good hW h
      exact ⟨hgood hcv, fun _ => hcv⟩
  | u l =>
      have hcv : (Conv.u l).Good va left w ap := fun hl => by
        simp only [Conv.field, if_pos hl] at h
        exact ull2dec_good hW h
      exact ⟨hgood hcv, fun _ => hcv⟩
  | x l => exact ⟨.refl _, fun _ => trivial⟩
  | c => exact ⟨.refl _, fun _ => trivial⟩
  | s => exact ⟨.refl _, fun _ => trivial⟩
  | p =>
      refine ⟨⟨?_, ptr_countP left zero w _⟩, (ptr_eq_iff left zero w _).mp⟩
      exact (codePtr_length left zero w _).trans_le
        ((Nat.le_max_right w 8).trans_eq (standardPtr_length left zero w _).symm)

end Good

theorem textOf_eq_of_good {items : List Item} {ap : α} (h : GoodFormat va items ap) :
    textOf va codeDigits items ap = textOf va standardDigits items ap := by
  induction items generalizing ap with
  | nil => rfl
  | cons item items ih =>
      cases item with
      | lit c => exact congrArg (c :: ·) (ih h)
      | percent => exact congrArg (0x25 :: ·) (ih h)
      | conv flags width cv =>
          have hfield := @Conv.Good.field_eq _ _ _ (flags.contains true) _ _ _ h.1
          simp only [textOf, hfield, ih h.2]

/-- Where the texts agree but for blanks ahead, there are none and every conversion is good. -/
theorem good_of_textOf_eq {items : List Item} {ap : α} {W : List Byte}
    (hW : ∀ b ∈ W, blank b = true)
    (h : textOf va codeDigits items ap = W ++ textOf va standardDigits items ap) :
    W = [] ∧ GoodFormat va items ap := by
  induction items generalizing ap W with
  | nil => exact ⟨((List.append_nil W).symm.trans h.symm), trivial⟩
  | cons item items ih =>
      have hlit {c : Byte} {X Y : List Byte} (hcons : c :: X = W ++ c :: Y) :
          ∃ V, (∀ b ∈ V, blank b = true) ∧ X = V ++ Y ∧ (V = [] → W = []) := by
        obtain ⟨V, hV, hX, hWV⟩ := @append_shift [c] [c] W X Y hW le_rfl rfl hcons
        refine ⟨V, hV, hX, fun hnil => ?_⟩
        rw [hnil] at hWV
        exact List.append_left_eq_self.mp hWV
      cases item with
      | lit c =>
          obtain ⟨V, hV, hX, hVW⟩ := hlit h
          obtain ⟨hnil, hgood⟩ := ih hV hX
          exact ⟨hVW hnil, hgood⟩
      | percent =>
          obtain ⟨V, hV, hX, hVW⟩ := hlit h
          obtain ⟨hnil, hgood⟩ := ih hV hX
          exact ⟨hVW hnil, hgood⟩
      | conv flags width cv =>
          obtain ⟨hreplaces, hgood⟩ := cv.replaces hW h
          obtain ⟨V, hV, hX, hWV⟩ := append_shift hW hreplaces.length hreplaces.countP h
          rw [cv.field_snd codeDigits standardDigits] at hX
          obtain ⟨hnil, hrest⟩ := ih hV hX
          rw [hnil, List.append_nil] at hWV
          have hlengths := congrArg List.length hWV
          have hle := hreplaces.length
          rw [List.length_append] at hlengths
          have hWnil : W = [] := List.eq_nil_of_length_eq_zero (by omega)
          rw [hWnil, List.nil_append] at hWV
          exact ⟨hWnil, hgood hWV.symm, hrest⟩

/-! ## `vfprintf` -/

/-- `BUF_LEN` -/
def bufLen : Nat := 22

/-- What a character of the format stores from `buf` on. -/
def storedBuf (va : VaList α) (k : Printf α) (c : Byte) : List Byte :=
  if k.flags = .none then []
  else if 0x30 ≤ c.toNat ∧ c.toNat ≤ 0x39 then []
  else if c = 0x2d ∨ c = 0x2a ∨ c = 0x6c then []
  else if c = 0x63 then [(va.int k.ap).1.setWidth 8]
  else if c = 0x64 then
    if k.flags.long2 then
      let val := (va.longLong k.ap).1
      minus val.msb ++ (ull2dec (magnitude val) ++ [0])
    else
      let val := (va.int k.ap).1
      minus val.msb ++ (uint2dec (magnitude val) ++ [0])
  else if c = 0x78 then
    if k.flags.long2 then ull2hex (va.longLong k.ap).1 ++ [0]
    else uint2hex (va.int k.ap).1 ++ [0]
  else if c = 0x73 then []
  else if c = 0x75 then
    if k.flags.long2 then ull2dec (va.longLong k.ap).1 ++ [0]
    else uint2dec (va.int k.ap).1 ++ [0]
  else if c = 0x70 then uint2hex (va.int k.ap).1 ++ [0]
  else [c]

theorem digits_length_le (val : Word) (val2 : BitVec 64) :
    ((uint2dec val).length ≤ 20 ∧ (ull2dec val2).length ≤ 20) ∧
      (uint2hex val).length ≤ 20 ∧ (ull2hex val2).length ≤ 20 := by
  refine ⟨⟨?_, ?_⟩, ?_, ?_⟩
  · unfold uint2dec
    split_ifs
    · decide
    · exact (divDigits_length ..).trans (by decide)
  · unfold ull2dec
    split_ifs
    · decide
    · exact divDigits_length ..
  · unfold uint2hex
    split_ifs
    · decide
    · exact (hexDigits_length ..).trans (by decide)
  · unfold ull2hex
    split_ifs
    · decide
    · exact (hexDigits_length ..).trans (by decide)

/-- The digits fit `buf`, with a sign and a `NUL`. -/
theorem storedBuf_length_le (va : VaList α) (k : Printf α) (c : Byte) :
    (storedBuf va k c).length ≤ bufLen := by
  have hdigits {s : List Byte} (h : s.length ≤ 20) : (s ++ [0]).length ≤ bufLen := by
    rw [List.length_append]
    exact Nat.succ_le_succ (h.trans (by decide))
  have hsign {s : List Byte} (sign : Bool) (h : s.length ≤ 20) :
      (minus sign ++ (s ++ [0])).length ≤ bufLen := by
    cases sign
    · exact hdigits h
    · rw [minus, if_pos rfl, List.length_append, List.length_append]
      show 1 + (s.length + 1) ≤ 22
      omega
  have hle := digits_length_le
  unfold storedBuf
  split_ifs
  · decide
  · decide
  · decide
  · exact Nat.succ_le_succ (Nat.zero_le _)
  · exact hsign _ (hle 0 _).1.2
  · exact hsign _ (hle _ 0).1.1
  · exact hdigits (hle 0 _).2.2
  · exact hdigits (hle _ 0).2.1
  · decide
  · exact hdigits (hle 0 _).1.2
  · exact hdigits (hle _ 0).1.1
  · exact hdigits (hle _ 0).2.1
  · exact Nat.succ_le_succ (Nat.zero_le _)

/-- A device takes every piece, and `out` is what it took. -/
structure Takes {σ : Type} (write : Write σ) (out : σ → List Byte) : Prop where
  text : ∀ s cp, out (write s cp).2 = out s ++ cp
  count : ∀ s cp, (write s cp).1 = BitVec.ofNat 32 cp.length

theorem Takes.foldl {σ : Type} {write : Write σ} {out : σ → List Byte} (h : Takes write out)
    (ps : List (List Byte)) (r : Word × σ) :
    out (ps.foldl (emit write) r).2 = out r.2 ++ ps.flatten ∧
      (ps.foldl (emit write) r).1 = r.1 + BitVec.ofNat 32 ps.flatten.length := by
  induction ps generalizing r with
  | nil => exact ⟨(List.append_nil _).symm, (BitVec.add_zero _).symm⟩
  | cons cp ps ih =>
      obtain ⟨htext, hcount⟩ := ih (emit write r cp)
      have hout : out (emit write r cp).2 = out r.2 ++ cp := h.text r.2 cp
      have hcnt : (emit write r cp).1 = r.1 + BitVec.ofNat 32 cp.length :=
        congrArg (r.1 + ·) (h.count r.2 cp)
      rw [List.foldl_cons, htext, hcount, hout, hcnt, List.flatten_cons, List.length_append,
        List.append_assoc, BitVec.ofNat_add, BitVec.add_assoc]
      exact ⟨rfl, rfl⟩

/-- What `vfprintf` has to do, for a text. -/
structure Prints {σ : Type} (out : σ → List Byte) (f : σ) (text : List Byte) (r : Word × σ) :
    Prop where
  printed : out r.2 = out f ++ text
  count : r.1 = BitVec.ofNat 32 text.length

/-- Arguments of 64 bits in a list, with the string of `argList`. -/
def longList : VaList (List (BitVec 64)) where
  int := fun ap => ((ap.headD 0).setWidth 32, ap.tail)
  longLong := fun ap => (ap.headD 0, ap.tail)
  str := fun ap => ((argList.str []).1, ap)

theorem record_takes : Takes record id := ⟨fun _ _ => rfl, fun _ _ => rfl⟩

end Code

end YardIce.Libc
