import YardIce.Libc.StandardFormat
import YardIce.Libc.Strtoul

/-!
# Numbers that are printed and read

A number that `vfprintf` has written in a field is read back by `strtol` or `strtoul`, up to the
blanks behind it.

## Implementation notes

The base is given to the function that reads. Zeros that pad a field are digits for it, where the
first one may be the zero of a prefix.
-/

namespace YardIce.Libc

open Lib

/-! ## Digits -/

theorem digitValue_digitByte : ∀ d < 10, digitValue 10 (digitByte d) = some d := by decide

theorem digitValue_hextab : ∀ d < 16, digitValue 16 (hextab d) = some d := by decide

theorem spells_map {b : Nat} (hb : 1 < b) {digit : Nat → Byte}
    (h : ∀ d < b, digitValue b (digit d) = some d) (v : Nat) :
    Spells b ((numeral b v).map digit) v := by
  unfold Spells
  rw [List.map_map]
  exact List.map_congr_left fun d hd => h d (lt_of_mem_numeral hb hd)

theorem spells_decimal (v : Nat) : Spells 10 (decimal v) v :=
  spells_map (by decide) digitValue_digitByte v

theorem spells_hexadecimal (v : Nat) : Spells 16 (hexadecimal v) v :=
  spells_map (by decide) digitValue_hextab v

theorem readNumeral_zeros (b z : Nat) : readNumeral b 0 (List.replicate z 0) = 0 := by
  induction z with
  | zero => rfl
  | succ z ih => rw [List.replicate_succ, readNumeral_cons, Nat.zero_mul, Nat.zero_add, ih]

theorem not_isX_of_hexDigit : ∀ c : Byte, (digitValue 16 c).isSome = true → ¬ IsX c := by decide

/-- No `x` stands behind a zero that digits follow. -/
theorem not_isX_headD {cs rest : List Byte} {ds : List Nat}
    (h : cs.map (digitValue 16) = ds.map some) (hx : ¬ IsX (rest.headD 0)) :
    ¬ IsX ((cs ++ rest).headD 0) := by
  cases cs with
  | nil => exact hx
  | cons c cs =>
      cases ds with
      | nil => cases h
      | cons d ds =>
          have hc := (List.cons_eq_cons.mp h).1
          exact not_isX_of_hexDigit c (by rw [hc]; rfl)

/-- Digits that a zero leads. -/
theorem eq_zero_cons {b : Nat} (hb : 0 < b) {cs rest : List Byte} {ds : List Nat}
    (h : cs.map (digitValue b) = ds.map some) (hrest : NonDigit b rest)
    (hzero : (cs ++ rest).headD 0 = 0x30) :
    ∃ cs' ds', cs = 0x30 :: cs' ∧ ds = 0 :: ds' ∧ cs'.map (digitValue b) = ds'.map some := by
  have hdigit := (digitValue_zero_iff hb 0x30).mpr rfl
  cases cs with
  | nil =>
      cases rest with
      | nil => exact absurd hzero (by decide)
      | cons c rest =>
          obtain rfl : c = 0x30 := hzero
          rw [hrest 0x30 rfl] at hdigit
          cases hdigit
  | cons c cs =>
      obtain rfl : c = 0x30 := hzero
      cases ds with
      | nil => cases h
      | cons d ds =>
          obtain ⟨hd, hds⟩ := List.cons_eq_cons.mp h
          obtain rfl : 0 = d := Option.some.inj (hdigit.symm.trans hd)
          exact ⟨cs, ds, rfl, rfl, hds⟩

/-- A base that is given with its digits. -/
theorem parseNumber_digits {base : Word} {b : Nat} (hbase : Looped base b) {cs rest : List Byte}
    {ds : List Nat} (h : cs.map (digitValue b) = ds.map some) (hrest : NonDigit b rest)
    (hx : b = 16 → ¬ IsX (rest.headD 0)) :
    parseNumber (cs ++ rest) base = (BitVec.ofNat 32 (readNumeral b 0 ds), rest) := by
  cases hbase with
  | dec =>
      rw [parseNumber_of_ne (fun hc => absurd hc.1 (by decide)), if_neg (by decide)]
      exact parseDigits_looped .dec h hrest
  | hex =>
      by_cases hzero : (cs ++ rest).headD 0 = 0x30
      · -- the zero may be one of a prefix, and is skipped
        obtain ⟨cs, ds, rfl, rfl, hds⟩ := eq_zero_cons (by decide) h hrest hzero
        rw [List.cons_append, parseNumber_zero (Or.inr rfl) (not_isX_headD hds (hx rfl)),
          if_neg (by decide), parseDigits_looped .hex hds hrest, readNumeral_cons, Nat.zero_mul]
      · rw [parseNumber_of_ne (fun hc => hzero hc.2), if_neg (by decide)]
        exact parseDigits_looped .hex h hrest

/-! ## Fields -/

/-- Blanks, a sign, zeros, the digits and blanks. -/
theorem field_shape (left zero sign : Bool) (w : Nat) (digits : List Byte) :
    ∃ n z t, field left zero sign w digits =
      blankText n ++ (signText sign ++ (List.replicate z 0x30 ++ (digits ++ blankText t))) := by
  have hminus : minus sign = signText sign := rfl
  unfold field
  rw [hminus]
  generalize w - (signText sign ++ digits).length = pad
  cases left with
  | true => exact ⟨0, 0, pad, by simp [blankText]⟩
  | false =>
      cases zero with
      | true => exact ⟨0, pad, 0, by simp [blankText]⟩
      | false => exact ⟨pad, 0, 0, by simp [blankText]⟩

section

variable {base : Word} {b : Nat} (hbase : Looped base b) {cs : List Byte} {v : Nat}
  (hcs : Spells b cs v)

include hcs in
theorem padded_headD (z : Nat) (text : List Byte) :
    0x30 ≤ ((List.replicate z 0x30 ++ (cs ++ text)).headD 0).toNat := by
  cases z with
  | zero =>
      obtain ⟨c, cs', d, ds, rfl, -, hc⟩ := hcs.cons
      exact (toNat_of_digitValue hc).1
  | succ z => exact le_rfl

include hbase hcs in
theorem parseNumber_padded (z t : Nat) {rest : List Byte} (hrest : NonDigit b rest)
    (hx : b = 16 → ¬ IsX (rest.headD 0)) :
    parseNumber (List.replicate z 0x30 ++ (cs ++ (blankText t ++ rest))) base =
      (BitVec.ofNat 32 v, blankText t ++ rest) := by
  have hb : 0 < b := by cases hbase <;> decide
  have hdigits : (List.replicate z 0x30 ++ cs).map (digitValue b) =
      (List.replicate z 0 ++ numeral b v).map some := by
    rw [List.map_append, List.map_append, hcs, List.map_replicate, List.map_replicate,
      (digitValue_zero_iff hb 0x30).mpr rfl]
  have hblank : digitValue b 0x20 = none := by cases hbase <;> decide
  have hbehind : NonDigit b (blankText t ++ rest) ∧
      (b = 16 → ¬ IsX ((blankText t ++ rest).headD 0)) := by
    cases t with
    | zero => exact ⟨hrest, hx⟩
    | succ t =>
        have hspace : ¬ IsX 0x20 := by decide
        refine ⟨fun c hc => ?_, fun _ => hspace⟩
        obtain rfl : 0x20 = c := Option.some.inj hc
        exact hblank
  rw [← List.append_assoc, parseNumber_digits hbase hdigits hbehind.1 hbehind.2,
    readNumeral_append, readNumeral_zeros, readNumeral_numeral]

/-- A text is read as `v`, whatever is behind it that does not go on with the number. -/
def ReadsBack (read : List Byte → Word × List Byte) (b : Nat) (text : List Byte) (v : Word) :
    Prop :=
  ∃ t, ∀ rest, NonDigit b rest → (b = 16 → ¬ IsX (rest.headD 0)) →
    read (text ++ rest) = (v, blankText t ++ rest)

variable (left zero : Bool) (w : Nat)

include hbase hcs

theorem field_strtol (sign : Bool) : ReadsBack (strtol · base) b (field left zero sign w cs)
    (if sign then -BitVec.ofNat 32 v else BitVec.ofNat 32 v) := by
  obtain ⟨n, z, t, hfield⟩ := field_shape left zero sign w cs
  refine ⟨t, fun rest hrest hx => ?_⟩
  simp only [hfield, List.append_assoc]
  rw [strtol_signText (padded_headD hcs z _), parseNumber_padded hbase hcs z t hrest hx]

theorem field_strtoul : ReadsBack (strtoul · base) b (field left zero false w cs)
    (BitVec.ofNat 32 v) := by
  obtain ⟨n, z, t, hfield⟩ := field_shape left zero false w cs
  refine ⟨t, fun rest hrest hx => ?_⟩
  have hhead := (ne_of_le_toNat (padded_headD hcs z (blankText t ++ rest))).1
  have hsign : signText false = [] := rfl
  simp only [hfield, hsign, List.nil_append, List.append_assoc]
  rw [strtoul, skipBlanks_blankText n hhead, parseNumber_padded hbase hcs z t hrest hx]

end

/-! ## Printed numbers -/

/-- The function and the base that read a conversion of an `int`. -/
inductive ReadBy : Conv → (List Byte → Word × List Byte) → Nat → Prop
  | d {l : Nat} : l ≤ 1 → ReadBy (.d l) (strtol · 10) 10
  | u {l : Nat} : l ≤ 1 → ReadBy (.u l) (strtoul · 10) 10
  | x {l : Nat} : l ≤ 1 → ReadBy (.x l) (strtoul · 16) 16

variable {α : Type} {va : VaList α} {cv : Conv} {read : List Byte → Word × List Byte} {b : Nat}

theorem ReadBy.valid (h : ReadBy cv read b) (zero : Bool) : cv.Valid zero := by
  cases h with
  | d hl | u hl | x hl => exact hl.trans (by decide)

theorem neg_magnitude (v : Word) :
    (if v.msb then -BitVec.ofNat 32 (magnitude v).toNat else BitVec.ofNat 32 (magnitude v).toNat) =
      v := by
  rw [BitVec.ofNat_toNat, BitVec.setWidth_eq, magnitude]
  split_ifs
  · exact neg_neg v
  · rfl

/-- The field of a conversion. -/
theorem ReadBy.field (h : ReadBy cv read b) (left zero : Bool) (w : Nat) (ap : α) :
    ReadsBack read b (cv.field va codeDigits left zero w ap).1 (va.int ap).1 := by
  cases h with
  | @d l hl =>
      have hne : l ≠ 2 := by omega
      have hread := field_strtol .dec (spells_decimal (magnitude (va.int ap).1).toNat) left zero w
        (va.int ap).1.msb
      rw [neg_magnitude] at hread
      rw [Conv.field, if_neg hne]
      exact hread
  | @u l hl =>
      have hne : l ≠ 2 := by omega
      have hread := field_strtoul .dec (spells_decimal (va.int ap).1.toNat) left zero w
      rw [BitVec.ofNat_toNat, BitVec.setWidth_eq] at hread
      rw [Conv.field, if_neg hne]
      exact hread
  | @x l hl =>
      have hne : l ≠ 2 := by omega
      have hread := field_strtoul .hex (spells_hexadecimal (va.int ap).1.toNat) left zero w
      rw [BitVec.ofNat_toNat, BitVec.setWidth_eq] at hread
      rw [Conv.field, if_neg hne]
      exact hread

/-- What `vfprintf` writes for `%d`, `%u` or `%x`, with any flags and a width up to 32, is read
back as the argument. -/
theorem printed_reads_back {σ : Type} (va : VaList α) (ro : Rodata) {write : Write σ}
    {out : σ → List Byte} (htakes : Takes write out) (f : σ) (hread : ReadBy cv read b)
    (flags : List Bool) {width : Option (Option Nat)} (hwidth : width ≠ some (some 0)) (ap : α)
    (h32 : (readWidth va ap width).1 ≤ 32) {fmt : CString}
    (hfmt : fmt.bytes = formatText [.conv flags width cv]) :
    ∃ text, out (vfprintf va ro write f fmt ap).2 = out f ++ text ∧
      ReadsBack read b text (va.int (readWidth va ap width).2).1 := by
  have hvalid : ValidFormat va [.conv flags width cv] ap :=
    ⟨⟨hwidth, h32⟩, hread.valid _, trivial⟩
  have hrun := (htakes.foldl (pieces va ro fmt.bytes ⟨.none, 0, [], ap⟩) (0, f)).1
  have htext := @pieces_text α va ro _ ap hvalid []
  rw [← hfmt, List.nil_append] at htext
  rw [← vfprintfLoop_eq, htext] at hrun
  refine ⟨_, hrun, ?_⟩
  rw [textOf, textOf, List.append_nil]
  exact hread.field _ _ _ _

/-- `"%6d"` with -42. -/
theorem printed_reads_back_minus : ∃ text,
    (vfprintf longList ⟨fun _ => 0, fun _ => 0⟩ record []
      ⟨[0x25, 0x36, 0x64], by decide, by decide⟩ [0xffffffd6]).2 = [] ++ text ∧
    ReadsBack (strtol · 10) 10 text (-42) := by
  have hwidth : (some (some 6) : Option (Option Nat)) ≠ some (some 0) := by decide
  exact printed_reads_back longList ⟨fun _ => 0, fun _ => 0⟩ record_takes [] (.d (Nat.zero_le 1)) []
    hwidth [0xffffffd6] (by decide)
    (by simp [formatText, Item.text, widthText, Conv.text, decimal, numeral, digitByte])

end YardIce.Libc
