import YardIce.Libc.Decimal

/-!
# Number parsing

`strtoul` skips blanks and a prefix, and reads the digits of its base. The loop over octal digits
stands before the first label of the `switch`, where it is never reached.

## Implementation notes

A pointer is what stands from it on, and the end of a list is the `NUL`. The end pointer is asked
for. What `char` is makes no difference: no byte from 0x80 on is a digit or an `x`.
-/

namespace YardIce.Libc

open Lib

/-! ## The functions -/

/-- `for (; ((c = *cp) == ' '); cp++)` -/
def skipBlanks (cp : List Byte) : List Byte := cp.dropWhile (· == 0x20)

/-- A digit of `case 10`. -/
def decDigit (c : Byte) : Option Word :=
  if c < 0x30 ∨ 0x39 < c then none else some ((c - 0x30).setWidth 32)

/-- A digit of `case 16`. -/
def hexDigit (c : Byte) : Option Word :=
  let c := if 0x61 ≤ c then c &&& ~~~0x20 else c
  if 0x41 ≤ c ∧ c ≤ 0x46 then some ((c - 0x37).setWidth 32)
  else if 0x30 ≤ c ∧ c ≤ 0x39 then some ((c - 0x30).setWidth 32) else none

/-- The loop over the digits. -/
def digitLoop (digit : Byte → Option Word) (next : Word → Word → Word) :
    Word → List Byte → Word × List Byte
  | val, [] => (val, [])
  | val, c :: cp =>
      match digit c with
      | some d => digitLoop digit next (next val d) cp
      | none => (val, c :: cp)

/-- `switch (base)` -/
def parseDigits (base : Word) (cp : List Byte) : Word × List Byte :=
  if base = 10 then digitLoop decDigit (fun val d => (((val <<< 2) + val) <<< 1) + d) 0 cp
  else if base = 16 then digitLoop hexDigit (fun val d => (val <<< 4) + d) 0 cp
  else (0, cp)

/-- The characters that are taken for the `x` of a prefix. -/
def IsX (c : Byte) : Prop := c &&& ~~~0x20 = 0x58

instance (c : Byte) : Decidable (IsX c) := inferInstanceAs (Decidable (_ = _))

/-- The base and the digits behind a prefix. -/
def skipPrefix (base : Word) (cp : List Byte) : Word × List Byte :=
  if (base = 0 ∨ base = 16) ∧ cp.headD 0 = 0x30 then
    if IsX (cp.tail.headD 0) then (16, cp.tail.tail) else (base, cp.tail)
  else (base, cp)

/-- `strtoul` from the first character on that is not a blank: the value and the end pointer. -/
def parseNumber (cp : List Byte) (base : Word) : Word × List Byte :=
  let c := cp.headD 0
  let (base, cp) := skipPrefix base cp
  parseDigits (if base = 0 then (if c = 0x30 then 8 else 10) else base) cp

/-- `strtoul` -/
def strtoul (s : List Byte) (base : Word) : Word × List Byte := parseNumber (skipBlanks s) base

/-- `cp++` behind a minus sign. -/
def skipMinus (cp : List Byte) : List Byte := if cp.headD 0 = 0x2d then cp.tail else cp

/-- `strtol` -/
def strtol (s : List Byte) (base : Word) : Word × List Byte :=
  let cp := skipBlanks s
  let (val, endp) := strtoul (skipMinus cp) base
  (if cp.headD 0 = 0x2d then -val else val, endp)

/-! ## Texts -/

/-- The digit of a base that a character is. -/
def digitValue (b : Nat) (c : Byte) : Option Nat :=
  let d := if 0x61 ≤ c.toNat ∧ c.toNat ≤ 0x66 then c.toNat - 0x57
    else if 0x41 ≤ c.toNat ∧ c.toNat ≤ 0x46 then c.toNat - 0x37
    else if 0x30 ≤ c.toNat ∧ c.toNat ≤ 0x39 then c.toNat - 0x30 else b
  if d < b then some d else none

/-- The text does not go on with a digit. -/
def NonDigit (b : Nat) (s : List Byte) : Prop := ∀ c ∈ s.head?, digitValue b c = none

/-- The characters are the digits of `v`. -/
def Spells (b : Nat) (cs : List Byte) (v : Nat) : Prop :=
  cs.map (digitValue b) = (numeral b v).map some

/-- The base that is given, the prefix, and the base of the digits behind it. -/
inductive Form : Word → List Byte → Nat → Prop
  | octal : Form 8 [] 8
  | decimal : Form 10 [] 10
  | hexadecimal : Form 16 [] 16
  | octalPrefix {base : Word} : base = 0 ∨ base = 8 → Form base [0x30] 8
  | hexPrefix {base : Word} {x : Byte} : base = 0 ∨ base = 16 → x = 0x58 ∨ x = 0x78 →
      Form base [0x30, x] 16
  | plain : Form 0 [] 10

theorem decDigit_eq : ∀ c : Byte, decDigit c = (digitValue 10 c).map (BitVec.ofNat 32) := by
  decide

theorem hexDigit_eq : ∀ c : Byte, hexDigit c = (digitValue 16 c).map (BitVec.ofNat 32) := by
  decide

theorem digitValue_zero_iff {b : Nat} (hb : 0 < b) (c : Byte) :
    digitValue b c = some 0 ↔ c = 0x30 := by
  unfold digitValue
  rw [← BitVec.toNat_inj, show (0x30 : Byte).toNat = 0x30 from rfl]
  have hlt := c.isLt
  simp only
  split_ifs <;> simp only [Option.some.injEq, false_iff] <;> omega

/-- The characters that are digits of a base up to 16. -/
theorem toNat_of_digitValue {b d : Nat} {c : Byte} (h : digitValue b c = some d) :
    0x30 ≤ c.toNat ∧ c.toNat ≤ 0x66 := by
  unfold digitValue at h
  simp only at h
  split_ifs at h <;> omega

theorem Spells.cons {b v : Nat} {cs : List Byte} (h : Spells b cs v) :
    ∃ c cs' d ds, cs = c :: cs' ∧ numeral b v = d :: ds ∧ digitValue b c = some d := by
  unfold Spells at h
  cases hds : numeral b v with
  | nil => exact absurd hds (numeral_ne_nil v)
  | cons d ds =>
      rw [hds, List.map_cons] at h
      obtain ⟨c, cs', rfl, hc, -⟩ := List.map_eq_cons_iff.mp h
      exact ⟨c, cs', d, ds, rfl, rfl, hc⟩

theorem Spells.zero {b : Nat} (hb : 0 < b) {cs : List Byte} (h : Spells b cs 0) : cs = [0x30] := by
  unfold Spells at h
  rw [numeral_zero, List.map_singleton] at h
  obtain ⟨c, rfl, hc⟩ := List.map_eq_singleton_iff.mp h
  rw [(digitValue_zero_iff hb c).mp hc]

/-- Zero does not lead the digits of another number. -/
theorem Spells.head_ne {b v : Nat} (hb : 0 < b) (hv : v ≠ 0) {cs : List Byte} (h : Spells b cs v)
    (rest : List Byte) : (cs ++ rest).headD 0 ≠ 0x30 := by
  obtain ⟨c, cs', d, ds, rfl, hds, hc⟩ := h.cons
  intro hzero
  rw [(digitValue_zero_iff hb c).mpr hzero] at hc
  exact numeral_head_ne_zero hv hds (Option.some.inj hc).symm

/-! ## The loops over the digits -/

theorem digitLoop_length (digit : Byte → Option Word) (next : Word → Word → Word) (val : Word)
    (cp : List Byte) : (digitLoop digit next val cp).2.length ≤ cp.length := by
  induction cp generalizing val with
  | nil => exact le_rfl
  | cons c cp ih =>
      unfold digitLoop
      cases digit c with
      | none => exact le_rfl
      | some d => exact (ih _).trans (Nat.le_succ _)

theorem parseDigits_length (base : Word) (cp : List Byte) :
    (parseDigits base cp).2.length ≤ cp.length := by
  unfold parseDigits
  split_ifs
  · exact digitLoop_length ..
  · exact digitLoop_length ..
  · exact le_rfl

theorem digitLoop_spells {digit : Byte → Option Word} {next : Word → Word → Word} {b : Nat}
    (hdigit : ∀ c, digit c = (digitValue b c).map (BitVec.ofNat 32))
    (hnext : ∀ v d : Nat,
      next (BitVec.ofNat 32 v) (BitVec.ofNat 32 d) = BitVec.ofNat 32 (v * b + d))
    {cs rest : List Byte} {ds : List Nat} (h : cs.map (digitValue b) = ds.map some)
    (hrest : NonDigit b rest) (v : Nat) :
    digitLoop digit next (BitVec.ofNat 32 v) (cs ++ rest) =
      (BitVec.ofNat 32 (readNumeral b v ds), rest) := by
  induction cs generalizing ds v with
  | nil =>
      obtain rfl := List.map_eq_nil_iff.mp h.symm
      cases rest with
      | nil => rfl
      | cons c rest =>
          rw [List.nil_append]
          unfold digitLoop
          rw [hdigit, hrest c rfl]
          rfl
  | cons c cs ih =>
      cases ds with
      | nil => exact absurd h (List.cons_ne_nil _ _)
      | cons d ds =>
          obtain ⟨hc, hcs⟩ := List.cons_eq_cons.mp h
          rw [List.cons_append]
          unfold digitLoop
          rw [hdigit, hc]
          show digitLoop digit next (next _ _) _ = _
          rw [hnext, ih hcs]
          rfl

theorem next_dec (v d : Nat) :
    ((((BitVec.ofNat 32 v <<< 2) + BitVec.ofNat 32 v) <<< 1) + BitVec.ofNat 32 d : Word) =
      BitVec.ofNat 32 (v * 10 + d) := by
  apply BitVec.eq_of_toNat_eq
  simp only [BitVec.toNat_add, BitVec.toNat_shiftLeft, BitVec.toNat_ofNat, Nat.shiftLeft_eq]
  omega

theorem next_hex (v d : Nat) :
    ((BitVec.ofNat 32 v <<< 4) + BitVec.ofNat 32 d : Word) = BitVec.ofNat 32 (v * 16 + d) := by
  apply BitVec.eq_of_toNat_eq
  simp only [BitVec.toNat_add, BitVec.toNat_shiftLeft, BitVec.toNat_ofNat, Nat.shiftLeft_eq]
  omega

/-- The base of a loop that is reached. -/
inductive Looped : Word → Nat → Prop
  | dec : Looped 10 10
  | hex : Looped 16 16

theorem parseDigits_looped {base : Word} {b : Nat} (hbase : Looped base b) {cs rest : List Byte}
    {ds : List Nat} (h : cs.map (digitValue b) = ds.map some) (hrest : NonDigit b rest) :
    parseDigits base (cs ++ rest) = (BitVec.ofNat 32 (readNumeral b 0 ds), rest) := by
  unfold parseDigits
  cases hbase with
  | dec =>
      rw [if_pos rfl]
      exact digitLoop_spells decDigit_eq next_dec h hrest 0
  | hex =>
      rw [if_neg (by decide), if_pos rfl]
      exact digitLoop_spells hexDigit_eq next_hex h hrest 0

theorem parseDigits_spells {base : Word} {b : Nat} (hbase : Looped base b) {cs rest : List Byte}
    {v : Nat} (h : Spells b cs v) (hrest : NonDigit b rest) :
    parseDigits base (cs ++ rest) = (BitVec.ofNat 32 v, rest) := by
  rw [parseDigits_looped hbase h hrest, readNumeral_numeral]

theorem parseDigits_nonDigit {base : Word} {b : Nat} (hbase : Looped base b) {rest : List Byte}
    (hrest : NonDigit b rest) : parseDigits base rest = (0, rest) :=
  @parseDigits_looped _ _ hbase [] _ [] rfl hrest

theorem parseDigits_eight (cp : List Byte) : parseDigits 8 cp = (0, cp) := by
  unfold parseDigits
  rw [if_neg (by decide), if_neg (by decide)]

/-! ## The prefix -/

theorem parseNumber_of_ne {cp : List Byte} {base : Word}
    (h : ¬ ((base = 0 ∨ base = 16) ∧ cp.headD 0 = 0x30)) :
    parseNumber cp base =
      parseDigits (if base = 0 then (if cp.headD 0 = 0x30 then 8 else 10) else base) cp := by
  have hskip : skipPrefix base cp = (base, cp) := if_neg h
  unfold parseNumber
  rw [hskip]

theorem parseNumber_of_isX {base : Word} (h : base = 0 ∨ base = 16) {x : Byte} (hx : IsX x)
    (cp : List Byte) : parseNumber (0x30 :: x :: cp) base = parseDigits 16 cp := by
  have hskip : skipPrefix base (0x30 :: x :: cp) = (16, cp) :=
    (if_pos ⟨h, List.headD_cons⟩).trans (if_pos hx)
  unfold parseNumber
  rw [hskip]
  rfl

theorem parseNumber_zero {base : Word} (h : base = 0 ∨ base = 16) {cp : List Byte}
    (hx : ¬ IsX (cp.headD 0)) :
    parseNumber (0x30 :: cp) base = parseDigits (if base = 0 then 8 else base) cp := by
  have hskip : skipPrefix base (0x30 :: cp) = (base, cp) :=
    (if_pos ⟨h, List.headD_cons⟩).trans (if_neg hx)
  unfold parseNumber
  rw [hskip]
  rfl

theorem not_isX_of_digit : ∀ c : Byte, (digitValue 8 c).isSome = true → ¬ IsX c := by decide

theorem ne_of_length_lt {val : Word} {cp rest : List Byte} {r : Word × List Byte}
    (hr : r.2.length ≤ cp.length) (h : cp.length < rest.length) : r ≠ (val, rest) := fun heq => by
  rw [heq] at hr
  exact absurd hr (Nat.not_le_of_lt h)

/-- A zero without a prefix is read up to what follows, unless this is an `x`. -/
theorem parseNumber_lone_zero_iff {base : Word} (hbase : base = 0 ∨ base = 16) {rest : List Byte}
    (hrest : base = 16 → NonDigit 16 rest) :
    parseNumber (0x30 :: rest) base = (0, rest) ↔ ¬ IsX (rest.headD 0) := by
  by_cases hx : IsX (rest.headD 0)
  · refine iff_of_false ?_ (not_not.mpr hx)
    cases rest with
    | nil => exact absurd hx (by decide)
    | cons x rest =>
        rw [@parseNumber_of_isX _ hbase x hx]
        exact ne_of_length_lt (parseDigits_length 16 rest) (Nat.lt_succ_self _)
  · refine iff_of_true ?_ hx
    rw [parseNumber_zero hbase hx]
    rcases hbase with rfl | rfl
    · exact parseDigits_eight rest
    · exact parseDigits_nonDigit .hex (hrest rfl)

/-- Octal digits are not read. -/
theorem parseNumber_octal_ne {cs rest : List Byte} {v : Nat} (hcs : Spells 8 cs v) (val : Word)
    {base : Word} {pre : List Byte} (hform : Form base pre 8) :
    parseNumber (pre ++ (cs ++ rest)) base ≠ (val, rest) := by
  obtain ⟨c, cs', d, ds, rfl, -, hc⟩ := hcs.cons
  have hlength : rest.length < (c :: cs' ++ rest).length := by
    rw [List.length_append, List.length_cons]
    omega
  have hne : ∀ pre' : List Byte, ((0, pre' ++ (c :: cs' ++ rest)) : Word × List Byte) ≠
      (val, rest) := fun pre' heq => by
    have hrest := congrArg (fun r : Word × List Byte => r.2.length) heq
    simp only [List.length_append] at hrest hlength
    omega
  cases hform with
  | octal =>
      rw [parseNumber_of_ne (fun h => absurd h.1 (by decide)), if_neg (by decide),
        parseDigits_eight]
      exact hne []
  | octalPrefix hbase =>
      rcases hbase with rfl | rfl
      · have hx : ¬ IsX c := not_isX_of_digit c (by rw [hc]; rfl)
        rw [List.singleton_append, List.cons_append,
          @parseNumber_zero 0 (Or.inl rfl) (c :: (cs' ++ rest)) hx, if_pos rfl, parseDigits_eight]
        exact hne []
      · rw [parseNumber_of_ne (fun h => absurd h.1 (by decide)), if_neg (by decide),
          parseDigits_eight]
        exact hne [0x30]

/-- The digits are not octal, and no `x` stands behind a zero that has no prefix. -/
def Readable (base : Word) (pre : List Byte) (b v : Nat) (rest : List Byte) : Prop :=
  b ≠ 8 ∧ ¬ (pre = [] ∧ base ≠ 10 ∧ v = 0 ∧ IsX (rest.headD 0))

theorem parseNumber_iff {base : Word} {pre : List Byte} {b : Nat} (hform : Form base pre b)
    {cs rest : List Byte} {v : Nat} (hcs : Spells b cs v) (hrest : NonDigit b rest) :
    parseNumber (pre ++ (cs ++ rest)) base = (BitVec.ofNat 32 v, rest) ↔
      Readable base pre b v rest := by
  have hread : b ≠ 8 → (pre = [] → base ≠ 10 → v ≠ 0) → Readable base pre b v rest :=
    fun h h0 => ⟨h, fun hx => h0 hx.1 hx.2.1 hx.2.2.1⟩
  have hlone : b ≠ 8 → pre = [] → base ≠ 10 → v = 0 →
      (Readable base pre b v rest ↔ ¬ IsX (rest.headD 0)) := fun h hpre hbase hv =>
    ⟨fun hr hx => hr.2 ⟨hpre, hbase, hv, hx⟩, fun hx => ⟨h, fun hr => hx hr.2.2.2⟩⟩
  cases hform with
  | octal => exact iff_of_false (parseNumber_octal_ne hcs _ .octal) fun h => h.1 rfl
  | octalPrefix hbase =>
      exact iff_of_false (parseNumber_octal_ne hcs _ (.octalPrefix hbase)) fun h => h.1 rfl
  | decimal =>
      refine iff_of_true ?_ (hread (by decide) fun _ h => absurd rfl h)
      rw [List.nil_append, parseNumber_of_ne (fun h => absurd h.1 (by decide)),
        if_neg (by decide)]
      exact parseDigits_spells .dec hcs hrest
  | hexadecimal =>
      by_cases hv : v = 0
      · subst hv
        rw [hlone (by decide) rfl (by decide) rfl, hcs.zero (by decide)]
        exact parseNumber_lone_zero_iff (Or.inr rfl) fun _ => hrest
      · refine iff_of_true ?_ (hread (by decide) fun _ _ => hv)
        rw [List.nil_append, parseNumber_of_ne (fun h => hcs.head_ne (by decide) hv rest h.2),
          if_neg (by decide)]
        exact parseDigits_spells .hex hcs hrest
  | @hexPrefix _ x hbase hx =>
      refine iff_of_true ?_ (hread (by decide) fun h => absurd h (List.cons_ne_nil _ _))
      have hisX : IsX x := by rcases hx with rfl | rfl <;> decide
      rw [List.cons_append, List.singleton_append, parseNumber_of_isX hbase hisX]
      exact parseDigits_spells .hex hcs hrest
  | plain =>
      by_cases hv : v = 0
      · subst hv
        rw [hlone (by decide) rfl (by decide) rfl, hcs.zero (by decide)]
        exact parseNumber_lone_zero_iff (Or.inl rfl) fun h => absurd h (by decide)
      · refine iff_of_true ?_ (hread (by decide) fun _ _ => hv)
        have hhead := hcs.head_ne (by decide) hv rest
        rw [List.nil_append, parseNumber_of_ne (fun h => hhead h.2), if_pos rfl, if_neg hhead]
        exact parseDigits_spells .dec hcs hrest

/-! ## Blanks and signs -/

def blankText (n : Nat) : List Byte := List.replicate n 0x20

theorem skipBlanks_blankText (n : Nat) {text : List Byte} (h : text.headD 0 ≠ 0x20) :
    skipBlanks (blankText n ++ text) = text := by
  induction n with
  | zero =>
      cases text with
      | nil => rfl
      | cons c text => exact List.dropWhile_cons_of_neg (beq_iff_eq.not.mpr h)
  | succ n ih => exact ih

/-- A number starts with a digit, which is neither a blank nor a sign. -/
theorem Form.headD {base : Word} {pre : List Byte} {b : Nat} (hform : Form base pre b)
    {cs : List Byte} {v : Nat} (hcs : Spells b cs v) (rest : List Byte) :
    0x30 ≤ ((pre ++ (cs ++ rest)).headD 0).toNat := by
  obtain ⟨c, cs', d, ds, rfl, -, hc⟩ := hcs.cons
  have hdigit := (toNat_of_digitValue hc).1
  cases hform with
  | octal | decimal | hexadecimal | plain => exact hdigit
  | octalPrefix | hexPrefix => exact le_rfl

theorem ne_of_le_toNat {c : Byte} (h : 0x30 ≤ c.toNat) : c ≠ 0x20 ∧ c ≠ 0x2d := by
  refine ⟨?_, ?_⟩ <;>
  · rintro rfl
    exact absurd h (by decide)

/-- What a minus sign, or none, makes of a magnitude. -/
def signed (minus : Bool) (m : Nat) : Int := if minus then -m else m

def signText (minus : Bool) : List Byte := if minus then [0x2d] else []

theorem strtol_eq (s : List Byte) (base : Word) :
    strtol s base =
      (if (skipBlanks s).headD 0 = 0x2d then -(strtoul (skipMinus (skipBlanks s)) base).1
        else (strtoul (skipMinus (skipBlanks s)) base).1,
        (strtoul (skipMinus (skipBlanks s)) base).2) := rfl

theorem strtol_signText {minus : Bool} {text : List Byte} (h : 0x30 ≤ (text.headD 0).toNat)
    (n : Nat) (base : Word) :
    strtol (blankText n ++ (signText minus ++ text)) base =
      (if minus then -(parseNumber text base).1 else (parseNumber text base).1,
        (parseNumber text base).2) := by
  obtain ⟨hblank, hminus⟩ := ne_of_le_toNat h
  have hskip : strtoul text base = parseNumber text base :=
    congrArg (parseNumber · base) (skipBlanks_blankText 0 hblank)
  rw [strtol_eq]
  cases minus with
  | false =>
      have htext : skipBlanks (blankText n ++ (signText false ++ text)) = text :=
        skipBlanks_blankText n hblank
      have hsign : skipMinus text = text := if_neg hminus
      rw [htext, hsign, if_neg hminus, hskip]
      rfl
  | true =>
      have htext : skipBlanks (blankText n ++ (signText true ++ text)) = 0x2d :: text :=
        @skipBlanks_blankText n (0x2d :: text) (show (0x2d : Byte) ≠ 0x20 by decide)
      have hsign : skipMinus (0x2d :: text) = text := if_pos List.headD_cons
      rw [htext, hsign, if_pos List.headD_cons, hskip]
      rfl

theorem signed_eq_iff {minus : Bool} {m : Nat} (val : Word) :
    (if minus then -val else val) = BitVec.ofInt 32 (signed minus m) ↔ val = BitVec.ofNat 32 m := by
  cases minus with
  | false => rfl
  | true =>
      have hneg : BitVec.ofInt 32 (signed true m) = -BitVec.ofNat 32 m := by
        show BitVec.ofInt 32 (-(m : Int)) = _
        rw [BitVec.ofInt_neg, BitVec.ofInt_natCast]
      rw [hneg, if_pos rfl, neg_inj]

/-! ## Texts without digits -/

theorem parseNumber_nonDigit {base : Word} (hbase : base ∈ [0, 8, 10, 16]) {cp : List Byte}
    (h : NonDigit (if base = 0 then 10 else base.toNat) cp) : (parseNumber cp base).1 = 0 := by
  have hzero : cp.headD 0 = 0x30 → ∀ b, 0 < b → ¬ NonDigit b cp := fun hhead b hb hnon => by
    cases cp with
    | nil => exact absurd hhead (by decide)
    | cons c cp =>
        have hdigit := (digitValue_zero_iff hb c).mpr hhead
        rw [hnon c rfl] at hdigit
        exact absurd hdigit (by decide)
  have hbases : base = 0 ∨ base = 8 ∨ base = 10 ∨ base = 16 := by simpa using hbase
  rcases hbases with rfl | rfl | rfl | rfl
  · have hhead : cp.headD 0 ≠ 0x30 := fun hhead => hzero hhead 10 (by decide) h
    rw [parseNumber_of_ne fun hc => hhead hc.2, if_pos rfl, if_neg hhead,
      parseDigits_nonDigit .dec h]
  · rw [parseNumber_of_ne (fun hc => absurd hc.1 (by decide)), if_neg (by decide),
      parseDigits_eight]
  · rw [parseNumber_of_ne (fun hc => absurd hc.1 (by decide)), if_neg (by decide),
      parseDigits_nonDigit .dec h]
  · rw [parseNumber_of_ne fun hc => hzero hc.2 16 (by decide) h, if_neg (by decide),
      parseDigits_nonDigit .hex h]

/-- The number behind blanks, a sign and blanks does not start with a digit. -/
def NoDigits (base : Word) (s : List Byte) : Prop :=
  NonDigit (if base = 0 then 10 else base.toNat) (skipBlanks s)

theorem strtol_noDigits {base : Word} (hbase : base ∈ [0, 8, 10, 16]) {s : List Byte}
    (h : NoDigits base (skipMinus (skipBlanks s))) : (strtol s base).1 = 0 := by
  have hzero : (strtoul (skipMinus (skipBlanks s)) base).1 = 0 := parseNumber_nonDigit hbase h
  rw [strtol_eq, hzero]
  split_ifs <;> rfl

/-- A number is read back, with the end pointer behind it, if and only if its digits are not octal
and no `x` stands behind a zero that has no prefix; without digits the value is zero. -/
theorem strtoul_strtol_reads_iff {base : Word} :
    (∀ {pre : List Byte} {b : Nat}, Form base pre b → ∀ {cs rest : List Byte},
      NonDigit b rest → ∀ n : Nat,
      (∀ v : Word, Spells b cs v.toNat →
        (strtoul (blankText n ++ (pre ++ (cs ++ rest))) base = (v, rest) ↔
          Readable base pre b v.toNat rest)) ∧
      ∀ (v : Word) (minus : Bool), signed minus v.toInt.natAbs = v.toInt →
        Spells b cs v.toInt.natAbs →
        (strtol (blankText n ++ (signText minus ++ (pre ++ (cs ++ rest)))) base = (v, rest) ↔
          Readable base pre b v.toInt.natAbs rest)) ∧
    (base ∈ [0, 8, 10, 16] → ∀ s : List Byte,
      (NoDigits base s → (strtoul s base).1 = 0) ∧
      (NoDigits base (skipMinus (skipBlanks s)) → (strtol s base).1 = 0)) := by
  refine ⟨fun {pre b} hform {cs rest} hrest n => ⟨fun v hcs => ?_, fun v minus hv hcs => ?_⟩,
    fun hbase s => ⟨fun h => parseNumber_nonDigit hbase h, fun h => strtol_noDigits hbase h⟩⟩
  · have hblank := (ne_of_le_toNat (hform.headD hcs rest)).1
    have hiff := parseNumber_iff hform hcs hrest
    rw [BitVec.ofNat_toNat, BitVec.setWidth_eq] at hiff
    unfold strtoul
    rw [skipBlanks_blankText n hblank]
    exact hiff
  · have hsigned := @signed_eq_iff minus v.toInt.natAbs
      (parseNumber (pre ++ (cs ++ rest)) base).1
    rw [hv, BitVec.ofInt_toInt] at hsigned
    rw [strtol_signText (hform.headD hcs rest), Prod.mk.injEq, hsigned, ← Prod.mk.injEq]
    exact parseNumber_iff hform hcs hrest

/-- `-0x1f` before a comma is read, and so are a zero and no digits. -/
theorem strtoul_strtol_reads_some :
    strtol (blankText 1 ++ (signText true ++ ([0x30, 0x78] ++ ([0x31, 0x66] ++ [0x2c])))) 0 =
        (-31, [0x2c]) ∧
      (strtoul [0x78] 16).1 = 0 := by
  have hdigits : Spells 16 [0x31, 0x66] 31 := by
    unfold Spells
    rw [numeral_of_ne_zero (by decide), Nat.digits_def' (by decide) (by decide),
      Nat.digits_of_lt 16 1 (by decide) (by decide)]
    decide
  refine ⟨((strtoul_strtol_reads_iff.1 (.hexPrefix (Or.inl rfl) (Or.inr rfl))
    (show NonDigit 16 [0x2c] by unfold NonDigit; decide) 1).2 (-31) true (by decide)
      hdigits).mpr ⟨by decide, fun h => absurd h.1 (by decide)⟩,
    (strtoul_strtol_reads_iff.2 (by decide) [0x78]).1 (by unfold NoDigits NonDigit; decide)⟩

/-- Fifteen in octal digits is read as zero, and the end pointer stays at the digits. -/
theorem strtoul_octal_not_read :
    Form 8 [] 8 ∧ NonDigit 8 [] ∧ Spells 8 [0x31, 0x37] (15 : Word).toNat ∧
      strtoul (blankText 0 ++ ([] ++ ([0x31, 0x37] ++ []))) 8 = (0, [0x31, 0x37]) ∧
      strtoul (blankText 0 ++ ([] ++ ([0x31, 0x37] ++ []))) 8 ≠ (15, []) := by
  refine ⟨.octal, ?_, ?_, by decide, by decide⟩
  · unfold NonDigit
    decide
  · unfold Spells
    rw [numeral_of_ne_zero (by decide), Nat.digits_def' (by decide) (by decide),
      Nat.digits_of_lt 8 _ (by decide) (by decide)]
    decide

end YardIce.Libc
