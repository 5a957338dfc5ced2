import Mathlib.Data.List.TakeWhile
import YardIce.Httpd.Query
import YardIce.Lib.Numerals
import YardIce.Lib.Runs

/-!
# Request headers

`parse_hdr` takes the lines of a header one by one. A line is known by the CRC8 of its name, and a
line without a name has the CRC 0, which ends the header.

## Implementation notes

The stream is what `tcp_recv` delivers one byte at a time, and `eof` is what it returns at the end
of the stream. `val` is the string that `get_hdr_line` has left in the buffer. Of the fields that
`parse_hdr` knows, those that it only logs are left out.
-/

namespace YardIce.Httpd

open Lib

/-- `crc8_lut` -/
def crc8Lut : List Nat :=
  [0, 49, 98, 83, 196, 245, 166, 151, 185, 136, 219, 234, 125, 76, 31, 46, 67, 114, 33, 16, 135,
   182, 229, 212, 250, 203, 152, 169, 62, 15, 92, 109, 134, 183, 228, 213, 66, 115, 32, 17, 63, 14,
   93, 108, 251, 202, 153, 168, 197, 244, 167, 150, 1, 48, 99, 82, 124, 77, 30, 47, 184, 137, 218,
   235, 61, 12, 95, 110, 249, 200, 155, 170, 132, 181, 230, 215, 64, 113, 34, 19, 126, 79, 28, 45,
   186, 139, 216, 233, 199, 246, 165, 148, 3, 50, 97, 80, 187, 138, 217, 232, 127, 78, 29, 44, 2,
   51, 96, 81, 198, 247, 164, 149, 248, 201, 154, 171, 60, 13, 94, 111, 65, 112, 35, 18, 133, 180,
   231, 214, 122, 75, 24, 41, 190, 143, 220, 237, 195, 242, 161, 144, 7, 54, 101, 84, 57, 8, 91,
   106, 253, 204, 159, 174, 128, 177, 226, 211, 68, 117, 38, 23, 252, 205, 158, 175, 56, 9, 90, 107,
   69, 116, 39, 22, 129, 176, 227, 210, 191, 142, 221, 236, 123, 74, 25, 40, 6, 55, 100, 85, 194,
   243, 160, 145, 71, 118, 37, 20, 131, 178, 225, 208, 254, 207, 156, 173, 58, 11, 88, 105, 4, 53,
   102, 87, 192, 241, 162, 147, 189, 140, 223, 238, 121, 72, 27, 42, 193, 240, 163, 146, 5, 52, 103,
   86, 120, 73, 26, 43, 188, 141, 222, 239, 130, 179, 224, 209, 70, 119, 36, 21, 59, 10, 89, 104,
   255, 206, 157, 172]

/-- `__crc8` -/
def crc8Step (crc c : Byte) : Byte := BitVec.ofNat 8 (crc8Lut.getD (crc ^^^ c).toNat 0)

/-- `crc8` -/
def crc8 (crc : Byte) (s : List Byte) : Byte := s.foldl crc8Step crc

/-- `HTTPHDR_CONTENT_TYPE` -/
def hdrContentType : Int := 0xeb

/-- `HTTPHDR_CONTENT_LENGTH` -/
def hdrContentLength : Int := 0x75

/-- `HTML_HDR_VAL_LEN_MAX` -/
def hdrValLenMax : Nat := 80

/-- `atoi` -/
def atoi (n : BitVec 32) : List Byte → BitVec 32
  | [] => n
  | c :: s =>
    if c < 0x30 ∨ 0x39 < c then n
    else atoi ((((n <<< 2) + n) <<< 1) + (c.setWidth 32 - 0x30)) s

/-- The `LF` behind a `CR`: `hash` is returned, or -1. -/
def lineEnd (eof : Int) (hash : Byte) : List Byte → Int × List Byte
  | [] => (eof, [])
  | c :: s => (if c = 0x0a then hash.toNat else -1, s)

/-- The value of a line, up to its `CR`. What exceeds `max` is dropped. -/
def getValue (max : Nat) (val : List Byte) : List Byte → Option (List Byte × List Byte)
  | [] => none
  | c :: s =>
    if c = 0x0d then some (val, s)
    else getValue max (if val.length < max then val ++ [c] else val) s

/-- `get_hdr_line`, with the string in `val` and the rest of the stream. -/
def getHdrLine (eof : Int) (max : Nat) (val : List Byte) (hash : Byte) :
    List Byte → Int × List Byte × List Byte
  | [] => (eof, val, [])
  | c :: s =>
    if c = 0x3a then
      match getValue max [] (s.dropWhile (· = 0x20)) with
      | none => (eof, val, [])
      | some (v, s) => ((lineEnd eof hash s).1, v, (lineEnd eof hash s).2)
    else if c = 0x0d then ((lineEnd eof hash s).1, val, (lineEnd eof hash s).2)
    else getHdrLine eof max val (crc8Step hash c) s

/-- The fields `ctlen` and `ctype` of the control structure, the buffer and the stream. -/
structure HdrState where
  ctlen : Nat
  ctype : Byte
  val : List Byte
  rest : List Byte

namespace HdrState

def recvLine (eof : Int) (s : HdrState) : Int × HdrState :=
  let line := getHdrLine eof hdrValLenMax s.val 0 s.rest
  (line.1, { s with val := line.2.1, rest := line.2.2 })

/-- The `switch`. -/
def field (s : HdrState) (opt : Int) : HdrState :=
  if opt = hdrContentType then { s with ctype := crc8 0 (s.val.takeWhile (· ≠ 0)) }
  else if opt = hdrContentLength then { s with ctlen := (atoi 0 s.val).toNat % 2 ^ 8 }
  else s

/-- One turn of the loop, if it is not the last one. -/
def turn (eof : Int) (s : HdrState) : Option HdrState :=
  let line := s.recvLine eof
  if 0 < line.1 then some (line.2.field line.1) else none

end HdrState

/-- The loop of `parse_hdr`. -/
def parseLoop (eof : Int) : Nat → HdrState → Int × HdrState
  | 0, s => (0, s)
  | fuel + 1, s =>
    match s.turn eof with
    | none => s.recvLine eof
    | some t => parseLoop eof fuel t

/-- `parse_hdr`. A turn takes at least one byte. -/
def parseHdr (eof : Int) (s : HdrState) : Int × HdrState := parseLoop eof (s.rest.length + 1) s

/-! ## Headers -/

/-- A line of a header: its name, the blanks before the value and the value. -/
structure HdrLine where
  name : List Byte
  blanks : Nat
  value : List Byte

/-- `Content-Length` -/
def contentLength : List Byte :=
  [0x43, 0x6f, 0x6e, 0x74, 0x65, 0x6e, 0x74, 0x2d, 0x4c, 0x65, 0x6e, 0x67, 0x74, 0x68]

/-- `Content-Type` -/
def contentType : List Byte :=
  [0x43, 0x6f, 0x6e, 0x74, 0x65, 0x6e, 0x74, 0x2d, 0x54, 0x79, 0x70, 0x65]

theorem crc8_contentLength : crc8 0 contentLength = 0x75 := by decide

theorem crc8_contentType : crc8 0 contentType = 0xeb := by decide

/-- The number at the start of a value. -/
def number (value : List Byte) : Nat :=
  readNumeral 10 0 ((value.takeWhile fun c => 0x30 ≤ c ∧ c ≤ 0x39).map fun c => c.toNat - 0x30)

namespace HdrLine

def text (l : HdrLine) : List Byte :=
  l.name ++ 0x3a :: (List.replicate l.blanks 0x20 ++ (l.value ++ [0x0d, 0x0a]))

/-- A name ends at the first colon and a value at the first `CR`. -/
def Valid (l : HdrLine) : Prop :=
  (∀ c ∈ l.name, c ≠ 0x3a ∧ c ≠ 0x0d) ∧ (∀ c ∈ l.value, c ≠ 0x0d) ∧ l.value.head? ≠ some 0x20

/-- The length and the type of the content with the line taken for what it is. -/
def meaning (l : HdrLine) (f : Nat × Byte) : Nat × Byte :=
  if l.name = contentLength then (number l.value, f.2)
  else if l.name = contentType then (f.1, crc8 0 l.value)
  else f

/-- What the buffer keeps of the value. -/
def kept (l : HdrLine) : List Byte := l.value.take hdrValLenMax

/-- The name does not end the header. A length is below 256 and is kept whole, and a type is kept
as far as its CRC tells. Another name with the CRC of one of the two has the value that is there. -/
def Fits (l : HdrLine) (f : Nat × Byte) : Prop :=
  crc8 0 l.name ≠ 0 ∧
    if l.name = contentLength then number l.value < 256 ∧ number l.kept = number l.value
    else if l.name = contentType then crc8 0 (l.kept.takeWhile (· ≠ 0)) = crc8 0 l.value
    else (crc8 0 l.name = 0x75 → number l.kept % 256 = f.1) ∧
      (crc8 0 l.name = 0xeb → crc8 0 (l.kept.takeWhile (· ≠ 0)) = f.2)

end HdrLine

/-- A header: its lines and the empty line. -/
def headerText (lines : List HdrLine) : List Byte := lines.flatMap HdrLine.text ++ [0x0d, 0x0a]

/-- Every line fits behind those before it. -/
def HeaderFits (f : Nat × Byte) : List HdrLine → Prop
  | [] => True
  | l :: ls => l.Fits f ∧ HeaderFits (l.meaning f) ls

def HdrState.fields (s : HdrState) : Nat × Byte := (s.ctlen, s.ctype)

/-! ## The lines in the stream -/

theorem atoi_step (n : BitVec 32) {c : Byte} (h : 0x30 ≤ c) :
    ((((n <<< 2) + n) <<< 1) + (c.setWidth 32 - 0x30)).toNat % 256 =
      (n.toNat % 256 * 10 + (c.toNat - 0x30)) % 256 := by
  have hc : 0x30 ≤ c.toNat := h
  have hlt := c.isLt
  have h48 : (0x30 : BitVec 32).toNat = 48 := rfl
  simp only [BitVec.toNat_add, BitVec.toNat_shiftLeft, BitVec.toNat_sub, BitVec.toNat_setWidth,
    Nat.shiftLeft_eq, h48]
  omega

/-- `atoi` reads the number, as far as eight bits tell. -/
theorem atoi_eq (s : List Byte) : (atoi 0 s).toNat % 256 = number s % 256 := by
  have hread (n : BitVec 32) (m : Nat) (h : n.toNat % 256 = m % 256) :
      (atoi n s).toNat % 256 = readNumeral 10 m
        ((s.takeWhile fun c => 0x30 ≤ c ∧ c ≤ 0x39).map fun c => c.toNat - 0x30) % 256 := by
    induction s generalizing n m with
    | nil => exact h
    | cons c s ih =>
      by_cases hc : 0x30 ≤ c ∧ c ≤ 0x39
      · have hne : ¬(c < 0x30 ∨ 0x39 < c) := by
          rw [not_or, BitVec.not_lt, BitVec.not_lt]
          exact hc
        rw [atoi, if_neg hne, List.takeWhile_cons_of_pos (by simpa using hc), List.map_cons,
          readNumeral_cons]
        refine ih _ _ ?_
        rw [atoi_step n hc.1, h]
        omega
      · have hne : c < 0x30 ∨ 0x39 < c := by
          rw [← BitVec.not_le, ← BitVec.not_le]
          tauto
        rw [atoi, if_pos hne, List.takeWhile_cons_of_neg (by simpa using hc)]
        exact h
  exact hread 0 0 rfl

theorem getValue_append {max : Nat} {val v : List Byte} (hv : ∀ c ∈ v, c ≠ 0x0d)
    (hmax : val.length ≤ max) (s : List Byte) :
    getValue max val (v ++ 0x0d :: s) = some ((val ++ v).take max, s) := by
  induction v generalizing val with
  | nil => simp [getValue, List.take_of_length_le hmax]
  | cons c v ih =>
    rw [List.forall_mem_cons] at hv
    rw [List.cons_append, getValue, if_neg hv.1]
    split_ifs with hlt
    · rw [ih hv.2 (by simpa using hlt), List.append_assoc, List.singleton_append]
    · have hfull : val.length = max := Nat.le_antisymm hmax (Nat.le_of_not_lt hlt)
      rw [ih hv.2 hmax, List.take_append_of_le_length hfull.ge,
        List.take_append_of_le_length hfull.ge]

theorem getHdrLine_append {eof : Int} {max : Nat} {val name : List Byte}
    (hn : ∀ c ∈ name, c ≠ 0x3a ∧ c ≠ 0x0d) (hash : Byte) (s : List Byte) :
    getHdrLine eof max val hash (name ++ s) = getHdrLine eof max val (crc8 hash name) s := by
  induction name generalizing hash with
  | nil => rfl
  | cons c name ih =>
    rw [List.forall_mem_cons] at hn
    rw [List.cons_append, getHdrLine, if_neg hn.1.1, if_neg hn.1.2, ih hn.2]
    rfl

theorem HdrLine.dropWhile_blanks {l : HdrLine} (h : l.Valid) (s : List Byte) :
    (List.replicate l.blanks 0x20 ++ (l.value ++ 0x0d :: s)).dropWhile (· = 0x20) =
      l.value ++ 0x0d :: s := by
  have hhead : (l.value ++ 0x0d :: s).head? ≠ some 0x20 := by
    have hv := h.2.2
    cases hval : l.value with
    | nil => simp
    | cons c v => simpa [hval] using hv
  rw [List.dropWhile_append_of_pos (by simp)]
  cases hrest : l.value ++ 0x0d :: s with
  | nil => rfl
  | cons c v =>
    rw [hrest, List.head?_cons, ne_eq, Option.some_inj] at hhead
    exact List.dropWhile_cons_of_neg (by simpa using hhead)

/-- The number of a cut value is not larger. -/
theorem HdrLine.number_kept_le (l : HdrLine) : number l.kept ≤ number l.value := by
  rw [number, number, HdrLine.kept, ← List.take_takeWhile, List.map_take]
  exact readNumeral_take_le (by decide) _ _ _

namespace HdrState

variable {eof : Int} {s : HdrState}

theorem recvLine_text {l : HdrLine} (h : l.Valid) {rest : List Byte}
    (hs : s.rest = l.text ++ rest) :
    s.recvLine eof =
      (((crc8 0 l.name).toNat : Int), { s with val := l.kept, rest := rest }) := by
  have htext : l.text ++ rest = l.name ++ 0x3a :: (List.replicate l.blanks 0x20 ++
      (l.value ++ 0x0d :: 0x0a :: rest)) := by simp [HdrLine.text]
  have hget : getHdrLine eof hdrValLenMax s.val 0 s.rest =
      (((crc8 0 l.name).toNat : Int), l.kept, rest) := by
    rw [hs, htext, getHdrLine_append h.1, getHdrLine, if_pos rfl, HdrLine.dropWhile_blanks h,
      getValue_append h.2.1 (Nat.zero_le _)]
    simp only [lineEnd, if_pos, List.nil_append, HdrLine.kept]
  rw [recvLine, hget]

theorem recvLine_end {rest : List Byte} (hs : s.rest = 0x0d :: 0x0a :: rest) :
    s.recvLine eof = (0, { s with rest := rest }) := by
  rw [recvLine, hs, getHdrLine, if_neg (by decide), if_pos rfl, lineEnd, if_pos rfl]
  rfl

theorem field_fields (s : HdrState) (opt : Byte) :
    (s.field opt.toNat).fields = (if opt = 0x75 then number s.val % 256 else s.ctlen,
      if opt = 0xeb then crc8 0 (s.val.takeWhile (· ≠ 0)) else s.ctype) := by
  have hopt (c : Byte) : (opt.toNat : Int) = (c.toNat : Int) ↔ opt = c := by
    rw [Int.natCast_inj, BitVec.toNat_inj]
  have htype : (opt.toNat : Int) = hdrContentType ↔ opt = 0xeb := hopt 0xeb
  have hlength : (opt.toNat : Int) = hdrContentLength ↔ opt = 0x75 := hopt 0x75
  simp only [field, htype, hlength, fields, ← atoi_eq]
  by_cases ht : opt = 0xeb
  · subst ht
    rfl
  · by_cases hl : opt = 0x75
    · subst hl
      rfl
    · simp only [if_neg ht, if_neg hl]

/-- The `switch` does what the line says if and only if the line fits. -/
theorem field_fields_iff {l : HdrLine} (hs : s.val = l.kept) (hname : crc8 0 l.name ≠ 0) :
    (s.field (crc8 0 l.name).toNat).fields = l.meaning s.fields ↔ l.Fits s.fields := by
  rw [field_fields, hs, HdrLine.Fits, and_iff_right hname, HdrLine.meaning]
  by_cases hl : l.name = contentLength
  · have hle := l.number_kept_le
    rw [if_pos hl, if_pos hl, hl, crc8_contentLength, if_pos rfl, if_neg (by decide), Prod.ext_iff,
      and_iff_left (by rfl)]
    constructor
    · intro h
      have hmod : number l.kept % 256 = number l.value := h
      have hlt : number l.value < 256 := hmod ▸ Nat.mod_lt _ (by decide)
      rw [Nat.mod_eq_of_lt (hle.trans_lt hlt)] at hmod
      exact ⟨hlt, hmod⟩
    · rintro ⟨hlt, heq⟩
      rw [heq, Nat.mod_eq_of_lt hlt]
  by_cases ht : l.name = contentType
  · rw [if_neg hl, if_pos ht, if_neg hl, if_pos ht, ht, crc8_contentType, if_neg (by decide),
      if_pos rfl, Prod.ext_iff, and_iff_right (by rfl)]
  rw [if_neg hl, if_neg ht, if_neg hl, if_neg ht, Prod.ext_iff]
  refine and_congr ?_ ?_
  · by_cases h : crc8 0 l.name = 0x75
    · rw [if_pos h, imp_iff_right h]
    · rw [if_neg h]
      exact iff_of_true rfl fun h' => absurd h' h
  · by_cases h : crc8 0 l.name = 0xeb
    · rw [if_pos h, imp_iff_right h]
    · rw [if_neg h]
      exact iff_of_true rfl fun h' => absurd h' h

theorem field_rest (s : HdrState) (opt : Int) : (s.field opt).rest = s.rest := by
  unfold field
  split_ifs <;> rfl

/-- The line does what it says. -/
def Does (eof : Int) (s : HdrState) (l : HdrLine) : Prop :=
  ∃ t, s.turn eof = some t ∧ t.fields = l.meaning s.fields

theorem turn_text {l : HdrLine} (h : l.Valid) {rest : List Byte} (hs : s.rest = l.text ++ rest)
    (hname : crc8 0 l.name ≠ 0) :
    ∃ t, s.turn eof = some t ∧ t.rest = rest ∧
      (t.fields = l.meaning s.fields ↔ l.Fits s.fields) := by
  have hpos : 0 < (crc8 0 l.name).toNat :=
    Nat.pos_of_ne_zero fun h0 => hname (BitVec.eq_of_toNat_eq h0)
  refine ⟨({ s with val := l.kept, rest := rest } : HdrState).field (crc8 0 l.name).toNat, ?_,
    field_rest _ _, field_fields_iff rfl hname⟩
  rw [turn, recvLine_text h hs]
  exact if_pos (Int.natCast_pos.mpr hpos)

theorem parseLoop_iff {lines : List HdrLine} {fuel : Nat} (hfuel : lines.length < fuel)
    (hv : ∀ l ∈ lines, l.Valid) {rest : List Byte} (hs : s.rest = headerText lines ++ rest) :
    ((parseLoop eof fuel s).2.rest = rest ∧
      (parseLoop eof fuel s).2.fields = lines.foldl (fun f l => l.meaning f) s.fields ∧
      Along (fun s _ => s.turn eof) (Does eof) s lines) ↔ HeaderFits s.fields lines := by
  induction lines generalizing s fuel with
  | nil =>
    obtain ⟨fuel, rfl⟩ := Nat.exists_eq_succ_of_ne_zero (Nat.ne_of_gt hfuel)
    have hend : s.recvLine eof = (0, { s with rest := rest }) := recvLine_end hs
    have hturn : s.turn eof = none := by rw [turn, hend]; rfl
    rw [Nat.succ_eq_add_one, parseLoop, hturn, hend]
    exact iff_of_true ⟨rfl, rfl, trivial⟩ trivial
  | cons l ls ih =>
    obtain ⟨fuel, rfl⟩ := Nat.exists_eq_succ_of_ne_zero (Nat.ne_of_gt (Nat.zero_lt_of_lt hfuel))
    rw [List.forall_mem_cons] at hv
    have hs' : s.rest = l.text ++ (headerText ls ++ rest) := by
      rw [hs, headerText, headerText, List.flatMap_cons, List.append_assoc, List.append_assoc,
        List.append_assoc]
    rw [HeaderFits, Nat.succ_eq_add_one, parseLoop]
    by_cases hname : crc8 0 l.name = 0
    · -- the name ends the header
      have hline := @recvLine_text eof s l hv.1 _ hs'
      have hturn : s.turn eof = none := by rw [turn, hline, hname]; rfl
      rw [hturn, hline]
      refine iff_of_false (fun h => ?_) fun h => h.1.1 hname
      have hlen := congrArg List.length h.1
      rw [headerText, List.length_append, List.length_append, List.length_cons] at hlen
      lia
    · obtain ⟨t, ht, hrest, hfits⟩ := @turn_text eof s l hv.1 _ hs' hname
      have halong : Along (fun s _ => s.turn eof) (Does eof) s (l :: ls) ↔
          t.fields = l.meaning s.fields ∧ Along (fun s _ => s.turn eof) (Does eof) t ls := by
        simp [Along, Does, ht]
      rw [ht, halong, ← hfits]
      by_cases heq : t.fields = l.meaning s.fields
      · have hgo := ih (Nat.lt_of_succ_lt_succ hfuel) hv.2 hrest
        rw [List.foldl_cons, and_iff_right heq, and_iff_right heq, ← heq]
        exact hgo
      · exact iff_of_false (fun h => heq h.2.2.1) fun h => heq h.1

end HdrState

/-- From the cleared control structure, `parse_hdr` takes exactly the header, the fields are those
of its lines and every line sets them as it says. -/
def HeaderTaken (eof : Int) (val : List Byte) (lines : List HdrLine) (rest : List Byte) : Prop :=
  let s : HdrState := ⟨0, 0, val, headerText lines ++ rest⟩
  (parseHdr eof s).2.rest = rest ∧
    (parseHdr eof s).2.fields = lines.foldl (fun f l => l.meaning f) (0, 0) ∧
    Along (fun s _ => s.turn eof) (HdrState.Does eof) s lines

/-- A header is taken for what it is if and only if every line fits behind those before it. -/
theorem header_taken_iff (eof : Int) (val : List Byte) {lines : List HdrLine}
    (hv : ∀ l ∈ lines, l.Valid) (rest : List Byte) :
    HeaderTaken eof val lines rest ↔ HeaderFits (0, 0) lines := by
  have htext (l : HdrLine) : 1 ≤ l.text.length := by
    rw [HdrLine.text, List.length_append, List.length_cons]
    lia
  have hlen : lines.length ≤ (lines.flatMap HdrLine.text).length := by
    induction lines with
    | nil => exact le_rfl
    | cons l ls ih =>
      have hl := htext l
      have hls := ih fun l h => hv l (List.mem_cons_of_mem _ h)
      rw [List.flatMap_cons, List.length_append, List.length_cons]
      lia
  refine HdrState.parseLoop_iff ?_ hv rfl
  rw [headerText, List.length_append, List.length_append]
  lia

/-- `Content-Length: 300` -/
def longContent : HdrLine := ⟨contentLength, 1, [0x33, 0x30, 0x30]⟩

/-- The length is taken as 44. -/
theorem header_length_wraps : longContent.Valid ∧ ¬HeaderTaken 0 [] [longContent] [] := by
  have hv : longContent.Valid := by
    unfold HdrLine.Valid longContent
    decide
  refine ⟨hv, fun h => ?_⟩
  have hfields := h.2.1
  revert hfields
  decide

/-- `Host: a` and `Content-Length: 5` -/
theorem header_taken_iff_five : HeaderTaken 0 []
    [⟨[0x48, 0x6f, 0x73, 0x74], 1, [0x61]⟩, ⟨contentLength, 1, [0x35]⟩] [0x6e, 0x3d, 0x31] := by
  refine (header_taken_iff 0 [] ?_ _).mpr ?_
  · unfold HdrLine.Valid
    decide
  · exact ⟨⟨by decide, by decide⟩, ⟨by decide, by decide⟩, trivial⟩

end YardIce.Httpd
