import Mathlib.Data.BitVec
import Mathlib.Data.List.Basic
import YardIce.Lib.Spelling

/-!
# Query strings

`http_decode_uri_query` decodes in place: one cursor reads and one writes, separators become
terminators and the list gets the places of the strings.

## Implementation notes

Characters are unsigned. A place in the buffer is its index, and the values of the list that point
to the literal `"\0"` have none. The state keeps the places of the buffer and of the list that were
read or written.
-/

namespace YardIce.Httpd

open Lib

abbrev Byte := BitVec 8

/-- `HEX2INT` -/
def hex2int (c : Byte) : Byte := if c ≤ 0x39 then c - 0x30 else c - 0x37

/-- `struct httpqry` -/
structure Httpqry where
  key : Nat
  val : Option Nat

inductive Access where
  | buf (k : Nat)
  | lst (k : Nat)

/-- The variables of `http_decode_uri_query`, with the accesses so far. -/
structure Query where
  buf : Nat → Byte
  i : Nat
  j : Nat
  n : Nat
  lst : Nat → Httpqry
  acc : List Access

namespace Query

def note (q : Query) (a : Access) : Query := { q with acc := a :: q.acc }

/-- `buf[j++] = c` -/
def put (q : Query) (c : Byte) : Query :=
  { q with buf := Function.update q.buf q.j c, j := q.j + 1, acc := .buf q.j :: q.acc }

/-- A new key, with the value `"\0"`. -/
def startKey (q : Query) : Query :=
  if q.n < 16 then
    { q with lst := Function.update q.lst q.n ⟨q.j, none⟩, acc := .lst q.n :: q.acc }
  else q

/-- `lst[n++].val = &buf[j]` -/
def startVal (q : Query) : Query :=
  if q.n < 16 then
    { q with
      lst := Function.update q.lst q.n { q.lst q.n with val := some q.j }
      n := q.n + 1
      acc := .lst q.n :: q.acc }
  else q

/-- The body of the `switch`. -/
def translate (q : Query) (c : Byte) : Query :=
  if c = 0x2b then q.put 0x20
  else if c = 0x25 then
    { ((q.note (.buf (q.i + 1))).note (.buf (q.i + 2))).put
        ((hex2int (q.buf (q.i + 1)) <<< 4) + hex2int (q.buf (q.i + 2))) with i := q.i + 2 }
  else if c = 0x26 ∨ c = 0x3b then (q.put 0).startKey
  else if c = 0x3d then (q.put 0).startVal
  else if c = 0x23 then q
  else q.put c

/-- One turn of the loop on a character that is no `NUL`. -/
def step (q : Query) : Query :=
  let q := (q.note (.buf q.i)).translate (q.buf q.i)
  { q with i := q.i + 1 }

/-- `buf[j] = '\0'` -/
def terminate (q : Query) : Query :=
  { q with buf := Function.update q.buf q.j 0, acc := .buf q.j :: q.acc }

end Query

/-- The loop. -/
def decodeLoop (len : Nat) : Nat → Query → Query
  | 0, q => q.terminate
  | fuel + 1, q =>
    if q.i < len then
      if q.buf q.i = 0 then q.note (.buf q.i) else decodeLoop len fuel q.step
    else q.terminate

/-- `http_decode_uri_query`, which returns `n`. It does not use `max`. -/
def httpDecodeUriQuery (buf : Nat → Byte) (len : Nat) (lst : Nat → Httpqry) (_max : Nat) : Query :=
  decodeLoop len len
    { buf := buf
      i := 0
      j := 0
      n := 0
      lst := Function.update lst 0 { lst 0 with key := 0 }
      acc := [.lst 0] }

namespace Query

theorem translate_raw (q : Query) {c : Byte}
    (h : c ∉ ([0x23, 0x25, 0x26, 0x2b, 0x3b, 0x3d] : List Byte)) : q.translate c = q.put c := by
  simp only [List.mem_cons, List.not_mem_nil, or_false, not_or] at h
  simp only [translate, h, if_false, or_self]

theorem translate_escape (q : Query) :
    q.translate 0x25 = { ((q.note (.buf (q.i + 1))).note (.buf (q.i + 2))).put
      ((hex2int (q.buf (q.i + 1)) <<< 4) + hex2int (q.buf (q.i + 2))) with i := q.i + 2 } := by
  rw [translate, if_neg (by decide), if_pos rfl]

theorem translate_separator (q : Query) {c : Byte} (h : c = 0x26 ∨ c = 0x3b) :
    q.translate c = (q.put 0).startKey := by
  rw [translate, if_neg, if_neg, if_pos h] <;>
  · rintro rfl
    simp at h

theorem translate_equals (q : Query) : q.translate 0x3d = (q.put 0).startVal := by
  rw [translate, if_neg (by decide), if_neg (by decide), if_neg (by decide), if_pos rfl]

end Query

/-! ## The loop without its fuel -/

namespace Query

theorem le_translate_i (q : Query) (c : Byte) : q.i ≤ (q.translate c).i := by
  unfold translate startKey startVal put note
  split_ifs <;> simp

theorem lt_step_i (q : Query) : q.i < q.step.i :=
  Nat.lt_succ_of_le ((q.note (.buf q.i)).le_translate_i (q.buf q.i))

/-- The loop from a state, with enough fuel. -/
def scan (len : Nat) (q : Query) : Query := decodeLoop len (len - q.i) q

end Query

theorem decodeLoop_fuel {len f g : Nat} {q : Query} (hf : len - q.i ≤ f) (hg : len - q.i ≤ g) :
    decodeLoop len f q = decodeLoop len g q := by
  induction f generalizing g q with
  | zero =>
    have hi : ¬q.i < len := by lia
    cases g with
    | zero => rfl
    | succ g => rw [decodeLoop, decodeLoop, if_neg hi]
  | succ f ih =>
    cases g with
    | zero =>
      have hi : ¬q.i < len := by lia
      rw [decodeLoop, decodeLoop, if_neg hi]
    | succ g =>
      have hstep := q.lt_step_i
      have hnext := @ih g q.step (by lia) (by lia)
      rw [decodeLoop, decodeLoop, hnext]

theorem scan_step {len : Nat} {q : Query} (hi : q.i < len) (hc : q.buf q.i ≠ 0) :
    q.scan len = q.step.scan len := by
  obtain ⟨d, hd⟩ : ∃ d, len - q.i = d + 1 := ⟨len - q.i - 1, by lia⟩
  have hstep := q.lt_step_i
  rw [Query.scan, hd, decodeLoop, if_pos hi, if_neg hc]
  exact decodeLoop_fuel (by lia) le_rfl

theorem scan_nul {len : Nat} {q : Query} (hi : q.i < len) (hc : q.buf q.i = 0) :
    q.scan len = q.note (.buf q.i) := by
  obtain ⟨d, hd⟩ : ∃ d, len - q.i = d + 1 := ⟨len - q.i - 1, by lia⟩
  rw [Query.scan, hd, decodeLoop, if_pos hi, if_pos hc]

theorem scan_end {len : Nat} {q : Query} (hi : len ≤ q.i) : q.scan len = q.terminate := by
  rw [Query.scan, Nat.sub_eq_zero_of_le hi, decodeLoop]

/-! ## Encoded pairs -/

/-- What a byte of a form is sent as. -/
inductive Token where
  | raw (c : Byte)
  | plus
  | escape (h l : Byte)

/-- The value of a hexadecimal digit of either case. -/
def hexValue (c : Byte) : Nat :=
  if c ≤ 0x39 then c.toNat - 0x30 else if c ≤ 0x46 then c.toNat - 0x37 else c.toNat - 0x57

def IsLower (c : Byte) : Prop := 0x61 ≤ c ∧ c ≤ 0x66

def IsHexDigit (c : Byte) : Prop := (0x30 ≤ c ∧ c ≤ 0x39) ∨ (0x41 ≤ c ∧ c ≤ 0x46) ∨ IsLower c

namespace Token

def text : Token → List Byte
  | raw c => [c]
  | plus => [0x2b]
  | escape h l => [0x25, h, l]

/-- The byte that was sent. -/
def byte : Token → Byte
  | raw c => c
  | plus => 0x20
  | escape h l => BitVec.ofNat 8 (16 * hexValue h + hexValue l)

/-- The byte that the decoder makes of it. -/
def read : Token → Byte
  | raw c => c
  | plus => 0x20
  | escape h l => (hex2int h <<< 4) + hex2int l

/-- Reserved bytes are escaped, with two digits. -/
def Valid : Token → Prop
  | raw c => c ∉ [0, 0x20, 0x23, 0x25, 0x26, 0x2b, 0x3b, 0x3d]
  | plus => True
  | escape h l => IsHexDigit h ∧ IsHexDigit l

def IsEscape : Token → Prop
  | escape _ _ => True
  | _ => False

/-- The last digit of an escape is in lower case. -/
def LowerLast : Token → Prop
  | escape _ l => IsLower l
  | _ => False

end Token

theorem hex2int_eq {c : Byte} (h : IsHexDigit c) :
    (hex2int c).toNat = hexValue c ∧ ¬IsLower c ∨
      (hex2int c).toNat = hexValue c + 32 ∧ IsLower c := by
  unfold IsHexDigit IsLower at h
  unfold hex2int hexValue IsLower
  simp only [BitVec.le_def] at *
  split_ifs <;> simp only [BitVec.toNat_sub] <;> lia

theorem hexValue_lt {c : Byte} (h : IsHexDigit c) : hexValue c < 16 := by
  unfold IsHexDigit IsLower at h
  unfold hexValue
  simp only [BitVec.le_def] at *
  split_ifs <;> lia

/-- `HEX2INT` is right but for the last digit of an escape in lower case. -/
theorem Token.read_eq_byte {t : Token} (h : t.Valid) : t.read = t.byte ↔ ¬t.LowerLast := by
  cases t with
  | raw c => simp [read, byte, LowerLast]
  | plus => simp [read, byte, LowerLast]
  | escape a b =>
    obtain ⟨ha, hb⟩ := h
    have h1 := hexValue_lt ha
    have h2 := hexValue_lt hb
    rw [← BitVec.toNat_inj, LowerLast, read, byte, BitVec.toNat_add, BitVec.toNat_shiftLeft,
      BitVec.toNat_ofNat, Nat.shiftLeft_eq]
    obtain ⟨ea, -⟩ | ⟨ea, -⟩ := hex2int_eq ha <;>
      obtain ⟨eb, hl⟩ | ⟨eb, hl⟩ := hex2int_eq hb <;>
      simp only [ea, eb, hl] <;> lia

/-- A key and its value. -/
abbrev Pair := List Token × List Token

def pairText (p : Pair) : List Byte := p.1.flatMap Token.text ++ 0x3d :: p.2.flatMap Token.text

/-- The form as it is sent. -/
def queryText : List Pair → List Byte
  | [] => []
  | [p] => pairText p
  | p :: r => pairText p ++ 0x26 :: queryText r

/-- The keys and values one after the other, each with its terminator. -/
def chain (f : Token → Byte) (pairs : List Pair) : List Byte :=
  pairs.flatMap fun p => p.1.map f ++ 0 :: (p.2.map f ++ [0])

/-- The tokens of a form. -/
def tokens (pairs : List Pair) : List Token := pairs.flatMap fun p => p.1 ++ p.2

/-- The string `s` with its terminator is at the place, which is the literal `"\0"` if there is
none. -/
def StringAt (buf : Nat → Byte) (place : Option Nat) (s : List Byte) : Prop :=
  place.elim (s = []) fun p => Spells buf p (s ++ [0])

/-- The list holds the pairs that were sent, in order. -/
def Query.Right (q : Query) (pairs : List Pair) : Prop :=
  q.n = pairs.length ∧ ∀ k (h : k < pairs.length),
    StringAt q.buf (some (q.lst k).key) (pairs[k].1.map Token.byte) ∧
    StringAt q.buf (q.lst k).val (pairs[k].2.map Token.byte)

theorem chain_inj {f g : Token → Byte} {pairs : List Pair} :
    chain f pairs = chain g pairs ↔ ∀ t ∈ tokens pairs, f t = g t := by
  induction pairs with
  | nil => simp [chain, tokens]
  | cons p r ih =>
    unfold chain tokens at *
    rw [List.flatMap_cons, List.flatMap_cons, List.flatMap_cons, List.forall_mem_append,
      List.forall_mem_append, ← ih]
    constructor
    · intro h
      obtain ⟨hp, hr⟩ := List.append_inj h (by simp)
      obtain ⟨hkey, hval⟩ := List.append_inj hp (by simp)
      obtain ⟨hval, -⟩ := List.append_inj (List.cons_inj_right 0 |>.mp hval) (by simp)
      exact ⟨⟨List.map_inj_left.mp hkey, List.map_inj_left.mp hval⟩, hr⟩
    · rintro ⟨⟨hkey, hval⟩, hr⟩
      rw [List.map_inj_left.mpr hkey, List.map_inj_left.mpr hval, hr]

theorem chain_concat (f : Token → Byte) {pairs : List Pair} (hne : pairs ≠ []) :
    ∃ x, chain f pairs = x ++ [0] := by
  obtain ⟨r, p, rfl⟩ := (List.eq_nil_or_concat pairs).resolve_left hne
  exact ⟨chain f r ++ (p.1.map f ++ 0 :: p.2.map f), by simp [chain]⟩

theorem text_length (ts : List Token) :
    ts.length ≤ (ts.flatMap Token.text).length ∧
      (ts.length = (ts.flatMap Token.text).length ↔ ∀ t ∈ ts, ¬t.IsEscape) := by
  induction ts with
  | nil => simp
  | cons t ts ih =>
    obtain ⟨hle, heq⟩ := ih
    have ht : t.text.length = 1 ∧ ¬t.IsEscape ∨ t.text.length = 3 ∧ t.IsEscape := by
      cases t <;> simp [Token.text, Token.IsEscape]
    rw [List.flatMap_cons, List.length_append, List.forall_mem_cons, ← heq, List.length_cons]
    constructor <;> lia

/-- An escape is the only thing that gets shorter. -/
theorem chain_length (f : Token → Byte) {pairs : List Pair} (hne : pairs ≠ []) :
    (chain f pairs).length ≤ (queryText pairs).length + 1 ∧
      ((chain f pairs).length = (queryText pairs).length + 1 ↔
        ∀ t ∈ tokens pairs, ¬t.IsEscape) := by
  induction pairs with
  | nil => exact absurd rfl hne
  | cons p r ih =>
    obtain ⟨hk, hk'⟩ := text_length p.1
    obtain ⟨hv, hv'⟩ := text_length p.2
    unfold chain tokens at *
    rw [List.flatMap_cons, List.flatMap_cons, List.forall_mem_append, List.forall_mem_append, ← hk',
      ← hv']
    cases r with
    | nil =>
      have hnil : ∀ t ∈ ([] : List Token), ¬t.IsEscape := by simp
      simp only [queryText, pairText, List.length_append, List.length_cons, List.length_map,
        List.flatMap_nil, List.length_nil]
      constructor
      · lia
      · rw [and_iff_left hnil]
        lia
    | cons p' r =>
      obtain ⟨hle, heq⟩ := ih (List.cons_ne_nil _ _)
      rw [← heq]
      simp only [queryText, pairText, List.length_append, List.length_cons, List.length_map,
        List.length_nil] at *
      constructor <;> lia

theorem hexDigit_ne_zero {c : Byte} (h : IsHexDigit c) : c ≠ 0 := by
  rintro rfl
  revert h
  unfold IsHexDigit IsLower
  decide

theorem text_ne_zero {ts : List Token} (hv : ∀ t ∈ ts, t.Valid) :
    ∀ c ∈ ts.flatMap Token.text, c ≠ 0 := by
  intro c hc
  obtain ⟨t, ht, hct⟩ := List.mem_flatMap.mp hc
  have hval := hv t ht
  cases t with
  | raw b =>
    rintro rfl
    rw [Token.text, List.mem_singleton] at hct
    simp [Token.Valid, ← hct] at hval
  | plus => simp_all [Token.text]
  | escape h l =>
    simp only [Token.text, List.mem_cons, List.not_mem_nil, or_false] at hct
    obtain rfl | rfl | rfl := hct
    · decide
    · exact hexDigit_ne_zero hval.1
    · exact hexDigit_ne_zero hval.2

theorem queryText_ne_zero {pairs : List Pair} (hv : ∀ t ∈ tokens pairs, t.Valid) :
    ∀ c ∈ queryText pairs, c ≠ 0 := by
  have hpair {p : Pair} (hp : ∀ t ∈ p.1 ++ p.2, t.Valid) : ∀ c ∈ pairText p, c ≠ 0 := by
    rw [List.forall_mem_append] at hp
    rw [pairText, List.forall_mem_append, List.forall_mem_cons]
    exact ⟨text_ne_zero hp.1, by decide, text_ne_zero hp.2⟩
  induction pairs with
  | nil => simp [queryText]
  | cons p r ih =>
    rw [tokens, List.flatMap_cons, List.forall_mem_append] at hv
    cases r with
    | nil => exact hpair hv.1
    | cons p' r =>
      rw [queryText, List.forall_mem_append, List.forall_mem_cons]
      · exact ⟨hpair hv.1, by decide, ih hv.2⟩
      · simp

/-! ## The decoder on encoded pairs -/

namespace Query

variable {mem : Nat → Byte} {out : List Byte} {len : Nat} {q : Query}

/-- The buffer begins with the bytes `out` that were written. -/
def Written (mem : Nat → Byte) (out : List Byte) (q : Query) : Prop :=
  q.buf = overlay out mem ∧ q.j = out.length ∧ out.length ≤ q.i

theorem Written.buf_eq (h : q.Written mem out) {k : Nat} (hk : q.i ≤ k) : q.buf k = mem k := by
  rw [h.1, overlay_of_le (h.2.2.trans hk)]

theorem Written.put_buf (h : q.Written mem out) (c : Byte) :
    (q.put c).buf = overlay (out ++ [c]) mem := by
  rw [put, h.1, h.2.1]
  exact overlay_snoc out mem c

theorem Written.terminate_buf (h : q.Written mem out) :
    q.terminate.buf = overlay (out ++ [0]) mem :=
  h.put_buf 0

theorem Written.step_token (h : q.Written mem out) {t : Token} (hv : t.Valid)
    (hs : Spells mem q.i t.text) :
    q.step.Written mem (out ++ [t.read]) ∧ q.step.i = q.i + t.text.length ∧ q.step.n = q.n ∧
      q.step.lst = q.lst := by
  have hput := h.put_buf t.read
  have hj : q.j + 1 = (out ++ [t.read]).length := by rw [h.2.1, List.length_append]; rfl
  have hi : (out ++ [t.read]).length ≤ q.i + 1 := by
    rw [← hj, h.2.1]
    exact Nat.succ_le_succ h.2.2
  cases t with
  | raw c =>
    have hraw : c ∉ ([0x23, 0x25, 0x26, 0x2b, 0x3b, 0x3d] : List Byte) := by
      have hall : c ∉ ([0, 0x20, 0x23, 0x25, 0x26, 0x2b, 0x3b, 0x3d] : List Byte) := hv
      simp only [List.mem_cons, List.not_mem_nil, or_false, not_or] at hall ⊢
      tauto
    have hc : q.buf q.i = c := (h.buf_eq le_rfl).trans (spells_cons.mp hs).1
    rw [step, hc, translate_raw _ hraw]
    exact ⟨⟨hput, hj, hi⟩, rfl, rfl, rfl⟩
  | plus =>
    have hc : q.buf q.i = 0x2b := (h.buf_eq le_rfl).trans (spells_cons.mp hs).1
    rw [step, hc, translate, if_pos rfl]
    exact ⟨⟨hput, hj, hi⟩, rfl, rfl, rfl⟩
  | escape a b =>
    obtain ⟨h1, h2⟩ := spells_cons.mp (spells_cons.mp hs).2
    have ha : q.buf (q.i + 1) = a := (h.buf_eq (Nat.le_succ _)).trans h1
    have hb : q.buf (q.i + 2) = b :=
      (h.buf_eq (Nat.le_add_right _ _)).trans (spells_cons.mp h2).1
    have hc : q.buf q.i = 0x25 := (h.buf_eq le_rfl).trans (spells_cons.mp hs).1
    rw [step, hc, translate_escape]
    refine ⟨⟨?_, hj, hi.trans (by simp [note])⟩, rfl, rfl, rfl⟩
    rw [← hput, Token.read, ← ha, ← hb]
    rfl

/-- A key or a value is decoded and nothing else changes. -/
theorem Written.scan_tokens {ts : List Token} (h : q.Written mem out) (hv : ∀ t ∈ ts, t.Valid)
    (hs : Spells mem q.i (ts.flatMap Token.text))
    (hlen : q.i + (ts.flatMap Token.text).length ≤ len) :
    ∃ q' : Query, q.scan len = q'.scan len ∧ q'.Written mem (out ++ ts.map Token.read) ∧
      q'.i = q.i + (ts.flatMap Token.text).length ∧ q'.n = q.n ∧ q'.lst = q.lst := by
  induction ts generalizing q out with
  | nil => exact ⟨q, rfl, by simpa using h, rfl, rfl, rfl⟩
  | cons t ts ih =>
    rw [List.forall_mem_cons] at hv
    rw [List.flatMap_cons] at hs hlen
    rw [List.length_append] at hlen
    obtain ⟨hs1, hs2⟩ := spells_append.mp hs
    obtain ⟨hw, hi, hn, hl⟩ := h.step_token hv.1 hs1
    rw [← hi] at hs2
    obtain ⟨q', hq, hw', hi', hn', hl'⟩ := ih hw hv.2 hs2 (by lia)
    have hpos : 0 < t.text.length := by cases t <;> simp [Token.text]
    have hne : q.buf q.i ≠ 0 := by
      have hnz := text_ne_zero (List.forall_mem_singleton.mpr hv.1)
      rw [h.buf_eq le_rfl, ← Nat.add_zero q.i, hs1 0 hpos]
      exact hnz _ (by simp)
    refine ⟨q', (scan_step (by lia) hne).trans hq, ?_, ?_, hn'.trans hn, hl'.trans hl⟩
    · rwa [List.map_cons, ← List.append_cons] at *
    · rw [hi', hi, List.flatMap_cons, List.length_append, Nat.add_assoc]

theorem Written.step_equals (h : q.Written mem out) (hc : mem q.i = 0x3d) (hn : q.n < 16) :
    q.step.Written mem (out ++ [0]) ∧ q.step.i = q.i + 1 ∧ q.step.n = q.n + 1 ∧
      q.step.lst = Function.update q.lst q.n ⟨(q.lst q.n).key, some (out.length + 1)⟩ := by
  have hput := h.put_buf 0
  have hj : (out ++ [0]).length = out.length + 1 := List.length_append
  rw [step, h.buf_eq le_rfl, hc, translate_equals, startVal, if_pos (by exact hn), ← h.2.1]
  refine ⟨⟨hput, ?_, ?_⟩, rfl, rfl, rfl⟩
  · rw [hj, ← h.2.1]
    rfl
  · rw [hj]
    exact Nat.succ_le_succ h.2.2

theorem Written.step_amp (h : q.Written mem out) (hc : mem q.i = 0x26) (hn : q.n < 16) :
    q.step.Written mem (out ++ [0]) ∧ q.step.i = q.i + 1 ∧ q.step.n = q.n ∧
      q.step.lst = Function.update q.lst q.n ⟨out.length + 1, none⟩ := by
  have hput := h.put_buf 0
  have hj : (out ++ [0]).length = out.length + 1 := List.length_append
  rw [step, h.buf_eq le_rfl, hc, translate_separator _ (.inl rfl), startKey, if_pos (by exact hn),
    ← h.2.1]
  refine ⟨⟨hput, ?_, ?_⟩, rfl, rfl, rfl⟩
  · rw [hj, ← h.2.1]
    rfl
  · rw [hj]
    exact Nat.succ_le_succ h.2.2

theorem Written.scan_pair {p : Pair} (h : q.Written mem out) (hn : q.n < 16)
    (hkey : (q.lst q.n).key = out.length) (hv : ∀ t ∈ p.1 ++ p.2, t.Valid)
    (hs : Spells mem q.i (pairText p)) (hlen : q.i + (pairText p).length ≤ len) :
    ∃ q' : Query, q.scan len = q'.scan len ∧
      q'.Written mem (out ++ (p.1.map Token.read ++ 0 :: p.2.map Token.read)) ∧
      q'.i = q.i + (pairText p).length ∧ q'.n = q.n + 1 ∧
      q'.lst = Function.update q.lst q.n ⟨out.length, some (out.length + p.1.length + 1)⟩ := by
  rw [List.forall_mem_append] at hv
  rw [pairText, spells_append, spells_cons] at hs
  obtain ⟨hk, he, hv'⟩ := hs
  rw [pairText, List.length_append, List.length_cons] at hlen
  obtain ⟨q₁, hq₁, hw₁, hi₁, hn₁, hl₁⟩ := h.scan_tokens hv.1 hk (show q.i + _ ≤ len by lia)
  rw [← hi₁] at he
  obtain ⟨hw₂, hi₂, hn₂, hl₂⟩ := hw₁.step_equals he (by lia)
  have hne : q₁.buf q₁.i ≠ 0 := by
    rw [hw₁.buf_eq le_rfl, he]
    decide
  have hq₂ := @scan_step len q₁ (by lia) hne
  rw [← hi₁, ← hi₂] at hv'
  obtain ⟨q₃, hq₃, hw₃, hi₃, hn₃, hl₃⟩ := hw₂.scan_tokens hv.2 hv' (show _ + _ ≤ len by lia)
  refine ⟨q₃, hq₁.trans (hq₂.trans hq₃), ?_, ?_, ?_, ?_⟩
  · simpa using hw₃
  · rw [pairText, List.length_append, List.length_cons]
    lia
  · lia
  · rw [hl₃, hl₂, hl₁, hn₁, hkey, List.length_append, List.length_map]

/-- The list has the places of the pairs from the entry `n` on, where the first key is at `p`. -/
def Listed (lst : Nat → Httpqry) : Nat → Nat → List Pair → Prop
  | _, _, [] => True
  | n, p, pr :: r => lst n = ⟨p, some (p + pr.1.length + 1)⟩ ∧
      Listed lst (n + 1) (p + pr.1.length + 1 + (pr.2.length + 1)) r

theorem Written.scan_pairs {r : List Pair} {p : Pair} (h : q.Written mem out)
    (hn : q.n + (p :: r).length ≤ 16) (hkey : (q.lst q.n).key = out.length)
    (hv : ∀ t ∈ tokens (p :: r), t.Valid) (hs : Spells mem q.i (queryText (p :: r)))
    (hlen : q.i + (queryText (p :: r)).length ≤ len) :
    ∃ (q' : Query) (out' : List Byte), q.scan len = q'.scan len ∧ q'.Written mem out' ∧
      out' ++ [0] = out ++ chain Token.read (p :: r) ∧
      q'.i = q.i + (queryText (p :: r)).length ∧ q'.n = q.n + (p :: r).length ∧
      Listed q'.lst q.n out.length (p :: r) ∧ ∀ k < q.n, q'.lst k = q.lst k := by
  induction r generalizing q out p with
  | nil =>
    rw [tokens, List.flatMap_singleton] at hv
    obtain ⟨q₁, hq₁, hw₁, hi₁, hn₁, hl₁⟩ := h.scan_pair hn hkey hv hs hlen
    refine ⟨q₁, _, hq₁, hw₁, by simp [chain], hi₁, hn₁, ⟨?_, trivial⟩, fun k hk => ?_⟩
    · rw [hl₁, Function.update_self]
    · rw [hl₁, Function.update_of_ne (Nat.ne_of_lt hk)]
  | cons p' r ih =>
    rw [tokens, List.flatMap_cons, List.forall_mem_append] at hv
    have htext : queryText (p :: p' :: r) = pairText p ++ 0x26 :: queryText (p' :: r) := rfl
    rw [htext, spells_append, spells_cons] at hs
    rw [htext, List.length_append, List.length_cons] at hlen
    rw [List.length_cons, List.length_cons] at hn
    obtain ⟨hs₁, ha, hs₂⟩ := hs
    obtain ⟨q₁, hq₁, hw₁, hi₁, hn₁, hl₁⟩ := h.scan_pair (by lia) hkey hv.1 hs₁
      (show q.i + _ ≤ len by lia)
    rw [← hi₁] at ha
    obtain ⟨hw₂, hi₂, hn₂, hl₂⟩ := hw₁.step_amp ha (by lia)
    have hne : q₁.buf q₁.i ≠ 0 := by
      rw [hw₁.buf_eq le_rfl, ha]
      decide
    have hq₂ := @scan_step len q₁ (by lia) hne
    rw [← hi₁, ← hi₂] at hs₂
    have hkey₂ : (q₁.step.lst q₁.step.n).key =
        (out ++ (p.1.map Token.read ++ 0 :: p.2.map Token.read) ++ [0]).length := by
      rw [hl₂, hn₂, Function.update_self, @List.length_append _ _ [0], List.length_append]
      rfl
    obtain ⟨q₃, out₃, hq₃, hw₃, ho₃, hi₃, hn₃, hl₃, hf₃⟩ :=
      ih hw₂ (by rw [List.length_cons]; lia) hkey₂ hv.2 hs₂ (by lia)
    refine ⟨q₃, out₃, hq₁.trans (hq₂.trans hq₃), hw₃, ?_, ?_, ?_, ⟨?_, ?_⟩, fun k hk => ?_⟩
    · rw [ho₃]
      simp [chain]
    · rw [htext, List.length_append, List.length_cons]
      lia
    · rw [hn₃, hn₂, hn₁, List.length_cons, List.length_cons, List.length_cons]
      lia
    · rw [hf₃ _ (by lia), hl₂, Function.update_of_ne (by lia), hl₁, Function.update_self]
    · have hp : (out ++ (p.1.map Token.read ++ 0 :: p.2.map Token.read) ++ [0]).length =
          out.length + p.1.length + 1 + (p.2.length + 1) := by
        simp only [List.length_append, List.length_cons, List.length_map, List.length_nil]
        lia
      rwa [hp, hn₂, hn₁] at hl₃
    · rw [hf₃ _ (by lia), hl₂, Function.update_of_ne (by lia), hl₁,
        Function.update_of_ne (by lia)]

theorem Listed.right_iff {buf : Nat → Byte} {lst : Nat → Httpqry} {n p : Nat} {pairs : List Pair}
    (h : Listed lst n p pairs) :
    (∀ k (hk : k < pairs.length),
      StringAt buf (some (lst (n + k)).key) (pairs[k].1.map Token.byte) ∧
      StringAt buf (lst (n + k)).val (pairs[k].2.map Token.byte)) ↔
    Spells buf p (chain Token.byte pairs) := by
  induction pairs generalizing n p with
  | nil => simp [chain, spells_nil]
  | cons pr r ih =>
    obtain ⟨hl, hr⟩ := h
    have hchain : chain Token.byte (pr :: r) = (pr.1.map Token.byte ++ [0]) ++
        ((pr.2.map Token.byte ++ [0]) ++ chain Token.byte r) := by simp [chain]
    have hkey : StringAt buf (some (lst n).key) (pr.1.map Token.byte) ↔
        Spells buf p (pr.1.map Token.byte ++ [0]) := by rw [hl]; rfl
    have hval : StringAt buf (lst n).val (pr.2.map Token.byte) ↔
        Spells buf (p + pr.1.length + 1) (pr.2.map Token.byte ++ [0]) := by rw [hl]; rfl
    have hlen (ts : List Token) : (ts.map Token.byte ++ [0]).length = ts.length + 1 := by simp
    rw [hchain, spells_append (s := pr.1.map Token.byte ++ [0]),
      spells_append (s := pr.2.map Token.byte ++ [0]), hlen, hlen, ← Nat.add_assoc p, ← ih hr,
      ← hkey, ← hval]
    constructor
    · intro h
      refine ⟨(h 0 (Nat.succ_pos _)).1, (h 0 (Nat.succ_pos _)).2, fun k hk => ?_⟩
      rw [Nat.add_assoc, Nat.add_comm 1]
      exact h (k + 1) (Nat.succ_lt_succ hk)
    · rintro ⟨h0, h1, hrest⟩ k hk
      cases k with
      | zero => exact ⟨h0, h1⟩
      | succ k =>
        rw [← Nat.add_assoc, Nat.add_right_comm]
        exact hrest k (Nat.lt_of_succ_lt_succ hk)

end Query

/-- The strings of a decoded form are right if no escape ends with a digit in lower case, and if the
length is exact or nothing got shorter. -/
theorem query_right_iff {mem : Nat → Byte} {len max : Nat} {lst : Nat → Httpqry}
    {pairs : List Pair} (hv : ∀ t ∈ tokens pairs, t.Valid) (hcount : pairs.length ≤ 16)
    (hs : Spells mem 0 (queryText pairs))
    (hlen : len = (queryText pairs).length ∨
      (queryText pairs).length < len ∧ mem (queryText pairs).length = 0) :
    (httpDecodeUriQuery mem len lst max).Right pairs ↔
      (∀ t ∈ tokens pairs, ¬t.LowerLast) ∧
        (len = (queryText pairs).length ∨ ∀ t ∈ tokens pairs, ¬t.IsEscape) := by
  have hread : chain Token.read pairs = chain Token.byte pairs ↔
      ∀ t ∈ tokens pairs, ¬t.LowerLast := by
    rw [chain_inj]
    exact forall₂_congr fun t ht => Token.read_eq_byte (hv t ht)
  set q : Query := ⟨mem, 0, 0, 0, Function.update lst 0 { lst 0 with key := 0 }, [.lst 0]⟩ with hq
  have hw : q.Written mem [] := ⟨(overlay_nil mem).symm, rfl, le_rfl⟩
  have hscan : httpDecodeUriQuery mem len lst max = q.scan len := rfl
  rw [hscan]
  obtain _ | ⟨p, r⟩ := pairs
  · -- nothing was sent
    have hend : (q.scan len).n = 0 := by
      rcases hlen with rfl | ⟨h, h0⟩
      · rw [scan_end (by exact le_rfl)]
        rfl
      · rw [scan_nul (by exact h) (by exact h0)]
        rfl
    simp [Query.Right, hend, tokens]
  · have hkey : (q.lst q.n).key = ([] : List Byte).length := by
      rw [hq]
      simp
    have htext : q.i + (queryText (p :: r)).length ≤ len := by
      rw [Nat.zero_add]
      lia
    obtain ⟨q', out, hq', hw', hout, hi, hn, hl, -⟩ :=
      hw.scan_pairs (by rwa [Nat.zero_add]) hkey hv hs htext
    rw [Nat.zero_add] at hi hn
    rw [List.nil_append] at hout
    have hsize (c : Byte) : (chain Token.byte (p :: r)).length = (out ++ [c]).length := by
      have hlast : (out ++ [c]).length = (out ++ [0]).length := by simp
      rw [hlast, hout]
      simp [chain, List.length_flatMap]
    have hright (q₂ : Query) (hn₂ : q₂.n = q'.n) (hl₂ : q₂.lst = q'.lst) :
        q₂.Right (p :: r) ↔ Spells q₂.buf 0 (chain Token.byte (p :: r)) := by
      have hl₀ : Query.Listed q'.lst 0 0 (p :: r) := hl
      rw [Query.Right, hn₂, hl₂, hn, ← hl₀.right_iff, and_iff_right rfl]
      simp only [Nat.zero_add]
    rw [hq', ← hread, ← hout]
    obtain hexact | ⟨hlong, hnul⟩ := hlen
    · rw [scan_end (by rw [hi, hexact]), hright q'.terminate rfl rfl, hw'.terminate_buf,
        spells_overlay (hsize 0), and_iff_left (.inl hexact)]
    · obtain ⟨-, hshort⟩ := chain_length Token.read (List.cons_ne_nil p r)
      obtain ⟨hle, -⟩ := chain_length Token.read (List.cons_ne_nil p r)
      rw [← hout, List.length_append, List.length_singleton, Nat.add_right_cancel_iff] at hshort
      rw [← hout, List.length_append, List.length_singleton] at hle
      have hstop : q'.buf q'.i = 0 := by rw [hw'.buf_eq le_rfl, hi, hnul]
      have hbuf : (q'.note (.buf q'.i)).buf = overlay (out ++ [mem out.length]) mem :=
        hw'.1.trans (overlay_snoc_self out mem).symm
      rw [scan_nul (by rw [hi]; exact hlong) hstop, hright (q'.note _) rfl rfl, hbuf,
        spells_overlay (hsize _), or_iff_right hlong.ne', ← hshort]
      constructor
      · intro heq
        obtain ⟨x, hx⟩ := chain_concat Token.byte (List.cons_ne_nil p r)
        rw [hx] at heq ⊢
        obtain ⟨rfl, hm⟩ := List.append_inj' heq rfl
        refine ⟨rfl, Nat.le_antisymm (Nat.le_of_succ_le_succ hle) (Nat.le_of_not_lt fun hlt => ?_)⟩
        refine queryText_ne_zero hv _ (List.getElem_mem hlt) ?_
        rw [← hs _ hlt, Nat.zero_add]
        exact List.singleton_inj.mp hm
      · rintro ⟨heq, hfull⟩
        rw [hfull, hnul, heq]

/-! ## What is accessed -/

/-- The bytes from `p` on up to a `NUL`, at most `len`. -/
def content (mem : Nat → Byte) (p : Nat) : Nat → List Byte
  | 0 => []
  | len + 1 => if mem p = 0 then [] else mem p :: content mem (p + 1) len

/-- `buf[0..len]` up to the first `NUL`, and `lst[0..max)`. -/
def Access.Allowed (mem : Nat → Byte) (len max : Nat) : Access → Prop
  | buf k => k ≤ len ∧ ∀ m < k, mem m ≠ 0
  | lst k => k < max

/-- Escapes are whole, and the list does not outgrow `max` below its 16 entries. If `slack`, then
the last byte may be the only digit of an escape. -/
def QueryFits (max : Nat) (slack : Prop) : Nat → List Byte → Prop
  | _, [] => True
  | n, c :: t =>
    if c = 0x25 then
      match t with
      | [] => False
      | [_] => slack
      | _ :: _ :: t => QueryFits max slack n t
    else if c = 0x3d then (n < 16 → n < max) ∧ QueryFits max slack (if n < 16 then n + 1 else n) t
    else if c = 0x26 ∨ c = 0x3b then (n < 16 → n < max) ∧ QueryFits max slack n t
    else QueryFits max slack n t

theorem content_spec (mem : Nat → Byte) (p len : Nat) :
    Spells mem p (content mem p len) ∧ (∀ c ∈ content mem p len, c ≠ 0) ∧
      ((content mem p len).length = len ∨
        (content mem p len).length < len ∧ mem (p + (content mem p len).length) = 0) := by
  induction len generalizing p with
  | zero => simp [content, spells_nil]
  | succ len ih =>
    rw [content]
    split_ifs with h0
    · simp [spells_nil, h0]
    · obtain ⟨hs, hne, hstop⟩ := ih (p + 1)
      rw [spells_cons, List.forall_mem_cons, List.length_cons, ← Nat.add_assoc,
        Nat.add_right_comm]
      refine ⟨⟨rfl, hs⟩, ⟨h0, hne⟩, hstop.imp (congrArg (· + 1)) fun h => ?_⟩
      exact ⟨Nat.succ_lt_succ h.1, h.2⟩

theorem Access.allowed_buf {mem : Nat → Byte} {len max k : Nat} :
    (Access.buf k).Allowed mem len max ↔ k ≤ (content mem 0 len).length := by
  obtain ⟨hs, hne, hstop⟩ := content_spec mem 0 len
  simp only [Nat.zero_add] at hstop
  constructor
  · rintro ⟨hk, hnul⟩
    by_contra hlong
    obtain h | ⟨-, h⟩ := hstop
    · lia
    · exact hnul _ (Nat.lt_of_not_le hlong) h
  · intro hk
    refine ⟨by lia, fun m hm => ?_⟩
    have hget := hs m (by lia)
    rw [Nat.zero_add] at hget
    rw [hget]
    exact hne _ (List.getElem_mem _)

namespace Query

variable {mem : Nat → Byte} {len max i : Nat} {q : Query}

/-- From `i` on the buffer is as it came, and all accesses were allowed. -/
def Inside (mem : Nat → Byte) (len max i : Nat) (q : Query) : Prop :=
  q.j ≤ i ∧ (∀ k, i ≤ k → q.buf k = mem k) ∧ ∀ a ∈ q.acc, a.Allowed mem len max

theorem Inside.mono (h : q.Inside mem len max i) {i' : Nat} (hi : i ≤ i') :
    q.Inside mem len max i' :=
  ⟨h.1.trans hi, fun k hk => h.2.1 k (hi.trans hk), h.2.2⟩

theorem Inside.note (h : q.Inside mem len max i) {a : Access} (ha : a.Allowed mem len max) :
    (q.note a).Inside mem len max i :=
  ⟨h.1, h.2.1, List.forall_mem_cons.mpr ⟨ha, h.2.2⟩⟩

theorem Inside.put (h : q.Inside mem len max i) (hi : (Access.buf i).Allowed mem len max)
    (c : Byte) : (q.put c).Inside mem len max (i + 1) := by
  refine ⟨Nat.succ_le_succ h.1, fun k hk => ?_, List.forall_mem_cons.mpr ⟨?_, h.2.2⟩⟩
  · have hne : k ≠ q.j := Nat.ne_of_gt (Nat.lt_of_le_of_lt h.1 hk)
    exact (Function.update_of_ne hne _ _).trans (h.2.1 k (Nat.le_of_succ_le hk))
  · rw [Access.allowed_buf] at *
    exact h.1.trans hi

theorem Inside.startKey (h : q.Inside mem len max i) (hn : q.n < 16 → q.n < max) :
    q.startKey.Inside mem len max i := by
  unfold Query.startKey
  split_ifs with h16
  · exact ⟨h.1, h.2.1, List.forall_mem_cons.mpr ⟨hn h16, h.2.2⟩⟩
  · exact h

theorem Inside.startVal (h : q.Inside mem len max i) (hn : q.n < 16 → q.n < max) :
    q.startVal.Inside mem len max i := by
  unfold Query.startVal
  split_ifs with h16
  · exact ⟨h.1, h.2.1, List.forall_mem_cons.mpr ⟨hn h16, h.2.2⟩⟩
  · exact h

theorem mem_translate_acc {a : Access} (h : a ∈ q.acc) (c : Byte) : a ∈ (q.translate c).acc := by
  unfold translate Query.startKey Query.startVal Query.put Query.note
  split_ifs <;> simp [h]

theorem mem_decodeLoop_acc {a : Access} (h : a ∈ q.acc) (fuel : Nat) :
    a ∈ (decodeLoop len fuel q).acc := by
  induction fuel generalizing q with
  | zero => exact List.mem_cons_of_mem _ h
  | succ fuel ih =>
    rw [decodeLoop]
    split_ifs
    · exact List.mem_cons_of_mem _ h
    · exact ih (mem_translate_acc (List.mem_cons_of_mem _ h) _)
    · exact List.mem_cons_of_mem _ h

/-- An access outside stays on record. -/
theorem not_allowed_of_mem {a : Access} (h : a ∈ q.acc) (ha : ¬a.Allowed mem len max) :
    ¬∀ a ∈ (q.scan len).acc, a.Allowed mem len max :=
  fun hall => ha (hall a (mem_decodeLoop_acc h _))

theorem mem_step_acc (q : Query) : .buf q.i ∈ q.step.acc :=
  mem_translate_acc (q := q.note (.buf q.i)) List.mem_cons_self (q.buf q.i)

theorem mem_scan_acc (hi : q.i < len) : .buf q.i ∈ (q.scan len).acc := by
  by_cases hc : q.buf q.i = 0
  · rw [scan_nul hi hc]
    exact List.mem_cons_self
  · rw [scan_step hi hc]
    exact mem_decodeLoop_acc q.mem_step_acc _

/-- A whole escape is skipped. -/
theorem Inside.step_escape (h : q.Inside mem len max q.i) (hc : q.buf q.i = 0x25)
    (hi : (Access.buf (q.i + 2)).Allowed mem len max) :
    q.step.Inside mem len max (q.i + 1) ∧ q.step.i = q.i + 3 ∧ q.step.n = q.n := by
  rw [Access.allowed_buf] at hi
  have hok {k : Nat} (hk : k ≤ q.i + 2) : (Access.buf k).Allowed mem len max :=
    Access.allowed_buf.mpr (hk.trans hi)
  rw [step, hc, translate_escape]
  have hnote := ((h.note (@hok q.i (by lia))).note (@hok (q.i + 1) (by lia))).note (hok le_rfl)
  exact ⟨hnote.put (hok (by lia)) _, rfl, rfl⟩

theorem mem_step_escape (hc : q.buf q.i = 0x25) : .buf (q.i + 2) ∈ q.step.acc := by
  rw [step, hc, translate_escape]
  simp [Query.put, Query.note]

theorem startKey_fields (q : Query) : q.startKey.i = q.i ∧ q.startKey.n = q.n := by
  unfold Query.startKey
  split_ifs <;> exact ⟨rfl, rfl⟩

theorem startVal_fields (q : Query) :
    q.startVal.i = q.i ∧ q.startVal.n = if q.n < 16 then q.n + 1 else q.n := by
  unfold Query.startVal
  split_ifs <;> exact ⟨rfl, rfl⟩

theorem Inside.step_separator (h : q.Inside mem len max q.i)
    (hi : (Access.buf q.i).Allowed mem len max) (hc : q.buf q.i = 0x26 ∨ q.buf q.i = 0x3b)
    (hn : q.n < 16 → q.n < max) :
    q.step.Inside mem len max (q.i + 1) ∧ q.step.i = q.i + 1 ∧ q.step.n = q.n := by
  rw [step, translate_separator _ hc]
  obtain ⟨hi', hn'⟩ := ((q.note (.buf q.i)).put 0).startKey_fields
  exact ⟨((h.note hi).put hi 0).startKey hn, congrArg (· + 1) hi', hn'⟩

theorem mem_step_separator (hc : q.buf q.i = 0x26 ∨ q.buf q.i = 0x3b) (hn : q.n < 16) :
    .lst q.n ∈ q.step.acc := by
  rw [step, translate_separator _ hc, Query.startKey, if_pos (by exact hn)]
  exact List.mem_cons_self

theorem Inside.step_equals (h : q.Inside mem len max q.i)
    (hi : (Access.buf q.i).Allowed mem len max) (hc : q.buf q.i = 0x3d)
    (hn : q.n < 16 → q.n < max) :
    q.step.Inside mem len max (q.i + 1) ∧ q.step.i = q.i + 1 ∧
      q.step.n = if q.n < 16 then q.n + 1 else q.n := by
  rw [step, hc, translate_equals]
  obtain ⟨hi', hn'⟩ := ((q.note (.buf q.i)).put 0).startVal_fields
  exact ⟨((h.note hi).put hi 0).startVal hn, congrArg (· + 1) hi', hn'⟩

theorem mem_step_equals (hc : q.buf q.i = 0x3d) (hn : q.n < 16) : .lst q.n ∈ q.step.acc := by
  rw [step, hc, translate_equals, Query.startVal, if_pos (by exact hn)]
  exact List.mem_cons_self

/-- A character that is no escape and no separator keeps inside. -/
theorem Inside.step_other (h : q.Inside mem len max q.i)
    (hi : (Access.buf q.i).Allowed mem len max) (hpct : q.buf q.i ≠ 0x25)
    (heq : q.buf q.i ≠ 0x3d) (hsep : ¬(q.buf q.i = 0x26 ∨ q.buf q.i = 0x3b)) :
    q.step.Inside mem len max (q.i + 1) ∧ q.step.i = q.i + 1 ∧ q.step.n = q.n := by
  have hnote := h.note hi
  unfold step translate
  rw [if_neg hpct, if_neg hsep, if_neg heq]
  split_ifs
  · exact ⟨hnote.put hi 0x20, rfl, rfl⟩
  · exact ⟨hnote.mono (Nat.le_succ _), rfl, rfl⟩
  · exact ⟨hnote.put hi _, rfl, rfl⟩

theorem queryFits_cons {slack : Prop} {n : Nat} {c : Byte} {t : List Byte} (hc : c ≠ 0x25) :
    QueryFits max slack n (c :: t) ↔
      if c = 0x3d then (n < 16 → n < max) ∧ QueryFits max slack (if n < 16 then n + 1 else n) t
      else if c = 0x26 ∨ c = 0x3b then (n < 16 → n < max) ∧ QueryFits max slack n t
      else QueryFits max slack n t := by
  rw [QueryFits.eq_def]
  simp only [if_neg hc]

/-- From inside a text the accesses stay allowed if and only if the rest of the text fits. -/
theorem Inside.scan_iff {rest : List Byte} (h : q.Inside mem len max q.i)
    (hs : Spells mem q.i rest) (hne : ∀ c ∈ rest, c ≠ 0)
    (hend : q.i + rest.length = (content mem 0 len).length) :
    (∀ a ∈ (q.scan len).acc, a.Allowed mem len max) ↔
      QueryFits max (len ≤ (content mem 0 len).length + 1) q.n rest := by
  induction hsize : rest.length using Nat.strong_induction_on generalizing q rest with
  | _ size ih =>
  have hok (k : Nat) : (Access.buf k).Allowed mem len max ↔ k ≤ q.i + rest.length := by
    rw [Access.allowed_buf, hend]
  obtain ⟨-, -, hstop⟩ := content_spec mem 0 len
  rw [Nat.zero_add] at hstop
  have hi : (Access.buf q.i).Allowed mem len max := (hok _).mpr (Nat.le_add_right _ _)
  obtain _ | ⟨c, t⟩ := rest
  · -- the end of the text
    rw [QueryFits, iff_true]
    rw [List.length_nil, Nat.add_zero] at hend
    obtain hstop | ⟨hlong, hnul⟩ := hstop
    · rw [scan_end (by rw [hend, hstop])]
      exact (h.put hi 0).2.2
    · rw [scan_nul (by rwa [hend]) (by rw [h.2.1 _ le_rfl, hend, hnul])]
      exact (h.note hi).2.2
  obtain ⟨hc, hs'⟩ := spells_cons.mp hs
  have hbuf : q.buf q.i = c := (h.2.1 _ le_rfl).trans hc
  rw [List.forall_mem_cons] at hne
  rw [List.length_cons] at hend hsize hok
  rw [scan_step (by lia) (by rw [hbuf]; exact hne.1)]
  have hgo (hin : q.step.Inside mem len max (q.i + 1)) (hi' : q.step.i = q.i + 1) :
      (∀ a ∈ (q.step.scan len).acc, a.Allowed mem len max) ↔
        QueryFits max (len ≤ (content mem 0 len).length + 1) q.step.n t := by
    rw [← hi'] at hin hs'
    exact ih t.length (by lia) hin hs' hne.2 (by lia) rfl
  by_cases hpct : c = 0x25
  · have hc := hbuf.trans hpct
    obtain _ | ⟨a, _ | ⟨b, t⟩⟩ := t
    · -- the reads go past the text
      have hbad : ¬(Access.buf (q.i + 2)).Allowed mem len max := by
        rw [hok, List.length_nil]
        lia
      refine iff_of_false (not_allowed_of_mem (mem_step_escape hc) hbad) fun h => ?_
      simp [QueryFits, hpct] at h
    · -- the cursor goes past the text
      rw [List.length_singleton] at hend hok
      obtain ⟨hin, hi', -⟩ := h.step_escape hc ((hok _).mpr (by lia))
      have hfits : QueryFits max (len ≤ (content mem 0 len).length + 1) q.n [c, a] ↔
          len ≤ (content mem 0 len).length + 1 := by simp [QueryFits, hpct]
      rw [hfits]
      by_cases hslack : len ≤ (content mem 0 len).length + 1
      · rw [scan_end (by lia)]
        exact iff_of_true (hin.put ((hok _).mpr (by lia)) 0).2.2 hslack
      · refine iff_of_false (fun hall => ?_) hslack
        have hread := (hok _).mp (hall _ (mem_scan_acc (by lia)))
        lia
    · rw [List.length_cons, List.length_cons] at *
      obtain ⟨hin, hi', hn'⟩ := h.step_escape hc ((hok _).mpr (by lia))
      have hfits : QueryFits max (len ≤ (content mem 0 len).length + 1) q.n (c :: a :: b :: t) ↔
          QueryFits max (len ≤ (content mem 0 len).length + 1) q.n t := by simp [QueryFits, hpct]
      have hin' := hin.mono (Nat.add_le_add_left (by decide : 1 ≤ 3) q.i)
      have hs₂ := (spells_cons.mp (spells_cons.mp hs').2).2
      have hi₂ : q.i + 1 + 1 + 1 = q.step.i := hi'.symm
      rw [hi₂] at hs₂
      rw [← hi'] at hin'
      rw [List.forall_mem_cons, List.forall_mem_cons] at hne
      rw [hfits, ← hn']
      exact ih t.length (by lia) hin' hs₂ hne.2.2.2 (by lia) rfl
  rw [queryFits_cons hpct]
  by_cases heq : c = 0x3d
  · have hc := hbuf.trans heq
    rw [if_pos heq]
    by_cases hn : q.n < 16 → q.n < max
    · obtain ⟨hin, hi', hn'⟩ := h.step_equals hi hc hn
      rw [hgo hin hi', hn', and_iff_right hn]
    · obtain ⟨h16, hmax⟩ := Classical.not_imp.mp hn
      exact iff_of_false (not_allowed_of_mem (mem_step_equals hc h16) hmax) fun h => hn h.1
  rw [if_neg heq]
  by_cases hsep : c = 0x26 ∨ c = 0x3b
  · rw [if_pos hsep]
    rw [← hbuf] at hsep
    by_cases hn : q.n < 16 → q.n < max
    · obtain ⟨hin, hi', hn'⟩ := h.step_separator hi hsep hn
      rw [hgo hin hi', hn', and_iff_right hn]
    · obtain ⟨h16, hmax⟩ := Classical.not_imp.mp hn
      exact iff_of_false (not_allowed_of_mem (mem_step_separator hsep h16) hmax) fun h => hn h.1
  rw [← hbuf] at hpct heq hsep
  obtain ⟨hin, hi', hn'⟩ := h.step_other hi hpct heq hsep
  rw [if_neg (by rwa [← hbuf]), hgo hin hi', hn']

end Query

/-- The accesses are allowed if and only if the list has an entry and the text fits. -/
theorem query_allowed_iff (mem : Nat → Byte) (len max : Nat) (lst : Nat → Httpqry) :
    (∀ a ∈ (httpDecodeUriQuery mem len lst max).acc, a.Allowed mem len max) ↔
      0 < max ∧ QueryFits max (len ≤ (content mem 0 len).length + 1) 0 (content mem 0 len) := by
  set q : Query := ⟨mem, 0, 0, 0, Function.update lst 0 { lst 0 with key := 0 }, [.lst 0]⟩
  have hscan : httpDecodeUriQuery mem len lst max = q.scan len := rfl
  rw [hscan]
  by_cases hmax : 0 < max
  · obtain ⟨hs, hne, -⟩ := content_spec mem 0 len
    have hin : q.Inside mem len max q.i :=
      ⟨le_rfl, fun _ _ => rfl, List.forall_mem_singleton.mpr hmax⟩
    rw [hin.scan_iff hs hne (Nat.zero_add _), and_iff_right hmax]
  · exact iff_of_false (Query.not_allowed_of_mem (List.mem_singleton_self _) hmax)
      fun h => hmax h.1

/-- A form is decoded as it was sent if and only if no escape ends with a digit in lower case, and
if the length is exact or there is no escape. The accesses are those that are allowed if and only
if the list has an entry and the text fits. -/
theorem query_decoded_iff (mem : Nat → Byte) (len max : Nat) (lst : Nat → Httpqry) :
    (∀ pairs : List Pair, (∀ t ∈ tokens pairs, t.Valid) → pairs.length ≤ max → max ≤ 16 →
      Spells mem 0 (queryText pairs) →
      (len = (queryText pairs).length ∨
        (queryText pairs).length < len ∧ mem (queryText pairs).length = 0) →
      ((httpDecodeUriQuery mem len lst max).Right pairs ↔
        (∀ t ∈ tokens pairs, ¬t.LowerLast) ∧
          (len = (queryText pairs).length ∨ ∀ t ∈ tokens pairs, ¬t.IsEscape))) ∧
    ((∀ a ∈ (httpDecodeUriQuery mem len lst max).acc, a.Allowed mem len max) ↔
      0 < max ∧ QueryFits max (len ≤ (content mem 0 len).length + 1) 0 (content mem 0 len)) :=
  ⟨fun _ hv hcount h16 hs hlen => query_right_iff hv (hcount.trans h16) hs hlen,
    query_allowed_iff mem len max lst⟩

/-- The pair `a` and `/`, which is sent as `a=%2f`. -/
def slashPair : List Pair := [([.raw 0x61], [.escape 0x32 0x66])]

/-- A buffer that holds a text, with `NUL`s after it. -/
def textBuf (text : List Byte) (k : Nat) : Byte := text[k]?.getD 0

theorem spells_textBuf (text : List Byte) : Spells (textBuf text) 0 text := fun k hk => by
  rw [Nat.zero_add, textBuf, List.getElem?_eq_getElem hk, Option.getD_some]

/-- The value is decoded as `O`. -/
theorem query_lower_not_right :
    (∀ t ∈ tokens slashPair, t.Valid) ∧ (queryText slashPair).length = 5 ∧
      ¬(httpDecodeUriQuery (textBuf (queryText slashPair)) 5 (fun _ => ⟨0, none⟩) 16).Right
        slashPair := by
  have hv : ∀ t ∈ tokens slashPair, t.Valid := by
    simp [tokens, slashPair, Token.Valid, IsHexDigit, IsLower]
  refine ⟨hv, rfl, fun h => ?_⟩
  have hright := (query_right_iff hv (by decide) (spells_textBuf _) (.inl rfl)).mp h
  simp [tokens, slashPair, Token.LowerLast, IsLower] at hright

theorem query_decoded_iff_plus :
    (httpDecodeUriQuery (textBuf (queryText [([.raw 0x61], [.plus])])) 3 (fun _ => ⟨0, none⟩)
      16).Right [([.raw 0x61], [.plus])] := by
  refine ((query_decoded_iff _ 3 16 _).1 _ ?_ (by decide) le_rfl (spells_textBuf _) (.inl rfl)).mpr
    ⟨?_, .inl rfl⟩
  · simp [tokens, Token.Valid]
  · simp [tokens, Token.LowerLast]

end YardIce.Httpd
