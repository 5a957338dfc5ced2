import YardIce.MicroJs.JsonScan

/-!
# Round trips of JSON texts

A text is a list of lexemes with the blanks before them. What an object text says is the list
of its items: labels, values and brackets. The scanner writes the tokens of the items, and the
reader gives the items back exactly if they are such that it can read their tokens.
-/

namespace YardIce.MicroJs.Json

/-! ## Texts -/

/-- A lexeme. A label is a string together with the colon behind it. -/
inductive Lexeme where
  | null
  | bool (b : Bool)
  | int (neg : Bool) (ds : List Nat)
  | str (qt : Nat) (cs : List Nat)
  | label (qt : Nat) (cs blanks : List Nat)
  | leftbrace
  | rightbrace
  | leftbracket
  | rightbracket
  | comma

namespace Lexeme

def bytes : Lexeme → List Nat
  | null => wordNull
  | bool b => if b then wordTrue else wordFalse
  | int neg ds => numberBytes neg ds
  | str qt cs => qt :: (cs ++ [qt])
  | label qt cs blanks => qt :: (cs ++ [qt]) ++ blanks ++ [58]
  | leftbrace => [123]
  | rightbrace => [125]
  | leftbracket => [91]
  | rightbracket => [93]
  | comma => [44]

/-- The value of decimal digits. -/
def natValue (ds : List Nat) : Nat := ds.foldl (fun n c => 10 * n + (c - 48)) 0

/-- The value of decimal digits with a sign. -/
def intValue (neg : Bool) (ds : List Nat) : Int :=
  if neg then -(natValue ds : Int) else natValue ds

/-- The digits are digits of a number of 32 bits, and no string has its quote in it. -/
def Proper : Lexeme → Prop
  | int neg ds => ds ≠ [] ∧ (∀ c ∈ ds, isDigit c = true) ∧
      -2 ^ 31 ≤ intValue neg ds ∧ intValue neg ds < 2 ^ 31
  | str qt cs => (qt = 39 ∨ qt = 34) ∧ qt ∉ cs
  | label qt cs blanks => (qt = 39 ∨ qt = 34) ∧ qt ∉ cs ∧ ∀ c ∈ blanks, isSpace c = true
  | _ => True

/-- The lexemes that are values. -/
def IsScalar : Lexeme → Prop
  | null => True
  | bool _ => True
  | int _ _ => True
  | str _ _ => True
  | _ => False

end Lexeme

/-- A lexeme and the blanks before it. -/
structure Piece where
  blanks : List Nat
  lex : Lexeme

def Piece.bytes (p : Piece) : List Nat := p.blanks ++ p.lex.bytes

structure Piece.Proper (p : Piece) : Prop where
  blanks : ∀ c ∈ p.blanks, isSpace c = true
  lex : p.lex.Proper

/-- The bytes of a text. -/
def textBytes (ps : List Piece) : List Nat := ps.flatMap Piece.bytes

/-- The parts of a text. -/
inductive Part where
  | value
  | elements
  | members

/-- The grammar of JSON. -/
inductive Derives : Part → List Piece → Prop
  | scalar {p : Piece} (hp : p.Proper) (h : p.lex.IsScalar) : Derives .value [p]
  | emptyArray {l r : Piece} (hl : l.Proper) (hr : r.Proper) (hleft : l.lex = .leftbracket)
      (hright : r.lex = .rightbracket) : Derives .value [l, r]
  | array {l r : Piece} {ps : List Piece} (hl : l.Proper) (hr : r.Proper)
      (hleft : l.lex = .leftbracket) (hright : r.lex = .rightbracket)
      (h : Derives .elements ps) : Derives .value (l :: (ps ++ [r]))
  | emptyObject {l r : Piece} (hl : l.Proper) (hr : r.Proper) (hleft : l.lex = .leftbrace)
      (hright : r.lex = .rightbrace) : Derives .value [l, r]
  | object {l r : Piece} {ps : List Piece} (hl : l.Proper) (hr : r.Proper)
      (hleft : l.lex = .leftbrace) (hright : r.lex = .rightbrace)
      (h : Derives .members ps) : Derives .value (l :: (ps ++ [r]))
  | element {ps : List Piece} (h : Derives .value ps) : Derives .elements ps
  | elements {c : Piece} {ps qs : List Piece} (hc : c.Proper) (hcomma : c.lex = .comma)
      (h : Derives .value ps) (h' : Derives .elements qs) : Derives .elements (ps ++ c :: qs)
  | member {l : Piece} {qt : Nat} {cs blanks : List Nat} {ps : List Piece} (hl : l.Proper)
      (hlabel : l.lex = .label qt cs blanks) (h : Derives .value ps) : Derives .members (l :: ps)
  | members {l c : Piece} {qt : Nat} {cs blanks : List Nat} {ps qs : List Piece} (hl : l.Proper)
      (hc : c.Proper) (hlabel : l.lex = .label qt cs blanks) (hcomma : c.lex = .comma)
      (h : Derives .value ps) (h' : Derives .members qs) :
      Derives .members (l :: ps ++ c :: qs)

/-- The pieces between the braces of an object. -/
def IsBody (ps : List Piece) : Prop := ps = [] ∨ Derives .members ps

/-! ## Items -/

/-- What a text says. A string is given by its place and its length. -/
inductive Item where
  | null
  | bool (b : Bool)
  | int (v : Int)
  | str (offs len : Nat)
  | label (id : Nat)
  | object
  | array
  | endObject
  | endArray

/-- The item of a lexeme at an offset. -/
def Lexeme.item (lbl : List (List Nat)) (off : Nat) : Lexeme → List Item
  | .null => [.null]
  | .bool b => [.bool b]
  | .int neg ds => [.int (intValue neg ds)]
  | .str _ cs => [.str (off + 1) cs.length]
  | .label _ cs _ => [.label (labelIdx lbl cs)]
  | .leftbrace => [.object]
  | .rightbrace => [.endObject]
  | .leftbracket => [.array]
  | .rightbracket => [.endArray]
  | .comma => []

/-- The items of a text at an offset. -/
def items (lbl : List (List Nat)) : Nat → List Piece → List Item
  | _, [] => []
  | off, p :: ps =>
      p.lex.item lbl (off + p.blanks.length) ++ items lbl (off + p.bytes.length) ps

/-- The tokens of an item. -/
def Item.toks (lim : Limits) : Item → List Nat
  | .null => [tokNull]
  | .bool b => [if b then tokTrue else tokFalse]
  | .int v => intBytes (BitVec.ofInt 32 v)
  | .str offs len => strToks lim offs len
  | .label id => [(lim.tokLabel + id) % 256]
  | .object => [tokLeftbrace]
  | .array => [tokLeftbracket]
  | .endObject => [tokRightbrace]
  | .endArray => [tokRightbracket]

/-- The tokens of a text. -/
def textToks (lim : Limits) (lbl : List (List Nat)) (off : Nat) (ps : List Piece) : List Nat :=
  (items lbl off ps).flatMap (Item.toks lim)

theorem textBytes_append (ps qs : List Piece) :
    textBytes (ps ++ qs) = textBytes ps ++ textBytes qs :=
  List.flatMap_append

theorem textBytes_cons (p : Piece) (ps : List Piece) :
    textBytes (p :: ps) = p.bytes ++ textBytes ps :=
  List.flatMap_cons

theorem items_append (lbl : List (List Nat)) (ps qs : List Piece) : ∀ off : Nat,
    items lbl off (ps ++ qs) = items lbl off ps ++ items lbl (off + (textBytes ps).length) qs := by
  induction ps with
  | nil => exact fun off => rfl
  | cons p ps ih =>
      intro off
      rw [List.cons_append, items, items, ih, textBytes_cons, List.length_append,
        List.append_assoc, Nat.add_assoc]

@[simp] theorem textToks_nil (lim : Limits) (lbl : List (List Nat)) (off : Nat) :
    textToks lim lbl off [] = [] :=
  rfl

theorem textToks_append (lim : Limits) (lbl : List (List Nat)) (off : Nat) (ps qs : List Piece) :
    textToks lim lbl off (ps ++ qs) =
      textToks lim lbl off ps ++ textToks lim lbl (off + (textBytes ps).length) qs := by
  unfold textToks
  rw [items_append, List.flatMap_append]

theorem textToks_cons (lim : Limits) (lbl : List (List Nat)) (off : Nat) (p : Piece)
    (ps : List Piece) : textToks lim lbl off (p :: ps) =
      (p.lex.item lbl (off + p.blanks.length)).flatMap (Item.toks lim) ++
        textToks lim lbl (off + p.bytes.length) ps := by
  unfold textToks
  rw [items, List.flatMap_append]

/-! ## The value of digits -/

theorem decimalStep_ofNat (n c : Nat) (hc : 48 ≤ c) :
    decimalStep (BitVec.ofNat 32 n) c = BitVec.ofNat 32 (10 * n + (c - 48)) := by
  unfold decimalStep
  apply BitVec.eq_of_toNat_eq
  simp only [BitVec.toNat_add, BitVec.toNat_sub, BitVec.toNat_shiftLeft, BitVec.toNat_ofNat,
    Nat.shiftLeft_eq]
  have h48 : BitVec.toNat (48 : BitVec 32) = 48 := rfl
  rw [h48]
  lia

theorem decimal_eq_ofNat {ds : List Nat} (hds : ∀ c ∈ ds, isDigit c = true) :
    decimal ds = BitVec.ofNat 32 (Lexeme.natValue ds) := by
  have hfold : ∀ n, ds.foldl decimalStep (BitVec.ofNat 32 n) =
      BitVec.ofNat 32 (ds.foldl (fun n c => 10 * n + (c - 48)) n) := by
    induction ds with
    | nil => exact fun n => rfl
    | cons c ds ih =>
        intro n
        have hc : 48 ≤ c := by
          have hdigit := hds c List.mem_cons_self
          simp only [isDigit, Bool.and_eq_true, decide_eq_true_eq] at hdigit
          exact hdigit.1
        rw [List.foldl_cons, List.foldl_cons, decimalStep_ofNat n c hc]
        exact ih (fun d hd => hds d (List.mem_cons_of_mem _ hd)) _
  exact hfold 0

/-- The scanner computes the value of a number modulo `2 ^ 32`. -/
theorem decimal_eq (neg : Bool) {ds : List Nat} (hds : ∀ c ∈ ds, isDigit c = true) :
    (if neg then -decimal ds else decimal ds) = BitVec.ofInt 32 (Lexeme.intValue neg ds) := by
  rw [decimal_eq_ofNat hds]
  cases neg with
  | false => exact (BitVec.ofInt_natCast 32 _).symm
  | true =>
      have hneg : BitVec.ofInt 32 (-(Lexeme.natValue ds : Int)) =
          -BitVec.ofInt 32 (Lexeme.natValue ds) := BitVec.ofInt_neg
      rw [Lexeme.intValue, if_pos rfl, if_pos rfl, hneg, BitVec.ofInt_natCast]

/-! ## The tokens of a text -/

section Run

variable {lim : Limits} {lbl : List (List Nat)} {txt toks stack : List Nat} {s r : Scan}

theorem Scan.Holds.open (hs : s.Holds toks stack) (hne : stack ≠ []) : s.sp < s.buf.length := by
  obtain ⟨mid, hbuf, -, hsp⟩ := hs.split
  have hpos : 0 < stack.length := List.length_pos_of_ne_nil hne
  rw [hsp, hbuf, List.length_append, List.length_append]
  lia

/-- The offset that the tokens of a string give. -/
theorem offset_eq {offs : Nat} (h : offs < 65536) :
    offs % 256 ||| (offs >>> 8 % 256) <<< 8 = offs := by
  have hlt : offs % 256 < 2 ^ 8 := by lia
  have hor := Nat.shiftLeft_add_eq_or_of_lt hlt (offs >>> 8 % 256)
  rw [Nat.or_comm, ← hor, Nat.shiftLeft_eq, Nat.shiftRight_eq_div_pow]
  lia

/-- A colon behind the tokens of a string. -/
theorem Runs.colon (h : Runs lim lbl txt txt s r) {offs : Nat} {cs rest : List Nat}
    (hs : s.Holds (toks ++ strToks lim offs cs.length) stack) (hoffs : offs < 65536)
    (hlen : cs.length ≤ lim.stringMax) (htok : s.tok = lim.tokString)
    (hname : (txt.drop offs).take cs.length = cs) (hat : txt.drop s.i = 58 :: rest) :
    ∃ s', Runs lim lbl txt txt s' r ∧
      s'.Holds (toks ++ [(lim.tokLabel + labelIdx lbl cs) % 256]) stack ∧ s'.i = s.i + 1 := by
  have hstep := scanStep_at lim lbl txt hat
  rw [if_neg (by decide), if_neg (by decide), if_neg (by decide), if_neg (by decide),
    if_pos rfl] at hstep
  unfold scanColon at hstep
  rw [if_pos htok] at hstep
  obtain ⟨mid, hbuf, hcnt, hsp⟩ := hs.split
  have hsmall := hs.small
  have hstr : strToks lim offs cs.length =
      [(lim.tokString + cs.length) % 256, offs % 256, offs >>> 8 % 256] := rfl
  have hfirst : (lim.tokString + cs.length) % 256 - lim.tokString = cs.length := by
    have hfits := lim.fits
    unfold Limits.tokString
    lia
  rw [hstr] at hbuf hcnt hsp
  rw [List.length_append] at hcnt hsp
  have hcnt₃ : s.cnt = toks.length + 3 := hcnt
  have hget : ∀ k, k < 3 → s.buf[toks.length + k]? =
      ([(lim.tokString + cs.length) % 256, offs % 256, offs >>> 8 % 256] : List Nat)[k]? := by
    intro k hk
    rw [hbuf, List.append_assoc, List.append_assoc, List.getElem?_append_right (by lia),
      Nat.add_sub_cancel_left, List.getElem?_append_left (by exact hk)]
  have h₀ : s.buf[s.cnt - 3]? = some ((lim.tokString + cs.length) % 256) := by
    rw [show s.cnt - 3 = toks.length + 0 by lia, hget 0 (by lia)]
    rfl
  have h₁ : s.buf[s.cnt - 2]? = some (offs % 256) := by
    rw [show s.cnt - 2 = toks.length + 1 by lia, hget 1 (by lia)]
    rfl
  have h₂ : s.buf[s.cnt - 1]? = some (offs >>> 8 % 256) := by
    rw [show s.cnt - 1 = toks.length + 2 by lia, hget 2 (by lia)]
    rfl
  rw [h₀, Option.bind_some, h₁, Option.bind_some, h₂, Option.bind_some] at hstep
  dsimp only at hstep
  rw [hfirst, offset_eq hoffs, hname] at hstep
  have hlt : s.cnt - 3 < s.buf.length := by
    rw [hbuf, List.length_append, List.length_append, List.length_append]
    lia
  have hset : s.buf.set (s.cnt - 3) ((lim.tokLabel + labelIdx lbl cs) % 256) =
      toks ++ [(lim.tokLabel + labelIdx lbl cs) % 256] ++
        ([offs % 256, offs >>> 8 % 256] ++ mid) ++ stack := by
    rw [hbuf, show s.cnt - 3 = toks.length by lia, List.append_assoc, List.append_assoc,
      List.set_append_right _ _ (le_refl _), Nat.sub_self, List.append_assoc, List.append_assoc,
      List.append_assoc]
    rfl
  rw [poke, if_pos hlt, Option.map_some, hset] at hstep
  refine ⟨_, h.cont hstep, ⟨⟨_, rfl, ?_, ?_⟩, ?_⟩, rfl⟩
  · show s.cnt - 2 = _
    rw [List.length_append, List.length_singleton]
    lia
  · show s.sp = _
    rw [hsp, List.length_append, List.length_append]
    show toks.length + 3 + mid.length = toks.length + 1 + (2 + mid.length)
    lia
  · show (_ : List Nat).length < 65536
    rw [← hset, List.length_set]
    exact hsmall

/-- A label: the string is written and then taken back. -/
theorem Runs.label (h : Runs lim lbl txt txt s r) (hopen : stack ≠ []) (hs : s.Holds toks stack)
    (hend : r.i < 65536) {qt : Nat} (hqt : qt = 39 ∨ qt = 34) {cs blanks rest : List Nat}
    (hcs : qt ∉ cs) (hblanks : ∀ c ∈ blanks, isSpace c = true)
    (hat : txt.drop s.i = (Lexeme.label qt cs blanks).bytes ++ rest) :
    ∃ s', Runs lim lbl txt txt s' r ∧
      s'.Holds (toks ++ [(lim.tokLabel + labelIdx lbl cs) % 256]) stack ∧
      s'.i = s.i + (Lexeme.label qt cs blanks).bytes.length := by
  have hat₁ : txt.drop s.i = qt :: (cs ++ qt :: (blanks ++ 58 :: rest)) := by
    rw [hat, Lexeme.bytes, List.append_assoc, List.append_assoc, List.cons_append,
      List.append_assoc, List.singleton_append]
    rfl
  obtain ⟨s₁, hrun₁, hs₁, hi₁, htok₁, hlen⟩ := h.string hs hqt hcs hat₁
  have hname : txt.drop (s.i + 1) = cs ++ qt :: (blanks ++ 58 :: rest) :=
    drop_length_append [qt] hat₁
  have hdrop₁ : txt.drop s₁.i = blanks ++ 58 :: rest := by
    have hsplit : txt.drop s.i = (qt :: (cs ++ [qt])) ++ (blanks ++ 58 :: rest) := by
      rw [hat₁, List.cons_append, List.append_assoc, List.singleton_append]
    have hlen₁ : (qt :: (cs ++ [qt])).length = cs.length + 2 := by
      rw [List.length_cons, List.length_append, List.length_singleton]
    rw [hi₁, ← hlen₁]
    exact drop_length_append _ hsplit
  have hrun₂ := hrun₁.blanks hblanks hdrop₁
  have hs₂ : Scan.Holds { s₁ with i := s₁.i + blanks.length }
      (toks ++ strToks lim (s.i + 1) cs.length) stack := ⟨hs₁.split, hs₁.small⟩
  have hwithin := (hrun₁.within (hs₁.open hopen)).1
  obtain ⟨s', hrun', hs', hi'⟩ := hrun₂.colon hs₂ (by lia) hlen htok₁
    (by rw [hname, List.take_left]) (drop_length_append blanks hdrop₁)
  refine ⟨s', hrun', hs', ?_⟩
  rw [hi', Lexeme.bytes, List.length_append, List.length_append, List.length_cons,
    List.length_append, List.length_singleton, List.length_singleton]
  show s₁.i + blanks.length + 1 = _
  lia

/-- The text that is left behind a piece, and the state behind its blanks. -/
theorem Runs.behindBlanks (h : Runs lim lbl txt txt s r) (hs : s.Holds toks stack) {p : Piece}
    (hp : p.Proper) {rest : List Nat} (hat : txt.drop s.i = p.bytes ++ rest) :
    ∃ s', Runs lim lbl txt txt s' r ∧ s'.Holds toks stack ∧ s'.i = s.i + p.blanks.length ∧
      txt.drop s'.i = p.lex.bytes ++ rest := by
  rw [Piece.bytes, List.append_assoc] at hat
  exact ⟨_, h.blanks hp.blanks hat, ⟨hs.split, hs.small⟩, rfl, drop_length_append _ hat⟩

/-- A lexeme that is no bracket. -/
def Lexeme.IsFlat : Lexeme → Prop
  | .leftbrace => False
  | .rightbrace => False
  | .leftbracket => False
  | .rightbracket => False
  | _ => True

theorem Runs.lexeme (h : Runs lim lbl txt txt s r) (hopen : stack ≠ []) (hs : s.Holds toks stack)
    (hend : r.i < 65536) {l : Lexeme} (hl : l.Proper) (hflat : l.IsFlat) {rest : List Nat}
    (hat : txt.drop s.i = l.bytes ++ rest) (hrest : l.IsScalar → Ends rest) :
    ∃ s', Runs lim lbl txt txt s' r ∧
      s'.Holds (toks ++ (l.item lbl s.i).flatMap (Item.toks lim)) stack ∧
      s'.i = s.i + l.bytes.length := by
  cases l with
  | null => exact h.keyword hs (Or.inr (Or.inr ⟨rfl, rfl⟩)) hat (hrest trivial)
  | bool b =>
      cases b with
      | true => exact h.keyword hs (Or.inl ⟨rfl, rfl⟩) hat (hrest trivial)
      | false => exact h.keyword hs (Or.inr (Or.inl ⟨rfl, rfl⟩)) hat (hrest trivial)
  | int neg ds =>
      obtain ⟨hne, hds, -⟩ := hl
      obtain ⟨s', hrun, hs', hi⟩ := h.number hs hne hds (hrest trivial) hat
      rw [decimal_eq neg hds] at hs'
      refine ⟨s', hrun, ?_, hi⟩
      rw [Lexeme.item, List.flatMap_singleton]
      exact hs'
  | str qt cs =>
      obtain ⟨hqt, hcs⟩ := hl
      have hat' : txt.drop s.i = qt :: (cs ++ qt :: rest) := by
        rw [hat, Lexeme.bytes, List.cons_append, List.append_assoc, List.singleton_append]
      obtain ⟨s', hrun, hs', hi, -⟩ := h.string hs hqt hcs hat'
      refine ⟨s', hrun, ?_, ?_⟩
      · rw [Lexeme.item, List.flatMap_singleton]
        exact hs'
      · rw [hi, Lexeme.bytes, List.length_cons, List.length_append, List.length_singleton]
  | label qt cs blanks =>
      obtain ⟨hqt, hcs, hblanks⟩ := hl
      exact h.label hopen hs hend hqt hcs hblanks hat
  | comma =>
      refine ⟨_, h.comma hat, ?_, rfl⟩
      rw [Lexeme.item, List.flatMap_nil, List.append_nil]
      exact ⟨hs.split, hs.small⟩
  | leftbrace => exact hflat.elim
  | rightbrace => exact hflat.elim
  | leftbracket => exact hflat.elim
  | rightbracket => exact hflat.elim

theorem Runs.piece (h : Runs lim lbl txt txt s r) (hopen : stack ≠ []) (hs : s.Holds toks stack)
    (hend : r.i < 65536) {p : Piece} (hp : p.Proper) (hflat : p.lex.IsFlat) {rest : List Nat}
    (hat : txt.drop s.i = p.bytes ++ rest) (hrest : p.lex.IsScalar → Ends rest) :
    ∃ s', Runs lim lbl txt txt s' r ∧
      s'.Holds (toks ++ (p.lex.item lbl (s.i + p.blanks.length)).flatMap (Item.toks lim)) stack ∧
      s'.i = s.i + p.bytes.length := by
  obtain ⟨s₁, hrun₁, hs₁, hi₁, hat₁⟩ := h.behindBlanks hs hp hat
  obtain ⟨s', hrun', hs', hi'⟩ := hrun₁.lexeme hopen hs₁ hend hp.lex hflat hat₁ hrest
  rw [hi₁] at hs' hi'
  refine ⟨s', hrun', hs', ?_⟩
  rw [hi', Piece.bytes, List.length_append, Nat.add_assoc]

/-- The brackets, with the codes of their tokens. -/
inductive Brackets : Lexeme → Lexeme → Nat → Nat → Prop
  | brace : Brackets .leftbrace .rightbrace tokLeftbrace tokRightbrace
  | bracket : Brackets .leftbracket .rightbracket tokLeftbracket tokRightbracket

theorem Runs.openPiece (h : Runs lim lbl txt txt s r) {k tok close : Nat} {left right : Lexeme}
    (hb : Brackets left right tok close) (hs : s.Holds toks (k :: stack)) (hne : toks ≠ [])
    {p : Piece} (hp : p.Proper) (hlex : p.lex = left) {rest : List Nat}
    (hat : txt.drop s.i = p.bytes ++ rest) :
    ∃ s', Runs lim lbl txt txt s' r ∧ s'.Holds
      (toks ++ (p.lex.item lbl (s.i + p.blanks.length)).flatMap (Item.toks lim))
        (close :: k :: stack) ∧ s'.i = s.i + p.bytes.length := by
  obtain ⟨s₁, hrun₁, hs₁, hi₁, hat₁⟩ := h.behindBlanks hs hp hat
  have hlen : s₁.i + p.lex.bytes.length = s.i + p.bytes.length := by
    rw [hi₁, Piece.bytes, List.length_append, Nat.add_assoc]
  rw [← hlen, hlex]
  rw [hlex] at hat₁
  cases hb with
  | brace =>
      exact hrun₁.open hs₁ hne (Or.inl rfl) rfl ((scanStep_bracket hat₁).2.1 rfl)
  | bracket =>
      exact hrun₁.open hs₁ hne (Or.inr rfl) rfl ((scanStep_bracket hat₁).1 rfl)

theorem Runs.closePiece (h : Runs lim lbl txt txt s r) {k tok close : Nat} {left right : Lexeme}
    (hb : Brackets left right tok close) (hs : s.Holds toks (close :: k :: stack))
    {p : Piece} (hp : p.Proper) (hlex : p.lex = right) {rest : List Nat}
    (hat : txt.drop s.i = p.bytes ++ rest) :
    ∃ s', Runs lim lbl txt txt s' r ∧ s'.Holds
      (toks ++ (p.lex.item lbl (s.i + p.blanks.length)).flatMap (Item.toks lim)) (k :: stack) ∧
        s'.i = s.i + p.bytes.length := by
  obtain ⟨s₁, hrun₁, hs₁, hi₁, hat₁⟩ := h.behindBlanks hs hp hat
  have hlen : s₁.i + p.lex.bytes.length = s.i + p.bytes.length := by
    rw [hi₁, Piece.bytes, List.length_append, Nat.add_assoc]
  rw [← hlen, hlex]
  rw [hlex] at hat₁
  cases hb with
  | brace => exact hrun₁.close rfl hs₁ ((scanStep_bracket hat₁).2.2.2 rfl)
  | bracket => exact hrun₁.close rfl hs₁ ((scanStep_bracket hat₁).2.2.1 rfl)

theorem ends_piece {p : Piece} (hp : p.Proper)
    (hlex : p.lex = .comma ∨ p.lex = .rightbrace ∨ p.lex = .rightbracket) (rest : List Nat) :
    Ends (p.bytes ++ rest) := by
  intro c hc
  unfold Piece.bytes at hc
  cases hblanks : p.blanks with
  | nil =>
      rw [hblanks, List.nil_append] at hc
      rcases hlex with hlex | hlex | hlex
      · rw [hlex] at hc
        obtain rfl := Option.some.inj hc
        rfl
      · rw [hlex] at hc
        obtain rfl := Option.some.inj hc
        rfl
      · rw [hlex] at hc
        obtain rfl := Option.some.inj hc
        rfl
  | cons b blanks =>
      rw [hblanks] at hc
      obtain rfl := Option.some.inj hc
      have hspace := hp.blanks b (by rw [hblanks]; exact List.mem_cons_self)
      simp only [isSpace, isWord, isAlpha, isUpper, isLower, isDigit, Bool.or_eq_true,
        Bool.and_eq_true, beq_iff_eq, decide_eq_true_eq, Bool.or_eq_false_iff,
        Bool.and_eq_false_iff, decide_eq_false_iff_not, beq_eq_false_iff_ne] at hspace ⊢
      lia

/-- The scan of a part of a text adds its tokens and leaves the stack as it is. -/
def Scans (lim : Limits) (lbl : List (List Nat)) (txt : List Nat) (r : Scan) (ps : List Piece) :
    Prop :=
  ∀ {s : Scan} {toks stack rest : List Nat}, Runs lim lbl txt txt s r → stack ≠ [] →
    s.Holds toks stack → toks ≠ [] → txt.drop s.i = textBytes ps ++ rest → Ends rest →
      ∃ s', Runs lim lbl txt txt s' r ∧ s'.Holds (toks ++ textToks lim lbl s.i ps) stack ∧
        s'.i = s.i + (textBytes ps).length

/-- What holds of a part and what follows it. -/
theorem Scans.append {ps qs : List Piece} (h : Scans lim lbl txt r ps)
    (h' : Scans lim lbl txt r qs) (hends : ∀ rest, Ends rest → Ends (textBytes qs ++ rest)) :
    Scans lim lbl txt r (ps ++ qs) := by
  intro s toks stack rest hrun hopen hs hne hat hrest
  rw [textBytes_append, List.append_assoc] at hat
  obtain ⟨s₁, hrun₁, hs₁, hi₁⟩ := h hrun hopen hs hne hat (hends rest hrest)
  have hat₁ : txt.drop s₁.i = textBytes qs ++ rest := hi₁ ▸ drop_length_append _ hat
  obtain ⟨s₂, hrun₂, hs₂, hi₂⟩ := h' hrun₁ hopen hs₁ (List.append_ne_nil_of_left_ne_nil hne _)
    hat₁ hrest
  refine ⟨s₂, hrun₂, ?_, ?_⟩
  · rw [textToks_append, ← List.append_assoc, ← hi₁]
    exact hs₂
  · rw [hi₂, hi₁, textBytes_append, List.length_append, Nat.add_assoc]

/-- A piece in front of a part. -/
theorem Scans.cons (hend : r.i < 65536) {p : Piece} {ps : List Piece} (hp : p.Proper)
    (hflat : p.lex.IsFlat) (h : Scans lim lbl txt r ps)
    (hends : p.lex.IsScalar → ∀ rest, Ends rest → Ends (textBytes ps ++ rest)) :
    Scans lim lbl txt r (p :: ps) := by
  intro s toks stack rest hrun hopen hs hne hat hrest
  rw [textBytes_cons, List.append_assoc] at hat
  obtain ⟨s₁, hrun₁, hs₁, hi₁⟩ := hrun.piece hopen hs hend hp hflat hat
    fun hscalar => hends hscalar rest hrest
  have hat₁ : txt.drop s₁.i = textBytes ps ++ rest := hi₁ ▸ drop_length_append _ hat
  obtain ⟨s₂, hrun₂, hs₂, hi₂⟩ := h hrun₁ hopen hs₁ (List.append_ne_nil_of_left_ne_nil hne _)
    hat₁ hrest
  refine ⟨s₂, hrun₂, ?_, ?_⟩
  · rw [textToks_cons, ← List.append_assoc, ← hi₁]
    exact hs₂
  · rw [hi₂, hi₁, textBytes_cons, List.length_append, Nat.add_assoc]

theorem Scans.nil : Scans lim lbl txt r [] := by
  intro s toks stack rest hrun _ hs _ _ _
  refine ⟨s, hrun, ?_, rfl⟩
  rw [textToks_nil, List.append_nil]
  exact hs

/-- A part between brackets. -/
theorem Scans.enclosed {left right : Lexeme} {tok close : Nat} (hb : Brackets left right tok close)
    {l q : Piece} {ps : List Piece} (hl : l.Proper) (hq : q.Proper) (hleft : l.lex = left)
    (hright : q.lex = right) (h : Scans lim lbl txt r ps) :
    Scans lim lbl txt r (l :: (ps ++ [q])) := by
  intro s toks stack rest hrun hopen hs hne hat hrest
  have hqends : q.lex = .comma ∨ q.lex = .rightbrace ∨ q.lex = .rightbracket := by
    cases hb with
    | brace => exact Or.inr (Or.inl hright)
    | bracket => exact Or.inr (Or.inr hright)
  have hone : textBytes [q] = q.bytes := by rw [textBytes_cons, textBytes, List.flatMap_nil,
    List.append_nil]
  have hat' : txt.drop s.i = l.bytes ++ (textBytes ps ++ (q.bytes ++ rest)) := by
    rw [hat, textBytes_cons, textBytes_append, hone, List.append_assoc, List.append_assoc]
  obtain ⟨k, stack, rfl⟩ := List.exists_cons_of_ne_nil hopen
  obtain ⟨s₁, hrun₁, hs₁, hi₁⟩ := hrun.openPiece hb hs hne hl hleft hat'
  have hat₁ : txt.drop s₁.i = textBytes ps ++ (q.bytes ++ rest) :=
    hi₁ ▸ drop_length_append _ hat'
  obtain ⟨s₂, hrun₂, hs₂, hi₂⟩ := h hrun₁ (List.cons_ne_nil _ _) hs₁
    (List.append_ne_nil_of_left_ne_nil hne _) hat₁ (ends_piece hq hqends rest)
  have hat₂ : txt.drop s₂.i = q.bytes ++ rest := hi₂ ▸ drop_length_append _ hat₁
  obtain ⟨s₃, hrun₃, hs₃, hi₃⟩ := hrun₂.closePiece hb hs₂ hq hright hat₂
  refine ⟨s₃, hrun₃, ?_, ?_⟩
  · rw [textToks_cons, textToks_append, textToks_cons, ← hi₁, ← hi₂, textToks_nil,
      List.append_nil, ← List.append_assoc, ← List.append_assoc]
    exact hs₃
  · rw [hi₃, hi₂, hi₁, textBytes_cons, textBytes_append, hone, List.length_append,
      List.length_append, Nat.add_assoc, Nat.add_assoc]

theorem Lexeme.IsScalar.flat {l : Lexeme} (h : l.IsScalar) : l.IsFlat := by
  cases l with
  | leftbrace => exact h
  | rightbrace => exact h
  | leftbracket => exact h
  | rightbracket => exact h
  | _ => trivial

/-- A comma before the next element or member. -/
theorem Scans.comma (hend : r.i < 65536) {c : Piece} {ps qs : List Piece} (hc : c.Proper)
    (hcomma : c.lex = .comma) (h : Scans lim lbl txt r ps) (h' : Scans lim lbl txt r qs) :
    Scans lim lbl txt r (ps ++ c :: qs) := by
  refine h.append (Scans.cons hend hc (hcomma ▸ trivial) h' fun hscalar => ?_) fun rest _ => ?_
  · rw [hcomma] at hscalar
    exact hscalar.elim
  · rw [textBytes_cons, List.append_assoc]
    exact ends_piece hc (Or.inl hcomma) _

theorem Scans.labelled (hend : r.i < 65536) {l : Piece} {qt : Nat} {cs blanks : List Nat}
    {ps : List Piece} (hl : l.Proper) (hlabel : l.lex = .label qt cs blanks)
    (h : Scans lim lbl txt r ps) : Scans lim lbl txt r (l :: ps) := by
  refine Scans.cons hend hl (hlabel ▸ trivial) h fun hscalar => ?_
  rw [hlabel] at hscalar
  exact hscalar.elim

theorem Derives.scans (hend : r.i < 65536) {part : Part} {ps : List Piece} (h : Derives part ps) :
    Scans lim lbl txt r ps := by
  induction h with
  | scalar hp hscalar =>
      exact Scans.cons hend hp hscalar.flat Scans.nil fun _ rest hrest => hrest
  | emptyArray hl hr hleft hright => exact Scans.enclosed .bracket hl hr hleft hright Scans.nil
  | array hl hr hleft hright h ih => exact Scans.enclosed .bracket hl hr hleft hright ih
  | emptyObject hl hr hleft hright => exact Scans.enclosed .brace hl hr hleft hright Scans.nil
  | object hl hr hleft hright h ih => exact Scans.enclosed .brace hl hr hleft hright ih
  | element h ih => exact ih
  | elements hc hcomma h h' ih ih' => exact Scans.comma hend hc hcomma ih ih'
  | member hl hlabel h ih => exact Scans.labelled hend hl hlabel ih
  | members hl hc hlabel hcomma h h' ih ih' =>
      exact Scans.comma hend hc hcomma (Scans.labelled hend hl hlabel ih) ih'

theorem IsBody.scans (hend : r.i < 65536) {ps : List Piece} (h : IsBody ps) :
    Scans lim lbl txt r ps := by
  rcases h with rfl | h
  · exact Scans.nil
  · exact h.scans hend

end Run

/-! ## Whole texts -/

/-- An object text: blanks and a brace, the body, the closing brace, and blanks. -/
structure ObjectText where
  left : Piece
  body : List Piece
  right : Piece
  trailing : List Nat

def ObjectText.bytes (t : ObjectText) : List Nat :=
  textBytes (t.left :: (t.body ++ [t.right])) ++ t.trailing

/-- The text is well formed, and its strings are not too long. -/
structure ObjectText.WellFormed (lim : Limits) (t : ObjectText) : Prop where
  left : t.left.Proper
  leftbrace : t.left.lex = .leftbrace
  body : IsBody t.body
  right : t.right.Proper
  rightbrace : t.right.lex = .rightbrace
  trailing : ∀ c ∈ t.trailing, isSpace c = true
  strings : ∀ p ∈ t.body, ∀ qt cs, p.lex = .str qt cs → cs.length ≤ lim.stringMax

/-- What the text says, the opening brace apart. -/
def ObjectText.items (lbl : List (List Nat)) (t : ObjectText) : List Item :=
  Json.items lbl t.left.bytes.length (t.body ++ [t.right])

section Whole

variable {lim : Limits} {lbl : List (List Nat)} {t : ObjectText}

theorem openLoop_blanks {blanks : List Nat} (hblanks : ∀ c ∈ blanks, isSpace c = true) {c : Nat}
    (hc : isSpace c = false) (rest : List Nat) :
    ∀ i, openLoop (blanks ++ c :: rest) i = some (c, i + blanks.length) := by
  induction blanks with
  | nil =>
      intro i
      rw [List.nil_append, openLoop, if_neg (by rw [hc]; exact Bool.false_ne_true)]
      rfl
  | cons b blanks ih =>
      intro i
      rw [List.cons_append, openLoop, if_pos (hblanks b List.mem_cons_self),
        ih (fun d hd => hblanks d (List.mem_cons_of_mem _ hd)), List.length_cons]
      congr 2
      lia

theorem ObjectText.bytes_eq (ht : t.WellFormed lim) :
    t.bytes = t.left.blanks ++ 123 :: (textBytes (t.body ++ [t.right]) ++ t.trailing) := by
  rw [ObjectText.bytes, textBytes_cons, Piece.bytes, ht.leftbrace, Lexeme.bytes,
    List.append_assoc, List.append_assoc, List.singleton_append]

theorem left_length (ht : t.WellFormed lim) :
    t.left.bytes.length = t.left.blanks.length + 1 := by
  rw [Piece.bytes, ht.leftbrace, List.length_append]
  rfl

/-- The buffer behind `microjs_json_open`. -/
def openBuffer (size : Nat) : List Nat := ((List.replicate size 0).set 0 3).set (size - 1) 5

theorem openBuffer_length (size : Nat) : (openBuffer size).length = size := by
  rw [openBuffer, List.length_set, List.length_set, List.length_replicate]

/-- What `microjs_json_open` leaves when it gives no error. -/
theorem open_eq {size : Nat} (ht : t.WellFormed lim) {jsn : Parser}
    (hopen : microjsJsonOpen (microjsJsonInit size lbl) t.bytes = some (ok, jsn)) :
    0 < size % 65536 ∧ jsn = ⟨0, 1, size % 65536 - 1, openBuffer (size % 65536), 0,
      t.left.bytes.length % 65536, t.bytes.length % 65536, t.bytes, lbl⟩ := by
  have hsize : size % 65536 < 65536 := Nat.mod_lt _ (by decide)
  have hloop : openLoop t.bytes 0 = some (123, t.left.blanks.length) := by
    rw [ObjectText.bytes_eq ht, openLoop_blanks ht.left.blanks (by decide), Nat.zero_add]
  unfold microjsJsonOpen microjsJsonInit at hopen
  generalize size % 65536 = top at hsize hopen ⊢
  rw [hloop] at hopen
  dsimp only at hopen
  rw [if_neg (by decide)] at hopen
  obtain ⟨tok, hpoke, hopen⟩ := Option.bind_eq_some_iff.mp hopen
  have hpos := (poke_some hpoke).1
  rw [List.length_replicate] at hpos
  rw [poke, if_pos (by rw [List.length_replicate]; exact hpos)] at hpoke
  obtain rfl := Option.some.inj hpoke
  have hsp : (top + 65535) % 65536 = top - 1 := by lia
  rw [hsp, poke, if_pos (by rw [List.length_set, List.length_replicate]; lia),
    Option.map_some] at hopen
  obtain ⟨-, rfl⟩ := Prod.mk.inj (Option.some.inj hopen)
  refine ⟨hpos, ?_⟩
  rw [left_length ht]
  rfl

theorem openBuffer_eq {size : Nat} (hsize : 1 < size) :
    openBuffer size = [tokLeftbrace] ++ List.replicate (size - 2) 0 ++ [tokRightbrace] := by
  obtain ⟨n, rfl⟩ := Nat.exists_eq_add_of_le' hsize
  rw [openBuffer, List.replicate_succ', List.replicate_succ, List.cons_append, List.set_cons_zero]
  show ((3 :: (List.replicate n 0 ++ [0])).set (n + 1) 5) = _
  rw [List.set_cons_succ, List.set_append_right _ _ (by rw [List.length_replicate]),
    List.length_replicate, Nat.sub_self]
  rfl

/-- The state at the start of a scan. -/
def startScan (t : ObjectText) (size : Nat) : Scan :=
  ⟨tokNull, 1, size - 1, t.left.bytes.length % 65536, openBuffer size⟩

theorem startScan_holds {size : Nat} (hone : 1 < size) (hsize : size < 65536) :
    (startScan t size).Holds [tokLeftbrace] [tokRightbrace] where
  split := ⟨_, openBuffer_eq hone, rfl, by
    rw [List.length_replicate]
    show size - 1 = 1 + (size - 2)
    lia⟩
  small := (openBuffer_length size).trans_lt hsize

/-- The bytes that the parser sees. -/
def ObjectText.seen (t : ObjectText) : List Nat := t.bytes.take (t.bytes.length % 65536)

theorem seen_length : t.seen.length = t.bytes.length % 65536 := by
  rw [ObjectText.seen, List.length_take]
  exact Nat.min_eq_left (Nat.mod_le _ _)

/-- A run does not end well when the place behind the brace has more than 16 bits: it sees only
blanks. -/
theorem left_small (ht : t.WellFormed lim) {s r : Scan} (hs : s.sp < s.buf.length)
    (hrun : Runs lim lbl t.bytes t.seen s r) : t.left.bytes.length < 65536 := by
  by_contra hlarge
  have hlen := left_length ht
  have hmod := Nat.mod_lt t.bytes.length (by decide : 65536 > 0)
  have hseen : ∀ c ∈ t.seen.drop s.i, isSpace c = true := by
    intro c hc
    refine ht.left.blanks c ?_
    have hc₁ := List.mem_of_mem_drop hc
    rw [ObjectText.seen, ObjectText.bytes_eq ht, List.take_append_of_le_length
      (by rw [← ObjectText.bytes_eq ht]; lia)] at hc₁
    exact List.mem_of_mem_take hc₁
  have hrun' := hrun.blanks hseen (List.append_nil _).symm
  have hend : t.seen.drop (s.i + (t.seen.drop s.i).length) = [] := by
    rw [← List.drop_drop, List.drop_length]
  have hstop : scanStep lim lbl t.bytes t.seen { s with i := s.i + (t.seen.drop s.i).length } =
      some (.stop bracketMismatch { s with i := s.i + (t.seen.drop s.i).length }) := by
    unfold scanStep
    dsimp only
    rw [hend]
    exact congrArg (fun err => some (Next.stop err _)) (if_pos hs.ne)
  exact absurd (hrun'.stop hstop).1 (by decide)

/-- A run that ends well leaves the tokens of the text, and does not leave 16 bits. -/
theorem run_holds {size : Nat} (hsize : size < 65536) (hpos : 0 < size) (ht : t.WellFormed lim)
    {r : Scan} (hrun : Runs lim lbl t.bytes t.seen (startScan t size) r) :
    r.Holds (tokLeftbrace ::
        (textToks lim lbl t.left.bytes.length (t.body ++ [t.right]) ++ [tokStop])) [] ∧
      t.left.bytes.length + (textBytes (t.body ++ [t.right])).length < 65536 := by
  have hbuf := openBuffer_length size
  have hone : 1 < size := by
    by_contra hnot
    -- the brace fills the buffer
    have htok : tokNull ≤ tokInt32 := by decide
    refine absurd hrun (Full.not_runs ⟨?_, ?_, ne_tokString lim htok⟩)
    · show 1 = (openBuffer size).length
      lia
    · show size - 1 < (openBuffer size).length
      lia
  have hs := startScan_holds (t := t) hone hsize
  have hopen := hs.open (List.cons_ne_nil _ _)
  have hleft := left_small ht hopen hrun
  have hstart : (startScan t size).i = t.left.bytes.length := Nat.mod_eq_of_lt hleft
  have hend : r.i < 65536 := by
    have hwithin := (hrun.within hopen).2
    have hmod := Nat.mod_lt t.bytes.length (by decide : 65536 > 0)
    rw [seen_length] at hwithin
    lia
  have hfull : Runs lim lbl t.bytes t.bytes (startScan t size) r := by
    have hmore := hrun.more hopen (t.bytes.drop (t.bytes.length % 65536))
    rw [ObjectText.seen, List.take_append_drop] at hmore
    exact hmore
  have hone : textBytes [t.right] = t.right.bytes := by
    rw [textBytes_cons, textBytes, List.flatMap_nil, List.append_nil]
  have hat : t.bytes.drop (startScan t size).i =
      textBytes t.body ++ (t.right.bytes ++ t.trailing) := by
    rw [hstart, ObjectText.bytes, textBytes_cons, List.append_assoc, List.drop_left,
      textBytes_append, List.append_assoc, hone]
  obtain ⟨s₁, hrun₁, hs₁, hi₁⟩ := ht.body.scans hend hfull (List.cons_ne_nil _ _) hs
    (List.cons_ne_nil _ _) hat (ends_piece ht.right (Or.inr (Or.inl ht.rightbrace)) _)
  have hat₁ : t.bytes.drop s₁.i = t.right.bytes ++ t.trailing := hi₁ ▸ drop_length_append _ hat
  obtain ⟨s₂, hrun₂, hs₂, hi₂, hat₂⟩ := hrun₁.behindBlanks hs₁ ht.right hat₁
  rw [ht.rightbrace] at hat₂
  obtain ⟨hr, hri⟩ := hrun₂.closeLast rfl hs₂ ((scanStep_bracket hat₂).2.2.2 rfl)
  rw [hstart] at hi₁ hr
  have hright : t.right.bytes.length = t.right.blanks.length + 1 := by
    rw [Piece.bytes, ht.rightbrace, List.length_append]
    rfl
  refine ⟨?_, ?_⟩
  · rw [textToks_append, textToks_cons, ht.rightbrace, textToks_nil, List.append_nil,
      List.append_assoc]
    exact hr
  · rw [textBytes_append, hone, List.length_append]
    lia

end Whole

/-! ## Reading the items -/

/-- What the reader has to give for an item. -/
def Item.out (lbl : List (List Nat)) : Item → Nat × Val
  | .null => (typNull, .none)
  | .bool b => (typBoolean, .logic b)
  | .int v => (typInteger, .u32 (BitVec.ofInt 32 v))
  | .str offs len => (typString, .str offs len)
  | .label id => (typLabel, .lbl lbl[id]? id)
  | .object => (typObject, .none)
  | .array => (typArray, .none)
  | .endObject => (typEndObject, .none)
  | .endArray => (typEndArray, .none)

/-- An item that the tokens can say: an integer of 16 bits, a label of the first ones. -/
def Item.Fits (lim : Limits) : Item → Prop
  | .int v => 0 ≤ v ∧ v < 65536
  | .label id => id < lim.labelMax
  | _ => True

/-- An item of a text that was scanned. -/
def Item.Proper (lim : Limits) (lbl : List (List Nat)) : Item → Prop
  | .int v => -2 ^ 31 ≤ v ∧ v < 2 ^ 31
  | .str offs len => offs < 65536 ∧ len ≤ lim.stringMax
  | .label id => id ≤ lbl.length
  | _ => True

section Reading

variable {lim : Limits} {lbl : List (List Nat)} {jsn : Parser} {rest : List Nat}

theorem at_drop (xs : List Nat) (k : Nat) {tok : List Nat} {idx : Nat}
    (hat : tok.drop idx = xs ++ rest) (hk : k < xs.length) : tok[idx + k]? = xs[k]? := by
  rw [← List.getElem?_drop, hat, List.getElem?_append_left hk]

theorem tokLabel_bounds (lim : Limits) :
    tokInt32 ≤ lim.tokLabel ∧ lim.tokLabel + lim.labelMax = lim.tokString ∧
      lim.tokString + lim.stringMax = 255 := by
  have hpos := lim.pos
  have hfits := lim.fits
  unfold Limits.tokLabel Limits.tokString tokInt32
  lia

/-- A token that is the whole item. -/
theorem getVal_plain {t : Nat} (hat : jsn.tok.drop jsn.idx = t :: rest) (ht : t < tokInt8) :
    microjsJsonGetVal lim jsn = some
      (if t ≥ tokTrue then (typBoolean, .logic true)
        else if t ≥ tokFalse then (typBoolean, .logic false) else (t, .none),
        { jsn with idx := (jsn.idx + 1) % 65536 }) := by
  have hget : jsn.tok[jsn.idx]? = some t := at_drop [t] 0 hat (Nat.succ_pos 0)
  obtain ⟨hlabel, hstring, -⟩ := tokLabel_bounds lim
  unfold tokInt32 at hlabel
  unfold tokInt8 at ht
  unfold microjsJsonGetVal
  rw [hget, Option.bind_some]
  dsimp only
  rw [if_neg (by lia), if_neg (by lia), if_neg (by unfold tokInt8; lia)]
  split_ifs
  · rfl
  · rfl
  · rfl

theorem getVal_string {offs len : Nat} (hoffs : offs < 65536) (hlen : len ≤ lim.stringMax)
    (hat : jsn.tok.drop jsn.idx = strToks lim offs len ++ rest) :
    microjsJsonGetVal lim jsn =
      some ((typString, .str offs len), { jsn with idx := (jsn.idx + 3) % 65536 }) := by
  obtain ⟨-, -, hmax⟩ := tokLabel_bounds lim
  have hmod : (lim.tokString + len) % 256 = lim.tokString + len := Nat.mod_eq_of_lt (by lia)
  have h₀ : jsn.tok[jsn.idx]? = some (lim.tokString + len) :=
    (at_drop (strToks lim offs len) 0 hat (Nat.succ_pos _)).trans (congrArg some hmod)
  have h₁ : jsn.tok[jsn.idx + 1]? = some (offs % 256) :=
    at_drop (strToks lim offs len) 1 hat (by show 1 < 3; lia)
  have h₂ : jsn.tok[jsn.idx + 1 + 1]? = some (offs >>> 8 % 256) :=
    at_drop (strToks lim offs len) 2 hat (by show 2 < 3; lia)
  unfold microjsJsonGetVal
  rw [h₀, Option.bind_some]
  dsimp only
  rw [if_pos (Nat.le_add_right _ _), h₁, h₂, Option.bind_some, Option.map_some, offset_eq hoffs,
    Nat.add_sub_cancel_left]

/-- The token of a label, as the reader takes it. -/
theorem getVal_label {t : Nat} (hat : jsn.tok.drop jsn.idx = t :: rest)
    (hlow : lim.tokLabel ≤ t) (hhigh : t < lim.tokString) :
    microjsJsonGetVal lim jsn =
      if t - lim.tokLabel ≤ jsn.lbl.length then
        some ((typLabel, .lbl jsn.lbl[t - lim.tokLabel]? ((t - lim.tokLabel) % 256)),
          { jsn with idx := (jsn.idx + 1) % 65536 })
      else none := by
  have hget : jsn.tok[jsn.idx]? = some t := at_drop [t] 0 hat (Nat.succ_pos 0)
  unfold microjsJsonGetVal
  rw [hget, Option.bind_some]
  dsimp only
  rw [if_neg (not_le.mpr hhigh), if_pos hlow]

/-- A mask of the high bits tests for a small value. -/
theorem mask_eq_zero {val mask : BitVec 32} {k : Nat}
    (hmask : ∀ i < 32, mask.getLsbD i = decide (k ≤ i)) : val &&& mask = 0 ↔ val.toNat < 2 ^ k := by
  constructor
  · intro h
    refine Nat.lt_pow_two_of_testBit _ fun i hi => ?_
    by_cases hlt : i < 32
    · have hbit := congrArg (fun x => BitVec.getLsbD x i) h
      rw [BitVec.getLsbD_and, hmask i hlt, decide_eq_true hi, Bool.and_true] at hbit
      exact hbit.trans BitVec.getLsbD_zero
    · exact BitVec.getLsbD_of_ge val i (not_lt.mp hlt)
  · intro h
    refine BitVec.eq_of_getLsbD_eq fun i hi => ?_
    rw [BitVec.getLsbD_and, hmask i hi]
    by_cases hk : k ≤ i
    · have hbit : val.getLsbD i = false :=
        Nat.testBit_lt_two_pow (h.trans_le (Nat.pow_le_pow_right Nat.two_pos hk))
      rw [hbit, Bool.false_and]
      exact BitVec.getLsbD_zero.symm
    · rw [decide_eq_false hk, Bool.and_false]
      exact BitVec.getLsbD_zero.symm

theorem intBytes_eq (val : BitVec 32) : intBytes val =
    if val.toNat < 256 then [tokInt8, val.toNat]
    else if val.toNat < 65536 then [tokInt16, val.toNat % 256, val.toNat >>> 8 % 256]
    else [tokInt32, val.toNat % 256, val.toNat >>> 8 % 256, val.toNat >>> 16 % 256,
      val.toNat >>> 24 % 256] := by
  have h₈ : val &&& 0xffffff00 = 0 ↔ val.toNat < 2 ^ 8 := mask_eq_zero (by decide)
  have h₁₆ : val &&& 0xffff0000 = 0 ↔ val.toNat < 2 ^ 16 := mask_eq_zero (by decide)
  unfold intBytes intToks
  by_cases hlt₈ : val.toNat < 256
  · rw [if_pos (h₈.mpr hlt₈), if_pos hlt₈, List.map_cons, List.map_cons,
      Nat.mod_eq_of_lt hlt₈]
    rfl
  · rw [if_neg fun h => hlt₈ (h₈.mp h), if_neg hlt₈]
    by_cases hlt₁₆ : val.toNat < 65536
    · rw [if_pos (h₁₆.mpr hlt₁₆), if_pos hlt₁₆]
      rfl
    · rw [if_neg fun h => hlt₁₆ (h₁₆.mp h), if_neg hlt₁₆, if_neg fun h => hlt₈ (h₈.mp h)]
      rfl

/-- The two low bytes. -/
theorem low_bytes (x : Nat) : (BitVec.ofNat 32 (x % 256) |||
    BitVec.ofNat 32 (x >>> 8 % 256) <<< 8 : BitVec 32) = BitVec.ofNat 32 (x % 65536) := by
  apply BitVec.eq_of_toNat_eq
  rw [BitVec.toNat_or, BitVec.toNat_shiftLeft, BitVec.toNat_ofNat, BitVec.toNat_ofNat,
    BitVec.toNat_ofNat]
  have hlow : x % 65536 % 256 = x % 256 := by lia
  have hhigh : (x % 65536) >>> 8 % 256 = x >>> 8 % 256 := by
    rw [Nat.shiftRight_eq_div_pow, Nat.shiftRight_eq_div_pow]
    lia
  have hoffs := offset_eq (Nat.mod_lt x (by decide : 65536 > 0))
  rw [hlow, hhigh] at hoffs
  have hb : x >>> 8 % 256 < 256 := Nat.mod_lt _ (by decide)
  rw [Nat.mod_eq_of_lt (show x % 256 < 2 ^ 32 by lia),
    Nat.mod_eq_of_lt (show x >>> 8 % 256 < 2 ^ 32 by lia),
    Nat.mod_eq_of_lt (show x % 65536 < 2 ^ 32 by lia),
    Nat.mod_eq_of_lt (show (x >>> 8 % 256) <<< 8 < 2 ^ 32 by rw [Nat.shiftLeft_eq]; lia)]
  exact hoffs

/-- The tokens of an integer, as the reader takes them. -/
theorem getVal_int {t : Nat} (hat : jsn.tok.drop jsn.idx = t :: rest) (hlow : tokInt8 ≤ t)
    (hhigh : t < lim.tokLabel) : microjsJsonGetVal lim jsn =
      (getInt jsn.tok t (jsn.idx + 1)).map fun p =>
        ((typInteger, .u32 p.1), { jsn with idx := p.2 % 65536 }) := by
  have hget : jsn.tok[jsn.idx]? = some t := at_drop [t] 0 hat (Nat.succ_pos 0)
  obtain ⟨-, hstring, -⟩ := tokLabel_bounds lim
  unfold microjsJsonGetVal
  rw [hget, Option.bind_some]
  dsimp only
  rw [if_neg (by lia), if_neg (not_le.mpr hhigh), if_pos hlow]

/-- From the longer forms of an integer the reader takes the two low bytes. -/
theorem getInt_low {x t : Nat} {tail : List Nat}
    (hat : jsn.tok.drop jsn.idx = t :: x % 256 :: x >>> 8 % 256 :: tail)
    (ht : t = tokInt16 ∨ t = tokInt32) :
    getInt jsn.tok t (jsn.idx + 1) = some (BitVec.ofNat 32 (x % 65536), jsn.idx + 3) := by
  have h₁ : jsn.tok[jsn.idx + 1]? = some (x % 256) :=
    at_drop [t, x % 256, x >>> 8 % 256] 1 hat (by show 1 < 3; lia)
  have h₂ : jsn.tok[jsn.idx + 1 + 1]? = some (x >>> 8 % 256) :=
    at_drop [t, x % 256, x >>> 8 % 256] 2 hat (by show 2 < 3; lia)
  have hge : t ≥ tokInt16 := by
    rcases ht with rfl | rfl
    · exact le_refl _
    · decide
  have hne : t ≠ tokInt24 := by
    rcases ht with rfl | rfl
    · decide
    · decide
  unfold getInt byte
  rw [h₁, h₂, Option.map_some, Option.bind_some, if_pos hge, Option.map_some, Option.bind_some]
  dsimp only
  rw [if_neg hne, low_bytes]

/-- An item that fits is given back. -/
theorem getVal_fits {it : Item} (hprop : it.Proper lim jsn.lbl) (hfits : it.Fits lim)
    (hat : jsn.tok.drop jsn.idx = it.toks lim ++ rest) :
    microjsJsonGetVal lim jsn = some (it.out jsn.lbl,
      { jsn with idx := (jsn.idx + (it.toks lim).length) % 65536 }) := by
  obtain ⟨hlabel, hstring, hmax⟩ := tokLabel_bounds lim
  cases it with
  | null => exact getVal_plain hat (by decide)
  | object => exact getVal_plain hat (by decide)
  | array => exact getVal_plain hat (by decide)
  | endObject => exact getVal_plain hat (by decide)
  | endArray => exact getVal_plain hat (by decide)
  | bool b =>
      cases b with
      | true => exact getVal_plain hat (by decide)
      | false => exact getVal_plain hat (by decide)
  | str offs len => exact getVal_string hprop.1 hprop.2 hat
  | label id =>
      have hid : id < lim.labelMax := hfits
      have hmod : (lim.tokLabel + id) % 256 = lim.tokLabel + id := Nat.mod_eq_of_lt (by lia)
      have hat' : jsn.tok.drop jsn.idx = (lim.tokLabel + id) :: rest := by
        rw [hat, Item.toks, hmod]
        rfl
      have hle : id ≤ jsn.lbl.length := hprop
      rw [getVal_label hat' (Nat.le_add_right _ _) (by lia), Nat.add_sub_cancel_left, if_pos hle,
        Nat.mod_eq_of_lt (show id < 256 by lia)]
      rfl
  | int v =>
      obtain ⟨hv₀, hv⟩ : 0 ≤ v ∧ v < 65536 := hfits
      obtain ⟨n, rfl⟩ := Int.eq_ofNat_of_zero_le hv₀
      have hn : n < 65536 := by lia
      have htoNat : (BitVec.ofInt 32 (n : Int)).toNat = n := by
        rw [BitVec.ofInt_natCast, BitVec.toNat_ofNat]
        exact Nat.mod_eq_of_lt (by lia)
      have hout : Item.out jsn.lbl (.int n) = (typInteger, .u32 (BitVec.ofNat 32 n)) := by
        rw [Item.out, BitVec.ofInt_natCast]
      rw [hout]
      rw [Item.toks, intBytes_eq, htoNat] at hat ⊢
      unfold tokInt32 at hlabel
      by_cases hsmall : n < 256
      · rw [if_pos hsmall] at hat ⊢
        have h₁ : jsn.tok[jsn.idx + 1]? = some n :=
          at_drop [tokInt8, n] 1 hat (by show 1 < 2; lia)
        rw [getVal_int hat (le_refl _) (by unfold tokInt8; lia), getInt, byte, h₁,
          Option.map_some, Option.bind_some, if_neg (by decide)]
        rfl
      · rw [if_neg hsmall, if_pos hn] at hat ⊢
        rw [getVal_int hat (by decide) (by unfold tokInt16; lia), getInt_low hat (Or.inl rfl),
          Nat.mod_eq_of_lt hn]
        rfl

/-- The type of a value tells where its token lies. -/
theorem getVal_typ {t : Nat} (hat : jsn.tok.drop jsn.idx = t :: rest) {v : Nat × Val}
    {jsn' : Parser} (hget : microjsJsonGetVal lim jsn = some (v, jsn')) :
    (lim.tokString ≤ t → v.1 = typString) ∧ (t < lim.tokLabel → v.1 ≠ typLabel) := by
  have htok : jsn.tok[jsn.idx]? = some t := at_drop [t] 0 hat (Nat.succ_pos 0)
  obtain ⟨-, hstring, -⟩ := tokLabel_bounds lim
  unfold microjsJsonGetVal at hget
  rw [htok, Option.bind_some] at hget
  dsimp only at hget
  split_ifs at hget with hstr hlabel hle hint htrue hfalse
  · obtain ⟨lo, -, hget⟩ := Option.bind_eq_some_iff.mp hget
    obtain ⟨hi, -, heq⟩ := Option.map_eq_some_iff.mp hget
    obtain ⟨rfl, -⟩ := Prod.mk.inj heq
    exact ⟨fun _ => rfl, fun _ => by show typString ≠ typLabel; decide⟩
  · exact ⟨fun h => absurd h hstr, fun h => absurd hlabel (not_le.mpr h)⟩
  · obtain ⟨p, -, heq⟩ := Option.map_eq_some_iff.mp hget
    obtain ⟨rfl, -⟩ := Prod.mk.inj heq
    exact ⟨fun h => absurd h hstr, fun _ => by show typInteger ≠ typLabel; decide⟩
  · obtain ⟨rfl, -⟩ := Prod.mk.inj (Option.some.inj hget)
    exact ⟨fun h => absurd h hstr, fun _ => by decide⟩
  · obtain ⟨rfl, -⟩ := Prod.mk.inj (Option.some.inj hget)
    exact ⟨fun h => absurd h hstr, fun _ => by decide⟩
  · obtain ⟨rfl, -⟩ := Prod.mk.inj (Option.some.inj hget)
    refine ⟨fun h => absurd h hstr, fun _ => ?_⟩
    show t ≠ 9
    unfold tokFalse at hfalse
    lia

/-- A label behind the first ones gets the token of a string, or wraps. -/
theorem getVal_unlisted {id : Nat} (hid : lim.labelMax ≤ id)
    (hat : jsn.tok.drop jsn.idx = (lim.tokLabel + id) % 256 :: rest) {v : Nat × Val}
    {jsn' : Parser} (hget : microjsJsonGetVal lim jsn = some (v, jsn')) :
    v ≠ (Item.label id).out jsn.lbl := by
  rintro rfl
  obtain ⟨hstr, hlow⟩ := getVal_typ hat hget
  by_cases hlabel : lim.tokLabel ≤ (lim.tokLabel + id) % 256
  · by_cases hstring : (lim.tokLabel + id) % 256 < lim.tokString
    · obtain ⟨-, hmax, -⟩ := tokLabel_bounds lim
      rw [getVal_label hat hlabel hstring] at hget
      split_ifs at hget
      obtain ⟨hout, -⟩ := Prod.mk.inj (Option.some.inj hget)
      have hmod := (Val.lbl.inj (Prod.mk.inj hout).2).2
      lia
    · exact absurd (hstr (not_lt.mp hstring)) (by show typLabel ≠ typString; decide)
  · exact hlow (not_le.mp hlabel) rfl

/-- An integer of more than 16 bits is read as one of 16 bits, or as a label. -/
theorem getVal_large {val : BitVec 32} (hval : 65536 ≤ val.toNat)
    (hat : jsn.tok.drop jsn.idx = intBytes val ++ rest) {v : Nat × Val} {jsn' : Parser}
    (hget : microjsJsonGetVal lim jsn = some (v, jsn')) : v ≠ (typInteger, .u32 val) := by
  rintro rfl
  obtain ⟨hlabel, hstring, -⟩ := tokLabel_bounds lim
  have hpos := lim.pos
  rw [intBytes_eq, if_neg (by lia), if_neg (by lia)] at hat
  rcases Nat.lt_or_ge tokInt32 lim.tokLabel with hlt | hge
  · rw [getVal_int hat (by decide) hlt, getInt_low hat (Or.inr rfl), Option.map_some] at hget
    obtain ⟨hout, -⟩ := Prod.mk.inj (Option.some.inj hget)
    have hlow := congrArg BitVec.toNat (Val.u32.inj (Prod.mk.inj hout).2)
    rw [BitVec.toNat_ofNat] at hlow
    lia
  · rw [getVal_label hat hge (by lia)] at hget
    split_ifs at hget
    obtain ⟨hout, -⟩ := Prod.mk.inj (Option.some.inj hget)
    exact absurd (Prod.mk.inj hout).1 (by decide)

/-- An item that does not fit is not given back. -/
theorem getVal_misfit {it : Item} (hprop : it.Proper lim jsn.lbl) (hfits : ¬ it.Fits lim)
    (hat : jsn.tok.drop jsn.idx = it.toks lim ++ rest) {v : Nat × Val} {jsn' : Parser}
    (hget : microjsJsonGetVal lim jsn = some (v, jsn')) : v ≠ it.out jsn.lbl := by
  cases it with
  | label id => exact getVal_unlisted (not_lt.mp hfits) hat hget
  | int n =>
      refine getVal_large ?_ hat hget
      obtain ⟨hlow, hhigh⟩ : -2 ^ 31 ≤ n ∧ n < 2 ^ 31 := hprop
      have hout : ¬ (0 ≤ n ∧ n < 65536) := hfits
      rw [BitVec.toNat_ofInt]
      lia
  | _ => exact absurd trivial hfits

/-- The items are given back exactly if all of them fit. -/
theorem getVals_items {lbl : List (List Nat)} : ∀ (its : List Item) (jsn : Parser),
    jsn.lbl = lbl → jsn.tok.length < 65536 → (∀ it ∈ its, it.Proper lim lbl) →
      jsn.tok.drop jsn.idx = its.flatMap (Item.toks lim) ++ tokStop :: rest →
        (getVals lim (its.length + 1) jsn = some (its.map (Item.out lbl) ++ [(tokStop, .none)]) ↔
          ∀ it ∈ its, it.Fits lim) := by
  intro its
  induction its with
  | nil =>
      intro jsn _ _ _ hat
      refine iff_of_true ?_ fun it hit => absurd hit List.not_mem_nil
      have hget : microjsJsonGetVal lim jsn = _ := getVal_plain hat (by decide)
      show (microjsJsonGetVal lim jsn).bind _ = _
      rw [hget]
      rfl
  | cons it its ih =>
      rintro jsn rfl hsmall hprop hat
      have hitprop := hprop it List.mem_cons_self
      rw [List.flatMap_cons, List.append_assoc] at hat
      by_cases hfits : it.Fits lim
      · have hlen : jsn.idx + (it.toks lim).length < 65536 := by
          have hdrop := congrArg List.length hat
          rw [List.length_drop, List.length_append, List.length_append, List.length_cons] at hdrop
          lia
        have hrest : jsn.tok.drop (jsn.idx + (it.toks lim).length) =
            its.flatMap (Item.toks lim) ++ tokStop :: rest := drop_length_append _ hat
        have hmore := ih { jsn with idx := jsn.idx + (it.toks lim).length } rfl hsmall
          (fun i hi => hprop i (List.mem_cons_of_mem _ hi)) hrest
        rw [List.length_cons, getVals, getVal_fits hitprop hfits hat, Option.bind_some,
          Nat.mod_eq_of_lt hlen, List.forall_mem_cons, List.map_cons, List.cons_append]
        refine Iff.trans ⟨fun h => ?_, fun h => ?_⟩ (hmore.trans (and_iff_right hfits).symm)
        · obtain ⟨outs, houts, heq⟩ := Option.map_eq_some_iff.mp h
          rw [houts, (List.cons.inj heq).2]
        · dsimp only
          rw [h]
          rfl
      · refine iff_of_false (fun h => ?_) fun h => hfits (h it List.mem_cons_self)
        obtain ⟨⟨v, jsn'⟩, hget, hmore⟩ := Option.bind_eq_some_iff.mp h
        obtain ⟨outs, -, heq⟩ := Option.map_eq_some_iff.mp hmore
        exact getVal_misfit hitprop hfits hat hget (List.cons.inj heq).1

end Reading

/-! ## Round trips -/

theorem Derives.proper {part : Part} {ps : List Piece} (h : Derives part ps) :
    ∀ p ∈ ps, p.Proper := by
  induction h with
  | scalar hp hscalar => exact List.forall_mem_singleton.mpr hp
  | emptyArray hl hr => exact List.forall_mem_cons.mpr ⟨hl, List.forall_mem_singleton.mpr hr⟩
  | array hl hr hleft hright h ih =>
      exact List.forall_mem_cons.mpr ⟨hl, List.forall_mem_append.mpr
        ⟨ih, List.forall_mem_singleton.mpr hr⟩⟩
  | emptyObject hl hr => exact List.forall_mem_cons.mpr ⟨hl, List.forall_mem_singleton.mpr hr⟩
  | object hl hr hleft hright h ih =>
      exact List.forall_mem_cons.mpr ⟨hl, List.forall_mem_append.mpr
        ⟨ih, List.forall_mem_singleton.mpr hr⟩⟩
  | element h ih => exact ih
  | elements hc hcomma h h' ih ih' =>
      exact List.forall_mem_append.mpr ⟨ih, List.forall_mem_cons.mpr ⟨hc, ih'⟩⟩
  | member hl hlabel h ih => exact List.forall_mem_cons.mpr ⟨hl, ih⟩
  | members hl hc hlabel hcomma h h' ih ih' =>
      exact List.forall_mem_append.mpr ⟨List.forall_mem_cons.mpr ⟨hl, ih⟩,
        List.forall_mem_cons.mpr ⟨hc, ih'⟩⟩

section RoundTrip

variable {lim : Limits} {lbl : List (List Nat)} {t : ObjectText}

theorem Lexeme.item_proper {l : Lexeme} (hl : l.Proper) {off : Nat}
    (hoff : off + l.bytes.length < 65536)
    (hstr : ∀ qt cs, l = .str qt cs → cs.length ≤ lim.stringMax) :
    ∀ it ∈ l.item lbl off, it.Proper lim lbl := by
  cases l with
  | int neg ds => exact List.forall_mem_singleton.mpr hl.2.2
  | str qt cs =>
      have hlen : (Lexeme.str qt cs).bytes.length = cs.length + 2 := by
        rw [Lexeme.bytes, List.length_cons, List.length_append, List.length_singleton]
      refine List.forall_mem_singleton.mpr ⟨?_, hstr qt cs rfl⟩
      lia
  | label qt cs blanks => exact List.forall_mem_singleton.mpr List.findIdx_le_length
  | comma => exact fun it hit => absurd hit List.not_mem_nil
  | _ => exact List.forall_mem_singleton.mpr trivial

theorem items_proper {ps : List Piece} : ∀ {off : Nat}, (∀ p ∈ ps, p.Proper) →
    (∀ p ∈ ps, ∀ qt cs, p.lex = .str qt cs → cs.length ≤ lim.stringMax) →
      off + (textBytes ps).length < 65536 → ∀ it ∈ items lbl off ps, it.Proper lim lbl := by
  induction ps with
  | nil => exact fun _ _ _ it hit => absurd hit List.not_mem_nil
  | cons p ps ih =>
      intro off hproper hstr hoff
      obtain ⟨hp, hps⟩ := List.forall_mem_cons.mp hproper
      obtain ⟨hstrp, hstrps⟩ := List.forall_mem_cons.mp hstr
      have hlen : p.bytes.length = p.blanks.length + p.lex.bytes.length := List.length_append
      rw [textBytes_cons, List.length_append] at hoff
      exact List.forall_mem_append.mpr ⟨Lexeme.item_proper hp.lex (by lia) hstrp,
        ih hps hstrps (by lia)⟩

theorem ObjectText.WellFormed.items_proper (ht : t.WellFormed lim)
    (hlen : t.left.bytes.length + (textBytes (t.body ++ [t.right])).length < 65536) :
    ∀ it ∈ t.items lbl, it.Proper lim lbl := by
  have hbody : ∀ p ∈ t.body, p.Proper := by
    rcases ht.body with hnil | hmembers
    · rw [hnil]
      exact fun p hp => absurd hp List.not_mem_nil
    · exact hmembers.proper
  refine Json.items_proper ?_ ?_ hlen
  · exact List.forall_mem_append.mpr ⟨hbody, List.forall_mem_singleton.mpr ht.right⟩
  · refine List.forall_mem_append.mpr ⟨ht.strings, List.forall_mem_singleton.mpr ?_⟩
    intro qt cs heq
    cases ht.rightbrace.symm.trans heq

/-- A well-formed object text that is scanned without an error is given back exactly if its
integers have 16 bits and its labels are among the first ones of the table. -/
theorem microjsJson_roundTrip {size : Nat} (ht : t.WellFormed lim) {jsn jsn' : Parser}
    (hopen : microjsJsonOpen (microjsJsonInit size lbl) t.bytes = some (ok, jsn))
    (hscan : microjsJsonScan lim jsn = some (ok, jsn')) :
    getVals lim ((t.items lbl).length + 2) jsn' =
        some ((typObject, .none) :: ((t.items lbl).map (Item.out lbl) ++ [(tokStop, .none)])) ↔
      ∀ it ∈ t.items lbl, it.Fits lim := by
  obtain ⟨hpos, rfl⟩ := open_eq ht hopen
  obtain ⟨⟨err, r⟩, hrun, heq⟩ := Option.map_eq_some_iff.mp hscan
  dsimp only at heq
  have herr : err = ok := by
    by_contra hne
    rw [if_neg hne] at heq
    exact hne (Prod.mk.inj heq).1
  rw [if_pos herr] at heq
  obtain ⟨-, rfl⟩ := Prod.mk.inj heq
  subst herr
  obtain ⟨hr, hlen⟩ := run_holds (Nat.mod_lt _ (by decide)) hpos ht ⟨_, hrun⟩
  obtain ⟨mid, hbuf, -, -⟩ := hr.split
  -- the opening brace is an item of its own
  have hat : r.buf = (Item.object :: t.items lbl).flatMap (Item.toks lim) ++ tokStop :: mid := by
    rw [hbuf, List.append_nil, List.cons_append, List.append_assoc]
    rfl
  have hitems := getVals_items (.object :: t.items lbl)
    ⟨0, r.cnt % 65536, r.sp % 65536, r.buf, t.left.bytes.length % 65536, r.i % 65536,
      t.bytes.length % 65536, t.bytes, lbl⟩ rfl hr.small
    (List.forall_mem_cons.mpr ⟨trivial, ht.items_proper hlen⟩) hat
  rw [List.forall_mem_cons] at hitems
  exact hitems.trans (and_iff_right trivial)

/-- The text `{"a":n}` with the digits `ds` of `n`. -/
def numberText (ds : List Nat) : ObjectText :=
  ⟨⟨[], .leftbrace⟩, [⟨[], .label 34 [97] []⟩, ⟨[], .int false ds⟩], ⟨[], .rightbrace⟩, []⟩

theorem numberText_wellFormed {ds : List Nat} (hds : (Lexeme.int false ds).Proper) :
    (numberText ds).WellFormed lim where
  left := ⟨List.forall_mem_nil _, trivial⟩
  leftbrace := rfl
  body := Or.inr (.member ⟨List.forall_mem_nil _, Or.inr rfl, by decide, List.forall_mem_nil _⟩ rfl
    (.scalar ⟨List.forall_mem_nil _, hds⟩ trivial))
  right := ⟨List.forall_mem_nil _, trivial⟩
  rightbrace := rfl
  trailing := List.forall_mem_nil _
  strings := by
    refine List.forall_mem_cons.mpr ⟨?_, List.forall_mem_singleton.mpr ?_⟩
    · intro qt cs h
      cases h
    · intro qt cs h
      cases h

/-- The results of opening and scanning a text, and the values that are read. -/
def readText (lim : Limits) (lbl : List (List Nat)) (size n : Nat) (txt : List Nat) :
    Option (Int × Int × Option (List (Nat × Val))) :=
  (microjsJsonOpen (microjsJsonInit size lbl) txt).bind fun p =>
    (microjsJsonScan lim p.2).map fun q => (p.1, q.1, getVals lim n q.2)

theorem readText_some {size n : Nat} {txt : List Nat} {vals : Option (List (Nat × Val))}
    (h : readText lim lbl size n txt = some (ok, ok, vals)) : ∃ jsn jsn' : Parser,
      microjsJsonOpen (microjsJsonInit size lbl) txt = some (ok, jsn) ∧
        microjsJsonScan lim jsn = some (ok, jsn') ∧ getVals lim n jsn' = vals := by
  obtain ⟨⟨err, jsn⟩, hopen, hmap⟩ := Option.bind_eq_some_iff.mp h
  obtain ⟨⟨err', jsn'⟩, hscan, heq⟩ := Option.map_eq_some_iff.mp hmap
  obtain ⟨rfl, hrest⟩ := Prod.mk.inj heq
  obtain ⟨rfl, hvals⟩ := Prod.mk.inj hrest
  exact ⟨jsn, jsn', hopen, hscan, hvals⟩

theorem microjsJson_roundTrip_one : ∃ jsn jsn' : Parser,
    microjsJsonOpen (microjsJsonInit 20 [[97]]) (numberText [49]).bytes = some (ok, jsn) ∧
      microjsJsonScan .default jsn = some (ok, jsn') ∧
      getVals .default 5 jsn' = some [(typObject, .none), (typLabel, .lbl (some [97]) 0),
        (typInteger, .u32 1), (typEndObject, .none), (tokStop, .none)] := by
  have hds : (Lexeme.int false [49]).Proper := by
    unfold Lexeme.Proper
    decide
  have hread : readText .default [[97]] 20 0 (numberText [49]).bytes = some (ok, ok, some []) := by
    decide
  obtain ⟨jsn, jsn', hopen, hscan, -⟩ := readText_some hread
  refine ⟨jsn, jsn', hopen, hscan,
    (microjsJson_roundTrip (numberText_wellFormed hds) hopen hscan).mpr ?_⟩
  show ∀ it ∈ [Item.label 0, .int 1, .endObject], it.Fits .default
  refine List.forall_mem_cons.mpr ⟨by show 0 < 40; decide, List.forall_mem_cons.mpr ⟨?_, ?_⟩⟩
  · show (0 : Int) ≤ 1 ∧ (1 : Int) < 65536
    decide
  · exact List.forall_mem_singleton.mpr trivial

/-- The integer of `{"a":65536}` is read as a label. -/
theorem largeInteger_lost : ∃ (t : ObjectText) (jsn jsn' : Parser), t.WellFormed .default ∧
    microjsJsonOpen (microjsJsonInit 20 [[97]]) t.bytes = some (ok, jsn) ∧
    microjsJsonScan .default jsn = some (ok, jsn') ∧
    getVals .default ((t.items [[97]]).length + 2) jsn' ≠
      some ((typObject, .none) :: ((t.items [[97]]).map (Item.out [[97]]) ++ [(tokStop, .none)])) := by
  have hds : (Lexeme.int false [54, 53, 53, 51, 54]).Proper := by
    unfold Lexeme.Proper
    decide
  have hread : readText .default [[97]] 20 5 (numberText [54, 53, 53, 51, 54]).bytes =
      some (ok, ok, some [(typObject, .none), (typLabel, .lbl (some [97]) 0),
        (typLabel, .lbl (some [97]) 0), (0, .none), (0, .none)]) := by
    decide
  obtain ⟨jsn, jsn', hopen, hscan, hvals⟩ := readText_some hread
  refine ⟨_, jsn, jsn', numberText_wellFormed hds, hopen, hscan, ?_⟩
  show getVals .default 5 jsn' ≠ _
  rw [hvals]
  decide

end RoundTrip

end YardIce.MicroJs.Json
