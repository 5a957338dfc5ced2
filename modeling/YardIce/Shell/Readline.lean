import Mathlib.Data.List.TakeWhile
import YardIce.Lib.Runs
import YardIce.Lib.Spelling
import YardIce.Shell.History

/-!
# The line editor

`history_readline` against a reference editor. The line of the reference is the part before the
cursor and the part behind it, and keys that it does not know leave it unchanged.

## Implementation notes

What is written to the terminal is left out, but for what is read from the buffer for it. The state
keeps the places of `buf` that were read or written; the byte in front of the buffer is `front`. The
parameter `max` of the functions is the one of the source after its decrement. Characters are
unsigned, and `int` has 32 bits. The end of the stream is `EOF`.
-/

namespace YardIce.Shell

open Lib

abbrev Char8 := BitVec 8

/-- What `mode` stands for: no escape sequence or its parts. -/
inductive Mode where
  | none
  | esc
  | escVal1
  | escVal2
  | escO

/-! ## Keys -/

/-- `MK_IN_KEY` -/
def mkInKey (code : Nat) : Nat := 0x2000 + code

/-- `IN_CTRL` -/
def inCtrl : Nat := 0x4000

def inCursorUp : Nat := mkInKey 0
def inCursorDown : Nat := mkInKey 1
def inCursorRight : Nat := mkInKey 2
def inCursorLeft : Nat := mkInKey 3
def inPageUp : Nat := mkInKey 5
def inPageDown : Nat := mkInKey 6
def inInsert : Nat := mkInKey 7
def inDelete : Nat := mkInKey 8
def inHome : Nat := mkInKey 9
def inEnd : Nat := mkInKey 10
def inBs : Nat := 8
def inTnBs : Nat := 0x7f
def inEol : Nat := 13
def inSkip : Nat := 3
def inEsc : Nat := 27

/-! ## The editor -/

/-- The variables of `history_readline`, the buffer and the accesses to it so far. -/
structure Editor where
  buf : Nat → Char8
  front : Char8
  pos : Nat
  len : Nat
  mode : Mode
  val : BitVec 32
  ctrl : Nat
  ht : CmdHistory
  acc : List Int

namespace Editor

def rd (e : Editor) (k : Int) : Editor := { e with acc := k :: e.acc }

/-- `buf[k] = c` -/
def wr (e : Editor) (k : Nat) (c : Char8) : Editor :=
  { e with buf := Function.update e.buf k c, acc := (k : Int) :: e.acc }

/-- The reads of the string at `k`, whose `NUL` is at most `n` behind. -/
def puts (e : Editor) (k : Nat) : Nat → Editor
  | 0 => e.rd k
  | n + 1 => if e.buf k = 0 then e.rd k else (e.rd k).puts (k + 1) n

/-- `buf[i] = buf[i - 1]` for `i` from `pos + n` down to `pos + 1`. -/
def shiftUp (pos : Nat) : Nat → Editor → Editor
  | 0, e => e
  | n + 1, e => shiftUp pos n ((e.rd (pos + n : Nat)).wr (pos + n + 1) (e.buf (pos + n)))

/-- `buf[i] = buf[i + 1]` for `n` places from `i` up. -/
def shiftDown : Nat → Nat → Editor → Editor
  | 0, _, e => e
  | n + 1, i, e => shiftDown n (i + 1) ((e.rd (i + 1 : Nat)).wr i (e.buf (i + 1)))

/-- `strcpy(&buf[k], s)` -/
def copy : List Char8 → Nat → Editor → Editor
  | [], k, e => e.wr k 0
  | c :: s, k, e => copy s (k + 1) (e.wr k c)

/-- The characters in front of `buf[len]`. -/
def content (e : Editor) : List Char8 := (List.range e.len).map e.buf

/-- `set_buf` -/
def setBuf (e : Editor) (s : Line) : Editor :=
  let e := copy s 0 e
  { e with pos := s.length, len := s.length }

/-- What follows `history_prev` and `history_next`. -/
def recalled (e : Editor) : Option Line × CmdHistory → Editor
  | (.none, ht) => { e with ht := ht }
  | (some s, ht) => { e with ht := ht }.setBuf s

/-- The current line is saved at the entry of `pos`. -/
def saveLine (e : Editor) : Editor :=
  let e := (e.wr e.len 0).puts 0 e.len
  { e with ht := { e.ht with
      line := Function.update e.ht.line e.ht.pos (e.content.takeWhile (· ≠ 0)) } }

/-- `IN_CURSOR_UP` -/
def cursorUp (e : Editor) : Editor :=
  let e := if e.ht.pos = e.ht.head then e.saveLine else e
  e.recalled (historyPrev e.ht)

/-- `IN_CURSOR_DOWN` -/
def cursorDown (e : Editor) : Editor := e.recalled (historyNext e.ht)

/-- `IN_CTRL_CURSOR_RIGHT`, for at most `n` characters. -/
def wordRight : Nat → Editor → Editor
  | 0, e => e
  | n + 1, e =>
    if e.pos < e.len then
      let e := { e.rd e.pos with pos := e.pos + 1 }
      let e := e.rd (e.pos - 1 : Nat)
      if e.buf (e.pos - 1) ≠ 0x20 then
        let e := e.rd e.pos
        if e.buf e.pos = 0x20 then e else wordRight n e
      else wordRight n e
    else e

/-- `IN_CTRL_CURSOR_LEFT`, from a place that is not 0. -/
def wordLeft : Nat → Editor → Editor
  | 0, e => e
  | p + 1, e =>
    let e := { e.rd (p - 1 : Int) with pos := p }
    if (if p = 0 then e.front else e.buf (p - 1)) = 0x20 then
      let e := e.rd p
      if e.buf p ≠ 0x20 then e else wordLeft p e
    else wordLeft p e

/-- `IN_END` echoes what it passes. -/
def toEnd : Nat → Editor → Editor
  | 0, e => e
  | n + 1, e => if e.pos < e.len then toEnd n { e.rd e.pos with pos := e.pos + 1 } else e

/-- `IN_DELETE` -/
def delete (e : Editor) : Editor :=
  if e.len = e.pos then e
  else
    let e := { e with len := e.len - 1 }
    let e := (shiftDown (e.len - e.pos) e.pos e).wr e.len 0
    e.puts e.pos (e.len - e.pos)

/-- `IN_BS` -/
def backspace (e : Editor) : Editor :=
  if e.pos = 0 then e
  else if e.len = e.pos then { e with pos := e.pos - 1, len := e.len - 1 }
  else { e with pos := e.pos - 1 }.delete

/-- What the code does with a character that has no case. -/
def insert (max : Nat) (e : Editor) (c : Char8) : Editor :=
  if e.len = max then e
  else if e.len = e.pos then
    let e := e.wr e.pos c
    { e with pos := e.pos + 1, len := e.len + 1 }
  else
    let e := shiftUp e.pos (e.len - e.pos) e
    let e := { e with len := e.len + 1 }
    let e := ((e.wr e.pos c).wr e.len 0).puts e.pos (e.len - e.pos)
    { e with pos := e.pos + 1 }

/-- The second `switch`: the next state, and the result if the function returns. -/
def key (max : Nat) (e : Editor) (c : Nat) : Editor × Option (Option Line) :=
  if c = inEsc then ({ e with mode := .esc }, .none)
  else if c = inCursorUp then (e.cursorUp, .none)
  else if c = inCursorDown then (e.cursorDown, .none)
  else if c = inCursorRight then
    (if e.pos < e.len then { e.rd e.pos with pos := e.pos + 1 } else e, .none)
  else if c = inCursorLeft then ({ e with pos := e.pos - 1 }, .none)
  else if c = inCursorRight + inCtrl then (wordRight e.len e, .none)
  else if c = inCursorLeft + inCtrl then (wordLeft e.pos e, .none)
  else if c = inPageUp ∨ c = inPageDown ∨ c = inInsert then (e, .none)
  else if c = inHome then ({ e with pos := 0 }, .none)
  else if c = inEnd then (toEnd e.len e, .none)
  else if c = inTnBs ∨ c = inBs then (e.backspace, .none)
  else if c = inDelete then (e.delete, .none)
  else if c = inEol then
    let e := e.wr e.len 0
    (e, some (some (e.content.takeWhile (· ≠ 0))))
  else if c = inSkip then (e, some .none)
  else (e.insert max (BitVec.ofNat 8 c), .none)

/-- The first `switch` inside a sequence `ESC [`. -/
def escVal (e : Editor) (c : Char8) : Editor × Option Nat :=
  let out (code : Nat) : Editor × Option Nat := ({ e with mode := .none }, some (code + e.ctrl))
  if 0x30 ≤ c ∧ c ≤ 0x39 then
    ({ e with val := e.val * 10 + c.setWidth 32 - 0x30 }, .none)
  else if c = 0x41 then out inCursorUp
  else if c = 0x42 then out inCursorDown
  else if c = 0x43 then out inCursorRight
  else if c = 0x44 then out inCursorLeft
  else if c = 0x7e then
    if e.val = 1 then out inHome
    else if e.val = 2 then out inInsert
    else if e.val = 3 then out inDelete
    else if e.val = 4 then out inEnd
    else if e.val = 5 then out inPageUp
    else if e.val = 6 then out inPageDown
    else ({ e with mode := .none }, .none)
  else if c = 0x3b then ({ e with mode := .escVal2, ctrl := inCtrl, val := 0 }, .none)
  else ({ e with mode := .none }, .none)

/-- The first `switch`: the key, if the character completes one. -/
def decode (e : Editor) (c : Char8) : Editor × Option Nat :=
  match e.mode with
  | .none => (e, some c.toNat)
  | .esc =>
    if c = 0x5b then ({ e with mode := .escVal1, val := 0, ctrl := 0 }, .none)
    else if c = 0x4f then ({ e with mode := .escO }, .none)
    else ({ e with mode := .none }, .none)
  | .escVal1 | .escVal2 => e.escVal c
  | .escO =>
    if c = 0x46 then ({ e with mode := .none }, some inEnd)
    else if c = 0x48 then ({ e with mode := .none }, some inHome)
    else ({ e with mode := .none }, .none)

/-- One turn of the loop. -/
def input (max : Nat) (e : Editor) (c : Char8) : Editor × Option (Option Line) :=
  match e.decode c with
  | (e, .none) => (e, .none)
  | (e, some code) => e.key max code

end Editor

/-- The loop. -/
def readLoop (max : Nat) (e : Editor) : List Char8 → Editor × Option Line
  | [] => (e, .none)
  | c :: s =>
    match e.input max c with
    | (e, .none) => readLoop max e s
    | (e, some r) => (e, r)

/-- `history_readline`, with the state in which it returns. -/
def historyReadline (ht : CmdHistory) (buf : Nat → Char8) (front : Char8) (max : Nat)
    (s : List Char8) : Editor × Option Line :=
  readLoop (max - 1) ⟨buf, front, 0, 0, .none, 0, 0, ht, []⟩ s

/-! ## The reference editor -/

/-- The keys of the reference editor. `still` has no effect. -/
inductive Key where
  | char (c : Char8)
  | up
  | down
  | right
  | left
  | wordRight
  | wordLeft
  | home
  | last
  | backspace
  | delete
  | still
  | eol
  | skip
  | unknown

/-- The part of a sequence that was read; in `ESC [`, the last number and whether a `;` was seen. -/
inductive Seq where
  | none
  | esc
  | csi (n : Nat) (ctrl : Bool)
  | ss3

/-- The line, with the part before the cursor nearest first. -/
structure Ref where
  left : Line
  right : Line
  seq : Seq
  ht : CmdHistory

/-- A character that stands for itself. Control characters that have no meaning are unknown. -/
def plainKey (c : Char8) : Key :=
  if c = 0x7f ∨ c = 8 then .backspace
  else if c = 13 then .eol
  else if c = 3 then .skip
  else if c < 0x20 then .unknown
  else .char c

/-- The end of a sequence `ESC [`, if it is known. -/
def csiKey (n : Nat) (ctrl : Bool) (c : Char8) : Option Key :=
  let plain (k : Key) : Option Key := some (if ctrl then .unknown else k)
  if c = 0x41 then plain .up
  else if c = 0x42 then plain .down
  else if c = 0x43 then some (if ctrl then .wordRight else .right)
  else if c = 0x44 then some (if ctrl then .wordLeft else .left)
  else if c = 0x7e then
    if n = 1 then plain .home
    else if n = 3 then plain .delete
    else if n = 4 then plain .last
    else if n = 2 ∨ n = 5 ∨ n = 6 then plain .still
    else .none
  else .none

/-- A word and the blanks before it. -/
def word (s : Line) : Nat :=
  (s.takeWhile (· = 0x20)).length + ((s.dropWhile (· = 0x20)).takeWhile (· ≠ 0x20)).length

namespace Ref

/-- The line. -/
def text (r : Ref) : Line := r.left.reverse ++ r.right

/-- The sequence with one more character, and the key that it completes. -/
def decode (r : Ref) (c : Char8) : Seq × Option Key :=
  match r.seq with
  | .none => if c = 27 then (.esc, .none) else (.none, some (plainKey c))
  | .esc =>
    if c = 0x5b then (.csi 0 false, .none) else if c = 0x4f then (.ss3, .none) else (.none, .none)
  | .csi n ctrl =>
    if 0x30 ≤ c ∧ c ≤ 0x39 then (.csi (10 * n + (c.toNat - 0x30)) ctrl, .none)
    else if c = 0x3b then (.csi 0 true, .none)
    else (.none, csiKey n ctrl c)
  | .ss3 =>
    if c = 0x46 then (.none, some .last)
    else if c = 0x48 then (.none, some .home)
    else (.none, .none)

def moveRight (r : Ref) (n : Nat) : Ref :=
  { r with left := (r.right.take n).reverse ++ r.left, right := r.right.drop n }

def moveLeft (r : Ref) (n : Nat) : Ref :=
  { r with left := r.left.drop n, right := (r.left.take n).reverse ++ r.right }

/-- The line is replaced, with the cursor at its end. -/
def replace (r : Ref) : Option Line × CmdHistory → Ref
  | (.none, ht) => { r with ht := ht }
  | (some s, ht) => { r with left := s.reverse, right := [], ht := ht }

/-- The history with the line kept at its head. -/
def saved (r : Ref) : CmdHistory :=
  if r.ht.pos = r.ht.head then
    { r.ht with line := Function.update r.ht.line r.ht.pos r.text }
  else r.ht

/-- A key, in a line that has room for `max` characters. -/
def press (max : Nat) (r : Ref) : Key → Ref × Option (Option Line)
  | .char c => (if r.text.length = max then r else { r with left := c :: r.left }, .none)
  | .up => (r.replace (historyPrev r.saved), .none)
  | .down => (r.replace (historyNext r.ht), .none)
  | .right => (r.moveRight 1, .none)
  | .left => (r.moveLeft 1, .none)
  | .wordRight => (r.moveRight (word r.right), .none)
  | .wordLeft => (r.moveLeft (word r.left), .none)
  | .home => (r.moveLeft r.left.length, .none)
  | .last => (r.moveRight r.right.length, .none)
  | .backspace => ({ r with left := r.left.tail }, .none)
  | .delete => ({ r with right := r.right.tail }, .none)
  | .still => (r, .none)
  | .eol => (r, some (some r.text))
  | .skip => (r, some .none)
  | .unknown => (r, .none)

/-- One character of input. -/
def input (max : Nat) (r : Ref) (c : Char8) : Ref × Option (Option Line) :=
  match r.decode c with
  | (seq, .none) => ({ r with seq := seq }, .none)
  | (seq, some k) => press max { r with seq := seq } k

/-- What the code does with a key is right: an unknown key finds the line full, a step by a word to
the left does not end at the start of the line, and a line of the history fits. -/
def SoundKey (max : Nat) (r : Ref) : Key → Prop
  | .unknown => r.text.length = max
  | .wordLeft => r.left = [] ∨ word r.left < r.left.length
  | .up => ∀ s, (historyPrev r.saved).1 = some s → s.length ≤ max
  | .down => ∀ s, (historyNext r.ht).1 = some s → s.length ≤ max
  | _ => True

/-- A character is sound if its key is, and if the number that it continues stays an `int`. -/
def Sound (max : Nat) (r : Ref) (c : Char8) : Prop :=
  (∀ n ctrl, (r.decode c).1 = .csi n ctrl → n < 2 ^ 31) ∧
    ∀ k, (r.decode c).2 = some k → r.SoundKey max k

end Ref

/-- The reference editor on a stream. -/
def refLoop (max : Nat) (r : Ref) : List Char8 → Ref × Option Line
  | [] => (r, .none)
  | c :: s =>
    match r.input max c with
    | (r, .none) => refLoop max r s
    | (r, some l) => (r, l)

/-- The step of the reference editor, while it reads. -/
def refStep (max : Nat) (r : Ref) (c : Char8) : Option Ref :=
  if (r.input max c).2.isNone then some (r.input max c).1 else .none

theorem Ref.text_moveRight (r : Ref) (n : Nat) : (r.moveRight n).text = r.text := by
  simp only [Ref.text, Ref.moveRight, List.reverse_append, List.reverse_reverse, List.append_assoc,
    List.take_append_drop]

theorem Ref.text_moveLeft (r : Ref) (n : Nat) : (r.moveLeft n).text = r.text := by
  rw [Ref.text, Ref.moveLeft, ← List.append_assoc, ← List.reverse_append, List.take_append_drop]
  rfl

theorem Ref.replace_ht (r : Ref) (ht : CmdHistory) (p : Option Line × CmdHistory) :
    { r with ht := ht }.replace p = r.replace p := by
  obtain ⟨_ | s, ht'⟩ := p <;> rfl

theorem word_blank (t : Line) : word (0x20 :: t) = 1 + word t := by
  rw [word, List.takeWhile_cons_of_pos (by simp), List.dropWhile_cons_of_pos (by simp),
    List.length_cons, word]
  lia

theorem word_char {c : Char8} (hc : c ≠ 0x20) (t : Line) :
    word (c :: t) = 1 + (t.takeWhile (· ≠ 0x20)).length := by
  rw [word, List.takeWhile_cons_of_neg (by simpa using hc),
    List.dropWhile_cons_of_neg (by simpa using hc), List.takeWhile_cons_of_pos (by simpa using hc),
    List.length_nil, List.length_cons]
  lia

/-- A word ends where a blank follows a character. -/
theorem word_cons (c : Char8) (t : Line) :
    word (c :: t) = if c ≠ 0x20 ∧ t.head? = some 0x20 then 1 else 1 + word t := by
  by_cases hc : c = 0x20
  · rw [if_neg (fun h => h.1 hc), hc, word_blank]
  rw [word_char hc]
  obtain _ | ⟨d, t⟩ := t
  · rw [if_neg (by simp)]
    rfl
  by_cases hd : d = 0x20
  · rw [if_pos ⟨hc, by rw [hd, List.head?_cons]⟩, hd, List.takeWhile_cons_of_neg (by simp)]
    rfl
  · rw [if_neg (by simpa using fun _ => hd), word_char hd,
      List.takeWhile_cons_of_pos (by simpa using hd), List.length_cons]
    lia

theorem word_le (s : Line) : word s ≤ s.length := by
  induction s with
  | nil => exact le_rfl
  | cons c t ih =>
    rw [word_cons, List.length_cons]
    split_ifs <;> lia

/-! ## What the loops do to the buffer -/

namespace Editor

variable {m : Nat} {e e' e'' : Editor} {b b' : Nat → Char8}

/-- Only the buffer changes, to `b`, and the accesses are at places up to `m`. -/
def Touches (m : Nat) (e : Editor) (b : Nat → Char8) (e' : Editor) : Prop :=
  ∃ a, e' = { e with buf := b, acc := a } ∧ ∀ k ∈ a, k ∈ e.acc ∨ 0 ≤ k ∧ k ≤ m

theorem Touches.refl (m : Nat) (e : Editor) : Touches m e e.buf e :=
  ⟨e.acc, rfl, fun _ h => .inl h⟩

theorem Touches.trans (h : Touches m e b e') (h' : Touches m e' b' e'') : Touches m e b' e'' := by
  obtain ⟨a, rfl, ha⟩ := h
  obtain ⟨a', rfl, ha'⟩ := h'
  exact ⟨a', rfl, fun k hk => (ha' k hk).elim (ha k) .inr⟩

theorem touches_rd (e : Editor) {k : Nat} (hk : k ≤ m) : Touches m e e.buf (e.rd k) := by
  refine ⟨_, rfl, fun i hi => ?_⟩
  obtain rfl | hi := List.mem_cons.mp hi
  · exact .inr ⟨Int.natCast_nonneg k, Int.ofNat_le.mpr hk⟩
  · exact .inl hi

theorem touches_wr (e : Editor) {k : Nat} (hk : k ≤ m) (c : Char8) :
    Touches m e (Function.update e.buf k c) (e.wr k c) := by
  refine ⟨_, rfl, fun i hi => ?_⟩
  obtain rfl | hi := List.mem_cons.mp hi
  · exact .inr ⟨Int.natCast_nonneg k, Int.ofNat_le.mpr hk⟩
  · exact .inl hi

theorem touches_puts {n k : Nat} (h : k + n ≤ m) : Touches m e e.buf (e.puts k n) := by
  induction n generalizing e k with
  | zero => exact touches_rd e h
  | succ n ih =>
    rw [puts]
    split_ifs
    · exact touches_rd e (by lia)
    · exact (touches_rd e (by lia)).trans (ih (by lia))

/-- The characters from `pos` on move up by one. -/
theorem touches_shiftUp {pos n : Nat} (h : pos + n ≤ m) :
    Touches m e (fun k => if pos < k ∧ k ≤ pos + n then e.buf (k - 1) else e.buf k)
      (shiftUp pos n e) := by
  induction n generalizing e with
  | zero =>
    have hbuf : (fun k => if pos < k ∧ k ≤ pos + 0 then e.buf (k - 1) else e.buf k) = e.buf := by
      ext k : 1
      exact if_neg (by lia)
    rw [hbuf, shiftUp]
    exact Touches.refl m e
  | succ n ih =>
    have hstep := (touches_rd e (show pos + n ≤ m by lia)).trans
      (touches_wr (e.rd (pos + n : Nat)) h (e.buf (pos + n)))
    have hgo := @ih ((e.rd (pos + n : Nat)).wr (pos + n + 1) (e.buf (pos + n))) (by lia)
    rw [shiftUp]
    convert hstep.trans hgo using 1
    ext k : 1
    show _ = if pos < k ∧ k ≤ pos + n then
      Function.update e.buf (pos + n + 1) (e.buf (pos + n)) (k - 1)
      else Function.update e.buf (pos + n + 1) (e.buf (pos + n)) k
    obtain hk | rfl | hk := lt_trichotomy k (pos + n + 1)
    · rw [Function.update_of_ne (by lia), Function.update_of_ne (by lia)]
      exact if_congr (by lia) rfl rfl
    · rw [Function.update_self, if_pos (by lia), if_neg (by lia)]
      rfl
    · rw [if_neg (by lia), if_neg (by lia), Function.update_of_ne (by lia)]

/-- The characters behind `i` move down by one. -/
theorem touches_shiftDown {n i : Nat} (h : i + n ≤ m) :
    Touches m e (fun k => if i ≤ k ∧ k < i + n then e.buf (k + 1) else e.buf k)
      (shiftDown n i e) := by
  induction n generalizing e i with
  | zero =>
    have hbuf : (fun k => if i ≤ k ∧ k < i + 0 then e.buf (k + 1) else e.buf k) = e.buf := by
      ext k : 1
      exact if_neg (by lia)
    rw [hbuf, shiftDown]
    exact Touches.refl m e
  | succ n ih =>
    have hstep := (touches_rd e (show i + 1 ≤ m by lia)).trans
      (touches_wr (e.rd (i + 1 : Nat)) (show i ≤ m by lia) (e.buf (i + 1)))
    have hgo := @ih ((e.rd (i + 1 : Nat)).wr i (e.buf (i + 1))) (i + 1) (by lia)
    rw [shiftDown]
    convert hstep.trans hgo using 1
    ext k : 1
    show _ = if i + 1 ≤ k ∧ k < i + 1 + n then
      Function.update e.buf i (e.buf (i + 1)) (k + 1) else Function.update e.buf i (e.buf (i + 1)) k
    obtain hk | rfl | hk := lt_trichotomy k i
    · rw [if_neg (by lia), if_neg (by lia), Function.update_of_ne (by lia)]
    · rw [Function.update_self, if_pos (by lia), if_neg (by lia)]
    · rw [Function.update_of_ne (by lia), Function.update_of_ne (by lia)]
      exact if_congr (by lia) rfl rfl

/-- A string is copied with its `NUL`. -/
theorem touches_copy {s : List Char8} {k : Nat} (h : k + s.length ≤ m) :
    ∃ b, Touches m e b (copy s k e) ∧ Spells b k s ∧ ∀ i < k, b i = e.buf i := by
  induction s generalizing e k with
  | nil =>
    exact ⟨_, touches_wr e h 0, spells_nil _ _,
      fun i hi => Function.update_of_ne (Nat.ne_of_lt hi) _ _⟩
  | cons c s ih =>
    rw [List.length_cons] at h
    obtain ⟨b, hb, hs, hlow⟩ := @ih (e.wr k c) (k + 1) (by lia)
    refine ⟨b, (touches_wr e (by lia) c).trans hb, spells_cons.mpr ⟨?_, hs⟩, fun i hi => ?_⟩
    · rw [hlow k (Nat.lt_succ_self k)]
      exact Function.update_self ..
    · rw [hlow i (Nat.lt_succ_of_lt hi)]
      exact Function.update_of_ne (Nat.ne_of_lt hi) _ _

/-! ## The editor against the reference -/

/-- The sequence that the editor is in. -/
def InSeq (e : Editor) : Seq → Prop
  | .none => e.mode = .none
  | .esc => e.mode = .esc
  | .csi n ctrl => (e.mode = .escVal1 ∨ e.mode = .escVal2) ∧ e.val = BitVec.ofNat 32 n ∧
      n < 2 ^ 31 ∧ e.ctrl = if ctrl then inCtrl else 0
  | .ss3 => e.mode = .escO

/-- The editor has the line and the cursor of the reference, in a buffer whose last place is `m`. -/
structure Shows (m : Nat) (e : Editor) (r : Ref) : Prop where
  text : Spells e.buf 0 r.text
  pos : e.pos = r.left.length
  len : e.len = r.text.length
  fits : r.text.length ≤ m
  seq : e.InSeq r.seq
  ht : e.ht = r.ht
  acc : ∀ k ∈ e.acc, 0 ≤ k ∧ k ≤ m
  strings : ∀ c ∈ r.text, c ≠ 0
  lines : ∀ i, ∀ c ∈ r.ht.line i, c ≠ 0

variable {r : Ref}

theorem Shows.pos_le (h : e.Shows m r) : e.pos ≤ e.len := by
  rw [h.pos, h.len, Ref.text, List.length_append, List.length_reverse]
  exact Nat.le_add_right _ _

theorem Touches.acc_le (h : Touches m e b e') (he : ∀ k ∈ e.acc, 0 ≤ k ∧ k ≤ m) :
    ∀ k ∈ e'.acc, 0 ≤ k ∧ k ≤ m := by
  obtain ⟨a, rfl, ha⟩ := h
  exact fun k hk => (ha k hk).elim (he k) id

/-- The line is edited: the buffer spells the new one, and the cursor and the length follow. -/
theorem Shows.edit (h : e.Shows m r) {p l : Nat}
    (ht : Touches m { e with pos := p, len := l } b e') {left right : Line}
    (hb : Spells b 0 (left.reverse ++ right)) (hfit : left.length + right.length ≤ m)
    (hne : ∀ c ∈ left.reverse ++ right, c ≠ 0) :
    Shows m { e' with pos := left.length, len := left.length + right.length }
      { r with left := left, right := right } := by
  have hacc := ht.acc_le h.acc
  obtain ⟨a, rfl, -⟩ := ht
  have hlen : (left.reverse ++ right).length = left.length + right.length := by simp
  exact
    { text := hb
      pos := rfl
      len := hlen.symm
      fits := hlen.trans_le hfit
      seq := h.seq
      ht := h.ht
      acc := hacc
      strings := hne
      lines := h.lines }

/-- The cursor moves over the line. -/
theorem Shows.move (h : e.Shows m r) {p : Nat}
    (ht : Touches m { e with pos := p } e.buf e') {left right : Line}
    (htext : left.reverse ++ right = r.text) :
    Shows m { e' with pos := left.length } { r with left := left, right := right } := by
  have hacc := ht.acc_le h.acc
  obtain ⟨a, rfl, -⟩ := ht
  exact
    { text := by
        show Spells e.buf 0 (left.reverse ++ right)
        rw [htext]
        exact h.text
      pos := rfl
      len := h.len.trans (congrArg List.length htext.symm)
      fits := (congrArg List.length htext).trans_le h.fits
      seq := h.seq
      ht := h.ht
      acc := hacc
      strings := fun c hc => h.strings c (htext ▸ hc)
      lines := h.lines }

theorem Shows.insert (h : e.Shows m r) {c : Char8} (hc : c ≠ 0) :
    (e.insert m c).Shows m (if r.text.length = m then r else { r with left := c :: r.left }) := by
  have hlen : r.text.length = r.left.length + r.right.length := by simp [Ref.text]
  have hpos := h.pos
  have hlen' := h.len
  have hfits := h.fits
  have htext := h.text
  rw [Ref.text, spells_append, List.length_reverse, Nat.zero_add] at htext
  have hne : ∀ x ∈ (c :: r.left).reverse ++ r.right, x ≠ 0 := by
    have hs := h.strings
    simp only [Ref.text, List.mem_append, List.mem_reverse, List.mem_cons] at hs ⊢
    rintro x ((rfl | hx) | hx)
    · exact hc
    · exact hs x (.inl hx)
    · exact hs x (.inr hx)
  unfold Editor.insert
  by_cases hfull : r.text.length = m
  · rw [if_pos hfull, if_pos (hlen'.trans hfull)]
    exact h
  rw [if_neg hfull, if_neg (fun heq => hfull (hlen'.symm.trans heq))]
  have hroom : (c :: r.left).length + r.right.length ≤ m := by
    rw [List.length_cons]
    lia
  by_cases hend : e.len = e.pos
  · -- the character goes behind the line
    have hright : r.right = [] := List.eq_nil_of_length_eq_zero (by lia)
    rw [if_pos hend]
    have hb : Spells (Function.update e.buf e.pos c) 0 ((c :: r.left).reverse ++ r.right) := by
      rw [hright, List.append_nil, List.reverse_cons, spells_append, List.length_reverse,
        Nat.zero_add]
      refine ⟨htext.1.moved fun k hk => ?_, spells_cons.mpr ⟨?_, spells_nil _ _⟩⟩
      · rw [List.length_reverse] at hk
        exact Function.update_of_ne (by lia) _ _
      · rw [← hpos]
        exact Function.update_self ..
    have hedit := h.edit (touches_wr e (show e.pos ≤ m by lia) c) hb hroom hne
    have hp : (c :: r.left).length = e.pos + 1 := by rw [List.length_cons, hpos]
    have hl : (c :: r.left).length + r.right.length = e.len + 1 := by rw [List.length_cons]; lia
    rw [hl, hp] at hedit
    exact hedit
  · rw [if_neg hend]
    obtain ⟨a, ha, hacc⟩ := @touches_shiftUp m e e.pos (e.len - e.pos) (by lia)
    rw [ha]
    set b : Nat → Char8 :=
      fun k => if e.pos < k ∧ k ≤ e.pos + (e.len - e.pos) then e.buf (k - 1) else e.buf k with hb
    set f : Editor := { e with buf := b, acc := a, len := e.len + 1 } with hf
    have hshift : Touches m { e with len := e.len + 1 } b f := ⟨a, rfl, hacc⟩
    have hall := ((hshift.trans (touches_wr f (show e.pos ≤ m by lia) c)).trans
      (touches_wr (f.wr e.pos c) (show e.len + 1 ≤ m by lia) 0)).trans
      (touches_puts (show e.pos + (e.len + 1 - e.pos) ≤ m by lia))
    have hspell : Spells ((f.wr e.pos c).wr (e.len + 1) 0).buf 0
        ((c :: r.left).reverse ++ r.right) := by
      show Spells (Function.update (Function.update b e.pos c) (e.len + 1) 0) 0 _
      rw [List.reverse_cons, List.append_assoc, spells_append, List.length_reverse, Nat.zero_add]
      refine ⟨htext.1.moved fun k hk => ?_, spells_cons.mpr ⟨?_, htext.2.moved fun k hk => ?_⟩⟩
      · rw [List.length_reverse] at hk
        rw [Function.update_of_ne (by lia), Function.update_of_ne (by lia)]
        exact if_neg (by lia)
      · rw [← hpos, Function.update_of_ne (by lia), Function.update_self]
      · have hprev : r.left.length + 1 + k - 1 = r.left.length + k := by lia
        rw [Function.update_of_ne (by lia), Function.update_of_ne (by lia), ← hprev]
        exact if_pos (by lia)
    have hedit := h.edit hall hspell hroom hne
    have hp : (c :: r.left).length = e.pos + 1 := by rw [List.length_cons, hpos]
    have hl : (c :: r.left).length + r.right.length = e.len + 1 := by rw [List.length_cons]; lia
    rw [hl, hp] at hedit
    obtain ⟨a', ha', -⟩ := hall
    show Shows m { (((f.wr e.pos c).wr (e.len + 1) 0).puts e.pos (e.len + 1 - e.pos)) with
      pos := (((f.wr e.pos c).wr (e.len + 1) 0).puts e.pos (e.len + 1 - e.pos)).pos + 1 } _
    rw [ha'] at hedit ⊢
    exact hedit

theorem Shows.delete (h : e.Shows m r) :
    e.delete.Shows m { r with right := r.right.tail } := by
  have hlen : r.text.length = r.left.length + r.right.length := by simp [Ref.text]
  have hpos := h.pos
  have hlen' := h.len
  have hfits := h.fits
  have htext := h.text
  rw [Ref.text, spells_append, List.length_reverse, Nat.zero_add] at htext
  unfold Editor.delete
  cases hr : r.right with
  | nil =>
    rw [hr, List.length_nil] at hlen
    rw [if_pos (by lia)]
    have hsame : { r with right := ([] : Line).tail } = r := by rw [List.tail_nil, ← hr]
    rw [hsame]
    exact h
  | cons d t =>
    rw [hr, List.length_cons] at hlen
    rw [hr, spells_cons] at htext
    rw [if_neg (by lia)]
    obtain ⟨a, ha, hacc⟩ := @touches_shiftDown m { e with len := e.len - 1 } (e.len - 1 - e.pos)
      e.pos (by lia)
    show Shows m (((shiftDown (e.len - 1 - e.pos) e.pos { e with len := e.len - 1 }).wr
      (e.len - 1) 0).puts _ _) _
    rw [ha]
    set b : Nat → Char8 :=
      fun k => if e.pos ≤ k ∧ k < e.pos + (e.len - 1 - e.pos) then e.buf (k + 1) else e.buf k
    set f : Editor := { e with buf := b, acc := a, len := e.len - 1 }
    have hshift : Touches m { e with len := e.len - 1 } b f := ⟨a, rfl, hacc⟩
    have hall := (hshift.trans (touches_wr f (show e.len - 1 ≤ m by lia) 0)).trans
      (touches_puts (show e.pos + (e.len - 1 - e.pos) ≤ m by lia))
    have hspell : Spells (f.wr (e.len - 1) 0).buf 0 (r.left.reverse ++ t) := by
      show Spells (Function.update b (e.len - 1) 0) 0 _
      rw [spells_append, List.length_reverse, Nat.zero_add]
      refine ⟨htext.1.moved fun k hk => ?_, htext.2.2.moved fun k hk => ?_⟩
      · rw [List.length_reverse] at hk
        rw [Function.update_of_ne (by lia)]
        exact if_neg (by lia)
      · rw [Function.update_of_ne (by lia), Nat.add_right_comm]
        exact if_pos (by lia)
    have hne : ∀ x ∈ r.left.reverse ++ t, x ≠ 0 := by
      have hs := h.strings
      rw [Ref.text, hr] at hs
      simp only [List.mem_append, List.mem_cons] at hs ⊢
      exact fun x hx => hs x (hx.imp id .inr)
    have hedit := h.edit hall hspell (by lia) hne
    have hl : r.left.length + t.length = e.len - 1 := by lia
    rw [hl, ← hpos] at hedit
    obtain ⟨a', ha', -⟩ := hall
    show Shows m ((f.wr (e.len - 1) 0).puts e.pos (e.len - 1 - e.pos)) _
    rw [ha'] at hedit ⊢
    exact hedit

theorem Shows.backspace (h : e.Shows m r) :
    e.backspace.Shows m { r with left := r.left.tail } := by
  have hlen : r.text.length = r.left.length + r.right.length := by simp [Ref.text]
  have hpos := h.pos
  have hlen' := h.len
  have hfits := h.fits
  unfold Editor.backspace
  cases hl : r.left with
  | nil =>
    rw [hl, List.length_nil] at hpos
    rw [if_pos hpos]
    have hsame : { r with left := ([] : Line).tail } = r := by rw [List.tail_nil, ← hl]
    rw [hsame]
    exact h
  | cons d t =>
    rw [hl, List.length_cons] at hpos hlen
    have htext : r.text = t.reverse ++ d :: r.right := by simp [Ref.text, hl]
    rw [if_neg (by lia)]
    by_cases hend : e.len = e.pos
    · -- the last character
      have hright : r.right = [] := List.eq_nil_of_length_eq_zero (by lia)
      rw [if_pos hend]
      have hspell := h.text
      have hstrings := h.strings
      rw [htext, spells_append] at hspell
      rw [htext, List.forall_mem_append] at hstrings
      have hedit := h.edit (Touches.refl m { e with pos := e.pos - 1, len := e.len - 1 })
        (show Spells e.buf 0 (t.reverse ++ []) by simpa using hspell.1)
        (show t.length + ([] : Line).length ≤ m by rw [List.length_nil]; lia)
        (by simpa using hstrings.1)
      have hp : t.length = e.pos - 1 := by lia
      have hl' : t.length + ([] : Line).length = e.len - 1 := by rw [List.length_nil]; lia
      rw [hl', hp, ← hright] at hedit
      exact hedit
    · rw [if_neg hend]
      have hmove := h.move (Touches.refl m { e with pos := e.pos - 1 })
        (show t.reverse ++ d :: r.right = r.text from htext.symm)
      have hp : t.length = e.pos - 1 := by lia
      rw [hp] at hmove
      exact hmove.delete

/-! ## Moves -/

theorem Shows.moveRight (h : e.Shows m r) {n : Nat} (hn : n ≤ r.right.length) {a : List Int}
    (ha : ∀ k ∈ a, k ∈ e.acc ∨ 0 ≤ k ∧ k ≤ m) :
    Shows m { e with pos := e.pos + n, acc := a } (r.moveRight n) := by
  have hmove := h.move (show Touches m { e with pos := e.pos + n } e.buf
    { e with pos := e.pos + n, acc := a } from ⟨a, rfl, ha⟩) (r.text_moveRight n)
  have hp : ((r.right.take n).reverse ++ r.left).length = e.pos + n := by
    rw [List.length_append, List.length_reverse, List.length_take, h.pos]
    lia
  rw [Ref.moveRight] at hmove
  rw [hp] at hmove
  exact hmove

theorem Shows.moveLeft (h : e.Shows m r) (n : Nat) {a : List Int}
    (ha : ∀ k ∈ a, k ∈ e.acc ∨ 0 ≤ k ∧ k ≤ m) :
    Shows m { e with pos := e.pos - n, acc := a } (r.moveLeft n) := by
  have hmove := h.move (show Touches m { e with pos := e.pos - n } e.buf
    { e with pos := e.pos - n, acc := a } from ⟨a, rfl, ha⟩) (r.text_moveLeft n)
  have hp : (r.left.drop n).length = e.pos - n := by
    rw [List.length_drop, h.pos]
  rw [Ref.moveLeft] at hmove
  rw [hp] at hmove
  exact hmove

theorem wordRight_eq {right : Line} {n : Nat} (hs : Spells e.buf e.pos right)
    (hlen : e.len = e.pos + right.length) (hm : e.len ≤ m) (hn : right.length ≤ n) :
    ∃ a, wordRight n e = { e with pos := e.pos + word right, acc := a } ∧
      ∀ k ∈ a, k ∈ e.acc ∨ 0 ≤ k ∧ k ≤ m := by
  induction n generalizing e right with
  | zero =>
    obtain rfl := List.eq_nil_of_length_eq_zero (Nat.le_zero.mp hn)
    exact ⟨e.acc, rfl, fun _ h => .inl h⟩
  | succ n ih =>
    obtain _ | ⟨c, t⟩ := right
    · rw [wordRight, if_neg (by rw [hlen, List.length_nil]; exact Nat.lt_irrefl _)]
      exact ⟨e.acc, rfl, fun _ h => .inl h⟩
    rw [List.length_cons] at hlen hn
    rw [spells_cons] at hs
    obtain ⟨hc, ht⟩ := hs
    set f : Editor := { e with pos := e.pos + 1, acc := (e.pos : Int) :: (e.pos : Int) :: e.acc }
    have hf : ∀ k ∈ f.acc, k ∈ e.acc ∨ 0 ≤ k ∧ k ≤ m := by
      have hp : (e.pos : Int) ≤ m := Int.ofNat_le.mpr (by lia)
      simp only [f, List.mem_cons]
      rintro k (rfl | rfl | hk)
      · exact .inr ⟨Int.natCast_nonneg _, hp⟩
      · exact .inr ⟨Int.natCast_nonneg _, hp⟩
      · exact .inl hk
    have hg : ∀ k ∈ (f.rd f.pos).acc, k ∈ e.acc ∨ 0 ≤ k ∧ k ≤ m := by
      refine List.forall_mem_cons.mpr ⟨.inr ⟨Int.natCast_nonneg _, Int.ofNat_le.mpr ?_⟩, hf⟩
      show e.pos + 1 ≤ m
      lia
    have hgo (g : Editor) (hacc : ∀ k ∈ g.acc, k ∈ e.acc ∨ 0 ≤ k ∧ k ≤ m)
        (heq : g = { f with acc := g.acc }) :
        ∃ a, wordRight n g = { e with pos := e.pos + (1 + word t), acc := a } ∧
          ∀ k ∈ a, k ∈ e.acc ∨ 0 ≤ k ∧ k ≤ m := by
      rw [heq]
      obtain ⟨a, ha, hacc'⟩ := @ih { f with acc := g.acc } t ht (by show e.len = e.pos + 1 + _; lia)
        hm (by lia)
      refine ⟨a, ha.trans ?_, fun k hk => (hacc' k hk).elim (hacc k) .inr⟩
      rw [← Nat.add_assoc]
    have hstep : wordRight (n + 1) e = if e.buf e.pos ≠ 0x20 then
        (if e.buf (e.pos + 1) = 0x20 then f.rd f.pos else wordRight n (f.rd f.pos))
        else wordRight n f := by
      rw [wordRight, if_pos (by lia)]
      rfl
    rw [hstep, hc]
    by_cases hblank : c = 0x20
    · have hw : word (c :: t) = 1 + word t := (word_cons c t).trans (if_neg fun h => h.1 hblank)
      rw [if_neg (fun h => h hblank), hw]
      exact hgo f hf rfl
    rw [if_pos hblank]
    obtain _ | ⟨d, t⟩ := t
    · -- the end of the line: what is behind it does not matter
      have hw : word [c] = 1 + word [] := (word_cons c []).trans (if_neg (by simp))
      rw [hw]
      split_ifs
      · exact ⟨_, rfl, hg⟩
      · exact hgo _ hg rfl
    rw [(spells_cons.mp ht).1]
    by_cases hd : d = 0x20
    · have hw : word (c :: d :: t) = 1 :=
        (word_cons c _).trans (if_pos ⟨hblank, by rw [hd, List.head?_cons]⟩)
      rw [if_pos hd, hw]
      exact ⟨_, rfl, hg⟩
    · have hw : word (c :: d :: t) = 1 + word (d :: t) :=
        (word_cons c _).trans (if_neg fun h => hd (Option.some_inj.mp h.2))
      rw [if_neg hd, hw]
      exact hgo _ hg rfl

theorem wordLeft_eq {left : Line} (hs : Spells e.buf 0 left.reverse) (hm : e.pos ≤ m)
    (hp : e.pos = left.length) (hw : left = [] ∨ word left < left.length) :
    ∃ a, wordLeft left.length e = { e with pos := e.pos - word left, acc := a } ∧
      ∀ k ∈ a, k ∈ e.acc ∨ 0 ≤ k ∧ k ≤ m := by
  induction left generalizing e with
  | nil => exact ⟨e.acc, rfl, fun _ h => .inl h⟩
  | cons c t ih =>
    replace hw := hw.resolve_left (List.cons_ne_nil c t)
    rw [List.length_cons] at hp hw
    rw [List.reverse_cons, spells_append, List.length_reverse, Nat.zero_add, spells_cons] at hs
    obtain ⟨ht, hc, -⟩ := hs
    have hcons := word_cons c t
    obtain _ | ⟨d, t⟩ := t
    · rw [if_neg (by simp)] at hcons
      rw [hcons, List.length_nil] at hw
      exact absurd hw (by lia)
    have hd : e.buf t.length = d := by
      rw [List.reverse_cons, spells_append, List.length_reverse, Nat.zero_add, spells_cons] at ht
      exact ht.2.1
    rw [List.length_cons] at hp hw hc
    set f : Editor := { e with pos := t.length + 1, acc := (t.length : Int) :: e.acc }
    have hf : ∀ k ∈ f.acc, k ∈ e.acc ∨ 0 ≤ k ∧ k ≤ m := by
      refine List.forall_mem_cons.mpr ⟨.inr ⟨Int.natCast_nonneg _, Int.ofNat_le.mpr ?_⟩,
        fun k hk => .inl hk⟩
      lia
    have hg : ∀ k ∈ (f.rd (t.length + 1 : Nat)).acc, k ∈ e.acc ∨ 0 ≤ k ∧ k ≤ m := by
      refine List.forall_mem_cons.mpr ⟨.inr ⟨Int.natCast_nonneg _, Int.ofNat_le.mpr ?_⟩, hf⟩
      lia
    have hgo (g : Editor) (hacc : ∀ k ∈ g.acc, k ∈ e.acc ∨ 0 ≤ k ∧ k ≤ m)
        (heq : g = { f with acc := g.acc }) (hwt : word (d :: t) < (d :: t).length) :
        ∃ a, wordLeft (d :: t).length g = { e with pos := e.pos - (1 + word (d :: t)), acc := a } ∧
          ∀ k ∈ a, k ∈ e.acc ∨ 0 ≤ k ∧ k ≤ m := by
      rw [heq]
      obtain ⟨a, ha, hacc'⟩ := @ih { f with acc := g.acc } ht (by show t.length + 1 ≤ m; lia) rfl
        (.inr hwt)
      refine ⟨a, ha.trans ?_, fun k hk => (hacc' k hk).elim (hacc k) .inr⟩
      have hpos : f.pos - word (d :: t) = e.pos - (1 + word (d :: t)) := by
        show t.length + 1 - _ = _
        lia
      rw [hpos]
    have hstep : wordLeft (t.length + 1 + 1) e = if e.buf t.length = 0x20 then
        (if e.buf (t.length + 1) ≠ 0x20 then f.rd (t.length + 1 : Nat)
          else wordLeft (t.length + 1) (f.rd (t.length + 1 : Nat)))
        else wordLeft (t.length + 1) f := by
      have hprev : ((t.length + 1 : Nat) - 1 : Int) = t.length := by lia
      rw [wordLeft, hprev]
      rfl
    rw [List.length_cons, List.length_cons, hstep, hd, hc]
    by_cases hblank : d = 0x20
    · rw [if_pos hblank]
      by_cases hcb : c = 0x20
      · have hw' : word (c :: d :: t) = 1 + word (d :: t) :=
          hcons.trans (if_neg fun h => h.1 hcb)
        rw [if_neg (fun h => h hcb), hw']
        exact hgo _ hg rfl (by rw [hw'] at hw; rw [List.length_cons]; lia)
      · have hw' : word (c :: d :: t) = 1 :=
          hcons.trans (if_pos ⟨hcb, by rw [hblank, List.head?_cons]⟩)
        rw [if_pos hcb, hw']
        refine ⟨_, ?_, hg⟩
        have hpos : e.pos - 1 = t.length + 1 := by lia
        rw [hpos]
        rfl
    · have hw' : word (c :: d :: t) = 1 + word (d :: t) :=
        hcons.trans (if_neg fun h => hblank (Option.some_inj.mp h.2))
      rw [if_neg hblank, hw']
      exact hgo _ hf rfl (by rw [hw'] at hw; rw [List.length_cons]; lia)

theorem toEnd_eq {n : Nat} (hn : e.len ≤ e.pos + n) (hle : e.pos ≤ e.len) (hm : e.len ≤ m) :
    ∃ a, toEnd n e = { e with pos := e.len, acc := a } ∧ ∀ k ∈ a, k ∈ e.acc ∨ 0 ≤ k ∧ k ≤ m := by
  induction n generalizing e with
  | zero =>
    have hend : e.len = e.pos := by lia
    exact ⟨e.acc, (congrArg (fun p => { e with pos := p }) hend).symm, fun _ h => .inl h⟩
  | succ n ih =>
    rw [toEnd]
    split_ifs with hlt
    · obtain ⟨a, ha, hacc⟩ := @ih { e.rd e.pos with pos := e.pos + 1 }
        (show e.len ≤ e.pos + 1 + n by lia) hlt hm
      refine ⟨a, ha, fun k hk => (hacc k hk).elim (fun h => ?_) .inr⟩
      obtain rfl | h := List.mem_cons.mp h
      · exact .inr ⟨Int.natCast_nonneg _, Int.ofNat_le.mpr (by lia)⟩
      · exact .inl h
    · have hend : e.len = e.pos := by lia
      exact ⟨e.acc, (congrArg (fun p => { e with pos := p }) hend).symm, fun _ h => .inl h⟩

/-! ## Lines of the history -/

/-- The line is replaced by one of the history that fits. -/
theorem Shows.replace (h : e.Shows m r) {ht : CmdHistory} {s : Line}
    (hline : ∀ i, ∀ c ∈ ht.line i, c ≠ 0) (hs : ∀ c ∈ s, c ≠ 0) (hfit : s.length ≤ m) :
    ({ e with ht := ht }.setBuf s).Shows m { r with left := s.reverse, right := [], ht := ht } := by
  obtain ⟨b, hb, hspell, -⟩ := @touches_copy m { e with ht := ht } s 0 (by lia)
  have hacc := hb.acc_le h.acc
  obtain ⟨a, ha, -⟩ := hb
  have htext : s.reverse.reverse ++ [] = s := by simp
  have hlen : s.length = s.reverse.length := List.length_reverse.symm
  unfold setBuf
  rw [ha] at hacc ⊢
  exact
    { text := by
        show Spells b 0 (s.reverse.reverse ++ [])
        rwa [htext]
      pos := hlen
      len := congrArg List.length htext.symm
      fits := (congrArg List.length htext).trans_le hfit
      seq := h.seq
      ht := rfl
      acc := hacc
      strings := fun c hc => hs c (htext ▸ hc)
      lines := hline }

theorem historyPrev_line (ht : CmdHistory) :
    (historyPrev ht).2.line = ht.line ∧ ∀ s, (historyPrev ht).1 = some s → ∃ i, s = ht.line i := by
  unfold historyPrev
  split_ifs
  · exact ⟨rfl, fun s hs => absurd hs (by simp)⟩
  · exact ⟨rfl, fun s hs => ⟨_, (Option.some_inj.mp hs).symm⟩⟩
  · exact ⟨rfl, fun s hs => ⟨_, (Option.some_inj.mp hs).symm⟩⟩
  · exact ⟨rfl, fun s hs => ⟨_, (Option.some_inj.mp hs).symm⟩⟩

theorem historyNext_line (ht : CmdHistory) :
    (historyNext ht).2.line = ht.line ∧ ∀ s, (historyNext ht).1 = some s → ∃ i, s = ht.line i := by
  unfold historyNext
  split_ifs
  · exact ⟨rfl, fun s hs => absurd hs (by simp)⟩
  · exact ⟨rfl, fun s hs => ⟨_, (Option.some_inj.mp hs).symm⟩⟩
  · exact ⟨rfl, fun s hs => ⟨_, (Option.some_inj.mp hs).symm⟩⟩

theorem Shows.recalled (h : e.Shows m r) {p : Option Line × CmdHistory} {ht : CmdHistory}
    (hne : ∀ i, ∀ c ∈ ht.line i, c ≠ 0)
    (hp : p.2.line = ht.line ∧ ∀ s, p.1 = some s → ∃ i, s = ht.line i)
    (hs : ∀ s, p.1 = some s → s.length ≤ m) : (e.recalled p).Shows m (r.replace p) := by
  obtain ⟨hline, hmem⟩ := hp
  rw [← hline] at hne
  obtain ⟨_ | s, ht'⟩ := p
  · exact { h with ht := rfl, lines := hne }
  · obtain ⟨i, hi⟩ := hmem s rfl
    refine h.replace hne (fun c hc => ?_) (hs s rfl)
    rw [hi, ← hline] at hc
    exact hne i c hc

theorem Shows.cursorDown (h : e.Shows m r)
    (hs : ∀ s, (historyNext r.ht).1 = some s → s.length ≤ m) :
    e.cursorDown.Shows m (r.replace (historyNext r.ht)) := by
  rw [Editor.cursorDown, h.ht]
  exact h.recalled h.lines (historyNext_line _) hs

/-- A `NUL` behind the line makes it the string in the buffer. -/
theorem Shows.terminated (h : e.Shows m r) : (e.wr e.len 0).Shows m r ∧
    (e.wr e.len 0).content.takeWhile (· ≠ 0) = r.text := by
  have hfits := h.fits
  have hlen := h.len
  have htouch := touches_wr e (show e.len ≤ m by lia) 0
  have hspell : Spells (e.wr e.len 0).buf 0 r.text := by
    refine h.text.moved fun k hk => Function.update_of_ne ?_ _ _
    lia
  refine ⟨{ h with text := hspell, acc := htouch.acc_le h.acc }, ?_⟩
  have hcontent : (e.wr e.len 0).content = r.text := by
    show (List.range e.len).map (e.wr e.len 0).buf = r.text
    rw [hlen]
    rw [hlen] at hspell
    exact hspell.map_range
  rw [hcontent, List.takeWhile_eq_self_iff]
  exact fun c hc => by simpa using h.strings c hc

theorem Shows.saveLine (h : e.Shows m r) :
    e.saveLine.Shows m { r with
      ht := { r.ht with line := Function.update r.ht.line r.ht.pos r.text } } := by
  obtain ⟨hshow, hcontent⟩ := h.terminated
  have hputs : Touches m (e.wr e.len 0) (e.wr e.len 0).buf ((e.wr e.len 0).puts 0 e.len) :=
    touches_puts (by rw [Nat.zero_add, h.len]; exact h.fits)
  have hacc := hputs.acc_le hshow.acc
  obtain ⟨a, ha, -⟩ := hputs
  have hht : ({ e.ht with
      line := Function.update e.ht.line e.ht.pos
        ((e.wr e.len 0).content.takeWhile (· ≠ 0)) } : CmdHistory) =
      { r.ht with line := Function.update r.ht.line r.ht.pos r.text } := by
    rw [hcontent, h.ht]
  unfold Editor.saveLine
  rw [ha] at hacc ⊢
  refine { hshow with ht := hht, acc := hacc, lines := fun i => ?_ }
  by_cases hi : i = r.ht.pos
  · rw [hi]
    simpa using h.strings
  · simpa [hi] using h.lines i

theorem Shows.cursorUp (h : e.Shows m r)
    (hs : ∀ s, (historyPrev r.saved).1 = some s → s.length ≤ m) :
    e.cursorUp.Shows m (r.replace (historyPrev r.saved)) := by
  have hkeep :
      (if e.ht.pos = e.ht.head then e.saveLine else e).Shows m { r with ht := r.saved } := by
    unfold Ref.saved
    rw [h.ht]
    split_ifs
    · exact h.saveLine
    · exact h
  rw [Editor.cursorUp, ← Ref.replace_ht r r.saved]
  show (Editor.recalled _ (historyPrev _)).Shows m _
  rw [hkeep.ht]
  exact hkeep.recalled hkeep.lines (historyPrev_line _) hs

/-! ## Keys and characters -/

/-- The key codes that have a case. -/
def caseCodes : List Nat :=
  [inEsc, inCursorUp, inCursorDown, inCursorRight, inCursorLeft, inCursorRight + inCtrl,
    inCursorLeft + inCtrl, inPageUp, inPageDown, inInsert, inHome, inEnd, inTnBs, inBs, inDelete,
    inEol, inSkip]

/-- The code stands for the key. -/
def Means (code : Nat) : Key → Prop
  | .char c => code = c.toNat ∧ 0x20 ≤ c ∧ c ≠ 0x7f
  | .up => code = inCursorUp
  | .down => code = inCursorDown
  | .right => code = inCursorRight
  | .left => code = inCursorLeft
  | .wordRight => code = inCursorRight + inCtrl
  | .wordLeft => code = inCursorLeft + inCtrl
  | .home => code = inHome
  | .last => code = inEnd
  | .backspace => code = inTnBs ∨ code = inBs
  | .delete => code = inDelete
  | .still => code = inPageUp ∨ code = inPageDown ∨ code = inInsert
  | .eol => code = inEol
  | .skip => code = inSkip
  | .unknown => code ∉ caseCodes

theorem key_of_not_case {code : Nat} (h : code ∉ caseCodes) :
    e.key m code = (e.insert m (BitVec.ofNat 8 code), .none) := by
  simp only [caseCodes, List.mem_cons, List.not_mem_nil, or_false, not_or] at h
  simp only [key, h, if_false, or_self]

theorem char_not_case {c : Char8} (h : 0x20 ≤ c) (hne : c ≠ 0x7f) : c.toNat ∉ caseCodes := by
  have hcodes : ∀ x ∈ caseCodes, x < 0x20 ∨ x = 0x7f ∨ 256 ≤ x := by decide
  have hlow : 0x20 ≤ c.toNat := h
  have hlt := c.isLt
  have hne' : c.toNat ≠ 0x7f := fun heq => hne (BitVec.eq_of_toNat_eq heq)
  intro hmem
  have hcode := hcodes _ hmem
  lia

/-- A key does what the reference does, and both return the same line. -/
theorem Shows.key (h : e.Shows m r) {code : Nat} {k : Key} (hk : Means code k)
    (hs : r.SoundKey m k) :
    (e.key m code).1.Shows m (r.press m k).1 ∧ (e.key m code).2 = (r.press m k).2 := by
  have hlen : r.text.length = r.left.length + r.right.length := by simp [Ref.text]
  have hsame : ∀ k ∈ e.acc, k ∈ e.acc ∨ 0 ≤ k ∧ k ≤ m := fun _ hk => .inl hk
  have hpos := h.pos
  have hlen' := h.len
  have hfits := h.fits
  have htext := h.text
  rw [Ref.text, spells_append, List.length_reverse, Nat.zero_add] at htext
  cases k with
  | char c =>
    obtain ⟨rfl, hlow, hne⟩ := hk
    have hc : c ≠ 0 := by
      rintro rfl
      exact absurd hlow (by decide)
    rw [key_of_not_case (char_not_case hlow hne), BitVec.ofNat_toNat, BitVec.setWidth_eq]
    exact ⟨h.insert hc, rfl⟩
  | up =>
    obtain rfl : code = inCursorUp := hk
    exact ⟨h.cursorUp hs, rfl⟩
  | down =>
    obtain rfl : code = inCursorDown := hk
    exact ⟨h.cursorDown hs, rfl⟩
  | right =>
    obtain rfl : code = inCursorRight := hk
    refine ⟨?_, rfl⟩
    show (if e.pos < e.len then { e.rd e.pos with pos := e.pos + 1 } else e).Shows m (r.moveRight 1)
    split_ifs with hlt
    · refine h.moveRight (show 1 ≤ r.right.length by lia) fun k hk => ?_
      obtain rfl | hk := List.mem_cons.mp hk
      · exact .inr ⟨Int.natCast_nonneg _, Int.ofNat_le.mpr (by lia)⟩
      · exact .inl hk
    · have hright : r.right = [] := List.eq_nil_of_length_eq_zero (by lia)
      have hstay : r.moveRight 1 = r := by
        rw [Ref.moveRight, hright, List.take_nil, List.drop_nil]
        exact congrArg (fun t => { r with right := t }) hright.symm
      rw [hstay]
      exact h
  | left =>
    obtain rfl : code = inCursorLeft := hk
    exact ⟨h.moveLeft 1 hsame, rfl⟩
  | wordRight =>
    obtain rfl : code = inCursorRight + inCtrl := hk
    refine ⟨?_, rfl⟩
    rw [← hpos] at htext
    obtain ⟨a, ha, hacc⟩ := wordRight_eq (m := m) (n := e.len) htext.2 (by lia) (by lia) (by lia)
    show (Editor.wordRight e.len e).Shows m _
    rw [ha]
    exact h.moveRight (word_le _) hacc
  | wordLeft =>
    obtain rfl : code = inCursorLeft + inCtrl := hk
    refine ⟨?_, rfl⟩
    obtain ⟨a, ha, hacc⟩ := wordLeft_eq htext.1 (show e.pos ≤ m by lia) hpos hs
    show (Editor.wordLeft e.pos e).Shows m _
    rw [hpos, ha]
    exact h.moveLeft _ hacc
  | home =>
    obtain rfl : code = inHome := hk
    refine ⟨?_, rfl⟩
    have hmove := h.moveLeft r.left.length hsame
    rw [← hpos, Nat.sub_self, hpos] at hmove
    exact hmove
  | last =>
    obtain rfl : code = inEnd := hk
    refine ⟨?_, rfl⟩
    obtain ⟨a, ha, hacc⟩ := toEnd_eq (m := m) (n := e.len) (Nat.le_add_left _ _) h.pos_le (by lia)
    have hmove := h.moveRight (le_refl r.right.length) hacc
    have hend : e.pos + r.right.length = e.len := by lia
    show (toEnd e.len e).Shows m _
    rw [hend] at hmove
    rw [ha]
    exact hmove
  | backspace =>
    obtain rfl | rfl := hk <;> exact ⟨h.backspace, rfl⟩
  | delete =>
    obtain rfl : code = inDelete := hk
    exact ⟨h.delete, rfl⟩
  | still =>
    obtain rfl | rfl | rfl := hk <;> exact ⟨h, rfl⟩
  | eol =>
    obtain rfl : code = inEol := hk
    obtain ⟨hshow, hcontent⟩ := h.terminated
    exact ⟨hshow, congrArg (fun s => some (some s)) hcontent⟩
  | skip =>
    obtain rfl : code = inSkip := hk
    exact ⟨h, rfl⟩
  | unknown =>
    have hfull : e.len = m := hlen'.trans hs
    rw [key_of_not_case hk, Editor.insert, if_pos hfull]
    exact ⟨h, rfl⟩

/-- The sequence changes and nothing else. -/
theorem Shows.inSeq (h : e.Shows m r) {mode : Mode} {val : BitVec 32} {ctrl : Nat} {seq : Seq}
    (hseq : InSeq { e with mode := mode, val := val, ctrl := ctrl } seq) :
    Shows m { e with mode := mode, val := val, ctrl := ctrl } { r with seq := seq } :=
  { h with seq := hseq }

theorem plainKey_means {c : Char8} (hesc : c ≠ 27) : Means c.toNat (plainKey c) := by
  unfold plainKey
  split_ifs with hbs heol hskip hlow
  · exact hbs.imp (congrArg BitVec.toNat) (congrArg BitVec.toNat)
  · exact congrArg BitVec.toNat heol
  · exact congrArg BitVec.toNat hskip
  · intro hmem
    have hcodes : ∀ x ∈ caseCodes, x < 0x20 → x = 27 ∨ x = 8 ∨ x = 13 ∨ x = 3 := by decide
    obtain h | h | h | h := hcodes _ hmem hlow
    · exact hesc (BitVec.eq_of_toNat_eq h)
    · exact hbs (.inr (BitVec.eq_of_toNat_eq h))
    · exact heol (BitVec.eq_of_toNat_eq h)
    · exact hskip (BitVec.eq_of_toNat_eq h)
  · exact ⟨rfl, BitVec.not_lt.mp hlow, fun h => hbs (.inl h)⟩

/-- Of two optional codes and keys, either there is none or the code stands for the key. -/
def Agree : Option Nat → Option Key → Prop
  | some code, some k => Means code k
  | .none, .none => True
  | _, _ => False

/-- A digit continues the number. -/
theorem ofNat_digit (n : Nat) {c : Char8} (h : 0x30 ≤ c) :
    BitVec.ofNat 32 n * 10 + c.setWidth 32 - 0x30 =
      BitVec.ofNat 32 (10 * n + (c.toNat - 0x30)) := by
  have hc : 0x30 ≤ c.toNat := h
  have hlt := c.isLt
  have h48 : (0x30 : BitVec 32).toNat = 48 := rfl
  have h10 : (10 : BitVec 32).toNat = 10 := rfl
  refine BitVec.eq_of_toNat_eq ?_
  simp only [BitVec.toNat_add, BitVec.toNat_mul, BitVec.toNat_sub, BitVec.toNat_setWidth,
    BitVec.toNat_ofNat, h48, h10]
  omega

theorem agree_plain {ctrl : Bool} (hctrl : e.ctrl = if ctrl then inCtrl else 0) {code : Nat}
    {k : Key} (hk : Means code k) (hcode : code + inCtrl ∉ caseCodes) :
    Agree (some (code + e.ctrl)) (some (if ctrl then .unknown else k)) := by
  rw [hctrl]
  cases ctrl
  · exact hk
  · exact hcode

/-- The end of a sequence gives the code of the key. -/
theorem escVal_agree {n : Nat} {ctrl : Bool} (hval : e.val = BitVec.ofNat 32 n) (hn : n < 2 ^ 31)
    (hctrl : e.ctrl = if ctrl then inCtrl else 0) {c : Char8} (hdigit : ¬(0x30 ≤ c ∧ c ≤ 0x39))
    (hsemi : c ≠ 0x3b) :
    (e.escVal c).1 = { e with mode := .none } ∧ Agree (e.escVal c).2 (csiKey n ctrl c) := by
  have hv {k : Nat} (hk : k < 7) : e.val = BitVec.ofNat 32 k ↔ n = k := by
    rw [hval, ← BitVec.toNat_inj, BitVec.toNat_ofNat, BitVec.toNat_ofNat,
      Nat.mod_eq_of_lt (by lia), Nat.mod_eq_of_lt (by lia)]
  have hv1 : e.val = 1 ↔ n = 1 := hv (by decide)
  have hv2 : e.val = 2 ↔ n = 2 := hv (by decide)
  have hv3 : e.val = 3 ↔ n = 3 := hv (by decide)
  have hv4 : e.val = 4 ↔ n = 4 := hv (by decide)
  have hv5 : e.val = 5 ↔ n = 5 := hv (by decide)
  have hv6 : e.val = 6 ↔ n = 6 := hv (by decide)
  simp only [escVal, csiKey, hv1, hv2, hv3, hv4, hv5, hv6]
  rw [if_neg hdigit]
  by_cases hA : c = 0x41
  · rw [if_pos hA, if_pos hA]
    exact ⟨rfl, agree_plain hctrl rfl (by decide)⟩
  rw [if_neg hA, if_neg hA]
  by_cases hB : c = 0x42
  · rw [if_pos hB, if_pos hB]
    exact ⟨rfl, agree_plain hctrl rfl (by decide)⟩
  rw [if_neg hB, if_neg hB]
  by_cases hC : c = 0x43
  · rw [if_pos hC, if_pos hC, hctrl]
    cases ctrl <;> exact ⟨rfl, rfl⟩
  rw [if_neg hC, if_neg hC]
  by_cases hD : c = 0x44
  · rw [if_pos hD, if_pos hD, hctrl]
    cases ctrl <;> exact ⟨rfl, rfl⟩
  rw [if_neg hD, if_neg hD]
  by_cases htilde : c = 0x7e
  · rw [if_pos htilde, if_pos htilde]
    by_cases h1 : n = 1
    · rw [if_pos h1, if_pos h1]
      exact ⟨rfl, agree_plain hctrl rfl (by decide)⟩
    rw [if_neg h1, if_neg h1]
    by_cases h2 : n = 2
    · rw [if_pos h2, if_neg (by lia), if_neg (by lia), if_pos (.inl h2)]
      exact ⟨rfl, agree_plain hctrl (.inr (.inr rfl)) (by decide)⟩
    rw [if_neg h2]
    by_cases h3 : n = 3
    · rw [if_pos h3, if_pos h3]
      exact ⟨rfl, agree_plain hctrl rfl (by decide)⟩
    rw [if_neg h3, if_neg h3]
    by_cases h4 : n = 4
    · rw [if_pos h4, if_pos h4]
      exact ⟨rfl, agree_plain hctrl rfl (by decide)⟩
    rw [if_neg h4, if_neg h4]
    by_cases h5 : n = 5
    · rw [if_pos h5, if_pos (.inr (.inl h5))]
      exact ⟨rfl, agree_plain hctrl (.inl rfl) (by decide)⟩
    rw [if_neg h5]
    by_cases h6 : n = 6
    · rw [if_pos h6, if_pos (.inr (.inr h6))]
      exact ⟨rfl, agree_plain hctrl (.inr (.inl rfl)) (by decide)⟩
    · rw [if_neg h6, if_neg (by lia)]
      exact ⟨rfl, trivial⟩
  · rw [if_neg htilde, if_neg htilde, if_neg hsemi]
    exact ⟨rfl, trivial⟩

theorem Shows.escVal (h : e.Shows m r) {n : Nat} {ctrl : Bool} (hr : r.seq = .csi n ctrl)
    {c : Char8} (hn : ∀ n ctrl, (r.decode c).1 = .csi n ctrl → n < 2 ^ 31) :
    (e.escVal c).1.Shows m { r with seq := (r.decode c).1 } ∧
      Agree (e.escVal c).2 (r.decode c).2 := by
  have hseq := h.seq
  rw [hr] at hseq
  obtain ⟨hmode, hval, hn31, hctrl⟩ := hseq
  have hdecode : r.decode c = if 0x30 ≤ c ∧ c ≤ 0x39 then
      (.csi (10 * n + (c.toNat - 0x30)) ctrl, .none)
      else if c = 0x3b then (.csi 0 true, .none) else (.none, csiKey n ctrl c) := by
    rw [Ref.decode, hr]
  rw [hdecode] at hn ⊢
  by_cases hdigit : 0x30 ≤ c ∧ c ≤ 0x39
  · rw [if_pos hdigit] at hn ⊢
    rw [Editor.escVal, if_pos hdigit]
    refine ⟨h.inSeq ⟨hmode, ?_, hn _ _ rfl, hctrl⟩, trivial⟩
    show e.val * 10 + _ - _ = _
    rw [hval, ofNat_digit n hdigit.1]
  rw [if_neg hdigit]
  by_cases hsemi : c = 0x3b
  · rw [if_pos hsemi, hsemi]
    exact ⟨h.inSeq ⟨.inr rfl, rfl, by decide, rfl⟩, trivial⟩
  · rw [if_neg hsemi]
    obtain ⟨hend, hagree⟩ := escVal_agree hval hn31 hctrl hdigit hsemi
    rw [hend]
    exact ⟨h.inSeq rfl, hagree⟩

/-- The first `switch` follows the sequence of the reference, but for the start of a sequence. -/
theorem Shows.decode (h : e.Shows m r) {c : Char8}
    (hn : ∀ n ctrl, (r.decode c).1 = .csi n ctrl → n < 2 ^ 31) (hesc : ¬(r.seq = .none ∧ c = 27)) :
    (e.decode c).1.Shows m { r with seq := (r.decode c).1 } ∧
      Agree (e.decode c).2 (r.decode c).2 := by
  have hseq := h.seq
  cases hr : r.seq with
  | none =>
    rw [hr] at hseq hesc
    have hmode : e.mode = .none := hseq
    have hne : c ≠ 27 := fun hc => hesc ⟨rfl, hc⟩
    rw [Editor.decode, hmode, Ref.decode, hr]
    simp only [if_neg hne]
    refine ⟨?_, plainKey_means hne⟩
    rw [← hr]
    exact h
  | esc =>
    rw [hr] at hseq
    have hmode : e.mode = .esc := hseq
    rw [Editor.decode, hmode, Ref.decode, hr]
    simp only
    split_ifs
    · exact ⟨h.inSeq ⟨.inl rfl, rfl, by decide, rfl⟩, trivial⟩
    · exact ⟨h.inSeq rfl, trivial⟩
    · exact ⟨h.inSeq rfl, trivial⟩
  | csi n ctrl =>
    rw [hr] at hseq
    have hdecode : e.decode c = e.escVal c := by
      rw [Editor.decode]
      obtain hmode | hmode := hseq.1 <;> rw [hmode]
    rw [hdecode]
    exact h.escVal hr hn
  | ss3 =>
    rw [hr] at hseq
    have hmode : e.mode = .escO := hseq
    rw [Editor.decode, hmode, Ref.decode, hr]
    simp only
    split_ifs
    · exact ⟨h.inSeq rfl, rfl⟩
    · exact ⟨h.inSeq rfl, rfl⟩
    · exact ⟨h.inSeq rfl, trivial⟩

/-- A sound character does what it does in the reference. -/
theorem Shows.input (h : e.Shows m r) {c : Char8} (hs : r.Sound m c) :
    (e.input m c).1.Shows m (r.input m c).1 ∧ (e.input m c).2 = (r.input m c).2 := by
  by_cases hesc : r.seq = .none ∧ c = 27
  · obtain ⟨hr, rfl⟩ := hesc
    have hmode : e.mode = .none := by
      have hseq := h.seq
      rw [hr] at hseq
      exact hseq
    have he : e.input m 27 = ({ e with mode := .esc }, .none) := by
      rw [Editor.input, Editor.decode, hmode]
      rfl
    have hr' : r.input m 27 = ({ r with seq := .esc }, .none) := by
      rw [Ref.input, Ref.decode, hr]
      rfl
    rw [he, hr']
    exact ⟨h.inSeq rfl, rfl⟩
  obtain ⟨hshow, hagree⟩ := h.decode hs.1 hesc
  have hkey : ∀ k, (r.decode c).2 = some k → r.SoundKey m k := hs.2
  unfold Editor.input Ref.input
  revert hshow hagree hkey
  obtain ⟨e', code⟩ := e.decode c
  obtain ⟨seq, k⟩ := r.decode c
  intro hshow hagree hkey
  cases code with
  | none =>
    cases k with
    | none => exact ⟨hshow, rfl⟩
    | some k => exact hagree.elim
  | some code =>
    cases k with
    | none => exact hagree.elim
    | some k => exact hshow.key hagree (hkey k rfl)

/-- The editor follows the reference along a stream of sound characters. -/
theorem Shows.readLoop (h : e.Shows m r) {s : List Char8}
    (hs : Along (refStep m) (Ref.Sound m) r s) :
    (readLoop m e s).1.Shows m (refLoop m r s).1 ∧ (readLoop m e s).2 = (refLoop m r s).2 := by
  induction s generalizing e r with
  | nil => exact ⟨h, rfl⟩
  | cons c s ih =>
    obtain ⟨hshow, hret⟩ := h.input hs.1
    have hnext := hs.2
    unfold refStep at hnext
    rw [Shell.readLoop, refLoop]
    revert hshow hret hnext
    obtain ⟨e', ret⟩ := e.input m c
    obtain ⟨r', ret'⟩ := r.input m c
    rintro hshow (rfl : ret = ret') hnext
    cases ret with
    | none => exact ih hshow (hnext r' rfl)
    | some l => exact ⟨hshow, rfl⟩

end Editor

/-- The reference editor at the start of a line. -/
def startRef (ht : CmdHistory) : Ref := ⟨[], [], .none, ht⟩

/-- Along a stream of sound characters the cursor is in the line, the line in the buffer and so is
every access, and the line that is returned is that of the reference. -/
theorem readline_faithful {ht : CmdHistory} (hht : ∀ i, ∀ c ∈ ht.line i, c ≠ 0)
    (buf : Nat → Char8) (front : Char8) {max : Nat} (hmax : 2 ≤ max) {s : List Char8}
    (hs : Along (refStep (max - 1)) (Ref.Sound (max - 1)) (startRef ht) s) :
    (∀ s', s' <+: s →
      let e := (historyReadline ht buf front max s').1
      e.pos ≤ e.len ∧ e.len < max ∧ ∀ k ∈ e.acc, 0 ≤ k ∧ k < max) ∧
    (historyReadline ht buf front max s).2 = (refLoop (max - 1) (startRef ht) s).2 := by
  have hstart : Editor.Shows (max - 1) ⟨buf, front, 0, 0, .none, 0, 0, ht, []⟩ (startRef ht) :=
    { text := spells_nil _ _
      pos := rfl
      len := rfl
      fits := Nat.zero_le _
      seq := rfl
      ht := rfl
      acc := by simp
      strings := by simp [startRef, Ref.text]
      lines := hht }
  refine ⟨fun s' hpre => ?_, (hstart.readLoop hs).2⟩
  obtain ⟨t, rfl⟩ := hpre
  obtain ⟨hshow, -⟩ := hstart.readLoop (along_append_left hs)
  have hfits := hshow.fits
  have hlen := hshow.len
  refine ⟨hshow.pos_le, ?_, fun k hk => ?_⟩
  · show (Shell.readLoop _ _ _).1.len < max
    lia
  · have hacc := hshow.acc k hk
    lia

/-- `a`, control-cursor-down and the end of the line. -/
def controlDown : List Char8 := [0x61, 27, 0x5b, 0x31, 0x3b, 0x35, 0x42, 13]

/-- The unknown key is inserted. -/
theorem readline_inserts_key :
    (historyReadline (historyInit (fun _ => []) 581 72) (fun _ => 0) 0 72 controlDown).2 ≠
      (refLoop 71 (startRef (historyInit (fun _ => []) 581 72)) controlDown).2 := by
  decide

theorem readline_faithful_char :
    (historyReadline (historyInit (fun _ => []) 581 72) (fun _ => 0) 0 72 [0x61, 13]).2 =
      some [0x61] := by
  refine (readline_faithful (by simp [historyInit]) _ _ (by decide) ?_).2
  have hsound (r : Ref) (hr : r.seq = .none) {c : Char8} (hc : c = 0x61 ∨ c = 13) :
      r.Sound 71 c := by
    unfold Ref.Sound Ref.decode
    rw [hr]
    obtain rfl | rfl := hc
    · refine ⟨fun n ctrl h => Seq.noConfusion h, fun k hk => ?_⟩
      obtain rfl := Option.some_inj.mp hk
      trivial
    · refine ⟨fun n ctrl h => Seq.noConfusion h, fun k hk => ?_⟩
      obtain rfl := Option.some_inj.mp hk
      trivial
  refine ⟨hsound _ rfl (.inl rfl), fun t ht => ⟨hsound t ?_ (.inr rfl), fun _ _ => trivial⟩⟩
  obtain rfl := Option.some_inj.mp ht
  rfl

end YardIce.Shell
