import Mathlib.Data.BitVec
import Mathlib.Logic.Function.Iterate

/-!
# Command history

The entries are a ring in which the entry at the head is reserved for the line that is edited. An
entry is known by its distance back from the head.

## Implementation notes

A cursor is a `uint8_t`, a number below 256. Lines are shorter than an entry, so that an entry holds
one string, without its `NUL`.
-/

namespace YardIce.Shell

abbrev Line := List (BitVec 8)

/-- `struct cmd_history`, with the strings at the entries of `buf`. -/
structure CmdHistory where
  pos : Nat
  tail : Nat
  head : Nat
  max : Nat
  line : Nat → Line

/-! ## The functions -/

/-- `history_init`, in a buffer of `bufsz` bytes: the structure has five before `buf`. -/
def historyInit (line : Nat → Line) (bufsz lineLen : Nat) : CmdHistory :=
  ⟨0, 0, 0, (bufsz - 5) / lineLen % 256, line⟩

/-- A cursor is moved to the next entry. -/
def CmdHistory.advance (ht : CmdHistory) (i : Nat) : Nat :=
  if (i + 1) % 256 = ht.max then 0 else (i + 1) % 256

/-- `history_prev` -/
def historyPrev (ht : CmdHistory) : Option Line × CmdHistory :=
  if ht.tail = ht.head then (none, ht)
  else
    let pos := if ht.pos ≠ ht.tail then (if ht.pos = 0 then ht.max else ht.pos) - 1 else ht.pos
    (some (ht.line pos), { ht with pos := pos })

/-- `history_next` -/
def historyNext (ht : CmdHistory) : Option Line × CmdHistory :=
  if ht.tail = ht.head then (none, ht)
  else
    let pos := if ht.pos ≠ ht.head then ht.advance ht.pos else ht.pos
    (some (ht.line pos), { ht with pos := pos })

/-- `history_add` -/
def historyAdd (ht : CmdHistory) (s : Line) : CmdHistory :=
  if s = [] then ht
  else if ht.head ≠ ht.tail ∧ s = ht.line ((if ht.head = 0 then ht.max else ht.head) - 1) then
    { ht with pos := ht.head }
  else
    let head := ht.advance ht.head
    { ht with
      line := Function.update (Function.update ht.line ht.head s) head []
      head := head
      tail := if head = ht.tail then ht.advance ht.tail else ht.tail
      pos := head }

/-! ## Entries by their distance -/

/-- The entry at a distance back from the head. -/
def back (max head e : Nat) : Nat := if e ≤ head then head - e else head + max - e

/-- The number of stored lines. -/
def CmdHistory.count (ht : CmdHistory) : Nat :=
  if ht.tail ≤ ht.head then ht.head - ht.tail else ht.head + ht.max - ht.tail

/-- The stored lines, with the last one first. -/
def CmdHistory.lines (ht : CmdHistory) : List Line :=
  (List.range ht.count).map fun e => ht.line (back ht.max ht.head (e + 1))

section Back

variable {max head : Nat}

theorem back_lt (hhead : head < max) {e : Nat} (he : e < max) : back max head e < max := by
  unfold back
  split_ifs <;> omega

theorem back_inj {e f : Nat} (he : e < max) (hf : f < max)
    (h : back max head e = back max head f) : e = f := by
  unfold back at h
  split_ifs at h <;> omega

theorem back_zero : back max head 0 = head := if_pos (Nat.zero_le head)

theorem back_succ {e : Nat} (he : e + 1 < max) :
    (if back max head e = 0 then max else back max head e) - 1 = back max head (e + 1) := by
  unfold back
  split_ifs <;> omega

theorem count_back {e : Nat} (he : e < max) :
    (if back max head e ≤ head then head - back max head e else head + max - back max head e) =
      e := by
  unfold back
  split_ifs <;> omega

end Back

section Advance

variable {ht : CmdHistory}

theorem CmdHistory.advance_eq (hmax : ht.max ≤ 255) {i : Nat} (hi : i < ht.max) :
    ht.advance i = if i + 1 = ht.max then 0 else i + 1 := by
  unfold CmdHistory.advance
  rw [Nat.mod_eq_of_lt (by omega)]

theorem CmdHistory.advance_back (hmax : ht.max ≤ 255) (hhead : ht.head < ht.max) {e : Nat}
    (he : e + 1 < ht.max) :
    ht.advance (back ht.max ht.head (e + 1)) = back ht.max ht.head e := by
  rw [CmdHistory.advance_eq hmax (back_lt hhead he)]
  unfold back
  split_ifs <;> omega

/-- An entry is one further back from the next head. -/
theorem CmdHistory.back_advance (hmax : ht.max ≤ 255) (hhead : ht.head < ht.max) {e : Nat}
    (he : e + 1 < ht.max) :
    back ht.max (ht.advance ht.head) (e + 1) = back ht.max ht.head e := by
  rw [CmdHistory.advance_eq hmax hhead]
  unfold back
  split_ifs <;> omega

/-- The next head is the entry that is furthest back. -/
theorem CmdHistory.advance_head (hmax : ht.max ≤ 255) (hhead : ht.head < ht.max) :
    ht.advance ht.head = back ht.max ht.head (ht.max - 1) := by
  rw [CmdHistory.advance_eq hmax hhead]
  unfold back
  split_ifs <;> omega

end Advance

/-! ## What the history holds -/

/-- `lines` are stored, the last one first, and the position is at a distance `d`. -/
structure Keeps (max : Nat) (lines : List Line) (d : Nat) (ht : CmdHistory) : Prop where
  max_eq : ht.max = max
  two_le : 2 ≤ max
  le_255 : max ≤ 255
  head : ht.head < max
  length : lines.length < max
  tail : ht.tail = back max ht.head lines.length
  pos : ht.pos = back max ht.head d
  le : d ≤ lines.length
  line : ∀ e < lines.length, some (ht.line (back max ht.head (e + 1))) = lines[e]?

/-- The line at a distance: the head line, or a stored one. -/
def lineAt (head : Line) (lines : List Line) (d : Nat) : Option Line :=
  if lines = [] then none else if d = 0 then some head else lines[d - 1]?

namespace Keeps

variable {max d : Nat} {lines : List Line} {ht : CmdHistory}

theorem tail_eq_head_iff (h : Keeps max lines d ht) : ht.tail = ht.head ↔ lines = [] := by
  have hpos : 0 < max := Nat.zero_lt_of_lt h.head
  rw [h.tail, ← List.length_eq_zero_iff]
  refine ⟨fun heq => ?_, fun hzero => by rw [hzero, back_zero]⟩
  exact back_inj h.length hpos (heq.trans back_zero.symm)

theorem pos_eq_head_iff (h : Keeps max lines d ht) : ht.pos = ht.head ↔ d = 0 := by
  have hpos : 0 < max := Nat.zero_lt_of_lt h.head
  rw [h.pos]
  refine ⟨fun heq => ?_, fun hzero => by rw [hzero, back_zero]⟩
  exact back_inj (h.le.trans_lt h.length) hpos (heq.trans back_zero.symm)

theorem pos_eq_tail_iff (h : Keeps max lines d ht) : ht.pos = ht.tail ↔ d = lines.length := by
  rw [h.pos, h.tail]
  exact ⟨back_inj (h.le.trans_lt h.length) h.length, fun heq => by rw [heq]⟩

theorem moved (h : Keeps max lines d ht) {d' : Nat} (hd : d' ≤ lines.length) :
    Keeps max lines d' { ht with pos := back max ht.head d' } :=
  ⟨h.max_eq, h.two_le, h.le_255, h.head, h.length, h.tail, rfl, hd, h.line⟩

theorem line_back (h : Keeps max lines d ht) (hne : lines ≠ []) {d' : Nat}
    (hd : d' ≤ lines.length) :
    some (ht.line (back max ht.head d')) = lineAt (ht.line ht.head) lines d' := by
  unfold lineAt
  rw [if_neg hne]
  cases d' with
  | zero => rw [if_pos rfl, back_zero]
  | succ e => rw [if_neg (Nat.succ_ne_zero e), h.line e hd, Nat.add_sub_cancel]

/-- `history_prev` goes one back, but not beyond the oldest line. -/
theorem prev (h : Keeps max lines d ht) :
    (historyPrev ht).1 = lineAt (ht.line ht.head) lines (min (d + 1) lines.length) ∧
      Keeps max lines (min (d + 1) lines.length) (historyPrev ht).2 ∧
      (historyPrev ht).2.line = ht.line ∧ (historyPrev ht).2.head = ht.head := by
  by_cases hnil : lines = []
  · have hprev : historyPrev ht = (none, ht) := if_pos (h.tail_eq_head_iff.mpr hnil)
    have hd := h.le
    rw [hprev]
    subst hnil
    obtain rfl : d = 0 := Nat.le_zero.mp hd
    exact ⟨rfl, h, rfl, rfl⟩
  · have hle : min (d + 1) lines.length ≤ lines.length := Nat.min_le_right ..
    have hpos : (if ht.pos ≠ ht.tail then (if ht.pos = 0 then ht.max else ht.pos) - 1 else ht.pos) =
        back max ht.head (min (d + 1) lines.length) := by
      have hd := h.le
      have hlength := h.length
      by_cases htail : d = lines.length
      · rw [if_neg (not_not.mpr (h.pos_eq_tail_iff.mpr htail)), h.pos, ← htail,
          Nat.min_eq_right (Nat.le_succ d)]
      · rw [if_pos (mt h.pos_eq_tail_iff.mp htail), Nat.min_eq_left (by omega), h.max_eq, h.pos]
        exact back_succ (by omega)
    have hprev : historyPrev ht = (some (ht.line (back max ht.head (min (d + 1) lines.length))),
        { ht with pos := back max ht.head (min (d + 1) lines.length) }) := by
      rw [← hpos]
      exact if_neg (mt h.tail_eq_head_iff.mp hnil)
    rw [hprev]
    exact ⟨h.line_back hnil hle, h.moved hle, rfl, rfl⟩

/-- `history_next` goes one forward, but not beyond the head. -/
theorem next (h : Keeps max lines d ht) :
    (historyNext ht).1 = lineAt (ht.line ht.head) lines (d - 1) ∧
      Keeps max lines (d - 1) (historyNext ht).2 ∧
      (historyNext ht).2.line = ht.line ∧ (historyNext ht).2.head = ht.head := by
  by_cases hnil : lines = []
  · have hnext : historyNext ht = (none, ht) := if_pos (h.tail_eq_head_iff.mpr hnil)
    have hd := h.le
    rw [hnext]
    subst hnil
    obtain rfl : d = 0 := Nat.le_zero.mp hd
    exact ⟨rfl, h, rfl, rfl⟩
  · have hle : d - 1 ≤ lines.length := (Nat.sub_le d 1).trans h.le
    have hpos : (if ht.pos ≠ ht.head then ht.advance ht.pos else ht.pos) =
        back max ht.head (d - 1) := by
      have hd := h.le
      have hlength := h.length
      have hmax := h.max_eq
      split_ifs with hhead
      · have hpos : d ≠ 0 := mt h.pos_eq_head_iff.mpr hhead
        obtain ⟨e, rfl⟩ := Nat.exists_eq_succ_of_ne_zero hpos
        have hback := @CmdHistory.advance_back ht (hmax ▸ h.le_255) (hmax ▸ h.head) e
          (by rw [hmax]; omega)
        rw [hmax] at hback
        rw [h.pos, Nat.succ_eq_add_one, hback, Nat.add_sub_cancel]
      · rw [h.pos, h.pos_eq_head_iff.mp (not_not.mp hhead)]
    have hnext : historyNext ht = (some (ht.line (back max ht.head (d - 1))),
        { ht with pos := back max ht.head (d - 1) }) := by
      rw [← hpos]
      exact if_neg (mt h.tail_eq_head_iff.mp hnil)
    rw [hnext]
    exact ⟨h.line_back hnil hle, h.moved hle, rfl, rfl⟩

/-- The line before the head is the last one that was stored. -/
theorem last_line (h : Keeps max lines d ht) (s : Line) :
    ht.head ≠ ht.tail ∧ s = ht.line ((if ht.head = 0 then ht.max else ht.head) - 1) ↔
      lines.head? = some s := by
  have htwo := h.two_le
  have hback : (if ht.head = 0 then ht.max else ht.head) - 1 = back max ht.head 1 := by
    have hsucc := @back_succ max ht.head 0 (by omega)
    rw [back_zero] at hsucc
    rw [h.max_eq]
    exact hsucc
  rw [hback, ne_comm, ne_eq, h.tail_eq_head_iff]
  cases lines with
  | nil => simp
  | cons l lines =>
      have hline := h.line 0 (Nat.succ_pos _)
      rw [Nat.zero_add, List.getElem?_cons_zero] at hline
      rw [Option.some.inj hline, List.head?_cons, Option.some.injEq]
      exact (and_iff_right (List.cons_ne_nil l lines)).trans eq_comm

/-- A line becomes the last one, and the oldest line gives way to it. -/
theorem pushed (h : Keeps max lines d ht) (s : Line) :
    Keeps max ((s :: lines).take (max - 1)) 0
      { ht with
        line := Function.update (Function.update ht.line ht.head s) (ht.advance ht.head) []
        head := ht.advance ht.head
        tail := if ht.advance ht.head = ht.tail then ht.advance ht.tail else ht.tail
        pos := ht.advance ht.head } := by
  have hmax := h.max_eq
  have htwo := h.two_le
  have hlength := h.length
  have hle : ht.max ≤ 255 := hmax ▸ h.le_255
  have hhead : ht.head < ht.max := hmax ▸ h.head
  have hnext : ht.advance ht.head = back max ht.head (max - 1) :=
    hmax ▸ CmdHistory.advance_head hle hhead
  have hnextLt : ht.advance ht.head < max := hnext ▸ back_lt h.head (by omega)
  have hback : ∀ e, e + 1 < max → back max (ht.advance ht.head) (e + 1) = back max ht.head e :=
    fun e he => hmax ▸ CmdHistory.back_advance hle hhead (hmax.symm ▸ he)
  have htake : ((s :: lines).take (max - 1)).length = min (max - 1) (lines.length + 1) := by
    rw [List.length_take, List.length_cons]
  refine ⟨hmax, htwo, h.le_255, hnextLt, by omega, ?_, back_zero.symm, Nat.zero_le _,
    fun e he => ?_⟩
  · show (if ht.advance ht.head = ht.tail then ht.advance ht.tail else ht.tail) = back max _ _
    rw [htake]
    by_cases hfull : lines.length = max - 1
    · have htail : ht.advance ht.head = ht.tail := by rw [hnext, h.tail, hfull]
      rw [if_pos htail, ← htail, Nat.min_eq_left (by omega)]
      have hlast := @CmdHistory.advance_head { ht with head := ht.advance ht.head } hle
        (hmax.symm ▸ hnextLt)
      exact hmax ▸ hlast
    · have htail : ht.advance ht.head ≠ ht.tail := fun heq => by
        rw [hnext, h.tail] at heq
        exact hfull (back_inj (by omega) hlength heq).symm
      rw [if_neg htail, Nat.min_eq_right (by omega), hback _ (by omega), h.tail]
  · have he' : e < max - 1 ∧ e < lines.length + 1 := lt_min_iff.mp (htake ▸ he)
    show some (Function.update (Function.update ht.line ht.head s) (ht.advance ht.head) []
      (back max (ht.advance ht.head) (e + 1))) = _
    have hne : back max ht.head e ≠ ht.advance ht.head := fun heq => by
      rw [hnext] at heq
      exact absurd (back_inj (by omega) (by omega) heq) (by omega)
    rw [hback e (by omega), Function.update_of_ne hne, List.getElem?_take_of_lt he'.1]
    cases e with
    | zero => rw [back_zero, Function.update_self, List.getElem?_cons_zero]
    | succ e =>
        have hold : back max ht.head (e + 1) ≠ ht.head := fun heq =>
          absurd (back_inj (by omega) (by omega) (heq.trans back_zero.symm))
            (Nat.succ_ne_zero e)
        rw [Function.update_of_ne hold, List.getElem?_cons_succ]
        exact h.line e (by omega)

/-- The lines when one more is added. -/
def added (max : Nat) (s : Line) (lines : List Line) : List Line :=
  if s = [] ∨ lines.head? = some s then lines else (s :: lines).take (max - 1)

theorem add (h : Keeps max lines d ht) (s : Line) :
    ∃ d', Keeps max (added max s lines) d' (historyAdd ht s) := by
  unfold historyAdd added
  by_cases hs : s = []
  · rw [if_pos hs, if_pos (Or.inl hs)]
    exact ⟨d, h⟩
  rw [if_neg hs]
  by_cases hlast : lines.head? = some s
  · rw [if_pos ((h.last_line s).mpr hlast), if_pos (Or.inr hlast)]
    have hmoved := @moved max d lines ht h 0 (Nat.zero_le _)
    rw [back_zero] at hmoved
    exact ⟨0, hmoved⟩
  · rw [if_neg (mt (h.last_line s).mp hlast), if_neg (not_or.mpr ⟨hs, hlast⟩)]
    exact ⟨0, h.pushed s⟩

/-- The stored lines are what the cursors say. -/
theorem lines_eq (h : Keeps max lines d ht) : ht.lines = lines := by
  have hcount : ht.count = lines.length := by
    unfold CmdHistory.count
    rw [h.tail, h.max_eq]
    exact count_back h.length
  unfold CmdHistory.lines
  rw [hcount, h.max_eq]
  apply List.ext_getElem?
  intro e
  by_cases he : e < lines.length
  · rw [List.getElem?_map, List.getElem?_range he, Option.map_some]
    exact h.line e he
  · rw [List.getElem?_eq_none (by simpa using he), List.getElem?_eq_none (Nat.le_of_not_lt he)]

end Keeps

/-! ## Runs -/

/-- A call for a history. -/
inductive HistoryCall
  | add (s : Line)
  | prev
  | next

def HistoryCall.run : HistoryCall → CmdHistory → CmdHistory
  | add s, ht => historyAdd ht s
  | prev, ht => (historyPrev ht).2
  | next, ht => (historyNext ht).2

/-- The history after some calls. -/
def afterCalls (line : Nat → Line) (bufsz lineLen : Nat) (calls : List HistoryCall) : CmdHistory :=
  calls.foldl (fun ht call => call.run ht) (historyInit line bufsz lineLen)

/-- The line that a call adds: an empty one is not. -/
def HistoryCall.added? : HistoryCall → Option Line
  | add s => if s = [] then none else some s
  | prev => none
  | next => none

/-- The added lines, with the last one first. -/
def addedLines (calls : List HistoryCall) : List Line :=
  (calls.filterMap HistoryCall.added?).reverse

/-- The lines without those that are equal to the line added before them. -/
def dropRepeats : List Line → List Line
  | [] => []
  | [s] => [s]
  | s :: p :: lines => if s = p then dropRepeats (p :: lines) else s :: dropRepeats (p :: lines)

theorem head?_dropRepeats (lines : List Line) : (dropRepeats lines).head? = lines.head? := by
  induction lines using dropRepeats.induct with
  | case1 => rfl
  | case2 s => rfl
  | case3 p lines ih =>
      rw [dropRepeats, if_pos rfl]
      exact ih
  | case4 s p lines hne ih =>
      rw [dropRepeats, if_neg hne]
      rfl

theorem dropRepeats_cons (s : Line) (lines : List Line) :
    dropRepeats (s :: lines) =
      if lines.head? = some s then dropRepeats lines else s :: dropRepeats lines := by
  cases lines with
  | nil => rfl
  | cons p lines =>
      rw [dropRepeats]
      simp only [List.head?_cons, Option.some.injEq, eq_comm]

theorem added_recent {max : Nat} (htwo : 2 ≤ max) {s : Line} (hs : s ≠ []) (lines : List Line) :
    Keeps.added max s ((dropRepeats lines).take (max - 1)) =
      (dropRepeats (s :: lines)).take (max - 1) := by
  obtain ⟨k, rfl⟩ := Nat.exists_eq_add_of_le' htwo
  have hhead : ((dropRepeats lines).take (k + 2 - 1)).head? = lines.head? := by
    rw [show k + 2 - 1 = k + 1 from rfl, List.head?_take, if_neg (Nat.succ_ne_zero k),
      head?_dropRepeats]
  unfold Keeps.added
  rw [dropRepeats_cons, hhead]
  by_cases hrepeat : lines.head? = some s
  · rw [if_pos (Or.inr hrepeat), if_pos hrepeat]
  · rw [if_neg (not_or.mpr ⟨hs, hrepeat⟩), if_neg hrepeat, show k + 2 - 1 = k + 1 from rfl,
      List.take_succ_cons, List.take_succ_cons, List.take_take, Nat.min_eq_left (Nat.le_succ k)]

theorem keeps_init (line : Nat → Line) {bufsz lineLen max : Nat}
    (hmax : (bufsz - 5) / lineLen = max) (htwo : 2 ≤ max) (hle : max ≤ 255) :
    Keeps max [] 0 (historyInit line bufsz lineLen) :=
  ⟨by rw [← hmax]; exact Nat.mod_eq_of_lt (by omega), htwo, hle, Nat.zero_lt_of_lt htwo,
    Nat.zero_lt_of_lt htwo, rfl, rfl, le_rfl, fun _ he => absurd he (Nat.not_lt_zero _)⟩

theorem keeps_afterCalls (line : Nat → Line) {bufsz lineLen max : Nat}
    (hmax : (bufsz - 5) / lineLen = max) (htwo : 2 ≤ max) (hle : max ≤ 255)
    (calls : List HistoryCall) :
    ∃ d, Keeps max ((dropRepeats (addedLines calls)).take (max - 1)) d
      (afterCalls line bufsz lineLen calls) := by
  unfold afterCalls addedLines
  induction calls using List.reverseRecOn with
  | nil =>
      rw [show dropRepeats _ = [] from rfl, List.take_nil]
      exact ⟨0, keeps_init line hmax htwo hle⟩
  | append_singleton calls call ih =>
      obtain ⟨d, ih⟩ := ih
      rw [List.foldl_append, List.filterMap_append, List.reverse_append]
      cases call with
      | add s =>
          have hadd := ih.add s
          by_cases hs : s = []
          · have hnone : List.filterMap HistoryCall.added? [.add s] = [] := by
              simp [HistoryCall.added?, hs]
            rw [hnone]
            unfold Keeps.added at hadd
            rw [if_pos (Or.inl hs)] at hadd
            exact hadd
          · have hsome : List.filterMap HistoryCall.added? [.add s] = [s] := by
              simp [HistoryCall.added?, hs]
            rw [hsome]
            rw [added_recent htwo hs] at hadd
            exact hadd
      | prev => exact ⟨_, ih.prev.2.1⟩
      | next => exact ⟨_, ih.next.2.1⟩

/-- The history after `n` steps back and `m` forward. -/
def stepped (n m : Nat) (ht : CmdHistory) : CmdHistory :=
  (fun ht => (historyNext ht).2)^[m] ((fun ht => (historyPrev ht).2)^[n] ht)

theorem Keeps.after_steps {max d : Nat} {lines : List Line} {ht : CmdHistory}
    (h : Keeps max lines d ht) (n m : Nat) :
    Keeps max lines (min (d + n) lines.length - m) (stepped n m ht) ∧
      (stepped n m ht).line = ht.line ∧ (stepped n m ht).head = ht.head := by
  induction m with
  | zero =>
      induction n with
      | zero => exact ⟨by rw [Nat.add_zero, Nat.min_eq_left h.le]; exact h, rfl, rfl⟩
      | succ n ih =>
          unfold stepped at ih ⊢
          rw [Function.iterate_succ_apply']
          obtain ⟨hkeeps, hline, hhead⟩ := ih
          obtain ⟨-, hprev, hprevLine, hprevHead⟩ := hkeeps.prev
          refine ⟨?_, hprevLine.trans hline, hprevHead.trans hhead⟩
          have hmin : min (min (d + n) lines.length - 0 + 1) lines.length =
              min (d + (n + 1)) lines.length - 0 := by omega
          rw [← hmin]
          exact hprev
  | succ m ih =>
      unfold stepped at ih ⊢
      rw [Function.iterate_succ_apply']
      obtain ⟨hkeeps, hline, hhead⟩ := ih
      obtain ⟨-, hnext, hnextLine, hnextHead⟩ := hkeeps.next
      exact ⟨hnext, hnextLine.trans hline, hnextHead.trans hhead⟩

/-- From a fresh position, the calls of `history_prev` give the stored lines with the last one
first, and then the oldest one; those of `history_next` retrace them to the head line. -/
structure Retraces (ht : CmdHistory) : Prop where
  prev : ∀ n, (historyPrev (stepped n 0 ht)).1 = ht.lines[min n (ht.lines.length - 1)]?
  next : ∀ n m, (historyNext (stepped n m ht)).1 =
    lineAt (ht.line ht.head) ht.lines (min n ht.lines.length - (m + 1))

theorem Keeps.retraces {max : Nat} {lines : List Line} {ht : CmdHistory}
    (h : Keeps max lines 0 ht) : Retraces ht := by
  refine ⟨fun n => ?_, fun n m => ?_⟩
  · obtain ⟨hkeeps, hline, hhead⟩ := h.after_steps n 0
    rw [hkeeps.prev.1, hline, hhead, h.lines_eq]
    unfold lineAt
    split_ifs with hnil hzero
    · rw [hnil]
      rfl
    · exact absurd (List.length_eq_zero_iff.mp (by omega)) hnil
    · exact congrArg (lines[·]?) (by omega)
  · obtain ⟨hkeeps, hline, hhead⟩ := h.after_steps n m
    rw [hkeeps.next.1, hline, hhead, h.lines_eq, Nat.zero_add, Nat.sub_sub]

/-- After any calls the stored lines are the last ones that were added, without repeats, the
cursors are below the number of entries, and a fresh position is stepped back and forward. -/
theorem history_recent (line : Nat → Line) {bufsz lineLen max : Nat}
    (hmax : (bufsz - 5) / lineLen = max) (htwo : 2 ≤ max) (hle : max ≤ 255)
    (calls : List HistoryCall) :
    let ht := afterCalls line bufsz lineLen calls
    ht.lines = (dropRepeats (addedLines calls)).take (max - 1) ∧
      (ht.pos < max ∧ ht.head < max ∧ ht.tail < max) ∧ (ht.pos = ht.head → Retraces ht) := by
  obtain ⟨d, h⟩ := keeps_afterCalls line hmax htwo hle calls
  refine ⟨h.lines_eq, ⟨?_, h.head, ?_⟩, fun hfresh => ?_⟩
  · rw [h.pos]
    exact back_lt h.head (h.le.trans_lt h.length)
  · rw [h.tail]
    exact back_lt h.head h.length
  · obtain rfl := h.pos_eq_head_iff.mp hfresh
    exact h.retraces

/-- Of the lines `a`, `b`, `b` and `c`, three entries keep `c` and `b`. -/
theorem history_recent_three :
    (afterCalls (fun _ => []) 35 10
      [.add [0x61], .add [0x62], .add [0x62], .prev, .add [0x63]]).lines = [[0x63], [0x62]] :=
  (history_recent (fun _ => []) (by decide : (35 - 5) / 10 = 3) (by decide) (by decide) _).1

end YardIce.Shell
