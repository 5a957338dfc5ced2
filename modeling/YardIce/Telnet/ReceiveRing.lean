import YardIce.Lib.Ring
import YardIce.Lib.Runs
import YardIce.Telnet.Service

/-!
# The receive ring of the TELNET service

`telnet_input_task` puts bytes into the ring of `struct telnet_svc` and `telnet_svc_read` takes them
out, each in a thread of its own. The task counts in a `head` of its own and publishes it at the end
of a chunk, or when the ring is full; two flags tell the other side of a change.

## Implementation notes

A step is one access to the shared variables by one of the threads. `thinkos_flag_take` goes on when
the flag is set, and clears it; `thinkos_flag_give` sets it. Which bytes of a chunk are stored is up
to the state machine of the task; here it may be any. A negative count of `telnet_svc_read` makes
`memcpy` run over its ends.
-/

namespace YardIce.Telnet

open Lib

/-- `telnet_input_task`; `head` is its own variable, `c` the byte to be stored. -/
inductive Writer where
  | accept
  | top (head : BitVec 32)
  | publish (head : BitVec 32)
  | signal (head : BitVec 32)
  | recv (head : BitVec 32)
  | chunk (head : BitVec 32)
  | full (head : BitVec 32) (c : Byte)
  | publishFull (head : BitVec 32) (c : Byte)
  | signalFull (head : BitVec 32) (c : Byte)
  | room (head : BitVec 32) (c : Byte)
  | wait (head : BitVec 32) (c : Byte)
  | put (head : BitVec 32) (c : Byte)

/-- `telnet_svc_read`; `got` is what has been copied. -/
inductive Reader where
  | idle
  | check (len tail : BitVec 32)
  | wait (len tail : BitVec 32)
  | copy (tail : BitVec 32) (cnt : Nat) (got : List Byte)
  | update (tail : BitVec 32) (cnt : Nat) (got : List Byte)
  | signal (cnt : Nat) (got : List Byte)
  | wild

/-- The task is about to give a signal. -/
def Writer.Signals : Writer → Prop
  | .signal _ => True
  | .signalFull _ _ => True
  | _ => False

/-- Where the task tests for room, `tail + TELNET_SVC_RX_BUF_LEN` has not wrapped past its head. -/
def Writer.unwrapped (tail : BitVec 32) : Writer → Bool
  | .room head _ => head.toNat + (tail + 128 - head).toNat < 2 ^ 32
  | _ => true

/-- The reader is about to give a signal. -/
def Reader.Signals : Reader → Prop
  | .signal cnt _ => cnt ≠ 0
  | _ => False

/-- `rx` of `struct telnet_svc`, the two threads, and for the statements the bytes stored and
returned and the numbers of those that were published and taken. -/
structure Rx where
  head : BitVec 32
  tail : BitVec 32
  buf : BitVec 7 → Byte
  nonemptyFlag : Bool
  nonfullFlag : Bool
  writer : Writer
  reader : Reader
  stored : List Byte
  returned : List Byte
  published : Nat
  taken : Nat

inductive RxAct where
  | accept
  | close
  | chunk
  | chunkEnd
  | byte (c : Byte)
  | writer
  | read (len : BitVec 32)
  | reader

/-- The place of a byte in `buf`, in one of the two parts that are copied. -/
def copySlot (tail : BitVec 32) (cnt i : Nat) : BitVec 7 :=
  let pos := tail.toNat % 128
  if pos + cnt > 128 ∧ 128 - pos ≤ i then BitVec.ofNat 7 (i - (128 - pos))
  else BitVec.ofNat 7 (pos + i)

namespace Rx

/-- `telnet_svc_init` -/
def init (buf : BitVec 7 → Byte) : Rx :=
  ⟨0, 0, buf, false, false, .accept, .idle, [], [], 0, 0⟩

variable (s : Rx)

/-- The next step of the task inside of its loops. -/
def writerStep : Option Rx :=
  match s.writer with
  | .top head => some { s with writer := if head ≠ s.tail then .publish head else .recv head }
  | .publish head =>
      some { s with head := head, published := s.stored.length, writer := .signal head }
  | .signal head => some { s with nonemptyFlag := true, writer := .recv head }
  | .full head c =>
      some { s with writer := if head = s.tail + 128 then .publishFull head c else .put head c }
  | .publishFull head c =>
      some { s with head := head, published := s.stored.length, writer := .signalFull head c }
  | .signalFull head c => some { s with nonemptyFlag := true, writer := .room head c }
  | .room head c =>
      some { s with writer := if head < s.tail + 128 then .put head c else .wait head c }
  | .wait head c =>
      if s.nonfullFlag then some { s with nonfullFlag := false, writer := .room head c } else none
  | .put head c =>
      some { s with
        buf := Function.update s.buf (head.setWidth 7) c
        stored := s.stored ++ [c]
        writer := .chunk (head + 1) }
  | _ => none

/-- The next step of a call of `telnet_svc_read`. -/
def readerStep : Option Rx :=
  match s.reader with
  | .check len tail =>
      let max := (s.head - tail).toInt
      if 0 < max then
        let cnt := min max len.toInt
        some { s with reader := if cnt < 0 then .wild else .copy tail cnt.toNat [] }
      else some { s with reader := .wait len tail }
  | .wait len tail =>
      if s.nonemptyFlag then some { s with nonemptyFlag := false, reader := .check len tail }
      else none
  | .copy tail cnt got =>
      some { s with
        reader :=
          if got.length < cnt then .copy tail cnt (got ++ [s.buf (copySlot tail cnt got.length)])
          else .update tail cnt got }
  | .update tail cnt got =>
      some { s with
        tail := tail + BitVec.ofNat 32 cnt, taken := s.taken + cnt, reader := .signal cnt got }
  | .signal cnt got =>
      some { s with
        nonfullFlag := if cnt ≠ 0 then true else s.nonfullFlag
        returned := s.returned ++ got
        reader := .idle }
  | _ => none

def step : RxAct → Option Rx
  | .accept =>
      match s.writer with
      | .accept => some { s with writer := .top s.head }
      | _ => none
  | .close =>
      match s.writer with
      | .recv _ => some { s with writer := .accept }
      | _ => none
  | .chunk =>
      match s.writer with
      | .recv head => some { s with writer := .chunk head }
      | _ => none
  | .chunkEnd =>
      match s.writer with
      | .chunk head => some { s with writer := .top head }
      | _ => none
  | .byte c =>
      match s.writer with
      | .chunk head => some { s with writer := .full head c }
      | _ => none
  | .writer => s.writerStep
  | .read len =>
      match s.reader with
      | .idle => some { s with reader := .check len s.tail }
      | _ => none
  | .reader => s.readerStep

/-! ## What is asked of the ring -/

/-- A signal for the reader is there, or the task stands before its `thinkos_flag_give`. -/
def NonemptyPending : Prop := s.nonemptyFlag = true ∨ s.writer.Signals

/-- A signal for the task is there, or the reader stands before its `thinkos_flag_give`. -/
def NonfullPending : Prop := s.nonfullFlag = true ∨ s.reader.Signals

/-- The reader waits while there are published bytes, and nobody will wake it up. -/
def ReaderStuck : Prop :=
  match s.reader with
  | .wait _ _ => s.head ≠ s.tail ∧ ¬ s.NonemptyPending
  | _ => False

/-- The task waits while there is room, and nobody will wake it up. -/
def WriterStuck : Prop :=
  match s.writer with
  | .wait head _ => (head - s.tail).toNat < 128 ∧ ¬ s.NonfullPending
  | _ => False

/-- The task stores a byte only where there is no unread one, and `memcpy` stays in the ring. -/
def Inside : Prop :=
  (match s.writer with
    | .put head _ => (head - s.tail).toNat < 128
    | _ => True) ∧
  match s.reader with
    | .wild => False
    | _ => True

/-- The ring neither loses bytes nor wake-ups. -/
structure Lossless : Prop where
  fifo : s.returned <+: s.stored
  inside : s.Inside
  reader : ¬ s.ReaderStuck
  writer : ¬ s.WriterStuck

/-- The length of a read is not negative as an `int`, and where the task tests for room,
`tail + TELNET_SVC_RX_BUF_LEN` has not wrapped past its `head`. -/
def Clean (a : RxAct) : Prop :=
  match a with
  | .read len => len.toNat < 2 ^ 31
  | .writer => s.writer.unwrapped s.tail = true
  | _ => True

instance (a : RxAct) : Decidable (s.Clean a) :=
  match a with
  | .accept => isTrue trivial
  | .close => isTrue trivial
  | .chunk => isTrue trivial
  | .chunkEnd => isTrue trivial
  | .byte _ => isTrue trivial
  | .writer => inferInstanceAs (Decidable (_ = true))
  | .read len => inferInstanceAs (Decidable (len.toNat < 2 ^ 31))
  | .reader => isTrue trivial

/-! ## The invariant -/

/-- What the variable of the task and the ring are at a place of the task. -/
def WriterGood : Prop :=
  match s.writer with
  | .accept => s.published = s.stored.length
  | .top head => head = BitVec.ofNat 32 s.stored.length
  | .publish head => head = BitVec.ofNat 32 s.stored.length
  | .signal head => head = BitVec.ofNat 32 s.stored.length ∧ s.published = s.stored.length
  | .recv head => head = BitVec.ofNat 32 s.stored.length ∧ s.published = s.stored.length
  | .chunk head => head = BitVec.ofNat 32 s.stored.length
  | .full head _ => head = BitVec.ofNat 32 s.stored.length
  | .publishFull head _ => head = BitVec.ofNat 32 s.stored.length
  | .signalFull head _ => head = BitVec.ofNat 32 s.stored.length
  | .room head _ => head = BitVec.ofNat 32 s.stored.length
  | .wait head _ =>
      head = BitVec.ofNat 32 s.stored.length ∧
        (s.stored.length = s.taken + 128 ∨ s.NonfullPending)
  | .put head _ => head = BitVec.ofNat 32 s.stored.length ∧ s.stored.length < s.taken + 128

/-- What the variables of the reader are at a place of `telnet_svc_read`. -/
def ReaderGood : Prop :=
  match s.reader with
  | .idle => s.returned = s.stored.take s.taken
  | .check len tail =>
      s.returned = s.stored.take s.taken ∧ tail = BitVec.ofNat 32 s.taken ∧ len.toNat < 2 ^ 31
  | .wait len tail =>
      s.returned = s.stored.take s.taken ∧ tail = BitVec.ofNat 32 s.taken ∧
        len.toNat < 2 ^ 31 ∧ (s.published = s.taken ∨ s.NonemptyPending)
  | .copy tail cnt got =>
      s.returned = s.stored.take s.taken ∧ tail = BitVec.ofNat 32 s.taken ∧
        s.taken + cnt ≤ s.published ∧ got.length ≤ cnt ∧
        got = (s.stored.drop s.taken).take got.length
  | .update tail cnt got =>
      s.returned = s.stored.take s.taken ∧ tail = BitVec.ofNat 32 s.taken ∧
        s.taken + cnt ≤ s.published ∧ got = (s.stored.drop s.taken).take cnt
  | .signal _ got => s.returned ++ got = s.stored.take s.taken
  | .wild => False

/-- The counters name positions, in their order, and the ring holds what was stored and is not
taken. -/
structure Inv : Prop where
  head : s.head = BitVec.ofNat 32 s.published
  tail : s.tail = BitVec.ofNat 32 s.taken
  taken : s.taken ≤ s.published
  published : s.published ≤ s.stored.length
  room : s.stored.length ≤ s.taken + 128
  holds : Ring.Holds s.buf 0 s.stored s.taken
  writer : s.WriterGood
  reader : s.ReaderGood

theorem init_inv (buf : BitVec 7 → Byte) : (init buf).Inv :=
  ⟨rfl, rfl, Nat.le_refl _, Nat.le_refl _, Nat.zero_le _, Ring.holds_nil, rfl, rfl⟩

variable {s} {t : Rx}

/-- What the reader relies on lasts over the steps of the task. -/
theorem Inv.readerGood (h : s.Inv) (hreader : t.reader = s.reader)
    (hreturned : t.returned = s.returned) (htaken : t.taken = s.taken) {l : List Byte}
    (hstored : t.stored = s.stored ++ l) (hpub : s.published ≤ t.published)
    (hwait : s.published = s.taken ∨ s.NonemptyPending →
      t.published = t.taken ∨ t.NonemptyPending) : t.ReaderGood := by
  have hle := h.taken.trans h.published
  have hpublished := h.published
  have htake : t.stored.take t.taken = s.stored.take s.taken := by
    rw [hstored, htaken, List.take_append_of_le_length hle]
  have hdrop : ∀ n, s.taken + n ≤ s.published →
      (t.stored.drop t.taken).take n = (s.stored.drop s.taken).take n := by
    intro n hn
    rw [hstored, htaken, List.drop_append_of_le_length hle,
      List.take_append_of_le_length (by rw [List.length_drop]; omega)]
  have hr := h.reader
  rw [ReaderGood] at hr ⊢
  rw [hreader, hreturned, htake]
  rcases hpc : s.reader with _ | ⟨len, tail⟩ | ⟨len, tail⟩ | ⟨tail, cnt, got⟩ |
    ⟨tail, cnt, got⟩ | ⟨cnt, got⟩ | _
  all_goals rw [hpc] at hr
  case wait => exact ⟨hr.1, htaken ▸ hr.2.1, hr.2.2.1, hwait hr.2.2.2⟩
  case copy =>
    obtain ⟨hret, htail, hcnt, hgot, hcopied⟩ := hr
    exact ⟨hret, htaken ▸ htail, by omega, hgot, hcopied.trans (hdrop _ (by omega)).symm⟩
  case update =>
    obtain ⟨hret, htail, hcnt, hcopied⟩ := hr
    exact ⟨hret, htaken ▸ htail, by omega, hcopied.trans (hdrop _ hcnt).symm⟩
  case check => exact ⟨hr.1, htaken ▸ hr.2.1, hr.2.2⟩
  all_goals exact hr

/-- What the task relies on lasts over the steps of the reader. -/
theorem Inv.writerGood (h : s.Inv) (hwriter : t.writer = s.writer)
    (hstored : t.stored = s.stored) (hpub : t.published = s.published)
    (htaken : s.taken ≤ t.taken)
    (hwait : s.stored.length = s.taken + 128 ∨ s.NonfullPending →
      s.stored.length = t.taken + 128 ∨ t.NonfullPending) : t.WriterGood := by
  have hw := h.writer
  rw [WriterGood] at hw ⊢
  rw [hwriter, hstored, hpub]
  rcases hpc : s.writer with _ | _ | _ | _ | _ | _ | _ | _ | _ | _ | ⟨head, c⟩ | ⟨head, c⟩
  all_goals rw [hpc] at hw
  case wait => exact ⟨hw.1, hwait hw.2⟩
  case put => exact ⟨hw.1, by have := hw.2; omega⟩
  all_goals exact hw

/-- The steps of the task that only go to another place. -/
theorem Inv.goto (h : s.Inv) {w : Writer} (hquiet : ¬ s.writer.Signals)
    (hw : ({ s with writer := w } : Rx).WriterGood) : ({ s with writer := w } : Rx).Inv :=
  ⟨h.head, h.tail, h.taken, h.published, h.room, h.holds, hw,
    h.readerGood rfl rfl rfl (List.append_nil _).symm (Nat.le_refl _)
      (Or.imp_right fun hp => Or.inl (hp.resolve_right hquiet))⟩

/-- The task publishes its head. -/
theorem Inv.publish (h : s.Inv) {w : Writer} {head : BitVec 32}
    (hhead : head = BitVec.ofNat 32 s.stored.length)
    (hw : ({ s with head := head, published := s.stored.length, writer := w } : Rx).WriterGood)
    (hp : ({ s with
      head := head, published := s.stored.length, writer := w } : Rx).NonemptyPending) :
    ({ s with head := head, published := s.stored.length, writer := w } : Rx).Inv :=
  ⟨hhead, h.tail, h.taken.trans h.published, Nat.le_refl _, h.room, h.holds, hw,
    h.readerGood rfl rfl rfl (List.append_nil _).symm h.published fun _ => Or.inr hp⟩

/-- The task gives the signal. -/
theorem Inv.signal (h : s.Inv) {w : Writer}
    (hw : ({ s with nonemptyFlag := true, writer := w } : Rx).WriterGood) :
    ({ s with nonemptyFlag := true, writer := w } : Rx).Inv :=
  ⟨h.head, h.tail, h.taken, h.published, h.room, h.holds, hw,
    h.readerGood rfl rfl rfl (List.append_nil _).symm (Nat.le_refl _)
      fun _ => Or.inr (Or.inl rfl)⟩

/-- A test of the counters. -/
theorem Inv.head_eq_tail (h : s.Inv) :
    BitVec.ofNat 32 s.stored.length = s.tail ↔ s.stored.length = s.taken := by
  have hle := h.taken.trans h.published
  have hroom := h.room
  rw [h.tail]
  constructor
  · intro heq
    by_contra hne
    exact Ring.counter_ne (by omega) (by omega) heq.symm
  · exact congrArg _

/-- The ring is full. -/
theorem Inv.head_eq_full (h : s.Inv) :
    BitVec.ofNat 32 s.stored.length = s.tail + 128 ↔ s.stored.length = s.taken + 128 := by
  have hle := h.taken.trans h.published
  have hroom := h.room
  have htail : s.tail + 128 = BitVec.ofNat 32 (s.taken + 128) := by
    rw [h.tail]
    exact Ring.counter_add _ _
  rw [htail]
  constructor
  · intro heq
    by_contra hne
    exact Ring.counter_ne (by omega) (by omega) heq
  · exact congrArg _

/-- Where `tail + 128` has not wrapped past the head, the comparison tells whether there is room. -/
theorem Inv.lt_full_iff (h : s.Inv)
    (hclean : (BitVec.ofNat 32 s.stored.length).toNat +
      (s.tail + 128 - BitVec.ofNat 32 s.stored.length).toNat < 2 ^ 32) :
    BitVec.ofNat 32 s.stored.length < s.tail + 128 ↔ s.stored.length < s.taken + 128 := by
  have hfull := h.head_eq_full
  have hroom := h.room
  rw [BitVec.lt_def]
  generalize BitVec.ofNat 32 s.stored.length = head at hclean hfull ⊢
  have hsum : (s.tail + 128).toNat = (head.toNat + (s.tail + 128 - head).toNat) % 2 ^ 32 := by
    rw [← BitVec.toNat_add, add_sub_cancel]
  rw [Nat.mod_eq_of_lt hclean] at hsum
  constructor
  · intro hlt
    have hne : head ≠ s.tail + 128 := fun heq => by
      rw [heq] at hlt
      exact Nat.lt_irrefl _ hlt
    have hpart := mt hfull.mpr hne
    omega
  · intro hlt
    by_contra hge
    have heq : head.toNat = (s.tail + 128).toNat := by omega
    have hlen := hfull.mp (BitVec.eq_of_toNat_eq heq)
    omega

/-- Every step of the task keeps the invariant. -/
theorem Inv.writerStep (h : s.Inv) (hclean : s.Clean .writer) (hstep : s.writerStep = some t) :
    t.Inv := by
  have hw := h.writer
  rcases hpc : s.writer with _ | head | head | head | head | head | ⟨head, c⟩ | ⟨head, c⟩ |
    ⟨head, c⟩ | ⟨head, c⟩ | ⟨head, c⟩ | ⟨head, c⟩
  all_goals rw [WriterGood, hpc] at hw
  case top =>
    simp only [Rx.writerStep, hpc, Option.some.injEq] at hstep
    subst hstep
    refine h.goto (by rw [hpc]; exact id) ?_
    rw [hw]
    split
    · exact rfl
    next heq =>
      rw [ne_eq, not_not] at heq
      have hlen := h.head_eq_tail.mp heq
      have hpub := h.published
      have htaken := h.taken
      exact ⟨rfl, by show s.published = s.stored.length; omega⟩
  case publish =>
    simp only [Rx.writerStep, hpc, Option.some.injEq] at hstep
    subst hstep
    exact h.publish hw ⟨hw, rfl⟩ (Or.inr trivial)
  case signal =>
    simp only [Rx.writerStep, hpc, Option.some.injEq] at hstep
    subst hstep
    exact h.signal hw
  case full =>
    simp only [Rx.writerStep, hpc, Option.some.injEq] at hstep
    subst hstep
    refine h.goto (by rw [hpc]; exact id) ?_
    split
    · exact hw
    next hne =>
      have hroom := h.room
      rw [hw, h.head_eq_full] at hne
      exact ⟨hw, by show s.stored.length < s.taken + 128; omega⟩
  case publishFull =>
    simp only [Rx.writerStep, hpc, Option.some.injEq] at hstep
    subst hstep
    exact h.publish hw hw (Or.inr trivial)
  case signalFull =>
    simp only [Rx.writerStep, hpc, Option.some.injEq] at hstep
    subst hstep
    exact h.signal hw
  case room =>
    simp only [Rx.writerStep, hpc, Option.some.injEq] at hstep
    subst hstep
    refine h.goto (by rw [hpc]; exact id) ?_
    have hlt : head < s.tail + 128 ↔ s.stored.length < s.taken + 128 := by
      simp only [Clean, hpc, Writer.unwrapped, decide_eq_true_eq] at hclean
      rw [hw] at hclean ⊢
      exact h.lt_full_iff hclean
    have hroom := h.room
    split
    next hyes => exact ⟨hw, hlt.mp hyes⟩
    next hno =>
      have hfull := mt hlt.mpr hno
      exact ⟨hw, Or.inl (by show s.stored.length = s.taken + 128; omega)⟩
  case wait =>
    simp only [Rx.writerStep, hpc] at hstep
    split at hstep
    · cases hstep
      refine ⟨h.head, h.tail, h.taken, h.published, h.room, h.holds, hw.1, ?_⟩
      refine h.readerGood rfl rfl rfl (List.append_nil _).symm (Nat.le_refl _)
        (Or.imp_right fun hp => Or.inl ?_)
      exact hp.resolve_right (by rw [hpc]; exact id)
    · cases hstep
  case put =>
    simp only [Rx.writerStep, hpc, Option.some.injEq] at hstep
    subst hstep
    have hpub := h.published
    have hslot : head.setWidth 7 = BitVec.ofNat 7 (0 + s.stored.length) := by
      rw [hw.1, Nat.zero_add]
      exact Ring.setWidth_counter (by decide) _
    have hlen : (s.stored ++ [c]).length = s.stored.length + 1 := by
      rw [List.length_append, List.length_singleton]
    refine ⟨h.head, h.tail, h.taken, ?_, ?_, ?_, ?_, ?_⟩
    · show s.published ≤ (s.stored ++ [c]).length
      omega
    · show (s.stored ++ [c]).length ≤ s.taken + 128
      have hroom := hw.2
      omega
    · show Ring.Holds (Function.update s.buf (head.setWidth 7) c) 0 (s.stored ++ [c]) s.taken
      rw [hslot]
      exact h.holds.push hw.2 c
    · show head + 1 = BitVec.ofNat 32 (s.stored ++ [c]).length
      rw [hw.1, hlen]
      exact Ring.counter_succ _
    · refine h.readerGood rfl rfl rfl rfl (Nat.le_refl _) (Or.imp_right fun hp => Or.inl ?_)
      exact hp.resolve_right (by rw [hpc]; exact id)
  all_goals simp [Rx.writerStep, hpc] at hstep

/-- The two parts that are copied follow each other in the ring. -/
theorem copySlot_eq {taken cnt i : Nat} :
    copySlot (BitVec.ofNat 32 taken) cnt i = BitVec.ofNat 7 (0 + (taken + i)) := by
  have hpos : (BitVec.ofNat 32 taken).toNat % 128 = taken % 128 := by
    rw [BitVec.toNat_ofNat]
    omega
  refine BitVec.eq_of_toNat_eq ?_
  simp only [copySlot, hpos]
  split
  · rw [BitVec.toNat_ofNat, BitVec.toNat_ofNat]
    omega
  · rw [BitVec.toNat_ofNat, BitVec.toNat_ofNat]
    omega

/-- The number of published bytes that are not taken. -/
theorem Inv.max_eq (h : s.Inv) {tail : BitVec 32} (htail : tail = BitVec.ofNat 32 s.taken) :
    (s.head - tail).toInt = s.published - s.taken := by
  have htaken := h.taken
  have hpub := h.published
  have hroom := h.room
  have hnat : (s.head - tail).toNat = s.published - s.taken := by
    rw [h.head, htail]
    exact Ring.toNat_sub_counter htaken (by omega)
  rw [BitVec.toInt_eq_toNat_of_lt (by omega), hnat]
  omega

/-- The next byte in the ring. -/
theorem Inv.next_byte (h : s.Inv) {n : Nat} (hn : s.taken + n < s.stored.length) :
    (s.stored.drop s.taken).take (n + 1) =
      (s.stored.drop s.taken).take n ++ [s.buf (BitVec.ofNat 7 (0 + (s.taken + n)))] := by
  rw [List.take_add_one, List.getElem?_drop, List.getElem?_eq_getElem hn,
    h.holds _ hn (Nat.le_add_right _ _)]
  rfl

/-- The steps of the reader that only go to another place. -/
theorem Inv.readerGoto (h : s.Inv) {r : Reader} (hquiet : ¬ s.reader.Signals)
    (hr : ({ s with reader := r } : Rx).ReaderGood) : ({ s with reader := r } : Rx).Inv :=
  ⟨h.head, h.tail, h.taken, h.published, h.room, h.holds,
    h.writerGood rfl rfl rfl (Nat.le_refl _)
      (Or.imp_right fun hp => Or.inl (hp.resolve_right hquiet)), hr⟩

/-- Every step of the reader keeps the invariant. -/
theorem Inv.readerStep (h : s.Inv) (hstep : s.readerStep = some t) : t.Inv := by
  have hr := h.reader
  have htaken := h.taken
  have hpub := h.published
  have hroom := h.room
  rcases hpc : s.reader with _ | ⟨len, tail⟩ | ⟨len, tail⟩ | ⟨tail, cnt, got⟩ |
    ⟨tail, cnt, got⟩ | ⟨cnt, got⟩ | _
  all_goals rw [ReaderGood, hpc] at hr
  case check =>
    obtain ⟨hret, htail, hlen⟩ := hr
    have hmax := h.max_eq htail
    have hint : len.toInt = len.toNat := BitVec.toInt_eq_toNat_of_lt (by omega)
    simp only [Rx.readerStep, hpc] at hstep
    split at hstep
    · cases hstep
      refine h.readerGoto (by rw [hpc]; exact id) ?_
      rw [if_neg (by omega)]
      exact ⟨hret, htail, by show s.taken + _ ≤ s.published; omega, Nat.zero_le _, rfl⟩
    · cases hstep
      refine h.readerGoto (by rw [hpc]; exact id) ?_
      exact ⟨hret, htail, hlen, Or.inl (by show s.published = s.taken; omega)⟩
  case wait =>
    obtain ⟨hret, htail, hlen, -⟩ := hr
    simp only [Rx.readerStep, hpc] at hstep
    split at hstep
    · cases hstep
      refine ⟨h.head, h.tail, h.taken, h.published, h.room, h.holds, ?_, hret, htail, hlen⟩
      refine h.writerGood rfl rfl rfl (Nat.le_refl _) (Or.imp_right fun hp => Or.inl ?_)
      exact hp.resolve_right (by rw [hpc]; exact id)
    · cases hstep
  case copy =>
    obtain ⟨hret, htail, hcnt, hgot, hcopied⟩ := hr
    simp only [Rx.readerStep, hpc, Option.some.injEq] at hstep
    subst hstep
    refine h.readerGoto (by rw [hpc]; exact id) ?_
    split
    next hlt =>
      refine ⟨hret, htail, hcnt, ?_, ?_⟩
      · rw [List.length_append, List.length_singleton]
        omega
      · show got ++ [s.buf (copySlot tail cnt got.length)] = (s.stored.drop s.taken).take _
        rw [List.length_append, List.length_singleton, htail, copySlot_eq,
          h.next_byte (by omega), ← hcopied]
    next hge =>
      have hlen : got.length = cnt := by omega
      exact ⟨hret, htail, hcnt, hlen ▸ hcopied⟩
  case update =>
    obtain ⟨hret, htail, hcnt, hcopied⟩ := hr
    simp only [Rx.readerStep, hpc, Option.some.injEq] at hstep
    subst hstep
    have hsum : tail + BitVec.ofNat 32 cnt = BitVec.ofNat 32 (s.taken + cnt) := by
      rw [htail]
      exact Ring.counter_add _ _
    refine ⟨h.head, hsum, hcnt, h.published, ?_, h.holds.mono (Nat.le_add_right _ _), ?_, ?_⟩
    · show s.stored.length ≤ s.taken + cnt + 128
      omega
    · refine h.writerGood rfl rfl rfl (Nat.le_add_right _ _) fun hor => ?_
      rcases Nat.eq_zero_or_pos cnt with rfl | hpos
      · exact hor.imp_right fun hp => Or.inl (hp.resolve_right (by rw [hpc]; exact id))
      · exact Or.inr (Or.inr (Nat.ne_of_gt hpos))
    · show s.returned ++ got = s.stored.take (s.taken + cnt)
      rw [List.take_add, hret, hcopied]
  case signal =>
    simp only [Rx.readerStep, hpc, Option.some.injEq] at hstep
    subst hstep
    refine ⟨h.head, h.tail, h.taken, h.published, h.room, h.holds, ?_, hr⟩
    refine h.writerGood rfl rfl rfl (Nat.le_refl _) (Or.imp_right fun hp => Or.inl ?_)
    rw [NonfullPending, hpc] at hp
    show (if cnt ≠ 0 then true else s.nonfullFlag) = true
    rcases hp with hflag | hne
    · rw [hflag, ite_self]
    · exact if_pos hne
  all_goals simp [Rx.readerStep, hpc] at hstep

/-! ## Runs -/

theorem Inv.step {a : RxAct} (h : s.Inv) (hclean : s.Clean a) (hstep : s.step a = some t) :
    t.Inv := by
  have hw := h.writer
  have hr := h.reader
  cases a with
  | accept =>
      rcases hpc : s.writer with _ | _ | _ | _ | _ | _ | _ | _ | _ | _ | _ | _
      case accept =>
        rw [WriterGood, hpc] at hw
        simp only [Rx.step, hpc, Option.some.injEq] at hstep
        subst hstep
        exact h.goto (by rw [hpc]; exact id) (h.head.trans (congrArg _ hw))
      all_goals simp [Rx.step, hpc] at hstep
  | close =>
      rcases hpc : s.writer with _ | _ | _ | _ | _ | _ | _ | _ | _ | _ | _ | _
      case recv =>
        rw [WriterGood, hpc] at hw
        simp only [Rx.step, hpc, Option.some.injEq] at hstep
        subst hstep
        exact h.goto (by rw [hpc]; exact id) hw.2
      all_goals simp [Rx.step, hpc] at hstep
  | chunk =>
      rcases hpc : s.writer with _ | _ | _ | _ | _ | _ | _ | _ | _ | _ | _ | _
      case recv =>
        rw [WriterGood, hpc] at hw
        simp only [Rx.step, hpc, Option.some.injEq] at hstep
        subst hstep
        exact h.goto (by rw [hpc]; exact id) hw.1
      all_goals simp [Rx.step, hpc] at hstep
  | chunkEnd =>
      rcases hpc : s.writer with _ | _ | _ | _ | _ | _ | _ | _ | _ | _ | _ | _
      case chunk =>
        rw [WriterGood, hpc] at hw
        simp only [Rx.step, hpc, Option.some.injEq] at hstep
        subst hstep
        exact h.goto (by rw [hpc]; exact id) hw
      all_goals simp [Rx.step, hpc] at hstep
  | byte c =>
      rcases hpc : s.writer with _ | _ | _ | _ | _ | _ | _ | _ | _ | _ | _ | _
      case chunk =>
        rw [WriterGood, hpc] at hw
        simp only [Rx.step, hpc, Option.some.injEq] at hstep
        subst hstep
        exact h.goto (by rw [hpc]; exact id) hw
      all_goals simp [Rx.step, hpc] at hstep
  | writer => exact h.writerStep hclean hstep
  | read len =>
      rcases hpc : s.reader with _ | _ | _ | _ | _ | _ | _
      case idle =>
        rw [ReaderGood, hpc] at hr
        simp only [Rx.step, hpc, Option.some.injEq] at hstep
        subst hstep
        exact h.readerGoto (by rw [hpc]; exact id) ⟨hr, h.tail, hclean⟩
      all_goals simp [Rx.step, hpc] at hstep
  | reader => exact h.readerStep hstep

theorem Inv.fifo (h : s.Inv) : s.returned <+: s.stored := by
  have hr := h.reader
  rw [ReaderGood] at hr
  rcases hpc : s.reader with _ | _ | _ | _ | _ | ⟨cnt, got⟩ | _
  all_goals rw [hpc] at hr
  case idle => exact hr ▸ List.take_prefix _ _
  case signal => exact (List.prefix_append _ _).trans (hr ▸ List.take_prefix _ _)
  case wild => exact hr.elim
  all_goals exact hr.1 ▸ List.take_prefix _ _

theorem Inv.room_eq (h : s.Inv) {head : BitVec 32}
    (hhead : head = BitVec.ofNat 32 s.stored.length) :
    (head - s.tail).toNat = s.stored.length - s.taken := by
  have hroom := h.room
  rw [hhead, h.tail]
  exact Ring.toNat_sub_counter (h.taken.trans h.published) (by omega)

theorem Inv.inside (h : s.Inv) : s.Inside := by
  have hw := h.writer
  have hr := h.reader
  rw [WriterGood] at hw
  rw [ReaderGood] at hr
  constructor
  · split
    next head c hpc =>
      rw [hpc] at hw
      rw [h.room_eq hw.1]
      have hlt := hw.2
      omega
    · trivial
  · split
    next hpc =>
      rw [hpc] at hr
      exact hr
    · trivial

theorem Inv.not_readerStuck (h : s.Inv) : ¬ s.ReaderStuck := by
  intro hstuck
  have hr := h.reader
  rw [ReaderStuck] at hstuck
  split at hstuck
  next hpc =>
    rw [ReaderGood, hpc] at hr
    rcases hr.2.2.2 with heq | hpending
    · exact hstuck.1 (by rw [h.head, h.tail, heq])
    · exact hstuck.2 hpending
  · exact hstuck

theorem Inv.not_writerStuck (h : s.Inv) : ¬ s.WriterStuck := by
  intro hstuck
  have hw := h.writer
  rw [WriterStuck] at hstuck
  split at hstuck
  next hpc =>
    rw [WriterGood, hpc] at hw
    rcases hw.2 with hfull | hpending
    · have hlt := hstuck.1
      rw [h.room_eq hw.1] at hlt
      omega
    · exact hstuck.2 hpending
  · exact hstuck

/-- The ring neither loses bytes nor wake-ups, in whatever order the two threads go on. -/
theorem ring_lossless (buf : BitVec 7 → Byte) (as : List RxAct) (s : Rx)
    (hclean : Along step Clean (init buf) as) (hrun : exec step (init buf) as = some s) :
    s.Lossless := by
  have hinv : s.Inv := @exec_invariant _ _ _ _ Inv (fun _ _ _ h ha hs => h.step ha hs)
    _ _ _ (init_inv buf) hclean hrun
  exact ⟨hinv.fifo, hinv.inside, hinv.not_readerStuck, hinv.not_writerStuck⟩

/-- A byte is received, stored, published and read. -/
def oneByte : List RxAct :=
  [.chunk, .byte 0, .writer, .writer, .chunkEnd, .writer, .writer, .writer,
    .read 1, .reader, .reader, .reader, .reader, .reader]

theorem ring_lossless_oneByte :
    ∃ s, exec step (init fun _ => 0) ([.accept, .writer] ++ oneByte) = some s ∧
      s.returned.length = 1 ∧ s.Lossless := by
  have hrun : ((exec step (init fun _ => 0) ([.accept, .writer] ++ oneByte)).any fun s =>
      s.returned.length = 1) = true := by decide
  obtain ⟨s, hs, hlen⟩ := (Option.any_eq_true _ _).mp hrun
  have hclean : Along step Clean (init fun _ => 0) ([.accept, .writer] ++ oneByte) := by
    decide
  exact ⟨s, hs, of_decide_eq_true hlen, ring_lossless _ _ s hclean hs⟩

/-! ## The wrap of the counters -/

/-- `n` bytes went through the ring, and the task waits for the next chunk. -/
def through (n : Nat) : Rx where
  head := BitVec.ofNat 32 n
  tail := BitVec.ofNat 32 n
  buf := fun _ => 0
  nonemptyFlag := n != 0
  nonfullFlag := n != 0
  writer := .recv (BitVec.ofNat 32 n)
  reader := .idle
  stored := List.replicate n 0
  returned := List.replicate n 0
  published := n
  taken := n

theorem through_succ (n : Nat) : exec step (through n) oneByte = some (through (n + 1)) := by
  have hsucc : BitVec.ofNat 32 n + 1 = BitVec.ofNat 32 (n + 1) := Ring.counter_succ n
  have hfull : BitVec.ofNat 32 n ≠ BitVec.ofNat 32 n + 128 := by
    have hadd : BitVec.ofNat 32 n + 128 = BitVec.ofNat 32 (n + 128) := Ring.counter_add n 128
    rw [hadd]
    exact Ring.counter_ne (by omega) (by omega)
  have htop : BitVec.ofNat 32 n + 1 ≠ BitVec.ofNat 32 n := by
    rw [hsucc]
    exact (Ring.counter_ne (by omega) (by omega)).symm
  have hmax : (BitVec.ofNat 32 n + 1 - BitVec.ofNat 32 n).toInt = 1 := by
    rw [add_sub_cancel_left]
    rfl
  have hcnt : min 1 (1 : BitVec 32).toInt = 1 := rfl
  have hneg : ¬ ((1 : Int) < 0) := by decide
  have hpos : (0 : Int) < 1 := by decide
  have hnat : (1 : Int).toNat = 1 := rfl
  have hbuf : Function.update (fun _ : BitVec 7 => (0 : Byte)) ((BitVec.ofNat 32 n).setWidth 7) 0 =
      fun _ => 0 := Function.update_eq_self _ _
  simp only [oneByte, exec, step, writerStep, readerStep, through, Option.bind_some, hfull, htop,
    if_false, if_true, ne_eq, not_false_eq_true, hmax, hcnt, hneg, hpos, hnat, hbuf,
    List.length_nil, Nat.lt_succ_self, List.nil_append, List.length_singleton, Nat.lt_irrefl,
    Nat.one_ne_zero, List.length_append, List.length_replicate, Option.some.injEq]
  rw [List.replicate_succ', ← hsucc]
  rfl

/-- Any number of bytes may go through the ring. -/
theorem exec_through (n : Nat) : ∃ as, exec step (init fun _ => 0) as = some (through n) := by
  induction n with
  | zero => exact ⟨[.accept, .writer], rfl⟩
  | succ n ih =>
      obtain ⟨as, has⟩ := ih
      exact ⟨as ++ oneByte, by rw [exec_append, has, Option.bind_some, through_succ]⟩

/-- After `n` bytes went through the ring, `k` bytes of a chunk are stored. -/
def filling (n k : Nat) : Rx :=
  { through n with
    writer := .chunk (BitVec.ofNat 32 (n + k))
    stored := List.replicate (n + k) 0 }

theorem filling_succ (n : Nat) {k : Nat} (hk : k < 128) :
    exec step (filling n k) [.byte 0, .writer, .writer] = some (filling n (k + 1)) := by
  have hsucc : BitVec.ofNat 32 (n + k) + 1 = BitVec.ofNat 32 (n + k + 1) := Ring.counter_succ _
  have hfull : BitVec.ofNat 32 (n + k) ≠ BitVec.ofNat 32 n + 128 := by
    have hadd : BitVec.ofNat 32 n + 128 = BitVec.ofNat 32 (n + 128) := Ring.counter_add n 128
    rw [hadd]
    exact Ring.counter_ne (by omega) (by omega)
  have hbuf : Function.update (fun _ : BitVec 7 => (0 : Byte))
      ((BitVec.ofNat 32 (n + k)).setWidth 7) 0 = fun _ => 0 := Function.update_eq_self _ _
  simp only [exec, step, writerStep, filling, through, Option.bind_some, hfull, if_false, hbuf]
  rw [hsucc, ← List.replicate_succ']
  rfl

theorem exec_filling (n : Nat) {k : Nat} (hk : k ≤ 128) :
    exec step (filling n 0) (List.replicate k [.byte 0, .writer, .writer]).flatten =
      some (filling n k) := by
  induction k with
  | zero => rfl
  | succ k ih =>
      rw [List.replicate_succ', List.flatten_append, List.flatten_singleton, exec_append,
        ih (by omega)]
      exact filling_succ n (by omega)

/-- The ring is full when another byte comes, which has to wait; then the reader takes a byte. -/
def overfill : List RxAct :=
  [.byte 0, .writer, .writer, .writer, .writer, .writer, .writer] ++
    [.read 1, .reader, .reader, .reader, .reader, .reader] ++ [.writer, .writer]

/-- The task waits for a signal, and the reader has nothing to do. -/
def waiting (s : Rx) : Bool :=
  match s.writer, s.reader with
  | .wait head _, .idle => (head - s.tail).toNat < 128 && !s.nonfullFlag
  | _, _ => false

theorem waiting_stuck (h : s.waiting = true) : s.WriterStuck := by
  rw [waiting] at h
  split at h
  next head c hw hr =>
    rw [Bool.and_eq_true, decide_eq_true_eq, Bool.not_eq_true'] at h
    rw [WriterStuck, hw]
    refine ⟨h.1, ?_⟩
    rintro (hflag | hsignals)
    · rw [h.2] at hflag
      cases hflag
    · rw [hr] at hsignals
      exact hsignals
  · cases h

/-- At the wrap of the counters the task does not see the room that the reader has made. -/
theorem wrap_not_lossless :
    ¬ ∀ (buf : BitVec 7 → Byte) (as : List RxAct) (s : Rx),
      exec step (init buf) as = some s → s.Lossless := by
  intro h
  obtain ⟨as, has⟩ := exec_through (2 ^ 32 - 129)
  have hchunk : exec step (through (2 ^ 32 - 129)) [.chunk] = some (filling (2 ^ 32 - 129) 0) := rfl
  have hfill := exec_filling (2 ^ 32 - 129) (Nat.le_refl 128)
  have hrun : ((exec step (filling (2 ^ 32 - 129) 128) overfill).any waiting) = true := by
    decide
  generalize filling (2 ^ 32 - 129) 128 = full at hfill hrun
  generalize filling (2 ^ 32 - 129) 0 = chunk at hchunk hfill
  generalize through (2 ^ 32 - 129) = wrapping at has hchunk
  obtain ⟨s, hs, hwaiting⟩ := (Option.any_eq_true _ _).mp hrun
  have hall : exec step (init fun _ => 0) (as ++ ([.chunk] ++
      ((List.replicate 128 [.byte 0, .writer, .writer]).flatten ++ overfill))) = some s := by
    rw [exec_append, has, Option.bind_some, exec_append, hchunk, Option.bind_some, exec_append,
      hfill, Option.bind_some, hs]
  exact (h _ _ s hall).writer (waiting_stuck hwaiting)

end Rx

end YardIce.Telnet
