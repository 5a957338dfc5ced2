import YardIce.Libc.Printf

/-!
# Formatted output into a buffer

`vsnprintf` gives `vfprintf` a write operation that copies the pieces into the buffer.

## Implementation notes

Addresses have 32 bits and wrap. The memory is a function of the address, beside the set of the
addresses that were written. The loop of `sprintf_write` ends after as many turns as its two
pointers are apart; bytes behind the end of a piece are those that stand there.
-/

namespace YardIce.Libc

abbrev Addr := BitVec 32

/-- `struct str_buf`, the memory and the addresses written. -/
structure StrBuf where
  ptr : Addr
  fin : Addr
  mem : Addr → Byte
  wrote : Addr → Bool

/-- A byte is written. -/
def StrBuf.store (s : StrBuf) (dst : Addr) (v : Byte) : StrBuf :=
  { s with
    mem := fun a => if a = dst then v else s.mem a
    wrote := fun a => a == dst || s.wrote a }

/-- `while (dst != end)` -/
def copyLoop (src : Nat → Byte) : Nat → Addr → Nat → StrBuf → StrBuf
  | 0, _, _, s => s
  | turns + 1, dst, i, s => copyLoop src turns (dst + 1) (i + 1) (s.store dst (src i))

/-- `sprintf_write` -/
def sprintfWrite (beyond : Nat → Byte) : Write StrBuf := fun s buf =>
  let len := BitVec.ofNat 32 buf.length
  let fin := if s.fin < s.ptr + len then s.fin else s.ptr + len
  let s := copyLoop (fun i => buf.getD i (beyond i)) (fin - s.ptr).toNat s.ptr 0 s
  (len, { s with ptr := s.ptr + len })

/-- `EINVAL` -/
def einval : Word := 22

section Vsnprintf

variable {α : Type} (va : VaList α) (ro : Rodata) (beyond : Nat → Byte)

/-- `vsnprintf` -/
def vsnprintf (mem : Addr → Byte) (str size : Addr) (fmt : CString) (ap : α) : Word × StrBuf :=
  let buf : StrBuf := ⟨str, str + size - 1, mem, fun _ => false⟩
  if str = 0 then (-einval, buf)
  else if size = 0 then (-einval, buf)
  else
    let (n, buf) := vfprintf va ro (sprintfWrite beyond) buf fmt ap
    (n, buf.store (str + n) 0)

/-- A write operation that takes all. -/
def record : Write (List Byte) := fun text cp => (BitVec.ofNat 32 cp.length, text ++ cp)

/-- The text that `vfprintf` produces. -/
def printedText (fmt : CString) (ap : α) : List Byte := (vfprintf va ro record [] fmt ap).2

end Vsnprintf

/-! ## The copy loop -/

/-- The bytes from `dst` on are written, as many as there are turns. -/
theorem copyLoop_spec (src : Nat → Byte) {turns : Nat} (h : turns ≤ 2 ^ 32) (dst : Addr) (i : Nat)
    (s : StrBuf) :
    copyLoop src turns dst i s =
      { s with
        mem := fun a =>
          if (a - dst).toNat < turns then src (i + (a - dst).toNat) else s.mem a
        wrote := fun a => decide ((a - dst).toNat < turns) || s.wrote a } := by
  induction turns generalizing dst i s with
  | zero => simp [copyLoop]
  | succ turns ih =>
      unfold copyLoop
      rw [ih (by omega)]
      have hself : ¬ (dst - (dst + 1)).toNat < turns := by bv_omega
      have hother : ∀ a, a ≠ dst → (a - dst).toNat = (a - (dst + 1)).toNat + 1 := fun a ha => by
        bv_omega
      simp only [StrBuf.store]
      congr 1
      · funext a
        by_cases ha : a = dst
        · subst ha
          rw [if_neg hself, if_pos rfl, BitVec.sub_self]
          exact (if_pos (Nat.succ_pos turns)).symm
        · rw [hother a ha]
          simp only [if_neg ha, Nat.add_lt_add_iff_right, Nat.add_assoc, Nat.add_comm 1]
      · funext a
        by_cases ha : a = dst
        · subst ha
          rw [BitVec.sub_self, beq_self_eq_true, Bool.true_or, Bool.or_true]
          exact (Bool.true_or _).symm
        · rw [hother a ha, beq_eq_false_iff_ne.mpr ha, Bool.false_or]
          simp only [Nat.add_lt_add_iff_right]

/-! ## The buffer -/

section Buffer

variable {str size : Addr}

/-- An address of the buffer. -/
def Inside (str size a : Addr) : Prop := (a - str).toNat < size.toNat

/-- A buffer in the address space, which does not begin at `NULL`. -/
structure IsBuffer (str size : Addr) : Prop where
  nonnull : str ≠ 0
  pos : 0 < size.toNat
  fits : str.toNat + size.toNat ≤ 2 ^ 32

/-- The buffer behind a text that was written: it holds the text, or something was written outside
of it, or will be. -/
structure Holds (str size : Addr) (text : List Byte) (s : StrBuf) : Prop where
  fin : s.fin = str + size - 1
  ptr : s.ptr = str + BitVec.ofNat 32 text.length
  inside : text.length < size.toNat → ∀ a, s.wrote a = true → Inside str size a
  mem : text.length < size.toNat →
    ∀ i (_ : i < text.length), s.mem (str + BitVec.ofNat 32 i) = text[i]
  beyondEnd : size.toNat ≤ text.length →
    (∃ a, s.wrote a = true ∧ ¬ Inside str size a) ∨ ¬ Inside str size s.ptr

theorem holds_nil (hbuf : IsBuffer str size) (mem : Addr → Byte) :
    Holds str size [] ⟨str, str + size - 1, mem, fun _ => false⟩ where
  fin := rfl
  ptr := (BitVec.add_zero str).symm
  inside := fun _ _ h => absurd h Bool.false_ne_true
  mem := fun _ _ h => absurd h (Nat.not_lt_zero _)
  beyondEnd := fun h => absurd hbuf.pos (Nat.not_lt.mpr h)

variable {text cp : List Byte} {s : StrBuf} (beyond : Nat → Byte)

/-- A piece that fits. -/
theorem holds_write_fits (hbuf : IsBuffer str size) (h : Holds str size text s)
    (hfits : (text ++ cp).length < size.toNat) :
    Holds str size (text ++ cp) (sprintfWrite beyond s cp).2 := by
  have hlt := size.isLt
  have hsum := hbuf.fits
  rw [List.length_append] at hfits
  have hlen : (BitVec.ofNat 32 cp.length).toNat = cp.length := by
    rw [BitVec.toNat_ofNat, Nat.mod_eq_of_lt (by omega)]
  have htext : (BitVec.ofNat 32 text.length).toNat = text.length := by
    rw [BitVec.toNat_ofNat, Nat.mod_eq_of_lt (by omega)]
  have hptr := h.ptr
  have hfin := h.fin
  have hend : ¬ s.fin < s.ptr + BitVec.ofNat 32 cp.length := by
    rw [hptr, hfin]
    bv_omega
  have hturns : (s.ptr + BitVec.ofNat 32 cp.length - s.ptr).toNat = cp.length := by
    rw [BitVec.add_comm, BitVec.add_sub_cancel, hlen]
  unfold sprintfWrite
  simp only [if_neg hend, hturns]
  rw [copyLoop_spec _ (by omega)]
  refine ⟨hfin, ?_, fun _ a ha => ?_, fun _ i hi => ?_, fun hle => ?_⟩
  · show s.ptr + BitVec.ofNat 32 cp.length = _
    rw [hptr, List.length_append, BitVec.ofNat_add, BitVec.add_assoc]
  · rcases (Bool.or_eq_true _ _).mp ha with hnew | hold
    · have hnew' := of_decide_eq_true hnew
      unfold Inside
      rw [hptr] at hnew'
      bv_omega
    · exact h.inside (by omega) a hold
  · rw [List.length_append] at hi
    show (if (str + BitVec.ofNat 32 i - s.ptr).toNat < cp.length then
        cp.getD (0 + (str + BitVec.ofNat 32 i - s.ptr).toNat) _
      else s.mem (str + BitVec.ofNat 32 i)) = _
    have hi' : (BitVec.ofNat 32 i).toNat = i := by
      rw [BitVec.toNat_ofNat, Nat.mod_eq_of_lt (by omega)]
    by_cases hin : i < text.length
    · have hout : ¬ (str + BitVec.ofNat 32 i - s.ptr).toNat < cp.length := by
        rw [hptr]
        bv_omega
      rw [if_neg hout, h.mem (by omega) i hin, List.getElem_append_left hin]
    · have hoff : (str + BitVec.ofNat 32 i - s.ptr).toNat = i - text.length := by
        rw [hptr]
        bv_omega
      rw [hoff, if_pos (by omega), Nat.zero_add, List.getElem_append_right (Nat.not_lt.mp hin),
        List.getD_eq_getElem?_getD, List.getElem?_eq_getElem (by omega), Option.getD_some]
  · rw [List.length_append] at hle
    omega

/-- What is written stays written. -/
theorem sprintfWrite_wrote (s : StrBuf) (cp : List Byte) (a : Addr) :
    (sprintfWrite beyond s cp).2.wrote a =
      (decide ((a - s.ptr).toNat <
        ((if s.fin < s.ptr + BitVec.ofNat 32 cp.length then s.fin
          else s.ptr + BitVec.ofNat 32 cp.length) - s.ptr).toNat) || s.wrote a) := by
  unfold sprintfWrite
  simp only []
  rw [copyLoop_spec _ (BitVec.isLt _).le]

/-- A piece that crosses the end of the buffer. If the sum of the pointer and the length wraps, the
loop runs on to the top of the addresses. -/
theorem over_of_crossing (hbuf : IsBuffer str size) (h : Holds str size text s) (hcp : Small cp)
    (hlt : text.length < size.toNat) (hle : size.toNat ≤ text.length + cp.length) :
    (∃ a, (sprintfWrite beyond s cp).2.wrote a = true ∧ ¬ Inside str size a) ∨
      ¬ Inside str size (s.ptr + BitVec.ofNat 32 cp.length) := by
  have hfits := hbuf.fits
  have hpos : 0 < str.toNat := Nat.pos_of_ne_zero fun h0 =>
    hbuf.nonnull (BitVec.eq_of_toNat_eq h0)
  have hsize := size.isLt
  unfold Small at hcp
  have hlen : (BitVec.ofNat 32 cp.length).toNat = cp.length := by
    rw [BitVec.toNat_ofNat, Nat.mod_eq_of_lt (by omega)]
  have htext : (BitVec.ofNat 32 text.length).toNat = text.length := by
    rw [BitVec.toNat_ofNat, Nat.mod_eq_of_lt (by omega)]
  have hptr := h.ptr
  have hfin := h.fin
  by_cases hzero : (s.ptr + BitVec.ofNat 32 cp.length).toNat ≠ 0 ∧
      2 ^ 32 ≤ str.toNat + text.length + cp.length
  · -- the address 0 is written
    refine .inl ⟨0, ?_, ?_⟩
    · have hend : ¬ s.fin < s.ptr + BitVec.ofNat 32 cp.length := by
        rw [hptr, hfin]
        bv_omega
      rw [sprintfWrite_wrote, if_neg hend, Bool.or_eq_true, decide_eq_true_eq]
      refine .inl ?_
      rw [hptr] at hzero ⊢
      bv_omega
    · unfold Inside
      bv_omega
  · refine .inr ?_
    unfold Inside
    rw [hptr] at hzero ⊢
    bv_omega

/-- Once the pointer is behind the buffer the loop runs away. -/
theorem over_of_over (hbuf : IsBuffer str size) (h : Holds str size text s)
    (hle : size.toNat ≤ text.length) :
    (∃ a, (sprintfWrite beyond s cp).2.wrote a = true ∧ ¬ Inside str size a) ∨
      ¬ Inside str size (s.ptr + BitVec.ofNat 32 cp.length) := by
  rcases h.beyondEnd hle with ⟨a, hwrote, hout⟩ | hout
  · exact .inl ⟨a, by rw [sprintfWrite_wrote, hwrote, Bool.or_true], hout⟩
  · by_cases hnone : (if s.fin < s.ptr + BitVec.ofNat 32 cp.length then s.fin
        else s.ptr + BitVec.ofNat 32 cp.length) = s.ptr
    · refine .inr ?_
      split_ifs at hnone with hend
      · -- the end pointer is inside
        rw [h.fin] at hnone
        have hpos := hbuf.pos
        have hfits := hbuf.fits
        refine absurd ?_ hout
        unfold Inside
        rw [← hnone]
        bv_omega
      · rwa [hnone]
    · refine .inl ⟨s.ptr, ?_, hout⟩
      rw [sprintfWrite_wrote, BitVec.sub_self, Bool.or_eq_true, decide_eq_true_eq]
      refine .inl (Nat.pos_of_ne_zero fun h0 => hnone ?_)
      generalize (if s.fin < s.ptr + BitVec.ofNat 32 cp.length then s.fin
        else s.ptr + BitVec.ofNat 32 cp.length) = fin at h0 ⊢
      bv_omega

theorem holds_write (hbuf : IsBuffer str size) (h : Holds str size text s) (hcp : Small cp) :
    Holds str size (text ++ cp) (sprintfWrite beyond s cp).2 := by
  by_cases hfits : (text ++ cp).length < size.toNat
  · exact holds_write_fits beyond hbuf h hfits
  · have hptr : (sprintfWrite beyond s cp).2.ptr = s.ptr + BitVec.ofNat 32 cp.length := by
      unfold sprintfWrite
      simp only []
      rw [copyLoop_spec _ (BitVec.isLt _).le]
    have hover : (∃ a, (sprintfWrite beyond s cp).2.wrote a = true ∧ ¬ Inside str size a) ∨
        ¬ Inside str size (s.ptr + BitVec.ofNat 32 cp.length) := by
      rw [List.length_append, Nat.not_lt] at hfits
      rcases Nat.lt_or_ge text.length size.toNat with hlt | hle
      · exact over_of_crossing beyond hbuf h hcp hlt hfits
      · exact over_of_over beyond hbuf h hle
    refine ⟨?_, ?_, fun hlt => absurd hlt hfits, fun hlt => absurd hlt hfits, fun _ => ?_⟩
    · unfold sprintfWrite
      simp only []
      rw [copyLoop_spec _ (BitVec.isLt _).le]
      exact h.fin
    · rw [hptr, h.ptr, List.length_append, BitVec.ofNat_add, BitVec.add_assoc]
    · rwa [hptr]

/-- The pieces are written, into the buffer and by the write operation that takes all. -/
theorem foldl_holds (hbuf : IsBuffer str size) {ps : List (List Byte)} (hps : ∀ p ∈ ps, Small p)
    {n : Word} (h : Holds str size text s) (hn : n = BitVec.ofNat 32 text.length) :
    Holds str size (ps.foldl (emit record) (n, text)).2
      (ps.foldl (emit (sprintfWrite beyond)) (n, s)).2 ∧
    (ps.foldl (emit (sprintfWrite beyond)) (n, s)).1 =
      BitVec.ofNat 32 (ps.foldl (emit record) (n, text)).2.length := by
  induction ps generalizing n text s with
  | nil => exact ⟨h, hn⟩
  | cons cp ps ih =>
      have hnext := holds_write beyond hbuf h (hps cp List.mem_cons_self)
      refine ih (fun p hp => hps p (List.mem_cons_of_mem _ hp)) hnext ?_
      rw [hn, List.length_append, BitVec.ofNat_add]

variable {α : Type} (va : VaList α) (ro : Rodata)

theorem vfprintf_holds (hbuf : IsBuffer str size) (mem : Addr → Byte) (fmt : CString) (ap : α) :
    Holds str size (printedText va ro fmt ap)
      (vfprintf va ro (sprintfWrite beyond) ⟨str, str + size - 1, mem, fun _ => false⟩ fmt ap).2 ∧
    (vfprintf va ro (sprintfWrite beyond) ⟨str, str + size - 1, mem, fun _ => false⟩ fmt ap).1 =
      BitVec.ofNat 32 (printedText va ro fmt ap).length := by
  unfold printedText vfprintf
  rw [vfprintfLoop_eq, vfprintfLoop_eq]
  exact foldl_holds beyond hbuf (small_pieces (by simpa using fmt.small)) (holds_nil hbuf mem) rfl

/-- What `vsnprintf` has to do with the buffer, for a text. -/
structure Respects (str size : Addr) (text : List Byte) (r : Word × StrBuf) : Prop where
  inside : ∀ a, r.2.wrote a = true → Inside str size a
  chars : ∀ i (_ : i < min text.length (size.toNat - 1)) (_ : i < text.length),
    r.2.mem (str + BitVec.ofNat 32 i) = text[i]
  nul : r.2.mem (str + BitVec.ofNat 32 (min text.length (size.toNat - 1))) = 0
  value : r.1.toInt = text.length

/-- The buffer is respected exactly if the whole text fits it, and its length fits an `int`. -/
theorem vsnprintf_respects_iff (mem : Addr → Byte) (fmt : CString) (ap : α)
    (hbuf : IsBuffer str size) :
    Respects str size (printedText va ro fmt ap)
        (vsnprintf va ro beyond mem str size fmt ap) ↔
      (printedText va ro fmt ap).length < size.toNat ∧
        (printedText va ro fmt ap).length < 2 ^ 31 := by
  obtain ⟨hholds, hcnt⟩ := vfprintf_holds beyond va ro hbuf mem fmt ap
  have hsize : size ≠ 0 := fun h0 => absurd hbuf.pos (by rw [h0]; decide)
  have hlt := size.isLt
  unfold vsnprintf
  simp only [if_neg hbuf.nonnull, if_neg hsize]
  generalize printedText va ro fmt ap = text at *
  generalize vfprintf va ro (sprintfWrite beyond) ⟨str, str + size - 1, mem, fun _ => false⟩ fmt ap =
    r at *
  have hptr : str + r.1 = r.2.ptr := by rw [hholds.ptr, hcnt]
  constructor
  · intro h
    have hfits : text.length < size.toNat := by
      by_contra hle
      rcases hholds.beyondEnd (Nat.not_lt.mp hle) with ⟨a, hwrote, hout⟩ | hout
      · exact hout (h.inside a (by simp [StrBuf.store, hwrote]))
      · exact hout (h.inside r.2.ptr (by simp [StrBuf.store, hptr]))
    refine ⟨hfits, ?_⟩
    have hvalue := h.value
    simp only [hcnt] at hvalue
    rw [BitVec.toInt_eq_toNat_cond, BitVec.toNat_ofNat, Nat.mod_eq_of_lt (by omega)] at hvalue
    split_ifs at hvalue <;> omega
  · rintro ⟨hfits, hsmall⟩
    have hlen : (BitVec.ofNat 32 text.length).toNat = text.length := by
      rw [BitVec.toNat_ofNat, Nat.mod_eq_of_lt (by omega)]
    have hmin : min text.length (size.toNat - 1) = text.length := by omega
    refine ⟨fun a ha => ?_, fun i _ hi => ?_, ?_, ?_⟩
    · rcases (Bool.or_eq_true _ _).mp ha with hlast | hwrote
      · rw [beq_iff_eq.mp hlast, hcnt]
        unfold Inside
        bv_omega
      · exact hholds.inside hfits a hwrote
    · have hne : str + BitVec.ofNat 32 i ≠ str + r.1 := by
        rw [hcnt]
        bv_omega
      exact (if_neg hne).trans (hholds.mem hfits i hi)
    · rw [hmin, ← hcnt]
      exact if_pos rfl
    · show r.1.toInt = text.length
      rw [hcnt, BitVec.toInt_eq_toNat_of_lt (by omega), hlen]

/-- Arguments in a list; the string is always the same. -/
def argList : VaList (List Word) where
  int := fun ap => (ap.headD 0, ap.tail)
  longLong := fun ap => ((ap.headD 0).setWidth 64, ap.tail)
  str := fun ap => (⟨[0x6f, 0x6b], by decide, by decide⟩, ap)

/-- `"%4d:%s"` with -7 and a buffer of eight bytes. -/
theorem vsnprintf_respects_padded :
    Respects 0x20000000 8 [0x20, 0x20, 0x2d, 0x37, 0x3a, 0x6f, 0x6b]
      (vsnprintf argList ⟨fun _ => 0, fun _ => 0⟩ (fun _ => 0) (fun _ => 0xaa) 0x20000000 8
        ⟨[0x25, 0x34, 0x64, 0x3a, 0x25, 0x73], by decide, by decide⟩ [-7]) :=
  (vsnprintf_respects_iff (fun _ => 0) argList ⟨fun _ => 0, fun _ => 0⟩ (fun _ => 0xaa)
    ⟨[0x25, 0x34, 0x64, 0x3a, 0x25, 0x73], by decide, by decide⟩ [-7]
    ⟨by decide, by decide, by decide⟩).mpr ⟨by decide, by decide⟩

/-- Three characters and a buffer of two bytes: the `NUL` is written behind the buffer. -/
theorem truncated_writes_outside :
    ¬ Respects 0x20000000 2
      (printedText argList ⟨fun _ => 0, fun _ => 0⟩
        ⟨[0x61, 0x62, 0x63], by decide, by decide⟩ [])
      (vsnprintf argList ⟨fun _ => 0, fun _ => 0⟩ (fun _ => 0) (fun _ => 0xaa) 0x20000000 2
        ⟨[0x61, 0x62, 0x63], by decide, by decide⟩ []) := by
  intro h
  have hlast := h.inside 0x20000003 (by decide)
  exact absurd hlast (by unfold Inside; decide)

end Buffer

end YardIce.Libc
