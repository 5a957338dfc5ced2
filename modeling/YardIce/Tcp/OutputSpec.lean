import YardIce.Lib.SeqSpace
import YardIce.Tcp.Output

/-!
# What one pass of `tcp_output` can do

Positions are counted from `snd_una`. A pass is described by the position at which
it sends, by the length of the text and by whether the FIN goes with it.
-/

namespace YardIce.Tcp

open YardIce.Lib

variable {p : Pcb}

/-- The word at a position of the send sequence space. -/
def Pcb.seqAt (p : Pcb) (i : Nat) : Seq := p.sndSeq + BitVec.ofNat 32 i

/-- The bytes that the queue and the window let go. -/
def Pcb.usable (p : Pcb) : Nat := min p.sndQ.length p.sndWnd.toNat

/-- The plan of a pass that starts at position `o₀`: it sends `n` bytes from position
`o`, inside the queue and the window, and keeps the FIN only at the end of the queue. -/
structure PlanSpec (p : Pcb) (o₀ o n : Nat) (p' : Pcb) (l : Plan) : Prop where
  pcb : o = o₀ ∧ p' = p ∨ o = 0 ∧ n = 0 ∧ p.sndWnd = 0 ∧ p' = { p with rxmtTmr := 0, sndOff := 0 }
  off : l.off = o₀
  nxt : l.nxt = p.seqAt o
  len : l.len = n
  shut : p.sndWnd = 0 → o = 0
  bound : n = 0 ∨ o + n ≤ p.usable
  more : l.sendalot = true → o + n < p.usable
  flags : l.flags = { tcpOutflags p.tState with fin := l.flags.fin }
  fin : l.flags.fin = true → (tcpOutflags p.tState).fin = true ∧
    (p.sndQ.length < 2 ^ 30 → p.sndQ.length ≤ o + n)

theorem planFlags_eq (p : Pcb) (nxt : Seq) (n : Nat) :
    planFlags p nxt n = { tcpOutflags p.tState with fin := (planFlags p nxt n).fin } := by
  simp only [planFlags]
  split <;> rfl

theorem planFlags_fin {o n : Nat} (hon : o + n < 2 ^ 31)
    (hfin : (planFlags p (p.seqAt o) n).fin = true) :
    (tcpOutflags p.tState).fin = true ∧ (p.sndQ.length < 2 ^ 30 → p.sndQ.length ≤ o + n) := by
  simp only [planFlags] at hfin
  split at hfin
  · cases hfin
  · next hlt =>
    refine ⟨hfin, fun hq => ?_⟩
    rw [seqLt, Pcb.seqAt, offset_add_offset,
      toInt_offset_sub_offset p.sndSeq (by lia) (by lia)] at hlt
    lia

theorem outputPlan_spec {o₀ : Nat} (ho : o₀ < 2 ^ 30) :
    ∃ o n, PlanSpec p o₀ o n (outputPlan p (p.seqAt o₀)).1 (outputPlan p (p.seqAt o₀)).2 := by
  have hoff : (p.seqAt o₀ - p.sndSeq).toInt = o₀ := toInt_offset_sub p.sndSeq (by lia)
  have hzero : p.sndSeq = p.seqAt 0 := by simp [Pcb.seqAt]
  have huse : min p.sndQ.length p.sndWnd.toNat = p.usable := rfl
  have hlt : p.usable < 2 ^ 16 := lt_of_le_of_lt (min_le_right _ _) p.sndWnd.isLt
  have hclosed : p.sndWnd = 0 → p.usable = 0 := by
    intro h
    simp [Pcb.usable, h]
  simp only [outputPlan, hoff, huse]
  split
  · split
    · next hlen hwnd =>
      refine ⟨0, 0, Or.inr ⟨rfl, rfl, hwnd, rfl⟩, rfl, hzero, rfl, fun _ => rfl, Or.inl rfl, by simp,
        ?_, ?_⟩
      · exact planFlags_eq p _ 0
      · rw [hzero]
        exact planFlags_fin (by lia)
    · next hwnd =>
      refine ⟨o₀, 0, Or.inl ⟨rfl, rfl⟩, rfl, rfl, rfl, fun h => absurd h hwnd, Or.inl rfl, by simp,
        planFlags_eq p _ 0, ?_⟩
      exact planFlags_fin (by lia)
  · split
    · refine ⟨o₀, p.maxseg, Or.inl ⟨rfl, rfl⟩, rfl, rfl, rfl, fun h => ?_, Or.inr (by lia),
        fun _ => by lia, planFlags_eq p _ _, ?_⟩
      · have := hclosed h
        lia
      · exact planFlags_fin (by lia)
    · refine ⟨o₀, ((p.usable : Int) - o₀).toNat, Or.inl ⟨rfl, rfl⟩, rfl, rfl, rfl, fun h => ?_,
        Or.inr (by lia), by simp, planFlags_eq p _ _, ?_⟩
      · have := hclosed h
        lia
      · exact planFlags_fin (by lia)

section Positions

variable {i j : Nat} (hi : i < 2 ^ 31) (hj : j < 2 ^ 31)
include hi hj

theorem toInt_seqAt_sub : (p.seqAt i - p.seqAt j).toInt = (i : Int) - j :=
  toInt_offset_sub_offset p.sndSeq (by lia) (by lia)

theorem seqAt_inj : p.seqAt i = p.seqAt j ↔ i = j := by
  constructor
  · intro h
    have hdiff := toInt_seqAt_sub (p := p) hi hj
    rw [h, sub_self] at hdiff
    have hzero : (0 : Int) = i - j := hdiff
    lia
  · rintro rfl
    rfl

theorem seqGt_seqAt : seqGt (p.seqAt i) (p.seqAt j) ↔ j < i := by
  rw [seqGt, toInt_seqAt_sub hi hj]
  lia

theorem seqLt_seqAt : seqLt (p.seqAt i) (p.seqAt j) ↔ i < j := by
  rw [seqLt, toInt_seqAt_sub hi hj]
  lia

end Positions

theorem seqAt_sub_setWidth (p : Pcb) (i : Nat) :
    (p.seqAt i - p.sndSeq).setWidth 16 = BitVec.ofNat 16 i := by
  rw [Pcb.seqAt, add_sub_cancel_left]
  exact BitVec.setWidth_ofNat_of_le (by decide) i

/-- The segment repeats the FIN that was sent last. -/
def Pcb.repeatsFin (p : Pcb) (fin : Bool) (o m : Nat) : Bool := fin && p.sentfin && o = m

/-- The position after a segment of `n` bytes at position `o`. -/
def Pcb.posAfter (p : Pcb) (fin : Bool) (o n m : Nat) : Nat :=
  o + n + (if (tcpOutflags p.tState).syn then 1 else 0) +
    if fin && !p.repeatsFin fin o m then 1 else 0

/-- The pass emits a segment from position `o`: of the `n₀` bytes that queue and window
allow, it holds those that fit the interface. -/
structure Emits (p : Pcb) (o₀ m : Nat) (r : Pass) (seg : OutSeg) (o n₀ : Nat) : Prop where
  seg_eq : r.seg = some seg
  start : o = o₀ ∨ o = 0 ∧ n₀ = 0 ∧ p.sndWnd = 0
  shut : p.sndWnd = 0 → o = 0
  le : seg.len ≤ n₀
  bound : n₀ = 0 ∨ o + n₀ ≤ p.usable
  syn : seg.flags.syn = (tcpOutflags p.tState).syn
  fin : seg.flags.fin = true → (tcpOutflags p.tState).fin = true ∧
    (p.sndQ.length < 2 ^ 30 → p.sndQ.length ≤ o + n₀)
  data : seg.data = (p.sndQ.drop o₀).take seg.len
  seq : seg.seq =
    if seg.len ≠ 0 ∨ seg.flags.syn ∨ seg.flags.fin then
      if p.repeatsFin seg.flags.fin o m then p.seqAt o - 1 else p.seqAt o
    else p.seqAt m
  nxt : r.nxt = p.seqAt (p.posAfter seg.flags.fin o seg.len m)
  last : r.max = p.seqAt (max m (p.posAfter seg.flags.fin o seg.len m))
  core : r.pcb.core =
    { p.core with
      sentfin := p.sentfin || seg.flags.fin
      sndOff := BitVec.ofNat 16 (p.posAfter seg.flags.fin o seg.len m)
      sndMax := BitVec.ofNat 16 (max m (p.posAfter seg.flags.fin o seg.len m)) }
  again : r.again = true → o + seg.len ≤ p.usable ∧ 0 < p.usable

/-- The pass finds no reason or no way to send; a closed window resets the offset. -/
structure Quiet (p : Pcb) (r : Pass) : Prop where
  seg : r.seg = none
  again : r.again = false
  core : r.pcb.core = p.core ∨ p.sndWnd = 0 ∧ r.pcb.core = { p.core with sndOff := 0 }

theorem fit_len_le (l : Plan) (p : Pcb) (rt : Ifnet) : (l.fit p rt).len ≤ l.len := by
  simp only [Plan.fit]
  split <;> lia

theorem fit_sendalot {l : Plan} {rt : Ifnet} (h : (l.fit p rt).sendalot = true) :
    l.sendalot = true ∨ l.len ≠ 0 := by
  simp only [Plan.fit, Bool.or_eq_true, decide_eq_true_eq] at h
  rcases h with h | h
  · exact Or.inl h
  · right
    split at h <;> lia

theorem back_flags (l : Plan) (p : Pcb) (max : Seq) : (l.back p max).flags = l.flags := by
  simp only [Plan.back]
  split <;> rfl

theorem back_len (l : Plan) (p : Pcb) (max : Seq) : (l.back p max).len = l.len := by
  simp only [Plan.back]
  split <;> rfl

theorem back_off (l : Plan) (p : Pcb) (max : Seq) : (l.back p max).off = l.off := by
  simp only [Plan.back]
  split <;> rfl

theorem back_sendalot (l : Plan) (p : Pcb) (max : Seq) :
    (l.back p max).sendalot = l.sendalot := by
  simp only [Plan.back]
  split <;> rfl

theorem back_nxt {l : Plan} {o m : Nat} (hnxt : l.nxt = p.seqAt o) (ho : o < 2 ^ 31)
    (hm : m < 2 ^ 31) :
    (l.back p (p.seqAt m)).nxt =
      if p.repeatsFin l.flags.fin o m then p.seqAt o - 1 else p.seqAt o := by
  have hdec : decide (p.seqAt o = p.seqAt m) = decide (o = m) :=
    decide_eq_decide.mpr (seqAt_inj ho hm)
  simp only [Plan.back, Pcb.repeatsFin, apply_ite Plan.nxt, hnxt, hdec]
  congr

/-- The FIN of a plan that steps back does not count. -/
theorem back_after {l : Plan} {o m : Nat} (hnxt : l.nxt = p.seqAt o) (ho : o < 2 ^ 31)
    (hm : m < 2 ^ 31) (hsyn : l.flags.syn = (tcpOutflags p.tState).syn) :
    (l.back p (p.seqAt m)).after = p.seqAt (p.posAfter l.flags.fin o l.len m) := by
  simp only [Plan.after, back_nxt hnxt ho hm, back_flags, back_len, Pcb.posAfter, ← hsyn]
  cases hrep : p.repeatsFin l.flags.fin o m with
  | true =>
      have hfin : l.flags.fin = true := by
        simp only [Pcb.repeatsFin, Bool.and_eq_true] at hrep
        exact hrep.1.1
      cases l.flags.syn <;> simp [hfin, Pcb.seqAt, BitVec.ofNat_add] <;> ring
  | false =>
      cases l.flags.syn <;> cases l.flags.fin <;> simp [Pcb.seqAt, BitVec.ofNat_add] <;> ring

/-- The psh flag is the only one that the segment adds to the plan. -/
theorem outSegment_flags (p : Pcb) (max : Seq) (rt : Ifnet) (l : Plan) :
    (outSegment p max rt l).flags.syn = l.flags.syn ∧
      (outSegment p max rt l).flags.fin = l.flags.fin := by
  simp only [outSegment]
  split <;> exact ⟨rfl, rfl⟩

theorem transmit_emits {o₀ o n₀ m : Nat} {p' : Pcb} {l : Plan} (hl : PlanSpec p o₀ o n₀ p' l)
    (ho : o₀ < 2 ^ 30) (hm : m < 2 ^ 30) (rt : Ifnet) (sent : Bool) :
    ∃ seg, Emits p o₀ m (transmit p (p.seqAt m) rt sent l) seg o n₀ := by
  have hlt : p.usable < 2 ^ 16 := lt_of_le_of_lt (min_le_right _ _) p.sndWnd.isLt
  have hstart : o = o₀ ∨ o = 0 ∧ n₀ = 0 ∧ p.sndWnd = 0 := by
    rcases hl.pcb with h | h
    · exact Or.inl h.1
    · exact Or.inr ⟨h.1, h.2.1, h.2.2.1⟩
  have ho31 : o < 2 ^ 31 := by lia
  have hm31 : m < 2 ^ 31 := by lia
  have hfit : (l.fit p rt).nxt = p.seqAt o := hl.nxt
  have hlen : (l.fit p rt).len ≤ n₀ := hl.len ▸ fit_len_le l p rt
  have hflags : (l.fit p rt).flags = l.flags := rfl
  have hsyn : (l.fit p rt).flags.syn = (tcpOutflags p.tState).syn := by
    rw [hflags, hl.flags]
  have hafter := back_after hfit ho31 hm31 hsyn
  have hnxt := back_nxt hfit ho31 hm31
  have hpos : p.posAfter l.flags.fin o (l.fit p rt).len m < 2 ^ 31 := by
    have hb := hl.bound
    simp only [Pcb.posAfter]
    split <;> split <;> lia
  obtain ⟨hsegsyn, hsegfin⟩ := outSegment_flags p (p.seqAt m) rt ((l.fit p rt).back p (p.seqAt m))
  rw [back_flags] at hsegsyn hsegfin
  have hseglen : (outSegment p (p.seqAt m) rt ((l.fit p rt).back p (p.seqAt m))).len =
      (l.fit p rt).len := back_len _ _ _
  have hlast : (if seqGt (p.seqAt (p.posAfter l.flags.fin o (l.fit p rt).len m)) (p.seqAt m) then
      p.seqAt (p.posAfter l.flags.fin o (l.fit p rt).len m) else p.seqAt m) =
      p.seqAt (max m (p.posAfter l.flags.fin o (l.fit p rt).len m)) := by
    simp only [seqGt_seqAt hpos hm31]
    split
    · rw [max_eq_right (by lia)]
    · rw [max_eq_left (by lia)]
  have hbound : (l.fit p rt).sendalot = true →
      o + (l.fit p rt).len ≤ p.usable ∧ 0 < p.usable := by
    intro hmore
    have hb := hl.bound
    have hn := hl.len
    rcases fit_sendalot hmore with h | h
    · have hlt := hl.more h
      lia
    · lia
  refine ⟨outSegment p (p.seqAt m) rt ((l.fit p rt).back p (p.seqAt m)), ?_⟩
  constructor
  case seg_eq => simp only [transmit]; split <;> rfl
  case start => exact hstart
  case shut => exact hl.shut
  case le => exact hseglen ▸ hlen
  case bound => exact hl.bound
  case syn => rw [hsegsyn, hsyn]
  case fin => rw [hsegfin]; exact hl.fin
  case data =>
    rw [hseglen]
    simp only [outSegment, back_off, back_len]
    rw [show (l.fit p rt).off = o₀ from hl.off, Int.toNat_natCast]
  case seq =>
    rw [hseglen, hsegsyn, hsegfin]
    simp only [outSegment, back_len, back_flags, hnxt]
  case nxt =>
    rw [hseglen, hsegfin]
    simp only [transmit]
    split <;> exact hafter
  case last =>
    rw [hseglen, hsegfin]
    simp only [transmit, hafter]
    split <;> exact hlast
  case core =>
    rw [hseglen, hsegfin, ← seqAt_sub_setWidth, ← seqAt_sub_setWidth]
    simp only [transmit, hafter, back_flags, hflags, hlast]
    split <;> rfl
  case again =>
    rw [hseglen]
    simp only [transmit]
    split
    · rw [back_sendalot]
      exact hbound
    · simp

/-- A pass that starts at position `o₀` with the highest position `m` sent is quiet or
emits one segment. -/
theorem outputPass_spec (idle : Bool) {o₀ m : Nat} (ho : o₀ < 2 ^ 30) (hm : m < 2 ^ 30)
    (e : OutEnv) :
    Quiet p (outputPass idle p (p.seqAt o₀) (p.seqAt m) e) ∨
      ∃ seg o n₀, Emits p o₀ m (outputPass idle p (p.seqAt o₀) (p.seqAt m) e) seg o n₀ := by
  obtain ⟨o, n₀, hl⟩ := outputPlan_spec (p := p) ho
  have hcore : (outputPlan p (p.seqAt o₀)).1.core = p.core ∨
      p.sndWnd = 0 ∧ (outputPlan p (p.seqAt o₀)).1.core = { p.core with sndOff := 0 } := by
    rcases hl.pcb with ⟨-, h⟩ | ⟨-, -, hwnd, h⟩
    · exact Or.inl (congrArg Pcb.core h)
    · exact Or.inr ⟨hwnd, congrArg Pcb.core h⟩
  simp only [outputPass]
  split
  · split
    · exact Or.inl ⟨rfl, rfl, hcore⟩
    · next rt hrt =>
      split
      · right
        rcases hl.pcb with ⟨heq, h⟩ | ⟨heq, hn, hwnd, h⟩
        · have hq : PlanSpec { p with route := some rt } o₀ o n₀ { p with route := some rt } _ :=
            ⟨Or.inl ⟨heq, rfl⟩, hl.off, hl.nxt, hl.len, hl.shut, hl.bound, hl.more, hl.flags,
              hl.fin⟩
          obtain ⟨seg, hs⟩ := transmit_emits hq ho hm rt e.sent
          rw [h]
          exact ⟨seg, o, n₀, hs.seg_eq, hs.start, hs.shut, hs.le, hs.bound, hs.syn, hs.fin, hs.data,
            hs.seq, hs.nxt, hs.last, hs.core, hs.again⟩
        · have hq : PlanSpec { p with rxmtTmr := 0, sndOff := 0, route := some rt } o₀ o n₀
              { p with rxmtTmr := 0, sndOff := 0, route := some rt } _ :=
            ⟨Or.inr ⟨heq, hn, hwnd, rfl⟩, hl.off, hl.nxt, hl.len, hl.shut, hl.bound, hl.more,
              hl.flags, hl.fin⟩
          obtain ⟨seg, hs⟩ := transmit_emits hq ho hm rt e.sent
          rw [h]
          exact ⟨seg, o, n₀, hs.seg_eq, hs.start, hs.shut, hs.le, hs.bound, hs.syn, hs.fin, hs.data,
            hs.seq, hs.nxt, hs.last, hs.core, hs.again⟩
      · exact Or.inl ⟨rfl, rfl, hcore⟩
  · exact Or.inl ⟨rfl, rfl, hcore⟩

theorem Emits.seqAt_eq {o₀ m o n₀ : Nat} {r : Pass} {seg : OutSeg} (h : Emits p o₀ m r seg o n₀)
    (i : Nat) : r.pcb.seqAt i = p.seqAt i := by
  have hseq : r.pcb.sndSeq = p.sndSeq := congrArg Core.sndSeq h.core
  rw [Pcb.seqAt, Pcb.seqAt, hseq]

/-- The text of a segment is as long as its headers say. -/
theorem Emits.data_length {o₀ m o n₀ : Nat} {r : Pass} {seg : OutSeg}
    (h : Emits p o₀ m r seg o n₀) : seg.data.length = seg.len := by
  have hle : p.usable ≤ p.sndQ.length := min_le_left _ _
  have hstart := h.start
  have hbound := h.bound
  have hlen := h.le
  rw [h.data, List.length_take, List.length_drop]
  lia

theorem usable_lt (p : Pcb) : p.usable < 2 ^ 16 := lt_of_le_of_lt (min_le_right _ _) p.sndWnd.isLt

theorem Emits.len_lt {o₀ m o n₀ : Nat} {r : Pass} {seg : OutSeg} (h : Emits p o₀ m r seg o n₀) :
    seg.len < 2 ^ 16 := by
  have hlt := usable_lt p
  have hbound := h.bound
  have hlen := h.le
  lia

theorem posAfter_le (p : Pcb) (fin : Bool) (o n m : Nat) : p.posAfter fin o n m ≤ o + n + 2 := by
  simp only [Pcb.posAfter]
  split <;> split <;> lia

/-- A further pass starts inside the window of the one before. -/
theorem Emits.pos_lt {o₀ m o n₀ : Nat} {r : Pass} {seg : OutSeg} (h : Emits p o₀ m r seg o n₀)
    (hagain : r.again = true) : p.posAfter seg.flags.fin o seg.len m < 2 ^ 17 := by
  have hlt := usable_lt p
  have hle := posAfter_le p seg.flags.fin o seg.len m
  have husable := (h.again hagain).1
  lia

theorem sndNxt_eq (p : Pcb) : p.sndNxt = p.seqAt p.sndOff.toNat := by
  rw [Pcb.sndNxt, Pcb.seqAt, BitVec.ofNat_toNat]

theorem sndLast_eq (p : Pcb) : p.sndLast = p.seqAt p.sndMax.toNat := by
  rw [Pcb.sndLast, Pcb.seqAt, BitVec.ofNat_toNat]

section Rule

variable {I : Pcb → Nat → Nat → List OutSeg → Prop} {J : Pcb → List OutSeg → Prop}
  (hcut : ∀ p o m out, I p o m out → J p out)
  (hquiet : ∀ p o m out r, I p o m out → Quiet p r → J r.pcb out)
  (hemit : ∀ p o₀ m out r seg o n₀, I p o₀ m out → Emits p o₀ m r seg o n₀ →
    J r.pcb (out ++ [seg]) ∧ (r.again = true →
      I r.pcb (p.posAfter seg.flags.fin o seg.len m)
        (max m (p.posAfter seg.flags.fin o seg.len m)) (out ++ [seg])))
include hcut hquiet hemit

/-- The rule for the passes of a call. `I` is kept from pass to pass with the positions
of `snd_nxt` and `snd_max` and the segments so far; `J` holds when the call ends. -/
theorem outputLoop_rule (idle : Bool) (es : List OutEnv) {p : Pcb} {o m : Nat}
    {out : List OutSeg} (ho : o < 2 ^ 17) (hm : m < 2 ^ 17) (h : I p o m out) :
    J (outputLoop idle es p (p.seqAt o) (p.seqAt m)).1
      (out ++ (outputLoop idle es p (p.seqAt o) (p.seqAt m)).2) := by
  induction es generalizing p o m out with
  | nil => simpa only [outputLoop, List.append_nil] using hcut p o m out h
  | cons e es ih =>
      simp only [outputLoop]
      rcases outputPass_spec (p := p) idle (by lia : o < 2 ^ 30) (by lia : m < 2 ^ 30) e with
        hq | ⟨seg, o', n₀, hs⟩
      · rw [hq.again, hq.seg]
        simpa using hquiet p o m out _ h hq
      · obtain ⟨hJ, hI⟩ := hemit p o m out _ seg o' n₀ h hs
        rw [hs.seg_eq]
        split
        · next hagain =>
          have hpos := hs.pos_lt hagain
          have hrest := ih hpos (max_lt hm hpos) (hI hagain)
          rw [hs.seqAt_eq, hs.seqAt_eq, ← hs.nxt, ← hs.last] at hrest
          simpa using hrest
        · exact hJ

theorem tcpOutput_rule (p : Pcb) (es : List OutEnv) (out : List OutSeg)
    (h : I p p.sndOff.toNat p.sndMax.toNat out) :
    J (tcpOutput p es).1 (out ++ (tcpOutput p es).2) := by
  have hoff := p.sndOff.isLt
  have hmax := p.sndMax.isLt
  rw [tcpOutput, sndNxt_eq, sndLast_eq]
  exact outputLoop_rule hcut hquiet hemit _ es (by lia) (by lia) h

end Rule

/-- Every segment of a call carries the text that its headers announce. -/
theorem tcpOutput_data_length (p : Pcb) (es : List OutEnv) :
    ∀ seg ∈ (tcpOutput p es).2, seg.data.length = seg.len ∧ seg.len < 2 ^ 16 := by
  let J : Pcb → List OutSeg → Prop := fun _ out =>
    ∀ seg ∈ out, seg.data.length = seg.len ∧ seg.len < 2 ^ 16
  have hemit : ∀ p o₀ m out r seg o n₀, J p out → Emits p o₀ m r seg o n₀ →
      J r.pcb (out ++ [seg]) ∧ (r.again = true → J r.pcb (out ++ [seg])) := by
    intro p o₀ m out r seg o n₀ h hs
    have hout : J r.pcb (out ++ [seg]) := by
      intro seg' hmem
      rcases List.mem_append.mp hmem with hold | hnew
      · exact h seg' hold
      · obtain rfl := List.mem_singleton.mp hnew
        exact ⟨hs.data_length, hs.len_lt⟩
    exact ⟨hout, fun _ => hout⟩
  exact tcpOutput_rule (I := fun p _ _ out => J p out) (fun _ _ _ _ h => h)
    (fun _ _ _ _ _ h _ => h) hemit p es [] (by simp [J])

/-- Only the offsets and the mark of a FIN differ. -/
def Core.Moved (c c' : Core) : Prop :=
  c' = { c with sentfin := c'.sentfin, sndOff := c'.sndOff, sndMax := c'.sndMax }

theorem Core.Moved.trans {a b c : Core} (hab : a.Moved b) (hbc : b.Moved c) : a.Moved c := by
  rw [Core.Moved] at hab hbc ⊢
  rw [hbc, hab]

/-- The fields that stay. -/
theorem Core.Moved.kept {c c' : Core} (h : c.Moved c') :
    c'.tState = c.tState ∧ c'.sndSeq = c.sndSeq ∧ c'.sndWnd = c.sndWnd ∧ c'.rcvNxt = c.rcvNxt ∧
      c'.sndQ = c.sndQ := by
  rw [h]
  exact ⟨rfl, rfl, rfl, rfl, rfl⟩

theorem Quiet.moved {r : Pass} (h : Quiet p r) : p.core.Moved r.pcb.core := by
  rcases h.core with hcore | ⟨-, hcore⟩ <;> rw [hcore] <;> rfl

theorem Emits.moved {o₀ m o n₀ : Nat} {r : Pass} {seg : OutSeg} (h : Emits p o₀ m r seg o n₀) :
    p.core.Moved r.pcb.core := by
  rw [h.core]
  rfl

theorem tcpOutput_moved (p : Pcb) (es : List OutEnv) : p.core.Moved (tcpOutput p es).1.core := by
  let J : Pcb → List OutSeg → Prop := fun q _ => p.core.Moved q.core
  have hemit : ∀ q o₀ m out r seg o n₀, J q out → Emits q o₀ m r seg o n₀ →
      J r.pcb (out ++ [seg]) ∧ (r.again = true → J r.pcb (out ++ [seg])) := by
    intro q o₀ m out r seg o n₀ h hs
    exact ⟨h.trans hs.moved, fun _ => h.trans hs.moved⟩
  exact tcpOutput_rule (I := fun q _ _ out => J q out) (J := J) (fun _ _ _ _ h => h)
    (fun _ _ _ _ _ h hq => h.trans hq.moved) hemit p es [] rfl

end YardIce.Tcp
