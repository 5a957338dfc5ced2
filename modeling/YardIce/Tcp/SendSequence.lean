import YardIce.Tcp.CallsSpec
import YardIce.Tcp.InputSpec

/-!
# The send sequence space

Where the offsets of a connection stand relative to its queue, and which byte of the
application has which sequence number. The offsets may reach one past the queue only
for the slot of a SYN or a FIN that has been sent.
-/

namespace YardIce.Tcp

open YardIce.Lib

variable {c : Core} {p : Pcb} {s : Segment} {avail : Nat} {out : List OutSeg}

/-- The segment takes up the slot after the queue with the SYN or FIN of the state. -/
def OutSeg.Fills (seg : OutSeg) (c : Core) : Prop :=
  (seg.flags.syn = true ∧ (tcpOutflags c.tState).syn = true ∨
    seg.flags.fin = true ∧ (tcpOutflags c.tState).fin = true) ∧
  seg.seq + BitVec.ofNat 32 seg.len = c.sndSeq + BitVec.ofNat 32 c.sndQ.length

/-- The offsets lie inside the queue, or one past it where a sent SYN or FIN has its slot. -/
structure Placed (c : Core) (out : List OutSeg) : Prop where
  live : c.tState ≠ .closed ∧ c.tState ≠ .listen
  limit : c.sndQ.length ≤ tcpMaxsnd
  syn : (tcpOutflags c.tState).syn = true → c.sndQ = []
  done : c.tState = .finWait2 ∨ c.tState = .timeWait → c.sndQ = []
  off_le : c.sndOff.toNat ≤ c.sndMax.toNat
  max_le : c.sndMax.toNat ≤ c.sndQ.length + 1
  slot : c.sndMax.toNat = c.sndQ.length + 1 → ∃ seg ∈ out, seg.Fills c
  fin : c.sndOff.toNat = c.sndQ.length + 1 → (tcpOutflags c.tState).fin = true →
    c.sentfin = true

/-- Outside the handshake and before the FIN there is no slot. -/
theorem Placed.max_le_length (h : Placed c out) (hsyn : (tcpOutflags c.tState).syn = false)
    (hfin : (tcpOutflags c.tState).fin = false) : c.sndMax.toNat ≤ c.sndQ.length := by
  have hmax := h.max_le
  by_contra hlt
  obtain ⟨seg, -, ⟨-, h'⟩ | ⟨-, h'⟩, -⟩ := h.slot (by lia)
  · rw [hsyn] at h'
    cases h'
  · rw [hfin] at h'
    cases h'

theorem outflags_syn_or_fin (st : TcpState) :
    (tcpOutflags st).syn = true → (tcpOutflags st).fin = false := by
  cases st <;> simp [tcpOutflags]

/-! ### Output -/

/-- The positions of a pass are the offsets of the block, and the SYN goes out at the
first of them. -/
structure Ready (p : Pcb) (o m : Nat) (out : List OutSeg) : Prop where
  placed : Placed p.core out
  off : p.sndOff.toNat = o
  last : p.sndMax.toNat = m
  syn : (tcpOutflags p.tState).syn = true → o = 0 ∨ p.sndWnd = 0

section Pass

variable {o₀ m o n₀ : Nat} {r : Pass} {seg : OutSeg}

/-- Text ends inside the queue. -/
theorem Emits.text_le (hs : Emits p o₀ m r seg o n₀)
    (ho : o ≤ p.sndQ.length) : o + seg.len ≤ p.sndQ.length := by
  have husable : p.usable ≤ p.sndQ.length := min_le_left _ _
  have hlen := hs.le
  have hbound := hs.bound
  lia

/-- A segment of the state ends inside the queue or is the one that fills the slot. -/
theorem Ready.posAfter_le (h : Ready p o₀ m out) (hs : Emits p o₀ m r seg o n₀) :
    p.posAfter seg.flags.fin o seg.len m ≤ p.sndQ.length + 1 := by
  have hplaced := h.placed
  have hoff : o₀ ≤ m := by
    rw [← h.off, ← h.last]
    exact hplaced.off_le
  have hmax : m ≤ p.sndQ.length + 1 := by
    rw [← h.last]
    exact hplaced.max_le
  have husable : p.usable ≤ p.sndQ.length := min_le_left _ _
  have hlen := hs.le
  have hstart := hs.start
  have hbound := hs.bound
  have hfin := hs.fin
  simp only [Pcb.posAfter]
  cases hsyn : (tcpOutflags p.tState).syn with
  | true =>
      -- a SYN starts at the first position of an empty queue
      have hq : p.sndQ = [] := hplaced.syn hsyn
      have hno : seg.flags.fin = false := by
        by_contra hf
        rw [Bool.not_eq_false] at hf
        have h' := (hfin hf).1
        rw [outflags_syn_or_fin _ hsyn] at h'
        cases h'
      have ho : o = 0 := by
        rcases h.syn hsyn with h0 | hw
        · lia
        · exact hs.shut hw
      rw [hq, List.length_nil] at husable
      simp only [hno, Bool.false_and, Bool.false_eq_true, if_false, if_true, hq, List.length_nil]
      lia
  | false =>
      cases hf : seg.flags.fin with
      | false =>
          simp only [Bool.false_and, Bool.false_eq_true, if_false]
          lia
      | true =>
          obtain ⟨hflag, -⟩ := hfin hf
          by_cases hlast : o = p.sndQ.length + 1
          · -- the FIN has been sent already and is repeated
            have hsent : p.sentfin = true := by
              apply hplaced.fin _ hflag
              show p.sndOff.toNat = p.sndQ.length + 1
              rw [h.off]
              lia
            have hrep : p.repeatsFin true o m = true := by
              have hom : o = m := by lia
              simp [Pcb.repeatsFin, hsent, hom]
            simp only [hrep, Bool.true_and, Bool.not_true, Bool.false_eq_true, if_false]
            lia
          · simp only [Bool.true_and, Bool.false_eq_true, if_false]
            split <;> lia

/-- The slot is reached by the segment that fills it. -/
theorem Ready.fills (h : Ready p o₀ m out) (hs : Emits p o₀ m r seg o n₀)
    (hm : m ≤ p.sndQ.length)
    (hpos : p.posAfter seg.flags.fin o seg.len m = p.sndQ.length + 1) : seg.Fills p.core := by
  have hoff : o₀ ≤ m := by
    rw [← h.off, ← h.last]
    exact h.placed.off_le
  have hstart := hs.start
  have htext := hs.text_le (by lia)
  simp only [Pcb.posAfter] at hpos
  have hplain : p.repeatsFin seg.flags.fin o m = false → seg.flags.syn = true ∨ seg.flags.fin = true →
      o + seg.len = p.sndQ.length →
      seg.seq + BitVec.ofNat 32 seg.len = p.sndSeq + BitVec.ofNat 32 p.sndQ.length := by
    intro hrep hflag hend
    have hseq := hs.seq
    rw [if_pos (Or.inr hflag), hrep] at hseq
    simp only [Bool.false_eq_true, if_false] at hseq
    rw [hseq, Pcb.seqAt, offset_add_offset, hend]
  cases hsyn : (tcpOutflags p.tState).syn with
  | true =>
      have hsegsyn : seg.flags.syn = true := hs.syn.trans hsyn
      have hno : seg.flags.fin = false := by
        by_contra hf
        rw [Bool.not_eq_false] at hf
        have h' := (hs.fin hf).1
        rw [outflags_syn_or_fin _ hsyn] at h'
        cases h'
      have hq : p.sndQ = [] := h.placed.syn hsyn
      refine ⟨Or.inl ⟨hsegsyn, hsyn⟩, hplain ?_ (Or.inl hsegsyn) ?_⟩
      · simp [Pcb.repeatsFin, hno]
      · rw [hq, List.length_nil] at htext ⊢
        lia
  | false =>
      simp only [hsyn, Bool.false_eq_true, if_false] at hpos
      split at hpos
      · next hfin =>
        simp only [Bool.and_eq_true, Bool.not_eq_true'] at hfin
        exact ⟨Or.inr ⟨hfin.1, (hs.fin hfin.1).1⟩, hplain hfin.2 (Or.inr hfin.1) (by lia)⟩
      · lia

/-- A pass that reaches one past the queue has marked the FIN. -/
theorem Ready.marked (h : Ready p o₀ m out) (hs : Emits p o₀ m r seg o n₀)
    (hpos : p.posAfter seg.flags.fin o seg.len m = p.sndQ.length + 1)
    (hflag : (tcpOutflags p.tState).fin = true) : (p.sentfin || seg.flags.fin) = true := by
  cases hf : seg.flags.fin with
  | true => exact Bool.or_true _
  | false =>
      have hsyn : (tcpOutflags p.tState).syn = false := by
        by_contra hs'
        rw [Bool.not_eq_false] at hs'
        rw [outflags_syn_or_fin _ hs'] at hflag
        cases hflag
      rw [Pcb.posAfter, hsyn, hf] at hpos
      simp only [Bool.false_and, Bool.false_eq_true, if_false, add_zero] at hpos
      have hstart := hs.start
      have hlast : o₀ = p.sndQ.length + 1 := by
        by_contra hne
        have hmax : m ≤ p.sndQ.length + 1 := by
          rw [← h.last]
          exact h.placed.max_le
        have hoff : o₀ ≤ m := by
          rw [← h.off, ← h.last]
          exact h.placed.off_le
        have htext := hs.text_le (by lia)
        lia
      have hsent : p.sentfin = true := by
        apply h.placed.fin _ hflag
        show p.sndOff.toNat = p.sndQ.length + 1
        rw [h.off, hlast]
      rw [hsent]
      rfl

/-- A pass that sends a segment keeps the offsets in place. -/
theorem Ready.emits (h : Ready p o₀ m out) (hs : Emits p o₀ m r seg o n₀) :
    Placed r.pcb.core (out ++ [seg]) ∧
      r.pcb.sndOff.toNat = p.posAfter seg.flags.fin o seg.len m ∧
      r.pcb.sndMax.toNat = max m (p.posAfter seg.flags.fin o seg.len m) := by
  have hplaced := h.placed
  have hpos := h.posAfter_le hs
  have hlimit : p.sndQ.length ≤ 2920 := hplaced.limit
  have hmax : m ≤ p.sndQ.length + 1 := by
    rw [← h.last]
    exact hplaced.max_le
  have hoff' : r.pcb.sndOff.toNat = p.posAfter seg.flags.fin o seg.len m := by
    rw [show r.pcb.sndOff = _ from congrArg Core.sndOff hs.core, BitVec.toNat_ofNat]
    lia
  have hmax' : r.pcb.sndMax.toNat = max m (p.posAfter seg.flags.fin o seg.len m) := by
    rw [show r.pcb.sndMax = _ from congrArg Core.sndMax hs.core, BitVec.toNat_ofNat]
    lia
  obtain ⟨hst, hseq, -, -, hq⟩ := hs.moved.kept
  refine ⟨?_, hoff', hmax'⟩
  constructor
  case live => rw [hst]; exact hplaced.live
  case limit => rw [hq]; exact hplaced.limit
  case syn => rw [hst, hq]; exact hplaced.syn
  case done => rw [hst, hq]; exact hplaced.done
  case off_le =>
    show r.pcb.sndOff.toNat ≤ r.pcb.sndMax.toNat
    rw [hoff', hmax']
    exact le_max_right _ _
  case max_le =>
    show r.pcb.sndMax.toNat ≤ _
    rw [hmax', hq]
    exact max_le hmax hpos
  case slot =>
    intro hfull
    have hfull' : max m (p.posAfter seg.flags.fin o seg.len m) = p.sndQ.length + 1 := by
      rw [← hmax', show p.sndQ = p.core.sndQ from rfl, ← hq]
      exact hfull
    have hsame : ∀ seg' : OutSeg, seg'.Fills p.core → seg'.Fills r.pcb.core := by
      intro seg' hfill
      rw [OutSeg.Fills, hst, hseq, hq]
      exact hfill
    by_cases hold : m = p.sndQ.length + 1
    · obtain ⟨seg', hmem, hfill⟩ := hplaced.slot (h.last.trans hold)
      exact ⟨seg', List.mem_append_left _ hmem, hsame seg' hfill⟩
    · exact ⟨seg, List.mem_append_right _ (List.mem_singleton_self seg),
        hsame seg (h.fills hs (by lia) (by lia))⟩
  case fin =>
    intro hfull hflag
    rw [hst] at hflag
    have hmark := h.marked hs ?_ hflag
    · exact (congrArg Core.sentfin hs.core).trans hmark
    · rw [← hoff', show p.sndQ = p.core.sndQ from rfl, ← hq]
      exact hfull

end Pass

/-- A quiet pass keeps the offsets in place. -/
theorem Placed.quiet {r : Pass} (h : Placed p.core out) (hq : Quiet p r) :
    Placed r.pcb.core out := by
  rcases hq.core with hcore | ⟨-, hcore⟩
  · rw [hcore]
    exact h
  · rw [hcore]
    exact ⟨h.live, h.limit, h.syn, h.done, Nat.zero_le _, h.max_le, h.slot,
      fun hz => absurd hz (Nat.succ_ne_zero _).symm⟩

/-- `tcp_output` keeps the offsets in place when a SYN goes out at the first position. -/
theorem tcpOutput_placed (h : Placed p.core out)
    (hsyn : (tcpOutflags p.tState).syn = true → p.sndOff = 0 ∨ p.sndWnd = 0) (es : List OutEnv) :
    Placed (tcpOutput p es).1.core (out ++ (tcpOutput p es).2) := by
  have hemit : ∀ q o₀ m out r seg o n₀, Ready q o₀ m out → Emits q o₀ m r seg o n₀ →
      Placed r.pcb.core (out ++ [seg]) ∧ (r.again = true →
        Ready r.pcb (q.posAfter seg.flags.fin o seg.len m)
          (max m (q.posAfter seg.flags.fin o seg.len m)) (out ++ [seg])) := by
    intro q o₀ m out r seg o n₀ hr hs
    obtain ⟨hplaced, hoff, hmax⟩ := hr.emits hs
    refine ⟨hplaced, fun hagain => ⟨hplaced, hoff, hmax, fun hflag => ?_⟩⟩
    -- there is text to send in a further pass, so this is not a SYN
    have hpos := (hs.again hagain).2
    rw [show r.pcb.tState = q.tState from hs.moved.kept.1] at hflag
    rw [Pcb.usable, show q.sndQ = [] from hr.placed.syn hflag] at hpos
    simp at hpos
  refine tcpOutput_rule (I := Ready) (J := fun q out => Placed q.core out)
    (fun _ _ _ _ hr => hr.placed) (fun _ _ _ _ _ hr hq => hr.placed.quiet hq) hemit p es out ?_
  refine ⟨h, rfl, rfl, fun hflag => ?_⟩
  rcases hsyn hflag with h0 | hw
  · exact Or.inl (by rw [h0]; rfl)
  · exact Or.inr hw

/-! ### Input -/

/-- The bytes in the queue and their sequence numbers: `una` numbers since the initial one
are acknowledged, the first of them for the SYN. -/
structure Numbered (c : Core) (iss : Seq) (una : Nat) (queued : List UInt8) : Prop where
  seq : c.sndSeq = iss + BitVec.ofNat 32 una
  syn : (tcpOutflags c.tState).syn = true → queued = [] ∧ una = 0
  queue : c.sndQ = [] ∧ c.tState ≠ .established ∨
    0 < una ∧ una ≤ queued.length + 1 ∧ c.sndQ = queued.drop (una - 1)

variable {iss : Seq} {una : Nat} {queued : List UInt8}

/-- Another state with the same flags and the same place in the sequence space. -/
theorem Placed.congr {c' : Core} (h : Placed c out)
    (hflags : tcpOutflags c'.tState = tcpOutflags c.tState)
    (hlive : c'.tState ≠ .closed ∧ c'.tState ≠ .listen)
    (hdone : c'.tState = .finWait2 ∨ c'.tState = .timeWait → c'.sndQ = [])
    (hseq : c'.sndSeq = c.sndSeq) (hoff : c'.sndOff = c.sndOff) (hmax : c'.sndMax = c.sndMax)
    (hsent : c'.sentfin = c.sentfin) (hq : c'.sndQ = c.sndQ) : Placed c' out := by
  constructor
  case live => exact hlive
  case limit => rw [hq]; exact h.limit
  case syn => rw [hflags, hq]; exact h.syn
  case done => exact hdone
  case off_le => rw [hoff, hmax]; exact h.off_le
  case max_le => rw [hmax, hq]; exact h.max_le
  case slot =>
    simp only [OutSeg.Fills, hflags, hseq, hmax, hq]
    exact h.slot
  case fin => rw [hoff, hq, hflags, hsent]; exact h.fin

theorem outflags_finState {st : TcpState} (hsyn : st ≠ .synRcvd) :
    tcpOutflags (finState st) = tcpOutflags st := by
  cases st <;> first | rfl | exact absurd rfl hsyn

theorem finState_done {st : TcpState} (h : finState st = .finWait2 ∨ finState st = .timeWait) :
    st = .finWait2 ∨ st = .timeWait := by
  cases st <;> simp_all [finState]

/-- A segment of text or a FIN of the peer does not move the send side. -/
theorem EndSpec.placed {t : Text} {win : BitVec 16} {r : InputResult} {taken : Bool}
    (h : EndSpec c t win avail r taken) (hsyn : c.tState ≠ .synRcvd) (hplaced : Placed c out)
    (hnum : Numbered c iss una queued) :
    Placed r.pcb.core out ∧ Numbered r.pcb.core iss una queued := by
  have hq : r.pcb.core.sndQ = c.sndQ := by
    have hsndQ : r.pcb.core.sndQ = _ := h.sndQ
    rw [hsndQ]
    split
    · next hfin => exact (hplaced.done (Or.inl hfin.2)).symm
    · rfl
  have hst : r.pcb.core.tState = _ := h.tState
  have hflags : tcpOutflags r.pcb.core.tState = tcpOutflags c.tState := by
    rw [hst]
    split
    · exact outflags_finState hsyn
    · rfl
  constructor
  · refine hplaced.congr hflags ?_ ?_ h.sndSeq h.sndOff h.sndMax h.sentfin hq
    · rw [hst]
      split
      · exact finState_live hplaced.live
      · exact hplaced.live
    · rw [hst, hq]
      split
      · exact fun hd => hplaced.done (finState_done hd)
      · exact hplaced.done
  · refine ⟨?_, ?_, ?_⟩
    · rw [show r.pcb.core.sndSeq = c.sndSeq from h.sndSeq]
      exact hnum.seq
    · rw [hflags]
      exact hnum.syn
    · rw [hq]
      rcases hnum.queue with ⟨hnil, hne⟩ | htail
      · refine Or.inl ⟨hnil, ?_⟩
        rw [hst]
        split
        · exact fun he => finState_eq_established he
        · exact hne
      · exact Or.inr htail

/-- An acknowledgement inside the queue does not change the state after the handshake. -/
theorem ackedState_false {st : TcpState} (hsyn : st ≠ .synRcvd) : ackedState st false = st := by
  cases st <;> simp_all [ackedState]

theorem NewAck.placed {c' : Core} {ack : Seq} {k : Nat} (h : NewAck c ack k c')
    (hsent : c.tState ≠ .synSent) (hplaced : Placed c out) : Placed c' out := by
  have hmax := hplaced.max_le
  have hoff := hplaced.off_le
  have hpos := h.pos
  have hle := h.le
  have hlen : c'.sndQ.length = c.sndQ.length - k := by rw [h.sndQ, List.length_drop]
  -- an offset past the queue stays there only for an acknowledgement inside the queue
  have hinside : k ≤ c.sndQ.length → c.tState ≠ .synRcvd ∧ c'.tState = c.tState := by
    intro hk
    have hne : c.tState ≠ .synRcvd := by
      intro hst
      have hnil := hplaced.syn (by rw [hst]; rfl)
      rw [hnil, List.length_nil] at hk
      lia
    refine ⟨hne, ?_⟩
    rw [h.tState, decide_eq_false (by lia), ackedState_false hne]
  constructor
  case live =>
    rw [h.tState]
    have hlive := hplaced.live
    generalize decide (c.sndQ.length < k) = b
    cases hst : c.tState <;> cases b <;> simp_all [ackedState]
  case limit =>
    have hlimit := hplaced.limit
    lia
  case syn =>
    intro hflag
    rw [h.tState] at hflag
    generalize decide (c.sndQ.length < k) = b at hflag
    cases hst : c.tState <;> cases b <;> simp_all [ackedState, tcpOutflags]
  case done =>
    intro hd
    by_cases hk : k ≤ c.sndQ.length
    · rw [(hinside hk).2] at hd
      rw [h.sndQ, hplaced.done hd, List.drop_nil]
    · rw [h.sndQ]
      exact List.drop_eq_nil_of_le (by lia)
  case off_le =>
    rw [h.sndOff, h.sndMax]
    lia
  case max_le =>
    rw [h.sndMax, hlen]
    lia
  case slot =>
    intro hfull
    rw [h.sndMax, hlen] at hfull
    have hk : k ≤ c.sndQ.length := by lia
    obtain ⟨seg, hmem, hflag, hseq⟩ := hplaced.slot (by lia)
    refine ⟨seg, hmem, ?_, ?_⟩
    · rw [(hinside hk).2]
      exact hflag
    · rw [hseq, h.sndSeq, h.ack_eq, hlen, offset_add_offset, Nat.add_sub_cancel' hk]
  case fin =>
    intro hfull hflag
    rw [h.sndOff, hlen] at hfull
    have hk : k ≤ c.sndQ.length := by lia
    rw [(hinside hk).2] at hflag
    rw [h.sentfin]
    exact hplaced.fin (by lia) hflag

theorem NewAck.numbered {c' : Core} {ack : Seq} {k : Nat} (h : NewAck c ack k c')
    (hsent : c.tState ≠ .synSent) (hplaced : Placed c out) (hnum : Numbered c iss una queued) :
    Numbered c' iss (una + k) queued := by
  have hmax := hplaced.max_le
  have hpos := h.pos
  have hle := h.le
  constructor
  case seq => rw [h.sndSeq, h.ack_eq, hnum.seq, offset_add_offset]
  case syn =>
    intro hflag
    rw [h.tState] at hflag
    generalize decide (c.sndQ.length < k) = b at hflag
    cases hst : c.tState <;> cases b <;> simp_all [ackedState, tcpOutflags]
  case queue =>
    rcases hnum.queue with ⟨hnil, hne⟩ | ⟨hpos', hle', htail⟩
    · by_cases hst : c.tState = .synRcvd
      · -- the acknowledgement of the SYN starts the stream
        obtain ⟨hq, hzero⟩ := hnum.syn (by rw [hst]; rfl)
        rw [hnil, List.length_nil] at hmax
        right
        refine ⟨by lia, by lia, ?_⟩
        rw [h.sndQ, hnil, hq, List.drop_nil, List.drop_nil]
      · left
        refine ⟨by rw [h.sndQ, hnil, List.drop_nil], ?_⟩
        rw [h.tState]
        generalize decide (c.sndQ.length < k) = b
        cases hst' : c.tState <;> cases b <;> simp_all [ackedState]
    · have hlen : c.sndQ.length = queued.length - (una - 1) := by rw [htail, List.length_drop]
      by_cases hk : k ≤ c.sndQ.length
      · right
        refine ⟨by lia, by lia, ?_⟩
        rw [h.sndQ, htail, List.drop_drop]
        congr 1
        lia
      · -- more than the queue is acknowledged: a FIN has taken the slot
        left
        refine ⟨by rw [h.sndQ]; exact List.drop_eq_nil_of_le (by lia), ?_⟩
        obtain ⟨seg, -, hflag, -⟩ := hplaced.slot (by lia)
        rw [h.tState]
        rcases hflag with ⟨-, hsyn⟩ | ⟨-, hfin⟩
        · have hzero := (hnum.syn hsyn).2
          lia
        · generalize decide (c.sndQ.length < k) = b
          cases hst : c.tState <;> cases b <;> simp_all [ackedState, tcpOutflags]

/-- The conditions under which a step keeps the offsets in place: an acknowledgement in
`SYN_RCVD` covers the SYN, the answer to an active open finds the SYN at its offset, a SYN
is sent only at the first position, and `tcp_close` finds no SYN and no byte of text that
it does not account for. -/
def sendKept (c : Conn) : Action → Prop
  | .input s _ =>
    (c.pcb.tState = .synRcvd → reaches c.pcb s = true → ¬seqLeq s.ack c.pcb.sndSeq) ∧
      (opens c.pcb s = true → c.pcb.sndOff ≠ 0)
  | .output _ =>
    (tcpOutflags c.pcb.tState).syn = true → c.pcb.sndOff = 0 ∨ c.pcb.sndWnd = 0
  | .close =>
    (c.pcb.tState = .synRcvd → c.pcb.sndMax = 0) ∧
      (c.pcb.tState = .closeWait → c.pcb.sndOff.toNat = c.pcb.sndQ.length)
  | _ => True

instance (c : Conn) : (a : Action) → Decidable (sendKept c a)
  | .input _ _ => inferInstanceAs (Decidable (_ ∧ _))
  | .output _ => inferInstanceAs (Decidable (_ → _ ∨ _))
  | .close => inferInstanceAs (Decidable (_ ∧ _))
  | .send .. | .recv _ | .rxmtTmr | .fastTmr => isTrue trivial

/-- The answer to an active open takes the SYN out of the offsets. -/
theorem opened_placed (hopen : opens p s = true) (hoff : p.sndOff ≠ 0)
    (hplaced : Placed p.core out) (hnum : Numbered p.core iss una queued) :
    Placed (p.core.opened s) out ∧ Numbered (p.core.opened s) iss (una + 1) queued := by
  obtain ⟨hst, -⟩ := opens_iff.mp hopen
  have hsyn : (tcpOutflags p.core.tState).syn = true := by
    rw [show p.core.tState = .synSent from hst]
    rfl
  have hnil : p.sndQ = [] := hplaced.syn hsyn
  obtain ⟨hq, hzero⟩ := hnum.syn hsyn
  have hle : p.sndOff.toNat ≤ p.sndMax.toNat := hplaced.off_le
  have hmax : p.sndMax.toNat ≤ p.sndQ.length + 1 := hplaced.max_le
  rw [hnil, List.length_nil] at hmax
  have hpos : p.sndOff.toNat ≠ 0 := fun h => hoff (BitVec.eq_of_toNat_eq h)
  have hoff' : p.sndOff - 1 = 0 := by bv_omega
  have hmax' : p.sndMax - 1 = 0 := by bv_omega
  constructor
  · have hzero' : (p.core.opened s).sndMax.toNat = 0 := by
      show (p.sndMax - 1).toNat = 0
      rw [hmax']
      rfl
    have hzero : (p.core.opened s).sndOff.toNat = 0 := by
      show (p.sndOff - 1).toNat = 0
      rw [hoff']
      rfl
    refine ⟨⟨by simp [Core.opened], by simp [Core.opened]⟩, hplaced.limit, fun _ => hnil, fun _ => hnil,
      by lia, by lia, by lia, by lia⟩
  · refine ⟨?_, by simp [Core.opened, tcpOutflags], Or.inr ⟨by lia, by lia, ?_⟩⟩
    · show p.core.sndSeq + 1 = _
      rw [hnum.seq, hzero]
      simp
    · show p.sndQ = _
      rw [hnil, hq, List.drop_nil]

/-- The send side over one segment. -/
theorem InputDone.placed {r : InputResult} (h : InputDone p s avail r)
    (hplaced : Placed p.core out) (hnum : Numbered p.core iss una queued)
    (hack : p.tState = .synRcvd → reaches p s = true → ¬seqLeq s.ack p.sndSeq)
    (hopen : opens p s = true → p.sndOff ≠ 0) (hlist : r.list = .active) :
    Placed r.pcb.core out ∧
      Numbered r.pcb.core iss (una + (r.pcb.sndSeq - p.sndSeq).toNat) queued := by
  have hsame : r.pcb.core = p.core → Placed r.pcb.core out ∧
      Numbered r.pcb.core iss (una + (r.pcb.sndSeq - p.sndSeq).toNat) queued := by
    intro hcore
    have hseq : r.pcb.sndSeq = p.sndSeq := congrArg Core.sndSeq hcore
    rw [hcore, hseq, sub_self]
    exact ⟨hplaced, hnum⟩
  cases h with
  | refused hst hleft hstored hmark => exact absurd hlist hleft
  | opened hop taken hend =>
      obtain ⟨hplaced', hnum'⟩ := opened_placed hop (hopen hop) hplaced hnum
      have hseq : r.pcb.sndSeq = p.sndSeq + 1 := hend.sndSeq
      have hone : (r.pcb.sndSeq - p.sndSeq).toNat = 1 := by
        rw [hseq, add_sub_cancel_left]
        rfl
      rw [hone]
      exact hend.placed (by simp [Core.opened]) hplaced' hnum'
  | stopped hst hacc hstop => exact hsame (hstop.stays hlist)
  | ended hst hacc hrst hstored hended =>
      cases hended with
      | range hl hcore hout => exact hsame hcore
      | freed hl => rw [hl] at hlist; cases hlist
      | waiting hl htime k hnew =>
          -- nothing is outstanding in `TIME_WAIT`
          have hmax := hplaced.max_le_length (by rw [htime]; rfl) (by rw [htime]; rfl)
          rw [hplaced.done (Or.inr htime), List.length_nil] at hmax
          have hpos := hnew.pos
          have hle := hnew.le
          lia
  | processed hst hacc hreach p' t hcheck d hdone taken hend =>
      cases hdone with
      | same hne hle hcore =>
          rw [hcore] at hend
          have hseq : r.pcb.sndSeq = p.sndSeq := hend.sndSeq
          rw [hseq, sub_self]
          exact hend.placed hne hplaced hnum
      | early hsyn hge hmax hle hcore => exact absurd hle (hack hsyn hreach)
      | new k hnew hlast htime =>
          have hseq : r.pcb.sndSeq = p.sndSeq + BitVec.ofNat 32 k :=
            hend.sndSeq.trans (hnew.sndSeq.trans hnew.ack_eq)
          have hk : k ≤ p.sndMax.toNat := hnew.le
          have hlt := p.sndMax.isLt
          rw [hseq, toNat_offset_sub p.sndSeq (by lia)]
          refine hend.placed ?_ (hnew.placed hst hplaced) (hnew.numbered hst hplaced hnum)
          rw [hnew.tState]
          generalize decide (p.core.sndQ.length < k) = b
          cases hst' : p.core.tState <;> cases b <;> simp [ackedState]

/-! ### Runs -/

/-- The send side of a connection is in order. -/
structure Sending (c : Conn) : Prop where
  placed : Placed c.pcb.core c.out
  numbered : Numbered c.pcb.core c.iss c.una c.queued

/-- A change of fields that the send side does not look at, or a return to the first
position. -/
theorem Placed.restart {c' : Core} (h : Placed c out)
    (hcore : c' = { c with sndOff := 0, sentfin := false }) : Placed c' out := by
  subst hcore
  exact ⟨h.live, h.limit, h.syn, h.done, Nat.zero_le _, h.max_le, h.slot,
    fun hz => absurd hz (Nat.succ_ne_zero _).symm⟩

theorem Numbered.congr {c' : Core} (h : Numbered c iss una queued) (hst : c'.tState = c.tState)
    (hseq : c'.sndSeq = c.sndSeq) (hq : c'.sndQ = c.sndQ) : Numbered c' iss una queued := by
  refine ⟨?_, ?_, ?_⟩
  · rw [hseq]
    exact h.seq
  · rw [hst]
    exact h.syn
  · rw [hst, hq]
    exact h.queue

/-- Bytes are appended in `ESTABLISHED` only. -/
theorem send_sending {c : Conn} (h : Sending c) {src : List UInt8} {r : Pcb × Progress}
    (hest : c.pcb.tState = .established) (hspec : SendSpec c.pcb src r) :
    Sending { c with pcb := r.1, queued := c.queued ++ takenBytes src r.2 } := by
  have hplaced := h.placed
  have hest' : c.pcb.core.tState = .established := hest
  have hmax := hplaced.max_le_length (by rw [hest']; rfl) (by rw [hest']; rfl)
  have hq : r.1.core.sndQ = c.pcb.core.sndQ ++ takenBytes src r.2 := congrArg Core.sndQ hspec.core
  have hst : r.1.core.tState = .established := (congrArg Core.tState hspec.core).trans hest
  have hlen : c.pcb.core.sndQ.length ≤ r.1.core.sndQ.length := by
    rw [hq, List.length_append]
    lia
  have hoff : r.1.core.sndOff = c.pcb.core.sndOff := by rw [hspec.core]
  have hmax' : r.1.core.sndMax = c.pcb.core.sndMax := by rw [hspec.core]
  have hle := hplaced.off_le
  suffices hboth : Placed r.1.core c.out ∧
      Numbered r.1.core c.iss c.una (c.queued ++ takenBytes src r.2) from ⟨hboth.1, hboth.2⟩
  constructor
  · constructor
    case live => rw [hst]; decide
    case limit => exact hspec.limit hplaced.limit
    case syn => rw [hst]; exact fun h' => by cases h'
    case done => rw [hst]; exact fun h' => by rcases h' with h' | h' <;> cases h'
    case off_le => rw [hoff, hmax']; exact hle
    case max_le => rw [hmax']; lia
    case slot => rw [hmax']; lia
    case fin => rw [hoff]; lia
  · have hnum := h.numbered
    refine ⟨(congrArg Core.sndSeq hspec.core).trans hnum.seq, ?_, ?_⟩
    · rw [hst]
      exact fun h' => by cases h'
    · rcases hnum.queue with ⟨-, hne⟩ | ⟨hpos, hle', htail⟩
      · exact absurd hest hne
      · right
        refine ⟨hpos, ?_, ?_⟩
        · simp only [List.length_append]
          lia
        · rw [hq, htail, List.drop_append_of_le_length (by lia)]

theorem close_sending {c : Conn} (h : Sending c) (hkept : sendKept c .close)
    (hlist : (tcpClose c.pcb).2 = .active) : Sending (c.next .close) := by
  have hplaced := h.placed
  have hnum := h.numbered
  have hle := hplaced.off_le
  have hmax := hplaced.max_le
  suffices hboth : Placed (tcpClose c.pcb).1.core c.out ∧
      Numbered (tcpClose c.pcb).1.core c.iss c.una c.queued from ⟨hboth.1, hboth.2⟩
  cases tcpClose_spec hlist with
  | fin hst hcore =>
      rw [hcore]
      have hinside : c.pcb.core.sndMax.toNat ≤ c.pcb.core.sndQ.length := by
        rcases hst with hst | hst
        · have hzero : c.pcb.core.sndMax = 0 := hkept.1 hst
          rw [hzero]
          exact Nat.zero_le _
        · exact hplaced.max_le_length (by rw [hst]; rfl) (by rw [hst]; rfl)
      refine ⟨⟨by simp, hplaced.limit, by simp [tcpOutflags], by simp, hle, hmax, ?_, ?_⟩,
        ⟨hnum.seq, by simp [tcpOutflags], ?_⟩⟩
      · intro hfull
        simp only at hfull
        lia
      · intro hfull
        simp only at hfull
        lia
      · rcases hnum.queue with ⟨hnil, -⟩ | htail
        · exact Or.inl ⟨hnil, by simp⟩
        · exact Or.inr htail
  | discard hst hcore =>
      rw [hcore]
      have hall : c.pcb.core.sndOff.toNat = c.pcb.core.sndQ.length := hkept.2 hst
      have hinside := hplaced.max_le_length (by rw [hst]; rfl) (by rw [hst]; rfl)
      have hlimit : c.pcb.core.sndQ.length ≤ 2920 := hplaced.limit
      have hlen : BitVec.ofNat 16 c.pcb.core.sndQ.length = c.pcb.core.sndOff := by
        apply BitVec.eq_of_toNat_eq
        rw [BitVec.toNat_ofNat]
        lia
      have heq : c.pcb.core.sndMax = c.pcb.core.sndOff := by
        apply BitVec.eq_of_toNat_eq
        lia
      rw [hlen, heq, sub_self]
      exact ⟨⟨by simp, Nat.zero_le _, fun _ => rfl, fun _ => rfl, le_rfl, by simp, by simp, by simp⟩,
        ⟨hnum.seq, by simp [tcpOutflags], Or.inl ⟨rfl, by simp⟩⟩⟩
  | same hst hcore =>
      rw [hcore]
      exact ⟨hplaced, hnum⟩

/-- Every step that meets its condition keeps the send side in order. -/
theorem step_sending {c c' : Conn} {a : Action} (h : c.list = .active → Sending c)
    (hok : sendKept c a) (hstep : c.step a = some c') : c'.list = .active → Sending c' := by
  simp only [Conn.step] at hstep
  split at hstep
  · next hlist =>
    obtain rfl := Option.some.inj hstep
    obtain ⟨hplaced, hnum⟩ := h hlist
    intro hlist'
    cases a with
    | input s avail =>
        obtain ⟨hp, hn⟩ :=
          (tcpInput_spec c.pcb s avail).placed hplaced hnum hok.1 hok.2 hlist'
        exact ⟨hp, hn⟩
    | output es =>
        obtain ⟨hst, hseq, -, -, hq⟩ := (tcpOutput_moved c.pcb es).kept
        exact ⟨tcpOutput_placed hplaced hok es, hnum.congr hst hseq hq⟩
    | send src len nowait offs avail =>
        rcases tcpSend_spec c.pcb src len nowait offs avail with ⟨hcore, hnone⟩ | ⟨hest, hspec⟩
        · refine ⟨?_, ?_⟩
          · show Placed (tcpSend c.pcb src len nowait offs avail).1.core c.out
            rw [hcore]
            exact hplaced
          · show Numbered (tcpSend c.pcb src len nowait offs avail).1.core c.iss c.una
              (c.queued ++ takenBytes src (tcpSend c.pcb src len nowait offs avail).2)
            rw [hcore, hnone, List.append_nil]
            exact hnum
        · exact send_sending ⟨hplaced, hnum⟩ hest hspec
    | recv len =>
        refine ⟨?_, ?_⟩
        · show Placed (tcpRecv c.pcb len).core c.out
          rw [tcpRecv_core]
          exact hplaced.congr rfl hplaced.live hplaced.done rfl rfl rfl rfl rfl
        · show Numbered (tcpRecv c.pcb len).core c.iss c.una c.queued
          rw [tcpRecv_core]
          exact hnum.congr rfl rfl rfl
    | close => exact close_sending ⟨hplaced, hnum⟩ hok hlist'
    | rxmtTmr =>
        rcases tcpRxmtTmr_core c.pcb with hcore | hcore
        · refine ⟨?_, ?_⟩
          · show Placed (tcpRxmtTmr c.pcb).core c.out
            rw [hcore]
            exact hplaced
          · show Numbered (tcpRxmtTmr c.pcb).core c.iss c.una c.queued
            rw [hcore]
            exact hnum
        · refine ⟨hplaced.restart hcore, ?_⟩
          show Numbered (tcpRxmtTmr c.pcb).core c.iss c.una c.queued
          rw [hcore]
          exact hnum.congr rfl rfl rfl
    | fastTmr =>
        refine ⟨?_, ?_⟩
        · show Placed (tcpFastTmr c.pcb).core c.out
          rw [tcpFastTmr_core]
          exact hplaced
        · show Numbered (tcpFastTmr c.pcb).core c.iss c.una c.queued
          rw [tcpFastTmr_core]
          exact hnum
  · cases hstep

theorem start_sending (hp : Opened p) : Sending (Conn.start p) := by
  have hfresh := hp.fresh
  have hq : p.core.sndQ = [] := hfresh.sndQ
  have hoff : p.core.sndOff.toNat = 0 := by
    show p.sndOff.toNat = 0
    rw [hfresh.sndOff]
    rfl
  have hmax : p.core.sndMax.toNat = 0 := by
    show p.sndMax.toNat = 0
    rw [hfresh.sndMax]
    rfl
  have hne : ∀ st, st ≠ .synRcvd → st ≠ .synSent → p.core.tState ≠ st := by
    intro st h₁ h₂ heq
    rcases hfresh.tState with hst | hst
    · exact h₁ (heq.symm.trans hst)
    · exact h₂ (heq.symm.trans hst)
  refine ⟨⟨⟨hne _ (by decide) (by decide), hne _ (by decide) (by decide)⟩, ?_, fun _ => hq,
    fun _ => hq, ?_, ?_, ?_, ?_⟩, ⟨?_, fun _ => ⟨rfl, rfl⟩, ?_⟩⟩
  · show p.core.sndQ.length ≤ _
    rw [hq]
    exact Nat.zero_le _
  · exact hoff ▸ Nat.zero_le _
  · exact hmax ▸ Nat.zero_le _
  · intro hfull
    exact absurd (hmax.symm.trans hfull) (by lia)
  · intro hfull
    exact absurd (hoff.symm.trans hfull) (by lia)
  · exact (add_zero _).symm
  · exact Or.inl ⟨hq, hne _ (by decide) (by decide)⟩

/-- In every run whose steps meet `sendKept` the send side is in order while the connection
is in the active list. -/
theorem run_sending (hp : Opened p) {as : List Action} {c : Conn}
    (hkept : Along Conn.step sendKept (Conn.start p) as)
    (hrun : exec Conn.step (Conn.start p) as = some c) : c.list = .active → Sending c :=
  exec_invariant (I := fun c => c.list = .active → Sending c)
    (fun _ _ _ h hok hstep => step_sending h hok hstep) (fun _ => start_sending hp) hkept hrun

/-- The offsets lie in order inside the queue, with one slot past it only for a SYN or FIN
that has been sent and not acknowledged, and the byte at offset `k` has the sequence number
`snd_seq + k`: byte `j` of the application has the number `iss + 1 + j`. -/
structure SendOrder (c : Conn) : Prop where
  off_le : c.pcb.sndOff.toNat ≤ c.pcb.sndMax.toNat
  max_le : c.pcb.sndMax.toNat ≤ c.pcb.sndQ.length + 1
  slot : c.pcb.sndMax.toNat = c.pcb.sndQ.length + 1 →
    ∃ seg ∈ c.out, (seg.flags.syn = true ∨ seg.flags.fin = true) ∧
      seg.seq + BitVec.ofNat 32 seg.len = c.pcb.sndSeq + BitVec.ofNat 32 c.pcb.sndQ.length
  byte : ∀ k b, c.pcb.sndQ[k]? = some b →
    ∃ j, c.queued[j]? = some b ∧ c.pcb.sndSeq + BitVec.ofNat 32 k = c.iss + 1 + BitVec.ofNat 32 j

theorem Sending.order {c : Conn} (h : Sending c) : SendOrder c := by
  have hplaced := h.placed
  have hnum := h.numbered
  constructor
  case off_le => exact hplaced.off_le
  case max_le => exact hplaced.max_le
  case slot =>
    intro hfull
    obtain ⟨seg, hmem, hflag, hseq⟩ := hplaced.slot hfull
    refine ⟨seg, hmem, ?_, hseq⟩
    rcases hflag with ⟨hsyn, -⟩ | ⟨hfin, -⟩
    · exact Or.inl hsyn
    · exact Or.inr hfin
  case byte =>
    intro k b hb
    have hseq : c.pcb.sndSeq = c.iss + BitVec.ofNat 32 c.una := hnum.seq
    rcases hnum.queue with ⟨hnil, -⟩ | ⟨hpos, hle, htail⟩
    · rw [show c.pcb.sndQ = [] from hnil] at hb
      simp at hb
    · rw [show c.pcb.sndQ = _ from htail, List.getElem?_drop] at hb
      refine ⟨c.una - 1 + k, hb, ?_⟩
      rw [hseq, offset_add_offset, show c.iss + 1 = c.iss + BitVec.ofNat 32 1 from rfl,
        offset_add_offset]
      congr 2
      lia

/-- In every run whose steps meet `sendKept`, the send sequence space of a connection in the
active list is in order. -/
theorem sendSequence_ordered (hp : Opened p) {as : List Action} {c : Conn}
    (hkept : Along Conn.step sendKept (Conn.start p) as)
    (hrun : exec Conn.step (Conn.start p) as = some c) (hlist : c.list = .active) :
    SendOrder c :=
  (run_sending hp hkept hrun hlist).order

/-- Two bytes are sent, the first one is acknowledged, and the application closes. -/
def closeAfterDataRun : List Action :=
  [.output [openNet], .input (sampleSegment false 101 0x100001 1000 [] nil_lt) 10,
    .send [1, 2] 2 true 0 100, .output [openNet],
    .input (sampleSegment false 101 0x100002 1000 [] nil_lt) 10, .close, .output [openNet]]

theorem sendSequence_ordered_close :
    ∃ c, exec Conn.step sampleStart closeAfterDataRun = some c ∧ c.pcb.sndQ = [2] ∧
      c.pcb.sndMax = 2 ∧ SendOrder c := by
  have hend : (exec Conn.step sampleStart closeAfterDataRun).map
      (fun c => (c.list, c.pcb.sndQ, c.pcb.sndMax)) = some (.active, [2], 2) := by
    decide
  obtain ⟨c, hrun, hc⟩ := Option.map_eq_some_iff.mp hend
  obtain ⟨hlist, hrest⟩ := Prod.mk.inj hc
  obtain ⟨hq, hmax⟩ := Prod.mk.inj hrest
  exact ⟨c, hrun, hq, hmax,
    sendSequence_ordered (.passive _ _ _ _ _) (by decide) hrun hlist⟩

/-- The application closes before the SYN is acknowledged. -/
def earlyCloseRun : List Action := [.output [openNet], .close, .output [openNet]]

/-- The FIN takes a second slot beside the one of the SYN. -/
theorem sendSequence_not_ordered :
    ∃ c, exec Conn.step sampleStart earlyCloseRun = some c ∧ c.list = .active ∧
      c.pcb.sndQ = [] ∧ c.pcb.sndMax = 2 ∧ ¬SendOrder c := by
  have hend : (exec Conn.step sampleStart earlyCloseRun).map
      (fun c => (c.list, c.pcb.sndQ, c.pcb.sndMax)) = some (.active, [], 2) := by
    decide
  obtain ⟨c, hrun, hc⟩ := Option.map_eq_some_iff.mp hend
  obtain ⟨hlist, hrest⟩ := Prod.mk.inj hc
  obtain ⟨hq, hmax⟩ := Prod.mk.inj hrest
  refine ⟨c, hrun, hlist, hq, hmax, fun h => ?_⟩
  have hle := h.max_le
  rw [hq, hmax] at hle
  exact absurd hle (by decide)

end YardIce.Tcp
