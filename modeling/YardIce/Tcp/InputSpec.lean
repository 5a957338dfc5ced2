import YardIce.Lib.Stages
import YardIce.Tcp.Connection
import YardIce.Tcp.OutputSpec
import YardIce.Tcp.Prediction

/-!
# What `tcp_input` can do

One specification for each stage of the slow path, in terms of the fields that say
where the connection stands, and their composition. Header prediction agrees with the
slow path on these fields.
-/

namespace YardIce.Tcp

open YardIce.Lib

variable {p : Pcb} {s : Segment} {t : Text} {avail : Nat}

/-- The sequence number of the first byte of text. -/
def Segment.textSeq (s : Segment) : Seq := s.seq + if s.flags.syn then 1 else 0

/-- How far the text starts before `rcv_nxt`. -/
def behind (rcvNxt : Seq) (s : Segment) : Int := (rcvNxt - s.textSeq).toInt

/-- What is left of a segment after the trimming: nothing, or the text from `rcv_nxt` on
and a FIN only with all of it. -/
structure Trimmed (rcvNxt : Seq) (s : Segment) (t : Text) : Prop where
  ack : t.flags.ack = s.flags.ack
  rst : t.flags.rst = s.flags.rst
  fin : t.flags.fin = true → s.flags.fin = true
  text : t.data = [] ∧ t.flags.fin = false ∨
    (behind rcvNxt s).toNat ≤ s.data.length ∧
      t.seq = s.textSeq + BitVec.ofNat 32 (behind rcvNxt s).toNat ∧
      t.data <+: s.data.drop (behind rcvNxt s).toNat ∧
      (t.flags.fin = true → t.data = s.data.drop (behind rcvNxt s).toNat)

theorem trimBytes_core (p : Pcb) (t : Text) (todrop : Int) :
    (trimBytes p t todrop).1.core = p.core := by
  simp only [trimBytes]
  split <;> rfl

theorem trimHead_core (p : Pcb) (t : Text) : (trimHead p t).1.core = p.core := by
  simp only [trimHead]
  split
  · exact trimBytes_core _ _ _
  · rfl

/-- Without its SYN the text starts where it started. -/
theorem trimSyn_text (s : Segment) :
    trimSyn s.text = ⟨{ s.flags with syn := false }, s.textSeq, s.data⟩ := by
  obtain ⟨⟨fin, syn, rst, psh, ack, urg⟩, seq, ackn, win, opt, data, hdata⟩ := s
  cases syn <;> simp [trimSyn, Segment.text, Segment.textSeq]

/-- The bytes to drop are those before `rcv_nxt`. -/
theorem todrop_eq (h : (p.rcvNxt - s.seq).toInt > 0) :
    (if s.flags.syn then (p.rcvNxt - s.seq).toInt - 1 else (p.rcvNxt - s.seq).toInt) =
      behind p.rcvNxt s := by
  simp only [behind, Segment.textSeq]
  split
  · simp only [BitVec.toInt_eq_toNat_cond] at h ⊢
    split at h <;> split <;> bv_omega
  · simp

theorem trimHead_trimmed (hsyn : (trimHead p s.text).2.flags.syn = false) :
    Trimmed p.rcvNxt s (trimHead p s.text).2 := by
  by_cases h : (p.rcvNxt - s.seq).toInt > 0
  · have hhead : trimHead p s.text =
        trimBytes p ⟨{ s.flags with syn := false }, s.textSeq, s.data⟩ (behind p.rcvNxt s) := by
      rw [← todrop_eq h, ← trimSyn_text]
      exact if_pos h
    rw [hhead, trimBytes]
    split
    · exact ⟨rfl, rfl, by simp, Or.inl ⟨rfl, rfl⟩⟩
    · next hdrop =>
      have hbehind : 0 ≤ behind p.rcvNxt s := by
        rw [← todrop_eq h]
        split <;> omega
      refine ⟨rfl, rfl, fun hf => hf, Or.inr ⟨?_, ?_, List.prefix_rfl, fun _ => rfl⟩⟩
      · simp only at hdrop
        omega
      · rw [← BitVec.ofInt_natCast, Int.toNat_of_nonneg hbehind]
  · have hhead : trimHead p s.text = (p, s.text) := if_neg h
    rw [hhead] at hsyn ⊢
    have hseq : s.textSeq = s.seq := by
      rw [Segment.textSeq, show s.flags.syn = false from hsyn]
      simp
    have hzero : (behind p.rcvNxt s).toNat = 0 := by
      rw [behind, hseq]
      omega
    refine ⟨rfl, rfl, fun hf => hf, Or.inr ⟨by omega, ?_, ?_, ?_⟩⟩
    · simp [hzero, hseq, Segment.text]
    · simp [hzero, Segment.text]
    · simp [hzero, Segment.text]

/-- The segment is dropped and the connection stays where it is. -/
structure Dropped (p : Pcb) (r : InputResult) : Prop where
  list : r.list = .active
  core : r.pcb.core = p.core
  stored : r.stored = []

theorem drop_dropped {q : Pcb} (h : q.core = p.core) : Dropped p (drop q .active) := ⟨rfl, h, rfl⟩

theorem dropAfterAck_dropped {q : Pcb} (h : q.core = p.core) (t : Text) :
    Dropped p (dropAfterAck q t) := by
  simp only [dropAfterAck]
  split
  · exact drop_dropped h
  · exact ⟨rfl, h, rfl⟩

theorem dropWithReset_dropped {q : Pcb} (h : q.core = p.core) (t : Text) (ack : Seq) :
    Dropped p (dropWithReset q .active t ack) := by
  simp only [dropWithReset]
  split
  · exact drop_dropped h
  · split <;> exact ⟨rfl, h, rfl⟩

/-- A FIN survives the window only with the whole text in it. -/
def finInside (p : Pcb) (seq : Seq) (len : Nat) : Prop :=
  ((seq + BitVec.ofNat 32 len) - (p.rcvNxt + BitVec.ofNat 32 p.rcvWnd)).toInt ≤ 0

instance (p : Pcb) (seq : Seq) (len : Nat) : Decidable (finInside p seq len) :=
  inferInstanceAs (Decidable (_ ≤ _))

/-- What `trimTail` leaves of a text. -/
structure TailCut (p : Pcb) (t : Text) (r : Pcb × Text) : Prop where
  core : r.1.core = p.core
  seq : r.2.seq = t.seq
  data : r.2.data <+: t.data
  syn : r.2.flags.syn = t.flags.syn
  rst : r.2.flags.rst = t.flags.rst
  ack : r.2.flags.ack = t.flags.ack
  fin : r.2.flags.fin = true → r.2 = t ∧ finInside p t.seq t.data.length

theorem trimTail_spec (p : Pcb) (t : Text) : Ends (TailCut p t) (Dropped p) (trimTail p t) := by
  have hcut : ∀ (q : Pcb) (n : Nat), q.core = p.core →
      TailCut p t (q, { t with flags := { t.flags with psh := false, fin := false }
                               data := t.data.take n }) := by
    intro q n hq
    exact ⟨hq, rfl, List.take_prefix _ _, rfl, rfl, rfl, by simp⟩
  simp only [trimTail]
  split
  · split
    · split
      · exact hcut _ _ rfl
      · exact dropAfterAck_dropped rfl t
    · exact hcut _ _ rfl
  · next h => exact ⟨rfl, rfl, List.prefix_rfl, rfl, rfl, rfl, fun _ => ⟨rfl, not_lt.mp h⟩⟩

/-- A block that goes to the closed list is marked as closed. -/
def InputResult.Marked (r : InputResult) : Prop := r.list = .closed → r.pcb.tState = .closed

/-- A call that ends before ACK processing: the connection stays, or a reset ends it. -/
structure Stopped (p : Pcb) (s : Segment) (r : InputResult) : Prop where
  stored : r.stored = []
  stays : r.list = .active → r.pcb.core = p.core
  leaves : r.list ≠ .active → s.flags.rst = true
  marked : r.Marked

theorem Dropped.stopped {r : InputResult} (h : Dropped p r) (s : Segment) : Stopped p s r :=
  ⟨h.stored, fun _ => h.core, fun hl => absurd h.list hl, fun hc => by rw [h.list] at hc; cases hc⟩

theorem inputReset_stopped {q : Pcb} (hrst : s.flags.rst = true) : Stopped p s (inputReset q) := by
  simp only [inputReset]
  split <;> exact ⟨rfl, by simp [drop, close], fun _ => hrst, by
    simp [InputResult.Marked, drop, close]⟩

/-- What is known of a segment that reaches ACK processing. -/
structure Checked (p : Pcb) (s : Segment) (r : Pcb × Text) : Prop where
  core : r.1.core = p.core
  trimmed : Trimmed p.rcvNxt s r.2
  ack : r.2.flags.ack = true
  rst : r.2.flags.rst = false
  inside : r.2.flags.fin = true → finInside p s.textSeq s.data.length

/-- Cutting the tail of a trimmed text keeps it trimmed. -/
theorem Trimmed.cut {rcvNxt : Seq} {q : Pcb} {r : Pcb × Text} (h : Trimmed rcvNxt s t)
    (hcut : TailCut q t r) : Trimmed rcvNxt s r.2 := by
  refine ⟨hcut.ack.trans h.ack, hcut.rst.trans h.rst, fun hf => ?_, ?_⟩
  · rw [(hcut.fin hf).1] at hf
    exact h.fin hf
  · rcases h.text with ⟨hdata, hfin⟩ | ⟨hle, hseq, hpre, hall⟩
    · left
      constructor
      · have hnil := hcut.data
        rw [hdata] at hnil
        exact List.prefix_nil.mp hnil
      · by_contra hf
        rw [Bool.not_eq_false] at hf
        rw [(hcut.fin hf).1, hfin] at hf
        cases hf
    · right
      refine ⟨hle, hcut.seq.trans hseq, hcut.data.trans hpre, fun hf => ?_⟩
      have heq := (hcut.fin hf).1
      rw [heq] at hf ⊢
      exact hall hf

/-- The end of a trimmed text with a FIN is the end of the segment. -/
theorem Trimmed.seq_end {rcvNxt : Seq} (h : Trimmed rcvNxt s t) (hfin : t.flags.fin = true) :
    t.seq + BitVec.ofNat 32 t.data.length = s.textSeq + BitVec.ofNat 32 s.data.length := by
  rcases h.text with ⟨-, hno⟩ | ⟨hle, hseq, -, hall⟩
  · rw [hno] at hfin
    cases hfin
  · rw [hseq, hall hfin, List.length_drop, offset_add_offset, Nat.add_sub_cancel' hle]

theorem trimBytes_rst (p : Pcb) (t : Text) (todrop : Int) :
    (trimBytes p t todrop).2.flags.rst = t.flags.rst := by
  simp only [trimBytes]
  split <;> rfl

theorem trimHead_rst (p : Pcb) (s : Segment) :
    (trimHead p s.text).2.flags.rst = s.flags.rst := by
  simp only [trimHead, trimSyn_text]
  split
  · exact trimBytes_rst _ _ _
  · rfl

theorem checkSegment_spec (p : Pcb) (s : Segment) :
    Ends (Checked p s) (Stopped p s) (checkSegment p s) := by
  have hcore := trimHead_core p s.text
  have htrim := trimHead_trimmed (p := p) (s := s)
  have hrst := trimHead_rst p s
  simp only [checkSegment]
  generalize trimHead p s.text = r at hcore htrim hrst ⊢
  obtain ⟨q, t⟩ := r
  simp only at hcore htrim hrst ⊢
  split
  · exact (dropWithReset_dropped hcore t s.ack).stopped s
  · have htail : Ends (TailCut q t) (Stopped p s) (trimTail q t) :=
      (trimTail_spec q t).imp (fun _ h => h)
        (fun r h => Dropped.stopped ⟨h.list, h.core.trans hcore, h.stored⟩ s)
    refine htail.bind fun r h => ?_
    obtain ⟨q', t'⟩ := r
    have hq' : q'.core = p.core := h.core.trans hcore
    simp only
    split
    · next ht => exact inputReset_stopped (by rw [← hrst, ← h.rst, ht])
    · next ht =>
      split
      · exact (dropWithReset_dropped hq' t' s.ack).stopped s
      · next hsyn =>
        split
        · exact (drop_dropped hq').stopped s
        · next hack =>
          have htrimmed : Trimmed p.rcvNxt s t := htrim (by simpa [← h.syn] using hsyn)
          refine ⟨hq', htrimmed.cut h, by simpa using hack, by simpa using ht, fun hf => ?_⟩
          obtain ⟨heq, hin⟩ := h.fin hf
          rw [show t' = t from heq] at hf
          have hnxt : q.rcvNxt = p.rcvNxt := congrArg Core.rcvNxt hcore
          have hq : q.rcvQ = p.rcvQ := congrArg Core.rcvQ hcore
          rw [finInside, htrimmed.seq_end hf, hnxt, Pcb.rcvWnd, hq] at hin
          exact hin

/-- The state after a new acknowledgement, by whether it covers more than the queue. -/
def ackedState : TcpState → Bool → TcpState
  | .synRcvd, _ => .established
  | .finWait1, true => .finWait2
  | .closing, true => .timeWait
  | st, _ => st

/-- A new acknowledgement of `k` sequence numbers. -/
structure NewAck (c : Core) (ack : Seq) (k : Nat) (c' : Core) : Prop where
  pos : 0 < k
  le : k ≤ c.sndMax.toNat
  ack_eq : ack = c.sndSeq + BitVec.ofNat 32 k
  sndSeq : c'.sndSeq = ack
  sndOff : c'.sndOff.toNat = c.sndOff.toNat - k
  sndMax : c'.sndMax.toNat = c.sndMax.toNat - k
  sndQ : c'.sndQ = c.sndQ.drop k
  sndWnd : c'.sndWnd = c.sndWnd
  rcvNxt : c'.rcvNxt = c.rcvNxt
  sentfin : c'.sentfin = c.sentfin
  tState : c'.tState = ackedState c.tState (decide (c.sndQ.length < k))

/-- A difference of positions as a 16-bit offset. -/
theorem toNat_seqAt_sub_setWidth {i j : Nat} (hij : j ≤ i) (hi : i < 2 ^ 16) :
    ((p.seqAt i - p.seqAt j).setWidth 16).toNat = i - j := by
  have hsub : p.seqAt i - p.seqAt j = BitVec.ofNat 32 (i - j) := by
    rw [Pcb.seqAt, Pcb.seqAt, offset_sub_offset, ← Int.natCast_sub hij, BitVec.ofInt_natCast]
  rw [hsub, BitVec.toNat_setWidth, BitVec.toNat_ofNat]
  omega

/-- An acknowledgement after `snd_una` and not after `snd_max` is one of their positions. -/
theorem new_ack_position {ack : Seq} (hgt : ¬seqLeq ack p.sndSeq) (hle : ¬seqGt ack p.sndLast) :
    ∃ k, 0 < k ∧ k ≤ p.sndMax.toNat ∧ ack = p.seqAt k ∧ (ack - p.sndSeq).toInt = k := by
  have hm := p.sndMax.isLt
  refine ⟨(ack - p.sndSeq).toNat, ?_⟩
  simp only [seqLeq, seqGt, Pcb.sndLast, Pcb.seqAt, BitVec.toInt_eq_toNat_cond] at hgt hle ⊢
  refine ⟨?_, ?_, ?_, ?_⟩
  · split at hgt <;> split at hle <;> bv_omega
  · split at hgt <;> split at hle <;> bv_omega
  · bv_omega
  · split at hgt <;> split at hle <;> split <;> bv_omega

/-- A new acknowledgement moves the sequence numbers, whatever the state is by now. -/
theorem ackAdvance_newAck {q : Pcb} {k : Nat} (hk : 0 < k) (hle : k ≤ p.sndMax.toNat)
    (hq : q.core = { p.core with tState := q.tState, sndOff := q.sndOff, sndMax := q.sndMax })
    {c : Core}
    (hc : c = { (ackAdvance q p.sndNxt p.sndLast (p.seqAt k) k).core with
      tState := c.tState, rcvQ := c.rcvQ })
    (hst : c.tState = ackedState p.tState (decide (p.sndQ.length < k))) :
    NewAck p.core (p.seqAt k) k c := by
  have ho := p.sndOff.isLt
  have hm := p.sndMax.isLt
  have hsndQ : q.sndQ = p.sndQ := congrArg Core.sndQ hq
  constructor
  case pos => exact hk
  case le => exact hle
  case ack_eq => rfl
  case sndSeq => rw [hc]; rfl
  case sndOff =>
    have hoff : c.sndOff = ((if seqLt p.sndNxt (p.seqAt k) then p.seqAt k else p.sndNxt) -
        p.seqAt k).setWidth 16 := by rw [hc]; rfl
    rw [hoff, sndNxt_eq]
    split
    · next hlt =>
      rw [seqLt_seqAt (by omega) (by omega)] at hlt
      rw [toNat_seqAt_sub_setWidth le_rfl (by omega)]
      simp only [Pcb.core]
      omega
    · next hlt =>
      rw [seqLt_seqAt (by omega) (by omega)] at hlt
      rw [toNat_seqAt_sub_setWidth (by omega) (by omega)]
      rfl
  case sndMax =>
    have hmax : c.sndMax = (p.sndLast - p.seqAt k).setWidth 16 := by rw [hc]; rfl
    rw [hmax, sndLast_eq, toNat_seqAt_sub_setWidth hle (by omega)]
    rfl
  case sndQ =>
    have hdrop := ackAdvance_sndQ q p.sndNxt p.sndLast (p.seqAt k) k
    rw [hsndQ] at hdrop
    rw [hc]
    exact hdrop
  case sndWnd =>
    have hwnd : q.sndWnd = p.sndWnd := congrArg Core.sndWnd hq
    rw [hc]
    exact hwnd
  case rcvNxt =>
    have hnxt : q.rcvNxt = p.rcvNxt := congrArg Core.rcvNxt hq
    rw [hc]
    exact hnxt
  case sentfin =>
    have hfin : q.sentfin = p.sentfin := congrArg Core.sentfin hq
    rw [hc]
    exact hfin
  case tState => exact hst

/-- The state switch after an acknowledgement that covers the FIN or does not. -/
theorem ackState_spec {q : Pcb} (hst : q.tState ≠ .synRcvd) (t : Text) {b : Bool}
    (hq : b = true → q.sndQ = []) :
    Ends
      (fun q' => q'.core = { q.core with tState := q'.tState, rcvQ := q'.rcvQ } ∧
        q'.tState = ackedState q.tState b ∧ (q.tState = .lastAck → b = false) ∧
        q.tState ≠ .timeWait)
      (fun r => r.stored = [] ∧ (q.tState = .lastAck ∧ b = true ∧ r.list = .free ∨
        q.tState = .timeWait ∧ r.list = .active ∧ r.pcb.core = q.core))
      (ackState q t b) := by
  simp only [ackState]
  split
  · next hs =>
    cases b with
    | true => exact ⟨rfl, by simp [hs, ackedState], by simp [hs], by simp [hs]⟩
    | false => exact ⟨rfl, by simp [hs, ackedState], by simp, by simp [hs]⟩
  · next hs =>
    cases b with
    | true =>
        refine ⟨?_, by simp [hs, ackedState], by simp [hs], by simp [hs]⟩
        simp [Pcb.discard, Pcb.core, hq rfl]
    | false => exact ⟨rfl, by simp [hs, ackedState], by simp, by simp [hs]⟩
  · next hs =>
    cases b with
    | true => exact ⟨rfl, Or.inl ⟨hs, rfl, rfl⟩⟩
    | false => exact ⟨rfl, by simp [hs, ackedState], by simp, by simp [hs]⟩
  · next hs =>
    have hd := dropAfterAck_dropped (p := q) (q := { q with connTmr := 2 * tcpMsl }) rfl t
    exact ⟨hd.stored, Or.inr ⟨hs, hd.list, hd.core⟩⟩
  · next h₁ h₂ h₃ h₄ =>
    refine ⟨rfl, ?_, fun h => absurd h h₃, h₄⟩
    cases hs : q.tState <;> simp_all [ackedState]

/-- ACK processing that goes on: nothing new, the handshake of `SYN_RCVD` without an
acknowledgement of the SYN, or a new acknowledgement. -/
inductive AckDone (c : Core) (ack : Seq) (c' : Core) : Prop
  | same (hst : c.tState ≠ .synRcvd) (hle : seqLeq ack c.sndSeq) (hcore : c' = c)
  | early (hst : c.tState = .synRcvd) (hge : ¬seqGt c.sndSeq ack)
      (hmax : ¬seqGt ack (c.sndSeq + c.sndMax.setWidth 32)) (hle : seqLeq ack c.sndSeq)
      (hcore : c' = { c with
        tState := .established, sndOff := c.sndOff - 1, sndMax := c.sndMax - 1 })
  | new (k : Nat) (hnew : NewAck c ack k c')
      (hlast : c.tState = .lastAck → k ≤ c.sndQ.length) (htime : c.tState ≠ .timeWait)

/-- ACK processing that ends the call: the acknowledgement is out of range, it covers the
FIN in `LAST_ACK`, or the connection is in `TIME_WAIT`. -/
inductive AckEnded (c : Core) (ack : Seq) (r : InputResult) : Prop
  | range (hlist : r.list = .active) (hcore : r.pcb.core = c)
      (hout : c.sndMax.toNat < (ack - c.sndSeq).toNat)
  | freed (hlist : r.list = .free) (hst : c.tState = .lastAck) (k : Nat) (hk : 0 < k)
      (hle : k ≤ c.sndMax.toNat) (hack : ack = c.sndSeq + BitVec.ofNat 32 k)
      (hlen : c.sndQ.length < k)
  | waiting (hlist : r.list = .active) (hst : c.tState = .timeWait) (k : Nat)
      (hnew : NewAck c ack k r.pcb.core)

/-- The changes of state in ACK processing. -/
theorem AckDone.state {d d' : Core} {ack : Seq} (h : AckDone d ack d') :
    d'.rcvNxt = d.rcvNxt ∧
      (d'.tState = d.tState ∧ d.tState ≠ .synRcvd ∨
        d.tState = .synRcvd ∧ d'.tState = .established ∨
        d.tState = .finWait1 ∧ d'.tState = .finWait2 ∨
        d.tState = .closing ∧ d'.tState = .timeWait) := by
  cases h with
  | same hst hle hcore => rw [hcore]; exact ⟨rfl, Or.inl ⟨rfl, hst⟩⟩
  | early hst hge hmax hle hcore => rw [hcore]; exact ⟨rfl, Or.inr (Or.inl ⟨hst, rfl⟩)⟩
  | new k hnew hlast htime =>
      refine ⟨hnew.rcvNxt, ?_⟩
      rw [hnew.tState]
      generalize decide (d.sndQ.length < k) = b
      cases d.tState <;> cases b <;> simp [ackedState]

theorem AckDone.established {d d' : Core} {ack : Seq} (h : AckDone d ack d')
    (hst : d.tState = .synRcvd ∨ d.tState = .established) : d'.tState = .established := by
  obtain ⟨-, hcases⟩ := h.state
  rcases hst with hst | hst <;> rw [hst] at hcases <;> simpa using hcases

theorem AckDone.of_established {d d' : Core} {ack : Seq} (h : AckDone d ack d')
    (hst : d'.tState = .established) : d.tState = .established ∨ d.tState = .synRcvd := by
  obtain ⟨-, ⟨heq, -⟩ | ⟨heq, -⟩ | ⟨-, heq⟩ | ⟨-, heq⟩⟩ := h.state
  · exact Or.inl (heq ▸ hst)
  · exact Or.inr heq
  · rw [heq] at hst
    cases hst
  · rw [heq] at hst
    cases hst

/-- The connection after the handling of `SYN_RCVD`: the same, or one that is established. -/
def SynHandled (p q : Pcb) (ack : Seq) : Prop :=
  p.tState ≠ .synRcvd ∧ q = p ∨ p.tState = .synRcvd ∧ ¬seqGt p.sndSeq ack ∧
    ¬seqGt ack p.sndLast ∧
    q = { p with tState := .established, sndOff := p.sndOff - 1, sndMax := p.sndMax - 1 }

section SynHandled

variable {p q : Pcb} {ack : Seq}

theorem SynHandled.core_eq (h : SynHandled p q ack) : q.core =
    { p.core with tState := q.tState, sndOff := q.sndOff, sndMax := q.sndMax } := by
  rcases h with ⟨-, rfl⟩ | ⟨-, -, -, rfl⟩ <;> rfl

theorem SynHandled.ackedState_eq (h : SynHandled p q ack) (b : Bool) :
    ackedState q.tState b = ackedState p.tState b := by
  rcases h with ⟨-, rfl⟩ | ⟨hst, -, -, rfl⟩
  · rfl
  · rw [hst]
    cases b <;> rfl

/-- The states past the handshake are the same before and after. -/
theorem SynHandled.tState_iff (h : SynHandled p q ack) {st : TcpState} (hsyn : st ≠ .synRcvd)
    (hest : st ≠ .established) : p.tState = st ↔ q.tState = st := by
  rcases h with ⟨-, rfl⟩ | ⟨hst, -, -, rfl⟩
  · rfl
  · constructor
    · intro hp
      exact absurd (hp.symm.trans hst) hsyn
    · intro hq
      exact absurd hq.symm hest

end SynHandled

theorem ackSyn_spec (p : Pcb) (t : Text) (ack : Seq) :
    Ends (fun q => q.tState ≠ .synRcvd ∧ SynHandled p q ack)
      (fun r => Dropped p r ∧ p.sndMax.toNat < (ack - p.sndSeq).toNat)
      (ackSyn p t ack) := by
  simp only [ackSyn]
  split
  · next hst =>
    split
    · next hrange =>
      refine ⟨dropWithReset_dropped rfl t ack, ?_⟩
      have hm := p.sndMax.isLt
      simp only [seqGt, Pcb.sndLast, BitVec.toInt_eq_toNat_cond] at hrange
      rcases hrange with h | h
      · split at h <;> bv_omega
      · split at h <;> bv_omega
    · next hrange =>
      rw [not_or] at hrange
      exact ⟨by simp, Or.inr ⟨hst, hrange.1, hrange.2, rfl⟩⟩
  · next hst => exact ⟨hst, Or.inl ⟨hst, rfl⟩⟩

/-- The rest of ACK processing where `k` new positions are acknowledged. -/
theorem ackState_new {p q : Pcb} (t : Text) {k : Nat} (hq : SynHandled p q (p.seqAt k))
    (hqst : q.tState ≠ .synRcvd) (hk : 0 < k) (hle : k ≤ p.sndMax.toNat) :
    Ends (fun q' => AckDone p.core (p.seqAt k) q'.core)
      (fun r => r.stored = [] ∧ AckEnded p.core (p.seqAt k) r)
      (ackState (ackAdvance q p.sndNxt p.sndLast (p.seqAt k) k) t
        (decide (p.sndQ.length < k))) := by
  have hnil : decide (p.sndQ.length < k) = true →
      (ackAdvance q p.sndNxt p.sndLast (p.seqAt k) k).sndQ = [] := by
    intro h
    have hlen : q.sndQ.length = p.sndQ.length := congrArg (fun c => c.sndQ.length) hq.core_eq
    rw [ackAdvance_sndQ, Int.toNat_natCast]
    apply List.drop_eq_nil_of_le
    rw [decide_eq_true_eq] at h
    omega
  refine (ackState_spec (q := ackAdvance q p.sndNxt p.sndLast (p.seqAt k) k) hqst t hnil).imp ?_ ?_
  · rintro q' ⟨hcore, hst, hlast, htime⟩
    have hst' := hst.trans (hq.ackedState_eq _)
    refine .new k (ackAdvance_newAck hk hle hq.core_eq hcore hst') ?_ ?_
    · intro h
      have hno := hlast ((hq.tState_iff (by decide) (by decide)).mp h)
      rw [decide_eq_false_iff_not] at hno
      exact Nat.not_lt.mp hno
    · intro h
      exact htime ((hq.tState_iff (by decide) (by decide)).mp h)
  · rintro r ⟨hstored, ⟨hlast, hcov, hlist⟩ | ⟨htime, hlist, hcore⟩⟩
    · have hp : p.tState = .lastAck := (hq.tState_iff (by decide) (by decide)).mpr hlast
      exact ⟨hstored, .freed hlist hp k hk hle rfl (of_decide_eq_true hcov)⟩
    · have hp : p.tState = .timeWait := (hq.tState_iff (by decide) (by decide)).mpr htime
      refine ⟨hstored, .waiting hlist hp k (ackAdvance_newAck hk hle hq.core_eq ?_ ?_)⟩
      · rw [hcore]
      · rw [hcore, hp]
        exact htime

theorem inputAck_spec (p : Pcb) (t : Text) (ack : Seq) :
    Ends (fun q => AckDone p.core ack q.1.core)
      (fun r => r.stored = [] ∧ AckEnded p.core ack r) (inputAck p t ack) := by
  simp only [inputAck]
  have hsyn := (ackSyn_spec p t ack).imp (fun _ h => h)
    (fun r h => (⟨h.1.stored, .range h.1.list h.1.core h.2⟩ : r.stored = [] ∧ AckEnded p.core ack r))
  refine hsyn.bind fun q hq => ?_
  obtain ⟨hqst, hq⟩ := hq
  split
  · next hle =>
    rcases hq with ⟨hst, rfl⟩ | ⟨hst, hge, hmax, rfl⟩
    · exact .same hst hle rfl
    · exact .early hst hge hmax hle rfl
  · next hgt =>
    split
    · next hmax =>
      rcases hq with ⟨hst, rfl⟩ | ⟨-, -, hno, -⟩
      · have hd := dropAfterAck_dropped (p := q) rfl t
        refine ⟨hd.stored, .range hd.list hd.core ?_⟩
        have hm := q.sndMax.isLt
        simp only [seqLeq, seqGt, Pcb.sndLast, Pcb.core, BitVec.toInt_eq_toNat_cond] at hgt hmax ⊢
        split at hgt <;> split at hmax <;> bv_omega
      · exact absurd hmax hno
    · next hmax =>
      obtain ⟨k, hk, hle, rfl, hacked⟩ := new_ack_position hgt hmax
      have hlen : q.sndQ.length = p.sndQ.length := congrArg (fun c => c.sndQ.length) hq.core_eq
      have hb : decide ((k : Int) > q.sndQ.length) = decide (p.sndQ.length < k) := by
        rw [hlen]
        exact decide_eq_decide.mpr (by omega)
      rw [hacked, hb]
      exact (ackState_new t hq hqst hk hle).bind fun q' hq' => hq'

/-- The state after the FIN of the peer. -/
def finState : TcpState → TcpState
  | .synRcvd | .established => .closeWait
  | .finWait1 => .closing
  | .finWait2 => .timeWait
  | st => st

theorem finState_eq_timeWait {st : TcpState} (h : finState st = .timeWait) :
    st = .finWait2 ∨ st = .timeWait := by
  cases st <;> simp_all [finState]

theorem finState_eq_established {st : TcpState} (h : finState st = .established) : False := by
  cases st <;> simp [finState] at h

theorem finState_live {st : TcpState} (h : st ≠ .closed ∧ st ≠ .listen) :
    finState st ≠ .closed ∧ finState st ≠ .listen := by
  cases st <;> simp_all [finState]

/-- The end of input processing; `taken` says whether the FIN of the peer was taken. -/
structure EndSpec (c : Core) (t : Text) (win : BitVec 16) (avail : Nat) (r : InputResult)
    (taken : Bool) : Prop where
  list : r.list = .active
  sndSeq : r.pcb.sndSeq = c.sndSeq
  sndOff : r.pcb.sndOff = c.sndOff
  sndMax : r.pcb.sndMax = c.sndMax
  sentfin : r.pcb.sentfin = c.sentfin
  sndWnd : r.pcb.sndWnd = if t.flags.ack = true ∧ c.sndWnd < win then win else c.sndWnd
  stored : r.stored = [] ∨ c.tState = .established ∧ t.seq = c.rcvNxt ∧ r.stored <+: t.data
  fin : taken = true → t.flags.fin = true ∧ c.tState ≠ .timeWait ∧
    (c.tState = .established → t.seq = c.rcvNxt → t.data.length ≤ avail → r.stored = t.data)
  rcvNxt : r.pcb.rcvNxt = c.rcvNxt + BitVec.ofNat 32 r.stored.length + if taken then 1 else 0
  tState : r.pcb.tState = if taken then finState c.tState else c.tState
  sndQ : r.pcb.sndQ = if taken ∧ c.tState = .finWait2 then [] else c.sndQ

/-- The segment text, up to the test of the FIN. -/
structure DataSpec (p : Pcb) (t : Text) (avail : Nat) (r : Pcb × List UInt8 × Bool) : Prop where
  core : r.1.core =
    { p.core with rcvQ := r.1.rcvQ, rcvNxt := p.rcvNxt + BitVec.ofNat 32 r.2.1.length }
  stored : r.2.1 = [] ∨ p.tState = .established ∧ t.seq = p.rcvNxt ∧ r.2.1 <+: t.data
  fin : r.2.2 = true → t.flags.fin = true ∧ p.tState ≠ .timeWait ∧
    (p.tState = .established → t.seq = p.rcvNxt → t.data.length ≤ avail → r.2.1 = t.data)

theorem haveRcvdFin_iff (st : TcpState) : st.haveRcvdFin = true ↔ st = .timeWait := by
  cases st <;> decide

theorem inputData_spec (p : Pcb) (t : Text) (avail : Nat) : DataSpec p t avail (inputData p t avail) := by
  simp only [inputData]
  split
  · next h =>
    have htime : p.tState ≠ .timeWait := by
      intro hst
      rw [hst] at h
      simp [TcpState.haveRcvdFin] at h
    split
    · next hnext =>
      refine ⟨rfl, Or.inr ⟨hnext.2, hnext.1, List.take_prefix _ _⟩, fun hf => ⟨hf, htime, ?_⟩⟩
      intro _ _ hlen
      apply List.take_of_length_le
      omega
    · next hnext =>
      refine ⟨?_, Or.inl rfl, fun hf => ⟨hf, htime, fun hst hseq => absurd ⟨hseq, hst⟩ hnext⟩⟩
      simp [Pcb.core]
  · exact ⟨by simp [Pcb.core], Or.inl rfl, by simp⟩

theorem finSwitch_core (p : Pcb) :
    (finSwitch p).core =
      { p.core with
        tState := finState p.tState
        rcvQ := (finSwitch p).rcvQ
        sndQ := if p.tState = .finWait2 then [] else p.sndQ } := by
  simp only [finSwitch]
  split
  · next h => simp [Pcb.core, finState, h]
  · next h => simp [Pcb.core, finState, h]
  · next h => simp [Pcb.core, finState, h]
  · next h => simp [Pcb.core, finState, h, Pcb.discard]
  · next h => simp [Pcb.core, finState, h]
  · next h₁ h₂ h₃ h₄ h₅ =>
    have hst : finState p.tState = p.tState := by
      cases hst : p.tState <;> simp_all [finState]
    simp only [Pcb.core, hst, if_neg h₄]

theorem inputFin_core (htime : p.tState ≠ .timeWait) :
    (inputFin p).core =
      { p.core with
        tState := finState p.tState
        rcvNxt := p.rcvNxt + 1
        rcvQ := (inputFin p).rcvQ
        sndQ := if p.tState = .finWait2 then [] else p.sndQ } := by
  have hno : ¬p.tState.haveRcvdFin = true := by
    rw [haveRcvdFin_iff]
    exact htime
  simp only [inputFin, if_neg hno]
  exact finSwitch_core _

theorem step6_core (p : Pcb) (ack : Bool) (tiwin : BitVec 16) (b : Bool) :
    (step6 p ack tiwin b).1.core =
      { p.core with sndWnd := if ack = true ∧ p.sndWnd < tiwin then tiwin else p.sndWnd } := by
  simp only [step6]
  split <;> rfl

theorem inputEnd_spec (p : Pcb) (t : Text) (win : BitVec 16) (b : Bool) (avail : Nat) :
    ∃ taken, EndSpec p.core t win avail (inputEnd p t win b avail) taken := by
  have h6 := step6_core p t.flags.ack win b
  simp only [inputEnd]
  generalize step6 p t.flags.ack win b = r₆ at h6 ⊢
  obtain ⟨q, need⟩ := r₆
  simp only at h6 ⊢
  have hdata := inputData_spec q t avail
  generalize inputData q t avail = r at hdata ⊢
  obtain ⟨q', stored, fin⟩ := r
  obtain ⟨hcore, hstored, hfin⟩ := hdata
  simp only at hcore hstored hfin ⊢
  have hst : q.tState = p.tState := congrArg Core.tState h6
  have hnxt : q.rcvNxt = p.rcvNxt := congrArg Core.rcvNxt h6
  have hst' : q'.tState = p.tState := (congrArg Core.tState hcore).trans hst
  have hcore' : q'.core =
      { p.core with
        sndWnd := if t.flags.ack = true ∧ p.sndWnd < win then win else p.sndWnd
        rcvNxt := p.rcvNxt + BitVec.ofNat 32 stored.length
        rcvQ := q'.rcvQ } := by rw [hcore, h6, hnxt]
  have hnxt' : q'.rcvNxt = p.rcvNxt + BitVec.ofNat 32 stored.length := congrArg Core.rcvNxt hcore'
  have hsndQ' : q'.sndQ = p.sndQ := congrArg Core.sndQ hcore'
  have hsched : ∀ q : Pcb, (if (need || q.acknow) = true then q.sched else q).core = q.core := by
    intro q
    split <;> rfl
  refine ⟨fin, ?_⟩
  have hend : (if fin = true then inputFin q' else q').core =
      { p.core with
        sndWnd := if t.flags.ack = true ∧ p.sndWnd < win then win else p.sndWnd
        rcvNxt := p.rcvNxt + BitVec.ofNat 32 stored.length + if fin then 1 else 0
        tState := if fin then finState p.tState else p.tState
        rcvQ := (if fin = true then inputFin q' else q').rcvQ
        sndQ := if fin ∧ p.tState = .finWait2 then [] else p.sndQ } := by
    cases fin with
    | true =>
        have htime : q'.tState ≠ .timeWait := by
          rw [hst', ← hst]
          exact (hfin rfl).2.1
        simp only [if_true, true_and]
        rw [inputFin_core htime, hcore', hst', hnxt', hsndQ']
    | false =>
        simp only [Bool.false_eq_true, if_false, false_and, add_zero]
        exact hcore'
  rw [hst, hnxt] at hstored hfin
  generalize (if fin = true then inputFin q' else q') = q'' at hend ⊢
  have hres := (hsched q'').trans hend
  exact ⟨rfl, congrArg Core.sndSeq hres, congrArg Core.sndOff hres, congrArg Core.sndMax hres,
    congrArg Core.sentfin hres, congrArg Core.sndWnd hres, hstored, hfin, congrArg Core.rcvNxt hres,
    congrArg Core.tState hres, congrArg Core.sndQ hres⟩

/-- The block after the answer to an active open. -/
def Core.opened (c : Core) (s : Segment) : Core :=
  { c with
    sndSeq := c.sndSeq + 1
    sndOff := c.sndOff - 1
    sndMax := c.sndMax - 1
    sndWnd := s.win
    rcvNxt := s.seq + 1
    tState := .established }

theorem opens_iff :
    opens p s = true ↔ p.tState = .synSent ∧ s.flags.rst = false ∧ s.flags.syn = true ∧
      s.flags.ack = true ∧ s.data = [] ∧ s.ack = p.sndSeq + 1 := by
  simp [opens, and_assoc]

theorem inputSynSent_spec (hst : p.tState = .synSent) (s : Segment) :
    Ends (fun q => opens p s = true ∧ q.core = p.core.opened s)
      (fun r => r.list ≠ .active ∧ r.stored = [] ∧ r.Marked) (inputSynSent p s) := by
  have hreset : ∀ q, (closeAndReset q s).list ≠ .active ∧ (closeAndReset q s).stored = [] ∧
      (closeAndReset q s).Marked := by
    intro q
    simp only [closeAndReset, dropWithReset, drop, InputResult.Marked]
    split
    · simp
    · split <;> simp
  simp only [inputSynSent]
  split
  · exact ⟨by simp [close, drop], rfl, fun _ => rfl⟩
  · next hrst =>
    split
    · exact hreset p
    · next hflags =>
      split
      · exact hreset _
      · next hack =>
        rw [not_not] at hack
        refine ⟨?_, ?_⟩
        · simp only [opens]
          simp_all
        · split <;> rfl

/-- What a call of `tcp_input` does to a connection. -/
inductive InputDone (p : Pcb) (s : Segment) (avail : Nat) (r : InputResult) : Prop
  | refused (hst : p.tState = .synSent) (hlist : r.list ≠ .active) (hstored : r.stored = [])
      (hmark : r.Marked)
  | opened (hopen : opens p s = true) (taken : Bool)
      (hend : EndSpec (p.core.opened s) { s.text with seq := s.seq + 1 } s.win avail r taken)
  | stopped (hst : p.tState ≠ .synSent) (hacc : accepts p s = false) (hstop : Stopped p s r)
  | ended (hst : p.tState ≠ .synSent) (hacc : accepts p s = true) (hrst : s.flags.rst = false)
      (hstored : r.stored = []) (hack : AckEnded p.core s.ack r)
  | processed (hst : p.tState ≠ .synSent) (hacc : accepts p s = true)
      (hreach : reaches p s = true) (p' : Pcb) (t : Text)
      (hcheck : Checked p s (p', t)) (c : Core) (hack : AckDone p.core s.ack c) (taken : Bool)
      (hend : EndSpec c t s.win avail r taken)

section SlowPath

variable {q q' : Pcb} {t : Text} {r : InputResult} {need : Bool}

theorem slowPath_of_stopped (hst : p.tState ≠ .synSent) (h : checkSegment p s = .error r) :
    slowPath p s avail = r := by
  simp [slowPath, hst, h, bind, Except.bind, finish]

theorem slowPath_of_ended (hst : p.tState ≠ .synSent) (h : checkSegment p s = .ok (q, t))
    (h' : inputAck q t s.ack = .error r) : slowPath p s avail = r := by
  simp [slowPath, hst, h, h', bind, Except.bind, finish]

theorem slowPath_of_processed (hst : p.tState ≠ .synSent) (h : checkSegment p s = .ok (q, t))
    (h' : inputAck q t s.ack = .ok (q', need)) :
    slowPath p s avail = inputEnd q' t s.win need avail := by
  simp [slowPath, hst, h, h', bind, Except.bind, finish, pure, Except.pure]

end SlowPath

theorem slowPath_spec (p : Pcb) (s : Segment) (avail : Nat) :
    InputDone p s avail (slowPath p.awake s avail) := by
  by_cases hst : p.awake.tState = .synSent
  · simp only [slowPath]
    rw [if_pos hst]
    have hsyn := inputSynSent_spec hst s
    cases h : inputSynSent p.awake s with
    | error r =>
        rw [h] at hsyn
        exact .refused hst hsyn.1 hsyn.2.1 hsyn.2.2
    | ok q =>
        rw [h] at hsyn
        obtain ⟨taken, hend⟩ := inputEnd_spec q { s.text with seq := s.seq + 1 } s.win false avail
        rw [hsyn.2] at hend
        exact .opened hsyn.1 taken hend
  · have hcheck := checkSegment_spec p.awake s
    cases h : checkSegment p.awake s with
    | error r =>
        rw [h] at hcheck
        rw [slowPath_of_stopped hst h]
        exact .stopped hst (by simp [accepts, h]) ⟨hcheck.stored, hcheck.stays, hcheck.leaves, hcheck.marked⟩
    | ok q =>
        rw [h] at hcheck
        obtain ⟨q, t⟩ := q
        have hacc : accepts p s = true := by simp [accepts, h]
        have hrst : s.flags.rst = false := hcheck.trimmed.rst ▸ hcheck.rst
        have hack := inputAck_spec q t s.ack
        rw [show q.core = p.core from hcheck.core] at hack
        cases h' : inputAck q t s.ack with
        | error r =>
            rw [h'] at hack
            rw [slowPath_of_ended hst h h']
            exact .ended hst hacc hrst hack.1 hack.2
        | ok q' =>
            rw [h'] at hack
            obtain ⟨q', need⟩ := q'
            rw [slowPath_of_processed hst h h']
            obtain ⟨taken, hend⟩ := inputEnd_spec q' t s.win need avail
            exact .processed hst hacc (by simp [reaches, h, h']) q t
              ⟨hcheck.core, hcheck.trimmed, hcheck.ack, hcheck.rst, hcheck.inside⟩ _ hack taken hend

theorem EndSpec.congr {c : Core} {win : BitVec 16} {r r' : InputResult} {taken : Bool}
    (h : EndSpec c t win avail r' taken) (hagree : Agree r r') :
    EndSpec c t win avail r taken := by
  have hcore := hagree.core
  have hstored := hagree.stored
  constructor
  case list => exact hagree.list.trans h.list
  case sndSeq => exact (congrArg Core.sndSeq hcore).trans h.sndSeq
  case sndOff => exact (congrArg Core.sndOff hcore).trans h.sndOff
  case sndMax => exact (congrArg Core.sndMax hcore).trans h.sndMax
  case sentfin => exact (congrArg Core.sentfin hcore).trans h.sentfin
  case sndWnd => exact (congrArg Core.sndWnd hcore).trans h.sndWnd
  case stored => rw [hstored]; exact h.stored
  case fin => rw [hstored]; exact h.fin
  case rcvNxt => rw [hstored]; exact (congrArg Core.rcvNxt hcore).trans h.rcvNxt
  case tState => exact (congrArg Core.tState hcore).trans h.tState
  case sndQ => exact (congrArg Core.sndQ hcore).trans h.sndQ

theorem InputDone.congr {r r' : InputResult} (h : InputDone p s avail r') (hagree : Agree r r') :
    InputDone p s avail r := by
  have hlist := hagree.list
  have hstored := hagree.stored
  have hmark : r'.Marked → r.Marked := by
    intro hm hc
    exact (congrArg Core.tState hagree.core).trans (hm (hlist ▸ hc))
  cases h with
  | refused hst hl hs hm => exact .refused hst (hlist ▸ hl) (hstored.trans hs) (hmark hm)
  | opened hopen taken hend => exact .opened hopen taken (hend.congr hagree)
  | stopped hst hacc hstop =>
      refine .stopped hst hacc
        ⟨hstored.trans hstop.stored, fun hl => ?_, fun hl => ?_, hmark hstop.marked⟩
      · exact hagree.core.trans (hstop.stays (hlist ▸ hl))
      · exact hstop.leaves (hlist ▸ hl)
  | ended hst hacc hrst hs hack =>
      refine .ended hst hacc hrst (hstored.trans hs) ?_
      cases hack with
      | range hl hcore hout => exact .range (hlist.trans hl) (hagree.core.trans hcore) hout
      | freed hl hst k hk hle hack hlen => exact .freed (hlist.trans hl) hst k hk hle hack hlen
      | waiting hl hst k hnew => exact .waiting (hlist.trans hl) hst k (hagree.core ▸ hnew)
  | processed hst hacc hreach p' t hcheck c hack taken hend =>
      exact .processed hst hacc hreach p' t hcheck c hack taken (hend.congr hagree)

theorem tcpInput_spec (p : Pcb) (s : Segment) (avail : Nat) :
    InputDone p s avail (tcpInput p s avail) := by
  delta tcpInput
  split
  · next r hfast => exact (slowPath_spec p s avail).congr (fastPath_agrees hfast)
  · exact slowPath_spec p s avail

/-- A connection that stays in the active list is neither closed nor listening. -/
theorem InputDone.live {r : InputResult} (h : InputDone p s avail r)
    (hlive : p.tState ≠ .closed ∧ p.tState ≠ .listen) (hlist : r.list = .active) :
    r.pcb.tState ≠ .closed ∧ r.pcb.tState ≠ .listen := by
  have hend : ∀ {c : Core} {t : Text} {taken : Bool}, EndSpec c t s.win avail r taken →
      c.tState ≠ .closed ∧ c.tState ≠ .listen → r.pcb.tState ≠ .closed ∧ r.pcb.tState ≠ .listen := by
    intro c t taken hspec hc
    rw [hspec.tState]
    split
    · exact finState_live hc
    · exact hc
  cases h with
  | refused hst hleft hstored hmark => exact absurd hlist hleft
  | opened hopen taken hspec => exact hend hspec (by simp [Core.opened])
  | stopped hst hacc hstop =>
      have hcore : r.pcb.tState = p.tState := congrArg Core.tState (hstop.stays hlist)
      rw [hcore]
      exact hlive
  | ended hst hacc hrst hstored hended =>
      cases hended with
      | range hl hcore hout =>
          have hcore : r.pcb.tState = p.tState := congrArg Core.tState hcore
          rw [hcore]
          exact hlive
      | freed hl => rw [hl] at hlist; cases hlist
      | waiting hl htime k hnew =>
          have hst' : r.pcb.tState = _ := hnew.tState
          rw [hst', htime]
          simp [ackedState]
  | processed hst hacc hreach p' t hcheck d hdone taken hspec =>
      refine hend hspec ?_
      obtain ⟨-, ⟨heq, -⟩ | ⟨-, heq⟩ | ⟨-, heq⟩ | ⟨-, heq⟩⟩ := hdone.state
      · rw [heq]
        exact hlive
      all_goals rw [heq]; decide

/-- A connection that goes to the closed list is marked as closed. -/
theorem InputDone.marked {r : InputResult} (h : InputDone p s avail r) : r.Marked := by
  cases h with
  | refused hst hleft hstored hmark => exact hmark
  | opened hopen taken hspec => exact fun hc => by rw [hspec.list] at hc; cases hc
  | stopped hst hacc hstop => exact hstop.marked
  | ended hst hacc hrst hstored hended =>
      intro hc
      cases hended with
      | range hl => rw [hl] at hc; cases hc
      | freed hl => rw [hl] at hc; cases hc
      | waiting hl => rw [hl] at hc; cases hc
  | processed hst hacc hreach p' t hcheck d hdone taken hspec =>
      exact fun hc => by rw [hspec.list] at hc; cases hc

end YardIce.Tcp
