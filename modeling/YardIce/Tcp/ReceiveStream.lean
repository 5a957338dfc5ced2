import YardIce.Tcp.CallsSpec
import YardIce.Tcp.InputSpec

/-!
# The receive stream

The peer has a byte stream that starts after its initial sequence number and may end
with a FIN. Its segments arrive in any order, any number of times and with any cut.
The bytes of a connection's receive queue, over its whole life, are a prefix of the
stream as long as no FIN is processed ahead of the bytes before it.

## Implementation notes

A segment is placed in the stream by the signed distance of its sequence number from
the one after the bytes received so far.
-/

namespace YardIce.Tcp

open YardIce.Lib

/-- The sending side of the peer. -/
structure Peer where
  irs : Seq
  byte : Nat → UInt8
  finAt : Option Nat

namespace Peer

/-- The sequence number of a byte of the stream. -/
def seqAt (e : Peer) (n : Nat) : Seq := e.irs + 1 + BitVec.ofNat 32 n

/-- The place of the first byte of text when `n` bytes have been received. -/
def textAt (e : Peer) (n : Nat) (s : Segment) : Int := n - behind (e.seqAt n) s

/-- The text of the segment is the stream at its place, its FIN the end of the stream. -/
def Sends (e : Peer) (n : Nat) (s : Segment) : Prop :=
  (∀ i, (h : i < s.data.length) → 0 ≤ e.textAt n s + i →
    s.data[i] = e.byte (e.textAt n s + i).toNat) ∧
  (s.flags.fin = true → 0 ≤ e.textAt n s + s.data.length ∧
    e.finAt = some (e.textAt n s + s.data.length).toNat)

instance (e : Peer) (n : Nat) (s : Segment) : Decidable (e.Sends n s) :=
  inferInstanceAs (Decidable (_ ∧ _))

/-- The segments that a connection gets are those of the peer, and the one that answers
an active open carries the initial sequence number. -/
def Feeds (e : Peer) (c : Conn) : Action → Prop
  | .input s _ => e.Sends c.rcvd.length s ∧ (opens c.pcb s = true → s.seq = e.irs)
  | _ => True

instance (e : Peer) (c : Conn) : (a : Action) → Decidable (e.Feeds c a)
  | .input _ _ => inferInstanceAs (Decidable (_ ∧ _))
  | .output _ | .send .. | .recv _ | .close | .rxmtTmr | .fastTmr => isTrue trivial

end Peer

/-- A FIN that gets as far as the segment text does not start after `rcv_nxt`, and what
is left of its text finds buffers in a state that takes text, or nothing is left. -/
def finInOrder (c : Conn) : Action → Prop
  | .input s avail =>
    c.pcb.tState ≠ .synSent → reaches c.pcb s = true → s.flags.fin = true →
      finInside c.pcb s.textSeq s.data.length →
      0 ≤ behind c.pcb.rcvNxt s ∧
        s.data.length - behind c.pcb.rcvNxt s ≤
          if c.pcb.tState = .synRcvd ∨ c.pcb.tState = .established then avail else 0
  | _ => True

instance (c : Conn) : (a : Action) → Decidable (finInOrder c a)
  | .input _ _ => inferInstanceAs (Decidable (_ → _ → _ → _ → _ ∧ _))
  | .output _ | .send .. | .recv _ | .close | .rxmtTmr | .fastTmr => isTrue trivial

/-- The FIN of the peer has been taken. -/
def TcpState.finTaken : TcpState → Bool
  | .closeWait | .closing | .lastAck | .timeWait => true
  | _ => false

/-- The connection stands after `n` bytes of the stream. -/
structure Peer.Expects (e : Peer) (c : Core) (n : Nat) : Prop where
  nxt : c.tState ≠ .synSent → c.rcvNxt = e.seqAt n + if c.tState.finTaken then 1 else 0
  fin : c.tState.finTaken = true → e.finAt = some n
  first : c.tState = .synSent → n = 0
  live : c.tState ≠ .closed ∧ c.tState ≠ .listen

/-- Every byte appended to the receive queue is the byte of the stream at its place. -/
structure Received (e : Peer) (c : Conn) : Prop where
  bytes : ∀ i, (h : i < c.rcvd.length) → c.rcvd[i] = e.byte i
  expects : c.list = .active → e.Expects c.pcb.core c.rcvd.length

variable {e : Peer} {c : Conn} {s : Segment} {t : Text} {avail : Nat}

/-- Nothing that `Expects` looks at has changed. -/
theorem Peer.Expects.congr {d d' : Core} {n : Nat} (h : e.Expects d n)
    (hst : d'.tState = d.tState) (hnxt : d'.rcvNxt = d.rcvNxt) : e.Expects d' n := by
  refine ⟨?_, ?_, ?_, ?_⟩
  · rw [hst, hnxt]
    exact h.nxt
  · rw [hst]
    exact h.fin
  · rw [hst]
    exact h.first
  · rw [hst]
    exact h.live

/-- Another state on the same side of the FIN. -/
theorem Peer.Expects.move {d d' : Core} {n : Nat} (h : e.Expects d n) (hsent : d.tState ≠ .synSent)
    (hsent' : d'.tState ≠ .synSent) (hlive : d'.tState ≠ .closed ∧ d'.tState ≠ .listen)
    (hfin : d'.tState.finTaken = d.tState.finTaken) (hnxt : d'.rcvNxt = d.rcvNxt) :
    e.Expects d' n := by
  refine ⟨fun _ => ?_, ?_, fun h => absurd h hsent', hlive⟩
  · rw [hfin, hnxt]
    exact h.nxt hsent
  · rw [hfin]
    exact h.fin

/-- A text at `rcv_nxt` starts with the first byte that has not been received. -/
theorem Trimmed.start {rcvNxt : Seq} (h : Trimmed rcvNxt s t) (hseq : t.seq = rcvNxt)
    (hdata : t.data ≠ [] ∨ t.flags.fin = true) :
    0 ≤ behind rcvNxt s ∧ (behind rcvNxt s).toNat ≤ s.data.length := by
  rcases h.text with ⟨hnil, hno⟩ | ⟨hle, hstart, -, -⟩
  · rcases hdata with hd | hf
    · exact absurd hnil hd
    · rw [hno] at hf
      cases hf
  · refine ⟨?_, hle⟩
    by_contra hneg
    have hzero : (behind rcvNxt s).toNat = 0 := by lia
    rw [hzero, hseq] at hstart
    have hback : behind rcvNxt s = 0 := by
      rw [behind, hstart]
      simp
    lia

/-- The bytes stored are the next bytes of the stream. -/
theorem stored_bytes {n : Nat} (hsends : e.Sends n s) (htrim : Trimmed (e.seqAt n) s t)
    (hseq : t.seq = e.seqAt n) {stored : List UInt8} (hpre : stored <+: t.data) (i : Nat)
    (hi : i < stored.length) : stored[i] = e.byte (n + i) := by
  have hlen := hpre.length_le
  have hne : t.data ≠ [] := by
    rintro hnil
    rw [hnil, List.length_nil] at hlen
    lia
  obtain ⟨hback, hle⟩ := htrim.start hseq (Or.inl hne)
  rcases htrim.text with ⟨hnil, -⟩ | ⟨-, -, hcut, -⟩
  · exact absurd hnil hne
  · have htext := (hpre.trans hcut).getElem hi
    have hlen' := (hpre.trans hcut).length_le
    rw [List.length_drop] at hlen'
    rw [List.getElem_drop] at htext
    have hplace : e.textAt n s + ((behind (e.seqAt n) s).toNat + i : Nat) = (n + i : Nat) := by
      rw [Peer.textAt]
      lia
    have hbyte := hsends.1 ((behind (e.seqAt n) s).toNat + i) (by lia) (by lia)
    rw [hplace, Int.toNat_natCast] at hbyte
    exact htext.trans hbyte

theorem AckDone.expects {d d' : Core} {ack : Seq} {n : Nat} (h : AckDone d ack d')
    (hexp : e.Expects d n) (hsent : d.tState ≠ .synSent) :
    e.Expects d' n ∧ d'.tState ≠ .synSent ∧ d'.tState ≠ .synRcvd := by
  have hlive := hexp.live
  obtain ⟨hnxt, hst⟩ := h.state
  refine ⟨hexp.move hsent ?_ ?_ ?_ hnxt, ?_, ?_⟩
  all_goals
    rcases hst with ⟨hst, hne⟩ | ⟨hst, hst'⟩ | ⟨hst, hst'⟩ | ⟨hst, hst'⟩ <;>
      simp_all [TcpState.finTaken]

/-- The FIN of the peer changes the state. -/
theorem finState_taken {st : TcpState} (hlive : st ≠ .closed ∧ st ≠ .listen) (hsent : st ≠ .synSent) :
    (finState st).finTaken = true ∧ finState st ≠ .synSent ∧ finState st ≠ .closed ∧
      finState st ≠ .listen := by
  cases st <;> simp_all [finState, TcpState.finTaken]

/-- The end of input processing, when the FIN is taken only at the end of the stream. -/
theorem EndSpec.received {d : Core} {n : Nat} {win : BitVec 16} {r : InputResult} {taken : Bool}
    (h : EndSpec d t win avail r taken) (hexp : e.Expects d n) (hsent : d.tState ≠ .synSent)
    (htrim : Trimmed d.rcvNxt s t) (hsends : e.Sends n s)
    (htaken : taken = true → d.tState.finTaken = false ∧ e.finAt = some (n + r.stored.length)) :
    (∀ i, (hi : i < r.stored.length) → r.stored[i] = e.byte (n + i)) ∧
      e.Expects r.pcb.core (n + r.stored.length) := by
  have hnxt := hexp.nxt hsent
  constructor
  · intro i hi
    rcases h.stored with hnil | ⟨hst, hseq, hpre⟩
    · rw [hnil, List.length_nil] at hi
      lia
    · rw [hst] at hnxt
      simp only [TcpState.finTaken, Bool.false_eq_true, if_false, add_zero] at hnxt
      rw [hnxt] at htrim hseq
      exact stored_bytes hsends htrim hseq hpre i hi
  · have hst := h.tState
    have hrcv := h.rcvNxt
    cases taken with
    | true =>
        obtain ⟨hside, hfin⟩ := htaken rfl
        obtain ⟨hdone, hne, hlive⟩ := finState_taken hexp.live hsent
        rw [if_pos rfl] at hst hrcv
        rw [hside] at hnxt
        refine ⟨fun _ => ?_, fun _ => hfin, fun hs => ?_, ?_⟩
        · simp only [Pcb.core, hst, hdone, hrcv, hnxt, Peer.seqAt, BitVec.ofNat_add]
          simp [add_assoc]
        · exact absurd (hst.symm.trans hs) hne
        · simp only [Pcb.core, hst]
          exact hlive
    | false =>
        simp only [Bool.false_eq_true, if_false, add_zero] at hst hrcv
        -- bytes are stored only before the FIN is taken
        have hside : d.tState.finTaken = true → r.stored.length = 0 := by
          intro hd
          rcases h.stored with hnil | ⟨hest, -, -⟩
          · rw [hnil]
            rfl
          · rw [hest] at hd
            cases hd
        refine ⟨fun _ => ?_, fun hd => ?_, fun hs => ?_, ?_⟩
        · simp only [Pcb.core, hst, hrcv, hnxt, Peer.seqAt, BitVec.ofNat_add]
          ring
        · simp only [Pcb.core, hst] at hd
          rw [hside hd]
          exact hexp.fin hd
        · exact absurd (hst.symm.trans hs) hsent
        · simp only [Pcb.core, hst]
          exact hexp.live

/-- A FIN that is taken in order is the end of the stream, and the bytes before it are in. -/
theorem taken_in_order {p : Pcb} {d : Core} {n : Nat} {win : BitVec 16} {r : InputResult}
    (hexp : e.Expects p.core n) (hsent : p.tState ≠ .synSent) (hsends : e.Sends n s)
    (htrim : Trimmed p.rcvNxt s t) (hack : AckDone p.core s.ack d)
    (hend : EndSpec d t win avail r true)
    (hback : 0 ≤ behind p.rcvNxt s)
    (hroom : s.data.length - behind p.rcvNxt s ≤
      if p.tState = .synRcvd ∨ p.tState = .established then avail else 0) :
    d.tState.finTaken = false ∧ e.finAt = some (n + r.stored.length) := by
  obtain ⟨hfin, htime, hall⟩ := hend.fin rfl
  obtain ⟨hnonneg, hfinAt⟩ := hsends.2 (htrim.fin hfin)
  obtain ⟨hnxt, hst⟩ := hack.state
  rcases htrim.text with ⟨-, hno⟩ | ⟨hle, hseq, -, htext⟩
  · rw [hno] at hfin
    cases hfin
  · have hdata := htext hfin
    have hlen : t.data.length = s.data.length - (behind p.rcvNxt s).toNat := by
      rw [hdata, List.length_drop]
    have hstart : t.seq = p.rcvNxt := by
      rw [hseq, ← BitVec.ofInt_natCast, Int.toNat_of_nonneg hback, behind, BitVec.ofInt_toInt]
      ring
    have hnot : p.tState.finTaken = false := by
      -- past the FIN the whole segment is old and its FIN is cut off
      by_contra hdone
      rw [Bool.not_eq_false] at hdone
      have hpos := hexp.nxt hsent
      have hold := hexp.fin hdone
      rw [show p.core.tState.finTaken = true from hdone, if_pos rfl] at hpos
      rw [hfinAt, Option.some.injEq] at hold
      have hbehind : behind (e.seqAt n) s = s.data.length := by
        simp only [Peer.textAt] at hold hnonneg
        lia
      have hdata_lt := s.data_lt
      simp only [behind] at hbehind hle
      rw [show p.rcvNxt = e.seqAt n + 1 from hpos] at hle
      simp only [BitVec.toInt_eq_toNat_cond] at hbehind hle
      split at hbehind <;> split at hle <;> bv_omega
    have hpos : p.rcvNxt = e.seqAt n := by
      have h := hexp.nxt hsent
      rw [show p.core.tState.finTaken = false from hnot] at h
      simp only [Bool.false_eq_true, if_false, add_zero] at h
      exact h
    have hplace : e.textAt n s = n - behind p.rcvNxt s := by rw [Peer.textAt, hpos]
    have hstored : r.stored.length = t.data.length := by
      by_cases hest : p.tState = .synRcvd ∨ p.tState = .established
      · rw [if_pos hest] at hroom
        have hd : d.tState = .established := hack.established hest
        rw [hall hd (hstart.trans hnxt.symm) (by lia)]
      · rw [if_neg hest] at hroom
        have hzero : t.data.length = 0 := by lia
        rcases hend.stored with hnil | ⟨-, -, hpre⟩
        · rw [hnil, hzero]
          rfl
        · have := hpre.length_le
          lia
    constructor
    · rcases hst with ⟨h, -⟩ | ⟨-, h⟩ | ⟨-, h⟩ | ⟨-, h⟩
      · rw [h]
        exact hnot
      · rw [h]
        rfl
      · rw [h]
        rfl
      · exact absurd h htime
    · rw [hfinAt, hplace, hstored]
      congr 1
      lia

theorem opens_behind {p : Pcb} (hopen : opens p s = true) : behind (s.seq + 1) s = 0 := by
  have hseq : s.textSeq = s.seq + 1 := by
    rw [Segment.textSeq, (opens_iff.mp hopen).2.2.1, if_pos rfl]
  rw [behind, hseq, sub_self]
  rfl

/-- An answer to an active open has nothing to trim. -/
theorem opened_trimmed {p : Pcb} (hopen : opens p s = true) :
    Trimmed (s.seq + 1) s { s.text with seq := s.seq + 1 } := by
  have hseq : s.textSeq = s.seq + 1 := by
    rw [Segment.textSeq, (opens_iff.mp hopen).2.2.1, if_pos rfl]
  refine ⟨rfl, rfl, fun h => h, Or.inr ?_⟩
  rw [opens_behind hopen, hseq]
  exact ⟨Nat.zero_le _, by simp, List.prefix_rfl, fun _ => rfl⟩

/-- What a call stores continues the stream. -/
theorem InputDone.received {p : Pcb} {n : Nat} {r : InputResult} (h : InputDone p s avail r)
    (hexp : e.Expects p.core n) (hsends : e.Sends n s) (hopen : opens p s = true → s.seq = e.irs)
    (hfin : p.tState ≠ .synSent → reaches p s = true → s.flags.fin = true →
      finInside p s.textSeq s.data.length →
      0 ≤ behind p.rcvNxt s ∧ s.data.length - behind p.rcvNxt s ≤
        if p.tState = .synRcvd ∨ p.tState = .established then avail else 0) :
    (∀ i, (hi : i < r.stored.length) → r.stored[i] = e.byte (n + i)) ∧
      (r.list = .active → e.Expects r.pcb.core (n + r.stored.length)) := by
  have hnone : r.stored = [] → (r.list = .active → e.Expects r.pcb.core n) →
      (∀ i, (hi : i < r.stored.length) → r.stored[i] = e.byte (n + i)) ∧
        (r.list = .active → e.Expects r.pcb.core (n + r.stored.length)) := by
    intro hnil hrest
    refine ⟨fun i hi => ?_, ?_⟩
    · rw [hnil] at hi
      exact absurd hi (Nat.not_lt_zero i)
    · rw [hnil]
      exact hrest
  cases h with
  | refused hst hleft hstored hmark => exact hnone hstored fun hl => absurd hl hleft
  | opened hop taken hend =>
      obtain ⟨hsyn, -, -, -, hdata, -⟩ := opens_iff.mp hop
      obtain rfl : n = 0 := hexp.first hsyn
      have hirs : e.seqAt 0 = s.seq + 1 := by simp [Peer.seqAt, hopen hop]
      have hexp' : e.Expects (p.core.opened s) 0 :=
        ⟨fun _ => by rw [hirs]; exact (add_zero _).symm, by simp [Core.opened, TcpState.finTaken],
          fun _ => rfl, by simp [Core.opened]⟩
      have hr := hend.received hexp' (by simp [Core.opened]) (opened_trimmed hop) hsends ?_
      · exact ⟨hr.1, fun _ => hr.2⟩
      · rintro rfl
        have hstored : r.stored = [] := by
          rcases hend.stored with hnil | ⟨-, -, hpre⟩
          · exact hnil
          · simpa [Segment.text, hdata] using hpre
        have hplace : e.textAt 0 s = 0 := by
          rw [Peer.textAt, hirs, opens_behind hop]
          rfl
        obtain ⟨-, hfinAt⟩ := hsends.2 (hend.fin rfl).1
        rw [hplace, hdata] at hfinAt
        rw [hstored]
        exact ⟨rfl, hfinAt⟩
  | stopped hst hacc hstop =>
      refine hnone hstop.stored fun hl => ?_
      rw [hstop.stays hl]
      exact hexp
  | ended hst hacc hrst hstored hack =>
      refine hnone hstored fun hl => ?_
      cases hack with
      | range hlist hcore hout => rw [hcore]; exact hexp
      | freed hlist hst k hk hle hack hlen => rw [hlist] at hl; cases hl
      | waiting hlist htime k hnew =>
          refine hexp.congr ?_ hnew.rcvNxt
          rw [hnew.tState, show p.core.tState = .timeWait from htime]
          rfl
  | processed hst hacc hreach p' t hcheck d hack taken hend =>
      obtain ⟨hexp', hsent', -⟩ := hack.expects hexp hst
      have hnxt := hack.state.1
      have htrim := hcheck.trimmed
      have hr := hend.received hexp' hsent' (hnxt ▸ htrim) hsends ?_
      · exact ⟨hr.1, fun _ => hr.2⟩
      · rintro rfl
        obtain ⟨hf, -, -⟩ := hend.fin rfl
        obtain ⟨hback, hroom⟩ := hfin hst hreach (htrim.fin hf) (hcheck.inside hf)
        exact taken_in_order hexp hst hsends htrim hack hend hback hroom

/-- The receive stream over one segment. -/
theorem input_received (h : Received e c) (hlist : c.list = .active)
    (hfeed : e.Feeds c (.input s avail)) (hfin : finInOrder c (.input s avail)) :
    Received e (c.next (.input s avail)) := by
  obtain ⟨hbytes, hexp⟩ :=
    (tcpInput_spec c.pcb s avail).received (h.expects hlist) hfeed.1 hfeed.2 hfin
  constructor
  · intro i hi
    simp only [Conn.next, List.length_append] at hi ⊢
    rw [List.getElem_append]
    split
    · next hold => exact h.bytes i hold
    · next hnew =>
      rw [hbytes _ (by lia)]
      congr 1
      lia
  · simpa only [Conn.next, List.length_append] using hexp

/-- A call or a timer that keeps the receive side and the state. -/
theorem Received.congr {c' : Conn} (h : Received e c) (hrcvd : c'.rcvd = c.rcvd)
    (hcore : c'.list = .active → c.list = .active ∧ c'.pcb.core.tState = c.pcb.core.tState ∧
      c'.pcb.core.rcvNxt = c.pcb.core.rcvNxt) : Received e c' := by
  refine ⟨?_, fun hl => ?_⟩
  · intro i hi
    simp only [hrcvd] at hi ⊢
    exact h.bytes i hi
  · obtain ⟨hl', hst, hnxt⟩ := hcore hl
    rw [hrcvd]
    exact (h.expects hl').congr hst hnxt

theorem close_received (h : Received e c) (hlist : c.list = .active) :
    Received e (c.next .close) := by
  refine ⟨h.bytes, fun hl => ?_⟩
  have hexp := h.expects hlist
  have hlive := hexp.live
  have hclosed : Closed c.pcb.core (tcpClose c.pcb).1.core := tcpClose_spec hl
  show e.Expects (tcpClose c.pcb).1.core c.rcvd.length
  cases hclosed with
  | fin hst hcore =>
      rw [hcore]
      rcases hst with hst | hst <;>
        exact hexp.move (by rw [hst]; decide) (by simp) (by simp) (by rw [hst]; rfl) rfl
  | discard hst hcore =>
      rw [hcore]
      exact hexp.move (by rw [hst]; decide) (by simp) (by simp) (by rw [hst]; rfl) rfl
  | same hst hcore => rw [hcore]; exact hexp

/-- Every step keeps the receive stream. -/
theorem step_received {a : Action} {c' : Conn} (h : Received e c)
    (hok : e.Feeds c a ∧ finInOrder c a) (hstep : c.step a = some c') : Received e c' := by
  simp only [Conn.step] at hstep
  split at hstep
  · next hlist =>
    obtain rfl := Option.some.inj hstep
    cases a with
    | input s avail => exact input_received h hlist hok.1 hok.2
    | output es =>
        obtain ⟨hst, -, -, hnxt, -⟩ := (tcpOutput_moved c.pcb es).kept
        exact h.congr rfl fun hl => ⟨hl, hst, hnxt⟩
    | send src len nowait offs avail =>
        refine h.congr rfl fun hl => ⟨hl, ?_⟩
        rcases tcpSend_spec c.pcb src len nowait offs avail with ⟨hcore, -⟩ | ⟨-, hspec⟩
        · exact ⟨congrArg Core.tState hcore, congrArg Core.rcvNxt hcore⟩
        · have hst := congrArg Core.tState hspec.core
          have hnxt := congrArg Core.rcvNxt hspec.core
          exact ⟨hst, hnxt⟩
    | recv len =>
        have hst := congrArg Core.tState (tcpRecv_core c.pcb len)
        have hnxt := congrArg Core.rcvNxt (tcpRecv_core c.pcb len)
        exact h.congr rfl fun hl => ⟨hl, hst, hnxt⟩
    | close => exact close_received h hlist
    | rxmtTmr =>
        refine h.congr rfl fun hl => ⟨hl, ?_⟩
        rcases tcpRxmtTmr_core c.pcb with hcore | hcore
        · exact ⟨congrArg Core.tState hcore, congrArg Core.rcvNxt hcore⟩
        · have hst := congrArg Core.tState hcore
          have hnxt := congrArg Core.rcvNxt hcore
          exact ⟨hst, hnxt⟩
    | fastTmr =>
        have hcore := tcpFastTmr_core c.pcb
        exact h.congr rfl fun hl =>
          ⟨hl, congrArg Core.tState hcore, congrArg Core.rcvNxt hcore⟩
  · cases hstep

theorem start_received {p : Pcb} (hp : Opened p)
    (hsyn : p.tState = .synSent ∨ p.rcvNxt = e.irs + 1) : Received e (Conn.start p) := by
  have hfresh := hp.fresh.tState
  refine ⟨fun i hi => absurd hi (Nat.not_lt_zero i), fun _ => ⟨fun hst => ?_, ?_, fun _ => rfl, ?_⟩⟩
  · have hrcvd : p.tState = .synRcvd := hfresh.resolve_right hst
    have hnxt : p.rcvNxt = e.irs + 1 := hsyn.resolve_left hst
    simp [Conn.start, Pcb.core, hrcvd, hnxt, TcpState.finTaken, Peer.seqAt]
  · rcases hfresh with h | h <;> simp [Conn.start, Pcb.core, h, TcpState.finTaken]
  · rcases hfresh with h | h <;> simp [Conn.start, Pcb.core, h]

/-- In every run of a connection on segments of the peer in which no FIN is processed ahead
of the text before it, the bytes received are a prefix of the stream, `rcv_nxt` is the
sequence number after them, and the FIN is taken only at the end of the stream. -/
theorem receiveStream_intact (e : Peer) {p : Pcb} (hp : Opened p)
    (hsyn : p.tState = .synSent ∨ p.rcvNxt = e.irs + 1) {as : List Action} {c : Conn}
    (hfeed : Along Conn.step e.Feeds (Conn.start p) as)
    (hfin : Along Conn.step finInOrder (Conn.start p) as)
    (hrun : exec Conn.step (Conn.start p) as = some c) : Received e c :=
  exec_invariant (fun _ _ _ h hok hstep => step_received h hok hstep) (start_received hp hsyn)
    (hfeed.and hfin) hrun

/-- A peer that sends three bytes and closes. -/
def abcPeer : Peer where
  irs := 100
  byte := fun n => [97, 98, 99].getD n 0
  finAt := some 3

/-- The text comes in two segments that overlap, the second one with the FIN. -/
def abcRun : List Action :=
  [.output [openNet], .input (sampleSegment false 101 0x100001 1000 [97, 98] (by decide)) 10,
    .input (sampleSegment true 102 0x100001 1000 [98, 99] (by decide)) 10]

theorem receiveStream_intact_abc :
    ∃ c, exec Conn.step sampleStart abcRun = some c ∧ c.rcvd = [97, 98, 99] ∧
      c.pcb.tState = .closeWait ∧ Received abcPeer c := by
  have hend : (exec Conn.step sampleStart abcRun).map (fun c => (c.rcvd, c.pcb.tState)) =
      some ([97, 98, 99], .closeWait) := by decide
  obtain ⟨c, hrun, hc⟩ := Option.map_eq_some_iff.mp hend
  obtain ⟨hrcvd, hst⟩ := Prod.mk.inj hc
  exact ⟨c, hrun, hrcvd, hst, receiveStream_intact abcPeer (.passive _ _ _ _ _) (Or.inr rfl)
    (by decide) (by decide) hrun⟩

/-- The FIN of the peer overtakes the text. -/
def finFirstRun : List Action :=
  [.output [openNet], .input (sampleSegment true 104 0x100001 1000 [] nil_lt) 10]

/-- The FIN is taken although no byte of the text has been received. -/
theorem receiveStream_not_intact :
    Along Conn.step abcPeer.Feeds sampleStart finFirstRun ∧
      ∃ c, exec Conn.step sampleStart finFirstRun = some c ∧ c.list = .active ∧
        c.pcb.tState = .closeWait ∧ c.rcvd = [] ∧ ¬Received abcPeer c := by
  have hend : (exec Conn.step sampleStart finFirstRun).map
      (fun c => (c.list, c.pcb.tState, c.rcvd)) = some (.active, .closeWait, []) := by
    decide
  obtain ⟨c, hrun, hc⟩ := Option.map_eq_some_iff.mp hend
  obtain ⟨hlist, hrest⟩ := Prod.mk.inj hc
  obtain ⟨hst, hrcvd⟩ := Prod.mk.inj hrest
  refine ⟨by decide, c, hrun, hlist, hst, hrcvd, fun h => ?_⟩
  have hfin := (h.expects hlist).fin (by simp [Pcb.core, hst, TcpState.finTaken])
  simp [abcPeer, hrcvd] at hfin

end YardIce.Tcp
