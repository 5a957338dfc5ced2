import YardIce.Tcp.ReceiveStream
import YardIce.Tcp.SendSequence
import YardIce.Tcp.Wire

/-!
# Two hosts

Both ends of a connection run this stack. The network delivers a segment that one end has sent
to the other end at any later time, any number of times and in any order, or never.

## Implementation notes

What an end has received is compared with all that the application at the other end has handed
over. A peer's stream is read with a default behind its end: as the streams for two defaults
agree on all bytes received, there are no more of them than bytes handed over.
-/

namespace YardIce.Tcp

open YardIce.Lib

/-! ## The network -/

/-- The segment as the other end gets it. -/
def OutSeg.arrival (g : OutSeg) : Option Segment :=
  if h : g.data.length < 65536 then
    some ⟨g.flags, g.seq, g.ack, BitVec.ofNat 16 g.win, g.opt, g.data, h⟩
  else none

theorem OutSeg.arrival_eq {g : OutSeg} {s : Segment} (h : g.arrival = some s) :
    s.flags = g.flags ∧ s.seq = g.seq ∧ s.data = g.data := by
  rw [OutSeg.arrival] at h
  split at h
  · obtain rfl := Option.some.inj h
    exact ⟨rfl, rfl, rfl⟩
  · cases h

/-- What happens at one end: a segment of the other end arrives, or anything else. -/
inductive Event
  | deliver (i avail : Nat)
  | act (a : Action)

/-- The action of an event at an end whose peer is `y`. -/
def Event.action (y : Conn) : Event → Option Action
  | .deliver i avail => (y.out[i]?).bind fun g => g.arrival.map fun s => .input s avail
  | .act (.input ..) => none
  | .act a => some a

/-- The two ends. -/
structure Hosts where
  fst : Conn
  snd : Conn

/-- An event at the second end, or at the first one. -/
def Hosts.step (h : Hosts) (e : Bool × Event) : Option Hosts :=
  if e.1 then
    (e.2.action h.fst).bind fun a => (h.snd.step a).map fun c => { h with snd := c }
  else (e.2.action h.snd).bind fun a => (h.fst.step a).map fun c => { h with fst := c }

/-- A FIN has been sent. -/
def Conn.finSent (c : Conn) : Bool := c.out.any fun g => g.flags.fin

/-- What is asked of an action beside the conditions of the send and of the receive side: fewer
than 2^30 bytes have been handed over to the peer, a FIN stands behind the last of them, and the
application sends nothing after a FIN. -/
def ordered (x y : Conn) : Action → Prop
  | .input s _ => y.queued.length < 2 ^ 30 ∧ (s.flags.fin = true →
      s.textSeq + BitVec.ofNat 32 s.data.length = y.iss + 1 + BitVec.ofNat 32 y.queued.length)
  | .send .. => x.finSent = false
  | _ => True

instance (x y : Conn) : (a : Action) → Decidable (ordered x y a)
  | .input _ _ => inferInstanceAs (Decidable (_ ∧ (_ → _)))
  | .send .. => inferInstanceAs (Decidable (_ = _))
  | .output _ | .recv _ | .close | .rxmtTmr | .fastTmr => isTrue trivial

/-- The conditions on an event at `x`. -/
def Orderly (x y : Conn) (e : Event) : Prop :=
  ∀ a ∈ e.action y, sendKept x a ∧ finInOrder x a ∧ ordered x y a

instance (x y : Conn) (e : Event) : Decidable (Orderly x y e) :=
  inferInstanceAs (Decidable (∀ _ ∈ _, _))

/-- The conditions on a step of the two ends. -/
def Hosts.Orderly (h : Hosts) (e : Bool × Event) : Prop :=
  if e.1 then Tcp.Orderly h.snd h.fst e.2 else Tcp.Orderly h.fst h.snd e.2

instance (h : Hosts) (e : Bool × Event) : Decidable (h.Orderly e) :=
  inferInstanceAs (Decidable
    (if e.1 then Tcp.Orderly h.snd h.fst e.2 else Tcp.Orderly h.fst h.snd e.2))

/-! ## The sender -/

/-- The text of a sent segment is the application's at its place, where a FIN that is repeated
may have the number before it. A SYN has the initial number. -/
structure OutSeg.FromQueue (g : OutSeg) (iss : Seq) (queued : List UInt8) : Prop where
  syn : g.flags.syn = true → g.seq = iss ∧ g.data = []
  text : g.data ≠ [] → ∃ j, (g.seq = iss + 1 + BitVec.ofNat 32 j ∨
    g.flags.fin = true ∧ g.seq + 1 = iss + 1 + BitVec.ofNat 32 j) ∧
    g.data <+: queued.drop j

theorem OutSeg.FromQueue.mono {g : OutSeg} {iss : Seq} {queued more : List UInt8}
    (h : g.FromQueue iss queued) : g.FromQueue iss (queued ++ more) := by
  refine ⟨h.syn, fun hne => ?_⟩
  obtain ⟨j, hseq, hpre⟩ := h.text hne
  refine ⟨j, hseq, ?_⟩
  have hlt : j < queued.length := by
    by_contra hle
    rw [List.drop_eq_nil_of_le (Nat.le_of_not_lt hle)] at hpre
    exact hne (List.prefix_nil.mp hpre)
  rw [List.drop_append_of_le_length (Nat.le_of_lt hlt)]
  exact hpre.trans (List.prefix_append _ _)

theorem OutSeg.FromQueue.length_le {g : OutSeg} {iss : Seq} {queued : List UInt8}
    (h : g.FromQueue iss queued) : g.data.length ≤ queued.length := by
  by_cases hnil : g.data = []
  · rw [hnil]
    exact Nat.zero_le _
  · obtain ⟨j, -, hpre⟩ := h.text hnil
    have hle := hpre.length_le
    rw [List.length_drop] at hle
    omega

/-- The text of a segment whose FIN stands behind the last byte. -/
theorem OutSeg.FromQueue.place {g : OutSeg} {iss : Seq} {queued : List UInt8}
    (h : g.FromQueue iss queued) (hbound : queued.length < 2 ^ 30) (hne : g.data ≠ [])
    (hend : g.flags.fin = true → g.seq + BitVec.ofNat 32 g.data.length =
      iss + 1 + BitVec.ofNat 32 queued.length) :
    ∃ j, g.seq = iss + 1 + BitVec.ofNat 32 j ∧ g.data <+: queued.drop j := by
  obtain ⟨j, hseq | ⟨hfin, hseq⟩, hpre⟩ := h.text hne
  · exact ⟨j, hseq, hpre⟩
  · -- a FIN with the number before its own would end the text too late
    have hle := hpre.length_le
    rw [List.length_drop] at hle
    have hpos := List.length_pos_of_ne_nil hne
    have hsum : iss + 1 + BitVec.ofNat 32 (j + g.data.length) =
        iss + 1 + BitVec.ofNat 32 (queued.length + 1) := by
      rw [← offset_add_offset, ← hseq, ← offset_add_offset, ← hend hfin]
      exact add_right_comm _ _ _
    have hnat := congrArg BitVec.toNat (add_left_cancel hsum)
    rw [BitVec.toNat_ofNat, BitVec.toNat_ofNat, Nat.mod_eq_of_lt (by omega),
      Nat.mod_eq_of_lt (by omega)] at hnat
    omega

theorem ofNat_place {una o : Nat} (h : 0 < una) :
    BitVec.ofNat 32 una + BitVec.ofNat 32 o = 1 + BitVec.ofNat 32 (una - 1 + o) := by
  have hone : (1 : Seq) = BitVec.ofNat 32 1 := rfl
  rw [hone, ← BitVec.ofNat_add, ← BitVec.ofNat_add]
  congr 1
  omega

section Pass

variable {p : Pcb} {o₀ m o n₀ : Nat} {r : Pass} {seg : OutSeg} {out : List OutSeg} {iss : Seq}
  {una : Nat} {queued : List UInt8}

/-- A further pass finds the positions in order. -/
theorem Ready.again (h : Ready p o₀ m out) (hs : Emits p o₀ m r seg o n₀)
    (hagain : r.again = true) : Ready r.pcb (p.posAfter seg.flags.fin o seg.len m)
      (max m (p.posAfter seg.flags.fin o seg.len m)) (out ++ [seg]) := by
  obtain ⟨hplaced, hoff, hmax⟩ := h.emits hs
  refine ⟨hplaced, hoff, hmax, fun hflag => ?_⟩
  have hpos := (hs.again hagain).2
  have hst : r.pcb.tState = p.tState := hs.moved.kept.1
  rw [hst] at hflag
  have hq : p.sndQ = [] := h.placed.syn hflag
  rw [Pcb.usable, hq, List.length_nil, Nat.zero_min] at hpos
  exact absurd hpos (Nat.lt_irrefl 0)

/-- A segment that is sent takes its text from the queue. -/
theorem Emits.fromQueue (hs : Emits p o₀ m r seg o n₀) (h : Ready p o₀ m out)
    (hnum : Numbered p.core iss una queued) : seg.FromQueue iss queued := by
  have hsynfin (hsyn : seg.flags.syn = true) : seg.flags.fin = false := by
    by_contra hfin
    rw [Bool.not_eq_false] at hfin
    have hno := outflags_syn_or_fin p.tState (hs.syn ▸ hsyn)
    rw [(hs.fin hfin).1] at hno
    cases hno
  constructor
  case syn =>
    intro hsyn
    have hflag : (tcpOutflags p.tState).syn = true := hs.syn ▸ hsyn
    have hq : p.sndQ = [] := h.placed.syn hflag
    have ho : o = 0 := by
      rcases h.syn hflag with h0 | hw
      · rcases hs.start with hstart | ⟨hzero, -⟩
        · exact hstart.trans h0
        · exact hzero
      · exact hs.shut hw
    have hseq : p.sndSeq = iss + BitVec.ofNat 32 una := hnum.seq
    have hrep : p.repeatsFin seg.flags.fin o m = false := by
      rw [Pcb.repeatsFin, hsynfin hsyn, Bool.false_and, Bool.false_and]
    refine ⟨?_, ?_⟩
    · rw [hs.seq, if_pos (Or.inr (Or.inl hsyn)), hrep, if_neg Bool.false_ne_true, ho, Pcb.seqAt,
        hseq, (hnum.syn hflag).2]
      simp
    · rw [hs.data, hq, List.drop_nil, List.take_nil]
  case text =>
    intro hne
    have hlen : seg.len ≠ 0 := by
      rintro hzero
      rw [hs.data, hzero, List.take_zero] at hne
      exact hne rfl
    have hq : p.sndQ ≠ [] := by
      intro hnil
      rw [hs.data, hnil, List.drop_nil, List.take_nil] at hne
      exact hne rfl
    have ho : o = o₀ := by
      rcases hs.start with hstart | ⟨-, hzero, -⟩
      · exact hstart
      · have hle := hs.le
        omega
    rcases hnum.queue with ⟨hnil, -⟩ | ⟨hpos, -, htail⟩
    · exact absurd hnil hq
    · have hseq : p.sndSeq = iss + BitVec.ofNat 32 una := hnum.seq
      have hat : p.seqAt o = iss + 1 + BitVec.ofNat 32 (una - 1 + o₀) := by
        rw [Pcb.seqAt, hseq, ho, add_assoc, ofNat_place hpos, add_assoc]
      refine ⟨una - 1 + o₀, ?_, ?_⟩
      · rw [hs.seq, if_pos (Or.inl hlen)]
        split
        · next hrep =>
          refine Or.inr ⟨?_, ?_⟩
          · simp only [Pcb.repeatsFin, Bool.and_eq_true] at hrep
            exact hrep.1.1
          · rw [← hat]
            exact BitVec.sub_add_cancel _ _
        · exact Or.inl hat
      · have hqueue : p.sndQ = queued.drop (una - 1) := htail
        rw [hs.data, hqueue, List.drop_drop]
        exact List.take_prefix _ _

/-- All that is sent is from the queue. -/
theorem tcpOutput_fromQueue {es : List OutEnv} (h : Placed p.core out)
    (hsyn : (tcpOutflags p.tState).syn = true → p.sndOff = 0 ∨ p.sndWnd = 0)
    (hnum : Numbered p.core iss una queued) (hout : ∀ g ∈ out, g.FromQueue iss queued) :
    ∀ g ∈ out ++ (tcpOutput p es).2, g.FromQueue iss queued := by
  have hemit : ∀ q o₀ m out r seg o n₀, (Ready q o₀ m out ∧ Numbered q.core iss una queued ∧
        ∀ g ∈ out, g.FromQueue iss queued) → Emits q o₀ m r seg o n₀ →
      (∀ g ∈ out ++ [seg], g.FromQueue iss queued) ∧ (r.again = true →
        Ready r.pcb (q.posAfter seg.flags.fin o seg.len m)
          (max m (q.posAfter seg.flags.fin o seg.len m)) (out ++ [seg]) ∧
        Numbered r.pcb.core iss una queued ∧ ∀ g ∈ out ++ [seg], g.FromQueue iss queued) := by
    rintro q o₀ m out r seg o n₀ ⟨hr, hn, hall⟩ hs
    have hnew : ∀ g ∈ out ++ [seg], g.FromQueue iss queued := by
      intro g hg
      rcases List.mem_append.mp hg with hold | hlast
      · exact hall g hold
      · rw [List.mem_singleton.mp hlast]
        exact hs.fromQueue hr hn
    obtain ⟨hst, hseq, -, -, hq⟩ := hs.moved.kept
    exact ⟨hnew, fun hagain => ⟨hr.again hs hagain, hn.congr hst hseq hq, hnew⟩⟩
  refine tcpOutput_rule (I := fun q o m out => Ready q o m out ∧
    Numbered q.core iss una queued ∧ ∀ g ∈ out, g.FromQueue iss queued)
    (J := fun _ out => ∀ g ∈ out, g.FromQueue iss queued)
    (fun _ _ _ _ hr => hr.2.2) (fun _ _ _ _ _ hr _ => hr.2.2) hemit p es out
    ⟨⟨h, rfl, rfl, fun hflag => ?_⟩, hnum, hout⟩
  rcases hsyn hflag with h0 | hw
  · exact Or.inl (congrArg BitVec.toNat h0)
  · exact Or.inr hw

end Pass

/-- The send side with what it has sent. -/
structure Sender (y : Conn) : Prop where
  sending : y.list = .active → Sending y
  texts : ∀ g ∈ y.out, g.FromQueue y.iss y.queued

/-- What a step adds to the history. -/
theorem step_grows {x y y' : Conn} {a : Action} (hstep : y.step a = some y') :
    y'.iss = y.iss ∧ (∃ more, y'.queued = y.queued ++ more) ∧ (∃ segs, y'.out = y.out ++ segs) ∧
      (ordered y x a → y.finSent = true → y'.queued = y.queued) := by
  simp only [Conn.step] at hstep
  split at hstep
  · obtain rfl := Option.some.inj hstep
    cases a with
    | send src len nowait offs avail =>
        refine ⟨rfl, ⟨_, rfl⟩, ⟨[], (List.append_nil _).symm⟩, fun hord hfin => ?_⟩
        cases hfin.symm.trans hord
    | output es =>
        exact ⟨rfl, ⟨[], (List.append_nil _).symm⟩, ⟨_, rfl⟩, fun _ _ => rfl⟩
    | input _ _ | recv _ | close | rxmtTmr | fastTmr =>
        exact ⟨rfl, ⟨[], (List.append_nil _).symm⟩, ⟨[], (List.append_nil _).symm⟩,
          fun _ _ => rfl⟩
  · cases hstep

theorem step_sender {y y' : Conn} {a : Action} (h : Sender y) (hok : sendKept y a)
    (hstep : y.step a = some y') : Sender y' := by
  refine ⟨step_sending h.sending hok hstep, ?_⟩
  simp only [Conn.step] at hstep
  split at hstep
  · next hlist =>
    obtain rfl := Option.some.inj hstep
    obtain ⟨hplaced, hnum⟩ := h.sending hlist
    cases a with
    | output es => exact tcpOutput_fromQueue hplaced hok hnum h.texts
    | send src len nowait offs avail => exact fun g hg => (h.texts g hg).mono
    | input _ _ | recv _ | close | rxmtTmr | fastTmr => exact h.texts
  · cases hstep

/-! ## The stream between the ends -/

/-- The stream that an end sends, with a default behind its last byte. -/
def Conn.stream (y : Conn) (d : UInt8) : Peer :=
  ⟨y.iss, fun n => y.queued.getD n d, if y.finSent then some y.queued.length else none⟩

/-- What `x` has received is from the stream of `y`. -/
def Follows (x y : Conn) : Prop := ∀ d, Received (y.stream d) x

theorem Follows.length_le {x y : Conn} (h : Follows x y) : x.rcvd.length ≤ y.queued.length := by
  by_contra hlt
  have hi : y.queued.length < x.rcvd.length := Nat.lt_of_not_le hlt
  have hzero := (h 0).bytes _ hi
  have hone := (h 1).bytes _ hi
  simp only [Conn.stream, List.getD_eq_getElem?_getD, List.getElem?_length, Option.getD_none]
    at hzero hone
  exact absurd (hzero.symm.trans hone) (by decide)

theorem getD_of_getElem? {l : List UInt8} {n : Nat} {b d : UInt8} (h : l[n]? = some b) :
    l.getD n d = b := by
  rw [List.getD_eq_getElem?_getD, h, Option.getD_some]

theorem Follows.rcvd_le {x y : Conn} (h : Follows x y) : x.rcvd <+: y.queued := by
  rw [List.prefix_iff_eq_take]
  apply List.ext_getElem
  · rw [List.length_take, Nat.min_eq_left h.length_le]
  · intro i hi hi'
    have hlen := h.length_le
    rw [(h 0).bytes i hi, List.getElem_take]
    exact getD_of_getElem? (List.getElem?_eq_getElem (by omega))

theorem getD_append_of_lt {queued more : List UInt8} {d : UInt8} {n : Nat}
    (h : n < queued.length) : (queued ++ more).getD n d = queued.getD n d := by
  rw [List.getD_eq_getElem?_getD, List.getD_eq_getElem?_getD, List.getElem?_append_left h]

/-- A step of the sender. -/
theorem Follows.sends {x y y' : Conn} {a : Action} (h : Follows x y) (hord : ordered y x a)
    (hstep : y.step a = some y') : Follows x y' := by
  obtain ⟨hiss, ⟨more, hqueued⟩, ⟨segs, hout⟩, hkeep⟩ := step_grows (x := x) hstep
  have hlen := h.length_le
  have hfin (hf : y.finSent = true) : y'.finSent = true := by
    rw [Conn.finSent, hout, List.any_append, Bool.or_eq_true]
    exact Or.inl hf
  refine fun d => ⟨fun i hi => ?_, fun hlist => ?_⟩
  · have hbyte := (h d).bytes i hi
    simp only [Conn.stream] at hbyte ⊢
    rw [hqueued, getD_append_of_lt (by omega)]
    exact hbyte
  · obtain ⟨hnxt, hend, hfirst, hlive⟩ := (h d).expects hlist
    refine ⟨fun hst => ?_, fun htaken => ?_, hfirst, hlive⟩
    · have hold := hnxt hst
      simp only [Peer.seqAt, Conn.stream] at hold ⊢
      rw [hiss]
      exact hold
    · have hold := hend htaken
      simp only [Conn.stream] at hold ⊢
      split at hold
      · next hf =>
        rw [if_pos (hfin hf), hkeep hord hf]
        exact hold
      · cases hold

/-- The place of the text that has the number of a byte. -/
theorem Follows.textAt_eq {x y : Conn} (h : Follows x y) (hbound : y.queued.length < 2 ^ 30)
    {s : Segment} {j : Nat} (hj : j < 2 ^ 31) (hseq : s.textSeq = y.iss + 1 + BitVec.ofNat 32 j)
    (d : UInt8) : (y.stream d).textAt x.rcvd.length s = j := by
  have hlen := h.length_le
  have hdist := toInt_offset_sub_offset (y.iss + 1) (i := x.rcvd.length) (j := j)
    (by omega) (by omega)
  rw [Peer.textAt, behind, hseq]
  have hback : ((y.stream d).seqAt x.rcvd.length - (y.iss + 1 + BitVec.ofNat 32 j)).toInt =
      (x.rcvd.length : Int) - j := hdist
  omega

/-- A segment of `y` arrives. -/
theorem Follows.feeds {x y : Conn} (h : Follows x y) (hy : Sender y) {g : OutSeg} {s : Segment}
    {avail : Nat} (hg : g ∈ y.out) (hs : g.arrival = some s)
    (hord : ordered x y (.input s avail)) (d : UInt8) :
    (y.stream d).Feeds x (.input s avail) := by
  have hfrom := hy.texts g hg
  obtain ⟨hbound, hend⟩ := hord
  obtain ⟨hflags, hnumber, hdata⟩ := OutSeg.arrival_eq hs
  refine ⟨⟨fun i hi _ => ?_, fun hfin => ?_⟩, fun hopens => ?_⟩
  · have hlt : i < g.data.length := hdata ▸ hi
    have hne : g.data ≠ [] := List.ne_nil_of_length_pos (Nat.zero_lt_of_lt hlt)
    have hno : g.flags.syn = false := by
      by_contra hflag
      exact hne (hfrom.syn (Bool.not_eq_false _ ▸ hflag)).2
    have htext : s.textSeq = g.seq := by
      rw [Segment.textSeq, hflags, hnumber, hno, if_neg Bool.false_ne_true, add_zero]
    rw [hflags, htext, hdata] at hend
    obtain ⟨j, hseq, hpre⟩ := hfrom.place hbound hne hend
    have hle := hpre.length_le
    rw [List.length_drop] at hle
    rw [h.textAt_eq hbound (by omega) (htext.trans hseq) d]
    have hbyte : y.queued[j + i]? = some g.data[i] := by
      obtain ⟨rest, hrest⟩ := hpre
      rw [← List.getElem?_drop, ← hrest, List.getElem?_append_left hlt,
        List.getElem?_eq_getElem hlt]
    simp only [hdata]
    exact (getD_of_getElem? hbyte).symm
  · have hle := hfrom.length_le
    rw [← hdata] at hle
    have hseq : s.textSeq = y.iss + 1 + BitVec.ofNat 32 (y.queued.length - s.data.length) := by
      apply add_right_cancel (b := BitVec.ofNat 32 s.data.length)
      rw [offset_add_offset, Nat.sub_add_cancel hle]
      exact hend hfin
    rw [h.textAt_eq hbound (by omega) hseq d]
    have hsent : y.finSent = true := List.any_eq_true.mpr ⟨g, hg, hflags ▸ hfin⟩
    refine ⟨by omega, ?_⟩
    simp only [Conn.stream, hsent, if_true]
    congr 1
    omega
  · simp only [opens, Bool.and_eq_true] at hopens
    rw [hflags] at hopens
    rw [hnumber]
    exact (hfrom.syn hopens.1.1.1.2).1

/-- Each end follows the other one. -/
structure Hosts.InOrder (h : Hosts) : Prop where
  fst : Sender h.fst
  snd : Sender h.snd
  sndFollows : Follows h.snd h.fst
  fstFollows : Follows h.fst h.snd

/-- A step of `x`: it sends from its queue, and it receives from the stream of `y`. -/
theorem event_inOrder {x x' y : Conn} {e : Event} {a : Action} (hx : Sender x) (hy : Sender y)
    (hxy : Follows x y) (hyx : Follows y x) (hok : Orderly x y e) (ha : e.action y = some a)
    (hstep : x.step a = some x') : Sender x' ∧ Follows x' y ∧ Follows y x' := by
  obtain ⟨hkept, hfin, hord⟩ := hok a ha
  refine ⟨step_sender hx hkept hstep, fun d => step_received (hxy d) ⟨?_, hfin⟩ hstep,
    hyx.sends hord hstep⟩
  cases e with
  | deliver i avail =>
      obtain ⟨g, hg, ha⟩ := Option.bind_eq_some_iff.mp ha
      obtain ⟨s, hs, rfl⟩ := Option.map_eq_some_iff.mp ha
      exact hxy.feeds hy (List.mem_of_getElem? hg) hs hord d
  | act b =>
      cases b with
      | input s avail => cases ha
      | output _ | send _ _ _ _ _ | recv _ | close | rxmtTmr | fastTmr =>
          obtain rfl := Option.some.inj ha
          trivial

theorem Hosts.step_inOrder (h : Hosts) (e : Bool × Event) (h' : Hosts) (hin : h.InOrder)
    (hok : h.Orderly e) (hstep : h.step e = some h') : h'.InOrder := by
  obtain ⟨side, e⟩ := e
  cases side with
  | true =>
      obtain ⟨a, ha, hstep⟩ := Option.bind_eq_some_iff.mp hstep
      obtain ⟨c, hc, rfl⟩ := Option.map_eq_some_iff.mp hstep
      obtain ⟨hs, hf, hf'⟩ := event_inOrder hin.snd hin.fst hin.sndFollows hin.fstFollows hok ha hc
      exact ⟨hin.fst, hs, hf, hf'⟩
  | false =>
      obtain ⟨a, ha, hstep⟩ := Option.bind_eq_some_iff.mp hstep
      obtain ⟨c, hc, rfl⟩ := Option.map_eq_some_iff.mp hstep
      obtain ⟨hs, hf, hf'⟩ := event_inOrder hin.fst hin.snd hin.fstFollows hin.sndFollows hok ha hc
      exact ⟨hs, hin.snd, hf', hf⟩

theorem start_sender {p : Pcb} (hp : Opened p) : Sender (Conn.start p) :=
  ⟨fun _ => start_sending hp, fun _ hg => absurd hg List.not_mem_nil⟩

theorem start_follows {p q : Pcb} (hp : Opened p)
    (hsyn : p.tState = .synSent ∨ p.rcvNxt = q.sndSeq + 1) :
    Follows (Conn.start p) (Conn.start q) := fun _ => start_received hp hsyn

/-- An end that has taken the FIN. -/
theorem Follows.complete {x y : Conn} (h : Follows x y) (hlist : x.list = .active)
    (hfin : x.pcb.tState.finTaken = true) : x.rcvd = y.queued := by
  have hend := ((h 0).expects hlist).fin hfin
  simp only [Conn.stream] at hend
  split at hend
  · exact h.rcvd_le.eq_of_length (Option.some.inj hend).symm
  · cases hend

/-- Whatever the network loses, repeats or reorders, each end has received a part from the
beginning of what the other application has handed over, and all of it once it has taken the
FIN. -/
theorem hosts_deliver {p q : Pcb} (hp : Opened p) (hq : Opened q)
    (hsyn : p.tState = .synSent ∨ p.rcvNxt = q.sndSeq + 1)
    (hsyn' : q.tState = .synSent ∨ q.rcvNxt = p.sndSeq + 1) {es : List (Bool × Event)} {h : Hosts}
    (hok : Along Hosts.step Hosts.Orderly ⟨Conn.start p, Conn.start q⟩ es)
    (hrun : exec Hosts.step ⟨Conn.start p, Conn.start q⟩ es = some h) :
    (h.snd.rcvd <+: h.fst.queued ∧ h.fst.rcvd <+: h.snd.queued) ∧
      (h.snd.list = .active → h.snd.pcb.tState.finTaken = true → h.snd.rcvd = h.fst.queued) ∧
      (h.fst.list = .active → h.fst.pcb.tState.finTaken = true → h.fst.rcvd = h.snd.queued) := by
  have hin : h.InOrder := exec_invariant Hosts.step_inOrder
    ⟨start_sender hp, start_sender hq, start_follows hq hsyn', start_follows hp hsyn⟩ hok hrun
  exact ⟨⟨hin.sndFollows.rcvd_le, hin.fstFollows.rcvd_le⟩, hin.sndFollows.complete,
    hin.fstFollows.complete⟩

/-- The end that connects. -/
def helloFst : Pcb := tcpConnect (1, 2) (3, 4) none 0

/-- The end that its SYN opens. -/
def helloSnd : Pcb := tcpPassiveOpen (1, 2) (3, 4) none 0 { sampleSyn with seq := 0x100000 }

/-- The first end sends two bytes and closes; their segment arrives twice. -/
def helloRun : List (Bool × Event) :=
  [(false, .act (.output [openNet])), (true, .act (.output [openNet])), (false, .deliver 0 10),
    (false, .act (.output [openNet])), (true, .deliver 1 10),
    (false, .act (.send [104, 105] 2 true 0 100)), (false, .act (.output [openNet])),
    (true, .deliver 2 10), (true, .deliver 2 10), (false, .act .close),
    (false, .act (.output [openNet])), (true, .deliver 3 10)]

theorem hosts_deliver_hello :
    ∃ h, exec Hosts.step ⟨Conn.start helloFst, Conn.start helloSnd⟩ helloRun = some h ∧
      h.snd.pcb.tState = .closeWait ∧ h.snd.rcvd = [104, 105] ∧ h.snd.rcvd = h.fst.queued := by
  have hend : (exec Hosts.step ⟨Conn.start helloFst, Conn.start helloSnd⟩ helloRun).map
      (fun h => (h.snd.list, h.snd.pcb.tState, h.snd.rcvd)) =
        some (.active, .closeWait, [104, 105]) := by decide
  obtain ⟨h, hrun, hc⟩ := Option.map_eq_some_iff.mp hend
  obtain ⟨hlist, hc⟩ := Prod.mk.inj hc
  obtain ⟨hst, hrcvd⟩ := Prod.mk.inj hc
  refine ⟨h, hrun, hst, hrcvd, ?_⟩
  have hsyn' : helloSnd.tState = .synSent ∨ helloSnd.rcvNxt = helloFst.sndSeq + 1 := by
    decide
  have hdeliver := hosts_deliver (p := helloFst) (q := helloSnd) (.active _ _ _ _)
    (.passive _ _ _ _ _) (Or.inl rfl) hsyn' (by decide) hrun
  exact hdeliver.2.1 hlist (by rw [hst]; rfl)

end YardIce.Tcp
