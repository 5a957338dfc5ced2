import YardIce.Lib.Runs
import YardIce.Tcp.Calls
import YardIce.Tcp.OutputSpec

/-!
# The passes of one call of `tcp_output`

A call goes back to `again` while more may be sent than one segment holds. It ends if every
pass that is repeated has sent text. The segment size comes from the peer: where it leaves
no room for text, the first pass is repeated without any.

## Implementation notes

The network answers each pass anew. The fields `snd_q.len` and `t_maxseg` have 16 bits.
-/

namespace YardIce.Tcp

open YardIce.Lib

/-! ## The loop -/

/-- Where a pass starts: the control block and the locals `snd_nxt` and `snd_max`. -/
structure Turn where
  pcb : Pcb
  nxt : Seq
  max : Seq

namespace Turn

/-- The pass that starts here. -/
def pass (idle : Bool) (t : Turn) (e : OutEnv) : Pass := outputPass idle t.pcb t.nxt t.max e

/-- The jump back to `again`. -/
def again (idle : Bool) (t : Turn) (e : OutEnv) : Option Turn :=
  let r := t.pass idle e
  if r.again then some ⟨r.pcb, r.nxt, r.max⟩ else none

end Turn

namespace Pcb

/-- The local `idle`. -/
def allAcked (p : Pcb) : Bool := p.sndLast = p.sndSeq

/-- The start of a call. -/
def firstTurn (p : Pcb) : Turn := ⟨p, p.sndNxt, p.sndLast⟩

/-- The start of the pass that follows those with the answers `es`, all of them repeated. -/
def turnAfter (p : Pcb) (es : List OutEnv) : Option Turn :=
  exec (Turn.again p.allAcked) p.firstTurn es

/-- The text that a segment of the connection holds on an interface. The clamp for the
options, which only a SYN has, does nothing to a size below theirs. -/
def room (p : Pcb) (rt : Ifnet) : Nat :=
  min (rt.mtu - 40)
    (if (tcpOutflags p.tState).syn ∧ 4 ≤ p.maxseg then p.maxseg - 4 else p.maxseg)

/-- There is a reason to send a segment without text. -/
def Due (p : Pcb) : Prop :=
  0 < p.maxseg ∨ p.acknow ∨ (tcpOutflags p.tState).syn ∨ (tcpOutflags p.tState).rst ∨
    p.rcvQ.length < tcpMaxrcv ∧ p.rcvAdvWnd ≤ tcpMaxwin

end Pcb

/-- The answers to the first `n` passes. -/
def answers (env : Nat → OutEnv) (n : Nat) : List OutEnv := (List.range n).map env

/-- A repeated pass has sent text from where it started, and the next one starts behind. -/
def SendsNew (t u : Turn) (seg : Option OutSeg) : Prop :=
  ∃ g, seg = some g ∧ 0 < g.data.length ∧ g.seq = t.nxt ∧
    u.nxt = g.seq + BitVec.ofNat 32 (g.data.length + if g.flags.syn then 1 else 0)

/-- The call ends, and every pass that is repeated has sent a new byte. -/
structure OutputEnds (p : Pcb) (env : Nat → OutEnv) : Prop where
  finite : ∃ n, p.turnAfter (answers env n) = none
  sends : ∀ n t u, p.turnAfter (answers env n) = some t →
    t.again p.allAcked (env n) = some u → SendsNew t u (t.pass p.allAcked (env n)).seg

/-- Bytes are left inside the window, a segment holds none, and the first pass sends one all
the same. -/
structure Stuck (p : Pcb) (e : OutEnv) : Prop where
  unsent : p.sndOff.toNat < p.usable
  due : p.Due
  noRoom : ∃ rt, (p.route <|> e.route) = some rt ∧ p.room rt = 0 ∧
    (p.maxseg < p.usable - p.sndOff.toNat ∨ 40 < rt.mtu)
  mapped : e.mapped = true
  sent : e.sent = true

/-! ## One pass -/

/-- The plan of a pass at a position inside the window. -/
def Pcb.openPlan (p : Pcb) (o : Nat) : Plan where
  off := o
  nxt := p.seqAt o
  len := min (p.usable - o) p.maxseg
  sendalot := p.maxseg < p.usable - o
  flags := planFlags p (p.seqAt o) (min (p.usable - o) p.maxseg)

section Pass

variable {p : Pcb} {o : Nat} {rt : Ifnet} {e : OutEnv} {idle : Bool} {last : Seq}

theorem outputPlan_open (ho : o < p.usable) :
    outputPlan p (p.seqAt o) = (p, p.openPlan o) := by
  have hlt := usable_lt p
  have hoff : (p.seqAt o - p.sndSeq).toInt = o := toInt_offset_sub p.sndSeq (by omega)
  have huse : min p.sndQ.length p.sndWnd.toNat = p.usable := rfl
  simp only [outputPlan, hoff, huse]
  rw [if_neg (by omega)]
  by_cases hmore : p.maxseg < p.usable - o
  · have hlen : min (p.usable - o) p.maxseg = p.maxseg := by omega
    rw [if_pos (by omega)]
    simp only [Pcb.openPlan, hlen, decide_eq_true hmore]
  · have hlen : min (p.usable - o) p.maxseg = ((p.usable : Int) - o).toNat := by omega
    rw [if_neg (by omega)]
    simp only [Pcb.openPlan, hlen, decide_eq_false hmore]

theorem openPlan_syn (p : Pcb) (o : Nat) :
    (p.openPlan o).flags.syn = (tcpOutflags p.tState).syn := by
  simp only [Pcb.openPlan]
  rw [planFlags_eq]

theorem openPlan_rst (p : Pcb) (o : Nat) :
    (p.openPlan o).flags.rst = (tcpOutflags p.tState).rst := by
  simp only [Pcb.openPlan]
  rw [planFlags_eq]

/-- A SYN and a FIN never go together. -/
theorem outflags_fin {s : TcpState} (h : (tcpOutflags s).syn = true) :
    (tcpOutflags s).fin = false := by
  cases s <;> first | rfl | cases h

/-- The FIN waits while a byte of the queue is left, and there is none with a SYN. -/
theorem openPlan_fin (ho : o < p.usable) (hq : p.sndQ.length < 2 ^ 16)
    (h : p.maxseg < p.usable - o ∨ (tcpOutflags p.tState).syn = true) :
    (p.openPlan o).flags.fin = false := by
  have hlt := usable_lt p
  have hle : p.usable ≤ p.sndQ.length := min_le_left _ _
  rw [Bool.eq_false_iff]
  intro hfin
  have hflag := planFlags_fin (by omega) hfin
  rcases h with hmore | hsyn
  · have hend := hflag.2 (by omega)
    omega
  · rw [outflags_fin hsyn] at hflag
    cases hflag.1

/-- The cut to the interface. -/
theorem clamp_mtu (rt : Ifnet) (n : Nat) :
    (if 40 + n > rt.mtu then rt.mtu - 40 else n) = min n (rt.mtu - 40) := by
  have hmtu := rt.hdr_le
  by_cases h : 40 + n > rt.mtu
  · rw [if_pos h]
    omega
  · rw [if_neg h]
    omega

/-- The cut to the segment size, where the subtraction of the options may wrap. -/
theorem clamp_options {n : Nat} {syn : Bool} (hn : n ≤ p.maxseg) (hm : p.maxseg < 2 ^ 16) :
    min n ((p.maxseg + 2 ^ 32 - if syn then 4 else 0) % 2 ^ 32) =
        min n (if syn ∧ 4 ≤ p.maxseg then p.maxseg - 4 else p.maxseg) ∧
      ((p.maxseg + 2 ^ 32 - if syn then 4 else 0) % 2 ^ 32 < n ↔
        syn = true ∧ 4 ≤ p.maxseg ∧ p.maxseg - 4 < n) := by
  cases syn with
  | false => simp; omega
  | true =>
      by_cases h : 4 ≤ p.maxseg
      · simp only [if_true, h, and_self, true_and]
        omega
      · simp only [if_true, h, and_false, if_false, false_and, iff_false]
        omega

theorem openPlan_len (p : Pcb) (o : Nat) : (p.openPlan o).len = min (p.usable - o) p.maxseg := rfl

/-- The length of the segment. -/
theorem fit_openPlan_len (hm : p.maxseg < 2 ^ 16) :
    ((p.openPlan o).fit p rt).len = min (min (p.usable - o) p.maxseg) (p.room rt) := by
  simp only [Plan.fit, openPlan_syn, clamp_mtu]
  rw [openPlan_len, (clamp_options (by omega) hm).1, Pcb.room, min_assoc]

/-- The passes that ask for another one. -/
theorem fit_openPlan_sendalot (hm : p.maxseg < 2 ^ 16) :
    ((p.openPlan o).fit p rt).sendalot = true ↔ p.maxseg < p.usable - o ∨
      (tcpOutflags p.tState).syn = true ∧ 4 ≤ p.maxseg ∧
        p.maxseg - 4 < min (min (p.usable - o) p.maxseg) (rt.mtu - 40) := by
  have hmore : (p.openPlan o).sendalot = decide (p.maxseg < p.usable - o) := rfl
  simp only [Plan.fit, openPlan_syn, openPlan_len, clamp_mtu, Bool.or_eq_true, decide_eq_true_eq,
    hmore, gt_iff_lt]
  rw [(clamp_options (by omega) hm).2]

theorem fit_congr {q : Pcb} (l : Plan) (rt : Ifnet) (h : q.maxseg = p.maxseg) :
    l.fit q rt = l.fit p rt := by
  simp only [Plan.fit, h]

theorem fit_flags (l : Plan) (p : Pcb) (rt : Ifnet) : (l.fit p rt).flags = l.flags := rfl

theorem fit_after (l : Plan) (p : Pcb) (rt : Ifnet) :
    (l.fit p rt).after = l.nxt + (if l.flags.syn then 1 else 0) +
      (if l.flags.fin then 1 else 0) + BitVec.ofNat 32 (l.fit p rt).len := rfl

/-- When a pass is repeated. -/
theorem pass_again_iff (ho : o < p.usable) :
    (outputPass idle p (p.seqAt o) last e).again = true ↔
      sendReason p idle last (p.openPlan o) = true ∧ e.mapped = true ∧ e.sent = true ∧
        ∃ rt, (p.route <|> e.route) = some rt ∧ ((p.openPlan o).fit p rt).sendalot = true := by
  rw [outputPass, outputPlan_open ho]
  cases hreason : sendReason p idle last (p.openPlan o) with
  | false => simp [hreason]
  | true =>
      cases hroute : p.route <|> e.route with
      | none => simp [hreason, hroute]
      | some rt =>
          cases hmapped : e.mapped with
          | false => simp [hreason, hroute]
          | true =>
              have hfit : (p.openPlan o).fit { p with route := some rt } rt =
                  (p.openPlan o).fit p rt := fit_congr _ rt rfl
              cases hsent : e.sent with
              | false => simp [hreason, hroute, transmit]
              | true => simp [hreason, hroute, transmit, back_sendalot, hfit]

/-- What a repeated pass leaves to the next one. -/
structure Repeats (p : Pcb) (rt : Ifnet) (o : Nat) (r : Pass) : Prop where
  maxseg : r.pcb.maxseg = p.maxseg
  tState : r.pcb.tState = p.tState
  sndSeq : r.pcb.sndSeq = p.sndSeq
  sndWnd : r.pcb.sndWnd = p.sndWnd
  sndQ : r.pcb.sndQ = p.sndQ
  rcvQ : r.pcb.rcvQ = p.rcvQ
  rcvAdvWnd : r.pcb.rcvAdvWnd = max p.rcvAdvWnd (outWin p)
  route : r.pcb.route = some rt
  seg : ∃ g, r.seg = some g ∧
    g.data.length = min (min (p.usable - o) p.maxseg) (p.room rt) ∧
    (0 < g.data.length → g.seq = p.seqAt o) ∧
    g.flags.syn = (tcpOutflags p.tState).syn ∧
    r.nxt = p.seqAt o + BitVec.ofNat 32 (g.data.length + if g.flags.syn then 1 else 0)

/-- A segment without FIN that is sent. -/
theorem transmit_sent {l : Plan} (hfin : l.flags.fin = false) :
    transmit p last rt true l =
      ⟨(account p false (l.fit p rt).after
          (if seqGt (l.fit p rt).after last then (l.fit p rt).after else last)).advertised,
        (l.fit p rt).after, if seqGt (l.fit p rt).after last then (l.fit p rt).after else last,
        some (outSegment p last rt (l.fit p rt)), (l.fit p rt).sendalot⟩ := by
  have hflags : (l.fit p rt).flags.fin = false := hfin
  have hback : (l.fit p rt).back p last = l.fit p rt := by
    simp only [Plan.back, hflags, Bool.false_and, Bool.false_eq_true, if_false]
  rw [transmit, hback, hflags]
  rfl

theorem pass_repeats (ho : o < p.usable) (hq : p.sndQ.length < 2 ^ 16) (hm : p.maxseg < 2 ^ 16)
    (h : (outputPass idle p (p.seqAt o) last e).again = true) :
    ∃ rt, (p.route <|> e.route) = some rt ∧
      Repeats p rt o (outputPass idle p (p.seqAt o) last e) := by
  obtain ⟨hreason, hmapped, hsent, rt, hroute, hmore⟩ := (pass_again_iff ho).mp h
  have hfin : (p.openPlan o).flags.fin = false := by
    refine openPlan_fin ho hq ?_
    rcases (fit_openPlan_sendalot hm).mp hmore with hlong | hsyn
    · exact Or.inl hlong
    · exact Or.inr hsyn.1
  let q : Pcb := { p with route := some rt }
  let l : Plan := (p.openPlan o).fit p rt
  have hfit : (p.openPlan o).fit q rt = l := fit_congr _ rt rfl
  have hpass : outputPass idle p (p.seqAt o) last e = transmit q last rt true (p.openPlan o) := by
    rw [outputPass, outputPlan_open ho]
    simp only [hreason, hroute, hmapped, hsent, if_true]
    rfl
  rw [transmit_sent hfin, hfit] at hpass
  have hlen : l.len = min (min (p.usable - o) p.maxseg) (p.room rt) := fit_openPlan_len hm
  have hdata : (outSegment q last rt l).data.length = l.len := by
    have hle : p.usable ≤ p.sndQ.length := min_le_left _ _
    have hoff : l.off.toNat = o := rfl
    simp only [outSegment, List.length_take, List.length_drop, hoff]
    show min l.len (p.sndQ.length - o) = l.len
    omega
  have hsyn : (outSegment q last rt l).flags.syn = (tcpOutflags p.tState).syn := by
    rw [(outSegment_flags q last rt l).1, fit_flags, openPlan_syn]
  refine ⟨rt, hroute, ?_⟩
  rw [hpass]
  constructor
  case rcvAdvWnd =>
    show (if outWin p > 0 ∧ outWin p > p.rcvAdvWnd then outWin p else p.rcvAdvWnd) = _
    split <;> omega
  case seg =>
    refine ⟨_, rfl, hdata.trans hlen, fun hpos => ?_, hsyn, ?_⟩
    · rw [hdata] at hpos
      simp only [outSegment]
      rw [if_pos (Or.inl hpos.ne')]
      rfl
    · rw [hsyn, hdata, fit_after, openPlan_syn, hfin, BitVec.ofNat_add]
      show p.seqAt o + _ + _ + _ = _
      cases (tcpOutflags p.tState).syn <;> simp <;> ring
  all_goals rfl

/-- A segment without text goes out exactly if one is due. -/
theorem sendReason_empty (ho : o < p.usable) (hq : p.sndQ.length < 2 ^ 16) (hm : p.maxseg = 0) :
    sendReason p idle last (p.openPlan o) = true ↔ p.Due := by
  have hlen : (p.openPlan o).len = 0 := by
    rw [openPlan_len]
    omega
  have hfin := openPlan_fin ho hq (Or.inl (by omega))
  have hwin : ((tcpMaxrcv : Int) - p.rcvQ.length > 0 ∧
      (min ((tcpMaxrcv : Int) - p.rcvQ.length) ((tcpMaxwin : Int) - p.rcvAdvWnd) ≥
          2 * (p.maxseg : Int) ∨
        2 * min ((tcpMaxrcv : Int) - p.rcvQ.length) ((tcpMaxwin : Int) - p.rcvAdvWnd) ≥
          tcpMaxrcv)) ↔ p.rcvQ.length < tcpMaxrcv ∧ p.rcvAdvWnd ≤ tcpMaxwin := by
    simp only [tcpMaxrcv, tcpMaxwin]
    omega
  have hsize : ¬ 0 < p.maxseg := by omega
  simp only [sendReason, Pcb.Due, hlen, hfin, openPlan_syn, openPlan_rst, Bool.or_eq_true,
    decide_eq_true_eq, hwin, Bool.false_and, Bool.false_eq_true, or_false, ne_eq, not_true_eq_false,
    false_and, false_or, hsize]
  tauto

/-- A full segment and a SYN always go out. -/
theorem sendReason_full (hm : 0 < p.maxseg)
    (h : p.maxseg < p.usable - o ∨ (tcpOutflags p.tState).syn = true) :
    sendReason p idle last (p.openPlan o) = true := by
  simp only [sendReason, openPlan_syn, Bool.or_eq_true]
  rcases h with hmore | hsyn
  · have hlen : (p.openPlan o).len = p.maxseg := min_eq_right hmore.le
    have hpos : (p.openPlan o).len ≠ 0 := by omega
    exact Or.inl (Or.inl (Or.inl (Or.inl (Or.inl (decide_eq_true ⟨hpos, Or.inl hlen⟩)))))
  · exact Or.inl (Or.inl (Or.inr hsyn))

/-- Without room, a pass asks for another one if its text is cut. -/
theorem sendalot_noRoom (ho : o < p.usable) (hm : p.maxseg < 2 ^ 16) (hroom : p.room rt = 0) :
    ((p.openPlan o).fit p rt).sendalot = true ↔ p.maxseg < p.usable - o ∨ 40 < rt.mtu := by
  rw [fit_openPlan_sendalot hm]
  simp only [Pcb.room] at hroom
  by_cases hopt : (tcpOutflags p.tState).syn = true ∧ 4 ≤ p.maxseg
  · rw [if_pos hopt] at hroom
    simp only [hopt.1, hopt.2, true_and]
    omega
  · rw [if_neg hopt] at hroom
    rw [← and_assoc]
    simp only [hopt, false_and, or_false]
    omega

/-- The first pass is repeated without text exactly if the call is stuck. -/
theorem again_noRoom_iff (ho : p.sndOff.toNat < p.usable) (hq : p.sndQ.length < 2 ^ 16)
    (hm : p.maxseg < 2 ^ 16) :
    ((outputPass idle p (p.seqAt p.sndOff.toNat) last e).again = true ∧
      ∃ rt, (p.route <|> e.route) = some rt ∧ p.room rt = 0) ↔ Stuck p e := by
  rw [pass_again_iff ho]
  constructor
  · rintro ⟨⟨hreason, hmapped, hsent, rt, hroute, hmore⟩, rt', hroute', hroom⟩
    obtain rfl : rt = rt' := Option.some.inj (hroute.symm.trans hroute')
    refine ⟨ho, ?_, ⟨rt, hroute, hroom, (sendalot_noRoom ho hm hroom).mp hmore⟩, hmapped, hsent⟩
    rcases Nat.eq_zero_or_pos p.maxseg with hzero | hpos
    · exact (sendReason_empty ho hq hzero).mp hreason
    · exact Or.inl hpos
  · rintro ⟨-, hdue, ⟨rt, hroute, hroom, hmore⟩, hmapped, hsent⟩
    have halot := (sendalot_noRoom ho hm hroom).mpr hmore
    refine ⟨⟨?_, hmapped, hsent, rt, hroute, halot⟩, rt, hroute, hroom⟩
    rcases Nat.eq_zero_or_pos p.maxseg with hzero | hpos
    · exact (sendReason_empty ho hq hzero).mpr hdue
    · refine sendReason_full hpos ?_
      rcases (fit_openPlan_sendalot hm).mp halot with hlong | hsyn
      · exact Or.inl hlong
      · exact Or.inr hsyn.1

/-- Behind the window no further pass is asked for. -/
theorem pass_behind (ho : p.usable ≤ o) (hlt : o < 2 ^ 30) :
    (outputPass idle p (p.seqAt o) last e).again = false := by
  have hplan : (outputPlan p (p.seqAt o)).2.len = 0 ∧
      (outputPlan p (p.seqAt o)).2.sendalot = false := by
    have hoff : (p.seqAt o - p.sndSeq).toInt = o := toInt_offset_sub p.sndSeq (by omega)
    have huse : min p.sndQ.length p.sndWnd.toNat = p.usable := rfl
    simp only [outputPlan, hoff, huse]
    split_ifs
    · exact ⟨rfl, rfl⟩
    · exact ⟨rfl, rfl⟩
    · omega
    · refine ⟨?_, rfl⟩
      show ((p.usable : Int) - o).toNat = 0
      omega
  rw [Bool.eq_false_iff]
  intro hagain
  have hmore : ∀ (q : Pcb) (rt : Ifnet),
      (transmit q last rt e.sent (outputPlan p (p.seqAt o)).2).again = true → False := by
    intro q rt h
    simp only [transmit, back_sendalot] at h
    split at h
    · rcases fit_sendalot h with h | h
      · rw [hplan.2] at h
        cases h
      · exact h hplan.1
    · cases h
  simp only [outputPass] at hagain
  split at hagain
  · split at hagain
    · cases hagain
    · split at hagain
      · exact hmore _ _ hagain
      · cases hagain
  · cases hagain

end Pass

/-! ## The call -/

namespace Turn

/-- The position of a turn, counted from `snd_una`. -/
def pos (t : Turn) : Nat := (t.nxt - t.pcb.sndSeq).toNat

theorem nxt_eq (t : Turn) : t.nxt = t.pcb.seqAt t.pos := by
  rw [Pcb.seqAt, pos, BitVec.ofNat_toNat, BitVec.setWidth_eq]
  ring

/-- What is left of the window. -/
def left (t : Turn) : Nat := t.pcb.usable - t.pos

/-- A turn at which segments hold text. -/
structure Flowing (t : Turn) : Prop where
  queue : t.pcb.sndQ.length < 2 ^ 16
  size : t.pcb.maxseg < 2 ^ 16
  pos : t.pos < 2 ^ 30
  room : ∃ rt, t.pcb.route = some rt ∧ 0 < t.pcb.room rt

end Turn

theorem firstTurn_pos (p : Pcb) : p.firstTurn.pos = p.sndOff.toNat := by
  have hoff := p.sndOff.isLt
  simp only [Turn.pos, Pcb.firstTurn, sndNxt_eq, Pcb.seqAt, add_sub_cancel_left,
    BitVec.toNat_ofNat]
  omega

section Step

variable {t u : Turn} {e : OutEnv} {idle : Bool}

theorem again_some (h : t.again idle e = some u) : (t.pass idle e).again = true ∧
    u = ⟨(t.pass idle e).pcb, (t.pass idle e).nxt, (t.pass idle e).max⟩ := by
  simp only [Turn.again] at h
  split at h
  · next hagain => exact ⟨hagain, (Option.some.inj h).symm⟩
  · cases h

theorem Repeats.usable {p : Pcb} {rt : Ifnet} {o : Nat} {r : Pass} (h : Repeats p rt o r) :
    r.pcb.usable = p.usable := by
  simp only [Pcb.usable, h.sndQ, h.sndWnd]

theorem Repeats.pos {p : Pcb} {rt : Ifnet} {o n : Nat} {r : Pass} (h : Repeats p rt o r)
    (hnxt : r.nxt = p.seqAt o + BitVec.ofNat 32 n) (hn : o + n < 2 ^ 32) :
    (Turn.mk r.pcb r.nxt r.max).pos = o + n := by
  rw [Turn.pos, h.sndSeq, hnxt, Pcb.seqAt, add_assoc, add_sub_cancel_left, ← BitVec.ofNat_add,
    BitVec.toNat_ofNat]
  exact Nat.mod_eq_of_lt hn

theorem again_unsent (hpos : t.pos < 2 ^ 30) (h : t.again idle e = some u) :
    t.pos < t.pcb.usable := by
  by_contra hle
  have hagain := (again_some h).1
  rw [Turn.pass, t.nxt_eq, pass_behind (not_lt.mp hle) hpos] at hagain
  cases hagain

/-- With room for text a repeated pass sends some. -/
theorem again_sends (hq : t.pcb.sndQ.length < 2 ^ 16) (hm : t.pcb.maxseg < 2 ^ 16)
    (hpos : t.pos < 2 ^ 30) (h : t.again idle e = some u)
    (hroom : ∀ rt, (t.pcb.route <|> e.route) = some rt → 0 < t.pcb.room rt) :
    SendsNew t u (t.pass idle e).seg ∧ u.Flowing ∧ u.left < t.left := by
  have hunsent := again_unsent hpos h
  obtain ⟨hagain, hu⟩ := again_some h
  have hpass : t.pass idle e = outputPass idle t.pcb (t.pcb.seqAt t.pos) t.max e := by
    rw [← t.nxt_eq]
    rfl
  rw [hpass] at hagain hu ⊢
  obtain ⟨rt, hroute, hr⟩ := pass_repeats hunsent hq hm hagain
  obtain ⟨g, hg, hlen, hseq, hsyn, hnxt⟩ := hr.seg
  have hlt := usable_lt t.pcb
  have hrt := hroom rt hroute
  have hsize : t.pcb.room rt ≤ t.pcb.maxseg := by
    simp only [Pcb.room]
    split <;> omega
  have hpos' : u.pos = t.pos + (g.data.length + if g.flags.syn then 1 else 0) := by
    have hle : (if g.flags.syn then 1 else 0) ≤ 1 := by split <;> omega
    rw [hu]
    exact hr.pos hnxt (by omega)
  have husable : u.pcb.usable = t.pcb.usable := by
    rw [hu]
    exact hr.usable
  have hstart := hseq (by omega)
  refine ⟨⟨g, hg, by omega, hstart.trans t.nxt_eq.symm, ?_⟩, ?_, ?_⟩
  · rw [hu, hstart]
    exact hnxt
  · refine ⟨?_, ?_, ?_, rt, ?_, ?_⟩
    · rw [hu, hr.sndQ]
      exact hq
    · rw [hu, hr.maxseg]
      exact hm
    · split at hpos' <;> omega
    · rw [hu]
      exact hr.route
    · simp only [hu, Pcb.room, hr.tState, hr.maxseg]
      exact hrt
  · rw [Turn.left, Turn.left, husable]
    omega

theorem Turn.Flowing.again (ht : t.Flowing) (h : t.again idle e = some u) :
    SendsNew t u (t.pass idle e).seg ∧ u.Flowing ∧ u.left < t.left := by
  refine again_sends ht.queue ht.size ht.pos h fun rt hroute => ?_
  obtain ⟨rt', hroute', hroom⟩ := ht.room
  rw [hroute'] at hroute
  exact Option.some.inj hroute ▸ hroom

end Step

theorem answers_succ (env : Nat → OutEnv) (n : Nat) :
    answers env (n + 1) = env 0 :: answers (fun i => env (i + 1)) n := by
  simp only [answers, List.range_succ_eq_map, List.map_cons, List.map_map]
  rfl

theorem firstTurn_pass (p : Pcb) (e : OutEnv) : p.firstTurn.pass p.allAcked e =
    outputPass p.allAcked p (p.seqAt p.sndOff.toNat) p.sndLast e := by
  rw [← sndNxt_eq]
  rfl

/-- A call that is stuck repeats its first pass though that has sent nothing. -/
theorem Stuck.not_ends {p : Pcb} {env : Nat → OutEnv} (h : Stuck p (env 0))
    (hq : p.sndQ.length < 2 ^ 16) (hm : p.maxseg < 2 ^ 16) : ¬ OutputEnds p env := by
  rintro ⟨-, hsends⟩
  have hpass := firstTurn_pass p (env 0)
  obtain ⟨hagain, rt, hroute, hroom⟩ :
      (outputPass p.allAcked p (p.seqAt p.sndOff.toNat) p.sndLast (env 0)).again = true ∧
        ∃ rt, (p.route <|> (env 0).route) = some rt ∧ p.room rt = 0 :=
    (again_noRoom_iff h.unsent hq hm).mpr h
  obtain ⟨rt', hroute', hr⟩ := pass_repeats h.unsent hq hm hagain
  obtain rfl : rt = rt' := Option.some.inj (hroute.symm.trans hroute')
  obtain ⟨g, hg, hlen, -⟩ := hr.seg
  rw [← hpass] at hagain
  obtain ⟨g', hg', hdata, -⟩ := hsends 0 p.firstTurn _ rfl (if_pos hagain)
  rw [hpass, hg, Option.some.injEq] at hg'
  rw [← hg', hlen, hroom] at hdata
  omega

/-- A first pass that is repeated has room for text, unless the call is stuck. -/
theorem firstTurn_room {p : Pcb} {u : Turn} {e : OutEnv} (hq : p.sndQ.length < 2 ^ 16)
    (hm : p.maxseg < 2 ^ 16) (hstuck : ¬ Stuck p e) (h : p.firstTurn.again p.allAcked e = some u)
    {rt : Ifnet} (hroute : (p.route <|> e.route) = some rt) : 0 < p.room rt := by
  have hoff := p.sndOff.isLt
  have hpos := firstTurn_pos p
  have hunsent := again_unsent (by omega) h
  have hagain := (again_some h).1
  rw [firstTurn_pass] at hagain
  rw [hpos] at hunsent
  by_contra hzero
  exact hstuck ((again_noRoom_iff hunsent hq hm).mp ⟨hagain, rt, hroute, by omega⟩)

/-- A call ends and sends new bytes in every repeated pass, exactly if it is not stuck. -/
theorem tcpOutput_ends_iff (p : Pcb) (env : Nat → OutEnv) (hq : p.sndQ.length < 2 ^ 16)
    (hm : p.maxseg < 2 ^ 16) : OutputEnds p env ↔ ¬ Stuck p (env 0) := by
  constructor
  · intro hends hstuck
    exact hstuck.not_ends hq hm hends
  · intro hstuck
    cases hfirst : p.firstTurn.again p.allAcked (env 0) with
    | none =>
        have hnone : ∀ n, p.turnAfter (answers env (n + 1)) = none := by
          intro n
          simp only [Pcb.turnAfter, answers_succ, exec, hfirst, Option.bind_none]
        refine ⟨⟨1, hnone 0⟩, fun n t u hturn hagain => ?_⟩
        cases n with
        | zero =>
            obtain rfl := Option.some.inj hturn
            rw [hfirst] at hagain
            cases hagain
        | succ n =>
            rw [hnone n] at hturn
            cases hturn
    | some u =>
        have hpos : p.firstTurn.pos < 2 ^ 30 := by
          have hoff := p.sndOff.isLt
          rw [firstTurn_pos]
          omega
        obtain ⟨hsends, hflow, -⟩ := again_sends hq hm hpos hfirst fun rt hroute =>
          firstTurn_room hq hm hstuck hfirst hroute
        have hrest : ∀ n, p.turnAfter (answers env (n + 1)) =
            exec (Turn.again p.allAcked) u (answers (fun i => env (i + 1)) n) := by
          intro n
          simp only [Pcb.turnAfter, answers_succ, exec, hfirst, Option.bind_some]
        have hstep : ∀ s a t, s.Flowing → Turn.again p.allAcked s a = some t →
            t.Flowing ∧ t.left < s.left := fun s a t hs h => (hs.again h).2
        constructor
        case finite =>
          refine ⟨u.left + 2, ?_⟩
          rw [hrest, Option.eq_none_iff_forall_ne_some]
          intro t ht
          have hle := exec_length_le hstep hflow ht
          rw [answers, List.length_map, List.length_range] at hle
          omega
        case sends =>
          intro n t v hturn hagain
          cases n with
          | zero =>
              obtain rfl := Option.some.inj hturn
              obtain rfl := Option.some.inj (hfirst.symm.trans hagain)
              exact hsends
          | succ n =>
              rw [hrest] at hturn
              have ht : t.Flowing := exec_invariant (I := Turn.Flowing)
                (fun s a w hs _ h => (hstep s a w hs h).1) hflow
                (along_of_forall (fun _ _ => trivial) u _) hturn
              exact (ht.again hagain).1

/-! ## A peer without segment size -/

/-- A turn with text to send, room to receive and a segment size of 0. -/
structure Idling (t : Turn) : Prop where
  queue : t.pcb.sndQ.length < 2 ^ 16
  size : t.pcb.maxseg = 0
  pos : t.pos < t.pcb.usable
  noSyn : (tcpOutflags t.pcb.tState).syn = false
  space : t.pcb.rcvQ.length < tcpMaxrcv
  advWnd : t.pcb.rcvAdvWnd ≤ tcpMaxwin
  route : ∃ rt, t.pcb.route = some rt

theorem outWin_le (p : Pcb) : outWin p ≤ tcpMaxwin := by
  simp only [outWin]
  omega

/-- Such a turn leads to another one as long as the network takes the segments. -/
theorem Idling.again {t : Turn} {idle : Bool} {e : OutEnv} (h : Idling t)
    (hmapped : e.mapped = true) (hsent : e.sent = true) :
    ∃ u, t.again idle e = some u ∧ Idling u := by
  obtain ⟨rt, hrt⟩ := h.route
  have hroute : (t.pcb.route <|> e.route) = some rt := by
    rw [hrt]
    rfl
  have hsize := h.size
  have hpos := h.pos
  have hroom : t.pcb.room rt = 0 := by
    simp only [Pcb.room, h.noSyn, Bool.false_eq_true, false_and, if_false, hsize]
    omega
  have hpass : t.pass idle e = outputPass idle t.pcb (t.pcb.seqAt t.pos) t.max e := by
    rw [← t.nxt_eq]
    rfl
  have hagain : (t.pass idle e).again = true := by
    rw [hpass, pass_again_iff hpos]
    exact ⟨(sendReason_empty hpos h.queue hsize).mpr
      (Or.inr (Or.inr (Or.inr (Or.inr ⟨h.space, h.advWnd⟩)))), hmapped, hsent, rt, hroute,
      (sendalot_noRoom hpos (by omega) hroom).mpr (Or.inl (by omega))⟩
  refine ⟨_, if_pos hagain, ?_⟩
  rw [hpass] at hagain ⊢
  obtain ⟨rt', -, hr⟩ := pass_repeats hpos h.queue (by omega) hagain
  obtain ⟨g, -, hlen, -, hsyn, hnxt⟩ := hr.seg
  have hzero : g.data.length = 0 := by omega
  rw [hzero, hsyn, h.noSyn] at hnxt
  constructor
  case queue => rw [hr.sndQ]; exact h.queue
  case size => rw [hr.maxseg]; exact hsize
  case pos =>
    have hlt := usable_lt t.pcb
    rw [hr.pos hnxt (by simp only [Bool.false_eq_true, if_false]; omega), hr.usable]
    exact hpos
  case noSyn => rw [hr.tState]; exact h.noSyn
  case space => rw [hr.rcvQ]; exact h.space
  case advWnd =>
    rw [hr.rcvAdvWnd]
    exact max_le h.advWnd (outWin_le t.pcb)
  case route => exact ⟨rt', hr.route⟩

/-- The call never comes to its end. -/
theorem Idling.forever {p : Pcb} (h : Idling p.firstTurn) {es : List OutEnv}
    (hes : ∀ e ∈ es, e.mapped = true ∧ e.sent = true) : ∃ t, p.turnAfter es = some t := by
  have hrun : ∀ (es : List OutEnv) (t : Turn), Idling t →
      (∀ e ∈ es, e.mapped = true ∧ e.sent = true) →
      ∃ u, exec (Turn.again p.allAcked) t es = some u := by
    intro es
    induction es with
    | nil => exact fun t _ _ => ⟨t, rfl⟩
    | cons e es ih =>
        intro t ht hes
        obtain ⟨hmapped, hsent⟩ := hes e (List.mem_cons_self ..)
        obtain ⟨u, hu, hidling⟩ := @Idling.again t p.allAcked e ht hmapped hsent
        obtain ⟨v, hv⟩ := ih u hidling fun e' he' => hes e' (List.mem_cons_of_mem e he')
        refine ⟨v, ?_⟩
        rw [exec, hu, Option.bind_some]
        exact hv
  exact hrun es p.firstTurn h hes

theorem ethernet_hdr_le : 40 ≤ 1500 := by decide

theorem ethernet_mtu_lt : 1500 < 65536 := by decide

/-- An Ethernet interface. -/
def sampleIfnet : Ifnet := ⟨1500, ethernet_hdr_le, ethernet_mtu_lt⟩

/-- The network takes every datagram. -/
def sampleAnswer : OutEnv := ⟨some sampleIfnet, true, true⟩

/-- The SYN and ACK of a peer, with its segment size. -/
def sampleSynAck (mss : List UInt8) : Segment where
  flags := ⟨false, true, false, false, true, false⟩
  seq := 500
  ack := 0x100001
  win := 1000
  opt := [2, 4] ++ mss
  data := []
  data_lt := Nat.two_pow_pos 16

/-- A connection to the peer, opened from here, with a byte to send. -/
def sampleOpened (mss : List UInt8) : Pcb :=
  let p := tcpConnect (1, 2) (3, 4) none 0
  let p := (tcpOutput p [sampleAnswer]).1
  let p := (tcpInput p (sampleSynAck mss) 0).pcb
  (tcpSend p [7] 1 true 0 128).1

/-- A peer that announces a segment size of 0 keeps `tcp_output` from returning. -/
theorem noSegmentSize_loops : ¬ ∀ (p : Pcb) (env : Nat → OutEnv), p.sndQ.length < 2 ^ 16 →
    p.maxseg < 2 ^ 16 → OutputEnds p env := by
  intro hall
  have hidling : Idling (sampleOpened [0, 0]).firstTurn :=
    ⟨by decide, by decide, by decide, by decide, by decide, by decide, sampleIfnet, by decide⟩
  obtain ⟨n, hn⟩ := (hall (sampleOpened [0, 0]) (fun _ => sampleAnswer) (by decide)
    (by decide)).finite
  have htaken : ∀ e ∈ answers (fun _ => sampleAnswer) n, e.mapped = true ∧ e.sent = true := by
    intro e he
    obtain ⟨i, -, rfl⟩ := List.mem_map.mp he
    exact ⟨rfl, rfl⟩
  obtain ⟨t, ht⟩ := hidling.forever htaken
  rw [hn] at ht
  cases ht

/-- The call on a connection to a peer that takes segments of 536 bytes. -/
theorem tcpOutput_ends_sample : OutputEnds (sampleOpened [2, 24]) fun _ => sampleAnswer := by
  refine (tcpOutput_ends_iff (sampleOpened [2, 24]) (fun _ => sampleAnswer) (by decide)
    (by decide)).mpr ?_
  rintro ⟨-, -, ⟨rt, hroute, hroom, -⟩, -⟩
  have hrt : ((sampleOpened [2, 24]).route <|> sampleAnswer.route) = some sampleIfnet := by decide
  obtain rfl : sampleIfnet = rt := Option.some.inj (hrt.symm.trans hroute)
  exact absurd hroom (by decide)

end YardIce.Tcp
