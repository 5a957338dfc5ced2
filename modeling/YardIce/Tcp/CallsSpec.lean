import YardIce.Tcp.Connection

/-!
# What the calls and the timers can do

The effect of each call on the fields that say where the connection stands.
-/

namespace YardIce.Tcp

variable {p : Pcb}

/-- What the loop of `tcp_send` has done by the time it stops. -/
structure SendSpec (p : Pcb) (src : List UInt8) (r : Pcb × Progress) : Prop where
  core : r.1.core = { p.core with sndQ := p.sndQ ++ takenBytes src r.2 }
  rest : ∀ rest, r.2 = .wait rest → rest.length ≤ src.length
  limit : p.sndQ.length ≤ tcpMaxsnd → r.1.sndQ.length ≤ tcpMaxsnd

/-- A call that waits with all of its bytes has taken none of them. -/
theorem sendSpec_wait {q : Pcb} (h : q.core = p.core) (src : List UInt8) :
    SendSpec p src (q, .wait src) := by
  have hnone : takenBytes src (.wait src) = [] := by simp [takenBytes]
  have hq : q.sndQ = p.sndQ := congrArg Core.sndQ h
  constructor
  case core =>
    rw [h, hnone, List.append_nil]
    rfl
  case rest =>
    rintro rest ⟨⟩
    exact Nat.le_refl _
  case limit =>
    intro hle
    rw [hq]
    exact hle

/-- The bytes of a turn of the loop and of the turns after it. -/
theorem takenBytes_drop {src : List UInt8} {n : Nat} {r : Progress}
    (hrest : ∀ rest, r = .wait rest → rest.length ≤ (src.drop n).length)
    (hn : n ≤ src.length) (hr : r ≠ .failed) :
    takenBytes src r = src.take n ++ takenBytes (src.drop n) r := by
  cases r with
  | done => exact (List.take_append_drop n src).symm
  | failed => exact absurd rfl hr
  | wait rest =>
      have hle := hrest rest rfl
      rw [List.length_drop] at hle
      simp only [takenBytes, List.length_drop]
      rw [show src.length - rest.length = n + (src.length - n - rest.length) by lia,
        List.take_add]

theorem sendLoop_ne_failed (fuel : Nat) (p : Pcb) (src : List UInt8) (avail : Nat) :
    (sendLoop fuel p src avail).2 ≠ .failed := by
  induction fuel generalizing p src avail with
  | zero => simp [sendLoop]
  | succ fuel ih =>
      simp only [sendLoop]
      split
      · simp
      · split
        · simp
        · split
          · simp
          · exact ih _ _ _

theorem sendLoop_spec (fuel : Nat) (p : Pcb) (src : List UInt8) (avail : Nat) :
    SendSpec p src (sendLoop fuel p src avail) := by
  induction fuel generalizing p src avail with
  | zero => exact sendSpec_wait rfl src
  | succ fuel ih =>
      simp only [sendLoop]
      split
      · next hsrc =>
        subst hsrc
        exact ⟨by simp [takenBytes, Pcb.core], by simp, fun h => h⟩
      · split
        · exact sendSpec_wait (p := p) (q := { p with acknow := true }.sched) rfl src
        · split
          · exact sendSpec_wait rfl src
          · next hfull hn =>
            -- one turn appends `n` bytes, the induction hypothesis speaks of the rest
            generalize hdef : min (min (tcpMaxsnd - p.sndQ.length) src.length) avail = n at hn ⊢
            have hle : n ≤ src.length := by lia
            have hroom : p.sndQ.length + n ≤ tcpMaxsnd := by lia
            have hrest := ih { p with sndQ := p.sndQ ++ src.take n } (src.drop n) (avail - n)
            constructor
            case core =>
              rw [hrest.core, takenBytes_drop hrest.rest hle (sendLoop_ne_failed _ _ _ _),
                ← List.append_assoc]
              rfl
            case rest =>
              intro rest hr
              have hlen := hrest.rest rest hr
              rw [List.length_drop] at hlen
              lia
            case limit =>
              intro _
              apply hrest.limit
              simp only [List.length_append, List.length_take]
              lia

/-- `tcp_send` appends what it takes, and only in `ESTABLISHED`. -/
theorem tcpSend_spec (p : Pcb) (src : List UInt8) (len : Nat) (nowait : Bool) (offs avail : Nat) :
    (tcpSend p src len nowait offs avail).1.core = p.core ∧
        takenBytes src (tcpSend p src len nowait offs avail).2 = [] ∨
      p.tState = .established ∧ SendSpec p src (tcpSend p src len nowait offs avail) := by
  simp only [tcpSend]
  split
  · left
    refine ⟨rfl, ?_⟩
    split <;> simp [takenBytes]
  · next hst =>
    right
    have hloop := sendLoop_spec (src.length + 1) p src avail
    refine ⟨not_not.mp hst, ?_⟩
    generalize sendLoop (src.length + 1) p src avail = r at hloop ⊢
    split
    · exact hloop
    · split <;> exact ⟨hloop.core, hloop.rest, hloop.limit⟩

theorem tcpRecv_core (p : Pcb) (len : Nat) :
    (tcpRecv p len).core = { p.core with rcvQ := (tcpRecv p len).rcvQ } := by
  simp only [tcpRecv]
  split
  · rfl
  · split
    case h_5 =>
      split
      · rfl
      · split
        · rfl
        · split <;> rfl
    all_goals rfl

theorem tcpFastTmr_core (p : Pcb) : (tcpFastTmr p).core = p.core := by
  simp only [tcpFastTmr]
  split <;> rfl

/-- A tick of the retransmission timer starts over or leaves the connection alone. -/
theorem tcpRxmtTmr_core (p : Pcb) :
    (tcpRxmtTmr p).core = p.core ∨
      (tcpRxmtTmr p).core = { p.core with sndOff := 0, sentfin := false } := by
  simp only [tcpRxmtTmr]
  split
  · exact Or.inl rfl
  · split
    · exact Or.inl rfl
    · split
      · exact Or.inl rfl
      · exact Or.inr rfl

/-- What `tcp_close` does to a connection that stays in the active list. -/
inductive Closed (c c' : Core) : Prop
  | fin (hst : c.tState = .synRcvd ∨ c.tState = .established)
      (hcore : c' = { c with tState := .finWait1 })
  | discard (hst : c.tState = .closeWait)
      (hcore : c' = { c with
        tState := .lastAck
        sndOff := c.sndOff - BitVec.ofNat 16 c.sndQ.length
        sndMax := c.sndMax - BitVec.ofNat 16 c.sndQ.length
        rcvQ := []
        sndQ := [] })
  | same (hst : c.tState ≠ .synRcvd ∧ c.tState ≠ .established ∧ c.tState ≠ .closeWait)
      (hcore : c' = c)

theorem tcpClose_spec (h : (tcpClose p).2 = .active) : Closed p.core (tcpClose p).1.core := by
  cases hst : p.tState with
  | synRcvd => exact .fin (Or.inl hst) (by simp only [tcpClose, hst]; rfl)
  | established => exact .fin (Or.inr hst) (by simp only [tcpClose, hst]; rfl)
  | closeWait => exact .discard hst (by simp only [tcpClose, hst]; rfl)
  | closed | synSent | timeWait => simp [tcpClose, hst] at h
  | listen | finWait1 | closing | lastAck | finWait2 =>
      exact .same (by simp [Pcb.core, hst]) (by simp [tcpClose, hst])

/-- A connection that has just been opened has sent and queued nothing. -/
structure Fresh (p : Pcb) : Prop where
  tState : p.tState = .synRcvd ∨ p.tState = .synSent
  sentfin : p.sentfin = false
  sndOff : p.sndOff = 0
  sndMax : p.sndMax = 0
  sndQ : p.sndQ = []

theorem Opened.fresh (h : Opened p) : Fresh p := by
  cases h with
  | active laddr faddr route iss => exact ⟨Or.inr rfl, rfl, rfl, rfl, rfl⟩
  | passive src dst route iss s =>
      simp only [tcpPassiveOpen]
      split <;> exact ⟨Or.inl rfl, rfl, rfl, rfl, rfl⟩

end YardIce.Tcp
