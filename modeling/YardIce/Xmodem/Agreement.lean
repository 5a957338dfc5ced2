import YardIce.Lib.Runs
import YardIce.Xmodem.Arrivals

/-!
# Both ends of an XMODEM transfer agree

The acknowledgements carry no packet number. As long as the sender takes none of them for a packet
that was damaged, and reads no `NAK` into a packet it would have to send again, the blocks that the
receiver took are those that the sender sent, in their order.
-/

namespace YardIce.Xmodem

/-- The bytes given to the sender, with zeros up to whole packets. -/
def padded (given : List Byte) : List Byte :=
  given ++ List.replicate ((128 - given.length % 128) % 128) 0

/-! ## The sender -/

/-- What is still to be sent, behind the packets with the bytes `front`. -/
def Rest.Covers (front given : List Byte) : Rest → Prop
  | .loop src => front ++ src = given ∧ 128 ∣ front.length
  | .eot data dataMax =>
      (data = [] ∧ front = padded given) ∨
        (data ≠ [] ∧ front ++ data = given ∧ 128 ∣ front.length ∧
          (dataMax = 128 ∨ (dataMax = 1024 ∧ 896 < data.length ∧ data.length ≤ 1024)))

theorem Rest.Covers.front_padded {front given : List Byte} {rest : Rest} (h : rest.Covers front given) :
    front <+: padded given := by
  cases rest with
  | loop src =>
      rw [padded, ← h.1, List.append_assoc]
      exact List.prefix_append _ _
  | eot data dataMax =>
      rcases h with ⟨-, rfl⟩ | ⟨-, hgiven, -⟩
      · exact List.prefix_refl _
      · rw [padded, ← hgiven, List.append_assoc]
        exact List.prefix_append _ _

/-- The sender has put the blocks on the line and has not sent anything else. -/
def Sender.Holds (crc : Bool) (blocks : List (List Byte)) (given : List Byte) (s : Sender) : Prop :=
  match s.pc with
  | .ready =>
      s.seq = BitVec.ofNat 8 (blocks.length + 1) ∧ blocks.flatten ++ s.data = given ∧
        s.data.length < s.dataMax ∧ 128 ∣ blocks.flatten.length
  | .opening data rest =>
      s.seq = BitVec.ofNat 8 (blocks.length + 1) ∧ s.state = .idle ∧ Size data ∧
        rest.Covers (blocks.flatten ++ data) given
  | .sending pkt _ rest =>
      s.seq = BitVec.ofNat 8 (blocks.length + 1) ∧ s.state ≠ .idle ∧ ∃ data, Size data ∧
        pkt = frame crc s.seq data ∧ rest.Covers (blocks.flatten ++ data) given
  | .awaiting _ _ rest =>
      s.seq + 1 = BitVec.ofNat 8 (blocks.length + 1) ∧ rest.Covers blocks.flatten given
  | .closing => blocks.flatten = padded given
  | .closed => blocks.flatten = padded given
  | .failed => blocks.flatten <+: padded given

namespace Sender

variable {s : Sender} {crc : Bool} {blocks : List (List Byte)} {given : List Byte}

@[simp] theorem sendPkt_state (data : List Byte) (rest : Rest) :
    (s.sendPkt data rest).state = s.state := by
  unfold sendPkt
  split <;> rfl

@[simp] theorem loopTurn_state (src : List Byte) : (s.loopTurn src).state = s.state := by
  unfold loopTurn
  dsimp only
  split
  · rw [sendPkt_state]
  · rfl

@[simp] theorem eotTurn_state (data : List Byte) (m : Nat) : (s.eotTurn data m).state = s.state := by
  unfold eotTurn
  dsimp only
  split
  · rw [sendPkt_state]
  · rfl

@[simp] theorem acked_state (rest : Rest) : (s.acked rest).state = s.state := by
  cases rest with
  | loop src =>
      simp only [acked]
      split <;> simp
  | eot data m => simp [acked]

theorem sendPkt_holds (hseq : s.seq = BitVec.ofNat 8 (blocks.length + 1)) {data : List Byte}
    (hsz : Size data) {rest : Rest} (hrest : rest.Covers (blocks.flatten ++ data) given)
    (hmode : s.state ≠ .idle → decide (s.state = .crc) = crc) :
    (s.sendPkt data rest).Holds crc blocks given := by
  unfold sendPkt
  split
  · exact ⟨hseq, by assumption, hsz, hrest⟩
  · refine ⟨hseq, by assumption, data, hsz, ?_, hrest⟩
    rw [hmode (by assumption)]

theorem size_dataMax (s : Sender) : s.dataMax = 128 ∨ s.dataMax = 1024 := by
  unfold dataMax
  split <;> simp

theorem loopTurn_holds (hseq : s.seq = BitVec.ofNat 8 (blocks.length + 1)) {src : List Byte}
    (hgiven : blocks.flatten ++ (s.data ++ src) = given) (hlt : s.data.length < s.dataMax)
    (hdvd : 128 ∣ blocks.flatten.length)
    (hmode : s.state ≠ .idle → decide (s.state = .crc) = crc) :
    (s.loopTurn src).Holds crc blocks given := by
  unfold loopTurn
  dsimp only
  split
  next hfull =>
    have hpkt := @sendPkt_holds
      { s with data := s.data ++ src.take (min src.length (s.dataMax - s.data.length)) }
    refine hpkt hseq ?_ ?_ hmode
    · show _ ∨ _
      rw [hfull]
      exact s.size_dataMax
    · constructor
      · rw [← hgiven]
        simp
      · rw [List.length_append, hfull]
        apply Nat.dvd_add hdvd
        rcases s.size_dataMax with h | h <;> simp [h]
  next hpart =>
    rw [List.length_append, List.length_take] at hpart
    have htake : src.take (min src.length (s.dataMax - s.data.length)) = src := by
      apply List.take_of_length_le
      omega
    rw [htake]
    refine ⟨hseq, hgiven, ?_, hdvd⟩
    show (s.data ++ src).length < s.dataMax
    rw [List.length_append]
    omega

/-- The last bytes of the buffer, with zeros behind them, complete the padded data. -/
theorem padded_eq {front data : List Byte} {m : Nat} (hgiven : front ++ data = given)
    (hdvd : 128 ∣ front.length) (hpad : m - data.length = (128 - data.length % 128) % 128) :
    front ++ (data ++ List.replicate (m - data.length) 0) = padded given := by
  have hmod : given.length % 128 = data.length % 128 := by
    rw [← hgiven, List.length_append]
    omega
  rw [padded, hmod, ← hpad, ← hgiven, List.append_assoc]

theorem eotTurn_holds (hseq : s.seq = BitVec.ofNat 8 (blocks.length + 1)) {data : List Byte}
    {m : Nat} (hrest : (Rest.eot data m).Covers blocks.flatten given)
    (hmode : s.state ≠ .idle → decide (s.state = .crc) = crc) :
    (s.eotTurn data m).Holds crc blocks given := by
  unfold eotTurn
  dsimp only
  rcases hrest with ⟨rfl, hfront⟩ | ⟨hne, hgiven, hdvd, hm⟩
  · exact hfront
  · have hpos : data.length > 0 := List.length_pos_iff.mpr hne
    have hm0 : m = 128 ∨ m = 1024 := hm.imp id And.left
    rw [if_pos hpos]
    refine sendPkt_holds hseq ?_ ?_ hmode
    · show _ ∨ _
      simp only [List.length_append, List.length_take, List.length_replicate]
      omega
    · rcases Nat.lt_or_ge m data.length with hlt | hge
      · -- there is more than one packet left
        have hm128 : m = 128 := by omega
        have hmin : min data.length m = m := by omega
        rw [hmin, Nat.sub_self, List.replicate_zero, List.append_nil]
        refine Or.inr ⟨?_, ?_, ?_, Or.inl hm128⟩
        · rw [ne_eq, List.drop_eq_nil_iff]
          omega
        · rw [List.append_assoc, List.take_append_drop, hgiven]
        · rw [List.length_append, List.length_take]
          omega
      · have hmin : min data.length m = data.length := by omega
        rw [hmin, List.take_length, List.drop_length]
        refine Or.inl ⟨rfl, padded_eq hgiven hdvd ?_⟩
        rcases hm with h | ⟨h, h896, -⟩ <;> omega

theorem eotCall_holds (h : s.Holds crc blocks given) (hready : s.pc = .ready)
    (hmode : s.state ≠ .idle → decide (s.state = .crc) = crc) :
    s.eotCall.Holds crc blocks given := by
  rw [Holds, hready] at h
  obtain ⟨hseq, hgiven, hlt, hdvd⟩ := h
  apply eotTurn_holds hseq _ hmode
  rcases hd : s.data with _ | ⟨b, data⟩
  · refine Or.inl ⟨rfl, ?_⟩
    rw [← padded_eq (m := 0) hgiven hdvd (by rw [hd]; rfl), hd]
    simp
  · rw [← hd]
    refine Or.inr ⟨by simp [hd], hgiven, hdvd, ?_⟩
    have hmax := s.size_dataMax
    split <;> omega

theorem acked_holds {pkt : List Byte} {retry : Nat} {rest : Rest}
    (h : s.Holds crc blocks given) (hpc : s.pc = .awaiting pkt retry rest)
    (hmode : s.state ≠ .idle → decide (s.state = .crc) = crc) :
    (s.acked rest).Holds crc blocks given := by
  rw [Holds, hpc] at h
  obtain ⟨hseq, hrest⟩ := h
  cases rest with
  | loop src =>
      have hmax : 0 < s.dataMax := by rcases s.size_dataMax with h | h <;> omega
      simp only [acked]
      split
      next hnil =>
        refine ⟨hseq, ?_, hmax, hrest.2⟩
        rw [← hrest.1, hnil]
      next => exact loopTurn_holds hseq hrest.1 hmax hrest.2 hmode
  | eot data m => exact eotTurn_holds (s := { s with seq := s.seq + 1 }) hseq hrest hmode

theorem Holds.front_padded (h : s.Holds crc blocks given) : blocks.flatten <+: padded given := by
  unfold Holds at h
  split at h
  · rw [padded, ← h.2.1, List.append_assoc]
    exact List.prefix_append _ _
  · exact (List.prefix_append _ _).trans h.2.2.2.front_padded
  · obtain ⟨-, -, data, -, -, hrest⟩ := h
    exact (List.prefix_append _ _).trans hrest.front_padded
  · exact h.2.front_padded
  · exact h ▸ List.prefix_refl _
  · exact h ▸ List.prefix_refl _
  · exact h

/-- The sender waits for an answer, or has given up. -/
def Stuck (s : Sender) : Prop :=
  match s.pc with
  | .awaiting _ _ _ => True
  | .failed => True
  | _ => False

end Sender

/-! ## Both ends -/

/-- The bytes that the receiver has of the current packet. -/
def Receiver.got (r : Receiver) : List Byte :=
  match r.pc with
  | .packet _ cnt body => header cnt :: body
  | _ => []

/-- The byte that asks for the first packet. -/
def Receiver.first (r : Receiver) : Byte := if r.crc then charC else nak

/-- The blocks are on the line, the first `acc` of them have been taken by the receiver. -/
structure Agrees (s : Sys) (blocks : List (List Byte)) (acc : Nat) : Prop where
  sizes : ∀ b ∈ blocks, Size b
  sender : s.snd.Holds s.rcv.crc blocks s.given
  stuck : s.whole = false → s.snd.Stuck
  mode : s.snd.state ≠ .idle → decide (s.snd.state = .crc) = s.rcv.crc
  opening : s.snd.state = .idle → s.snd.pc ≠ .closed →
    blocks = [] ∧ s.rcv.sync = s.rcv.first ∧ ∀ c ∈ s.up, c = s.rcv.first ∨ c = can
  acc_le : acc ≤ blocks.length
  pktno : s.rcv.pktno = BitVec.ofNat 8 (acc + 1)
  out : s.delivered ++ s.rcv.data = (blocks.take acc).flatten
  empty : s.rcv.pc ≠ .idle → s.rcv.data = []
  coming : Coming s.rcv.crc (s.snd.pc = .closed) s.whole acc (blocks.drop acc)
    (s.rcv.got.map .byte ++ s.down)
  inside : ∀ len cnt body, s.rcv.pc = .packet len cnt body →
    (cnt = 128 ∨ cnt = 1024) ∧ body.length < cnt + 2 + fcsLen s.rcv.crc
  flushing : ∀ len, s.rcv.pc = .flushing len → s.whole = false ∧ s.down = []
  finished : s.rcv.pc = .ended 0 → acc = blocks.length ∧ s.snd.pc = .closed

namespace Agrees

variable {s t : Sys} {blocks : List (List Byte)} {acc : Nat}

theorem start (oneK crc : Bool) : Agrees (start oneK crc) [] 0 where
  sizes := by simp
  sender := ⟨rfl, rfl, by cases oneK <;> simp [Xmodem.start, Sender.dataMax],
    Nat.dvd_zero _⟩
  stuck h := by cases h
  mode h := absurd rfl h
  opening _ _ := ⟨rfl, rfl, by simp [Xmodem.start]⟩
  acc_le := Nat.le_refl 0
  pktno := rfl
  out := rfl
  empty h := absurd rfl h
  coming := .done
  inside _ _ _ h := by cases h
  flushing _ h := by cases h
  finished h := by cases h

/-- The sender goes on without sending anything. -/
theorem advance (h : Agrees s blocks acc) (hopen : s.snd.pc ≠ .closed) {snd : Sender}
    {given up : List Byte} (hsnd : snd.Holds s.rcv.crc blocks given)
    (hstuck : s.whole = false → snd.Stuck)
    (hmode : snd.state ≠ .idle → decide (snd.state = .crc) = s.rcv.crc)
    (hidle : snd.state = .idle → s.snd.state = .idle) (hup : ∀ c ∈ up, c ∈ s.up) :
    Agrees { s with snd := snd, given := given, up := up } blocks acc :=
  { h with
    sender := hsnd
    stuck := hstuck
    mode := hmode
    opening := fun hs _ =>
      have ho := h.opening (hidle hs) hopen
      ⟨ho.1, ho.2.1, fun c hc => ho.2.2 c (hup c hc)⟩
    coming := h.coming.mono fun e => absurd e hopen
    finished := fun e => absurd (h.finished e).2 hopen }

/-- A sender that is not stuck has had no damaged packet. -/
theorem whole_of (h : Agrees s blocks acc) (hpc : ¬ s.snd.Stuck) : s.whole = true := by
  by_contra hw
  exact hpc (h.stuck (by simpa using hw))

theorem sndLoop (h : Agrees s blocks acc) {src : List Byte}
    (hstep : s.step (.sndLoop src) = some t) : Agrees t blocks acc := by
  simp only [Sys.step] at hstep
  split at hstep
  next hpc =>
    cases hstep
    have hsnd := h.sender
    rw [Sender.Holds, hpc] at hsnd
    obtain ⟨hseq, hgiven, hlt, hdvd⟩ := hsnd
    have hw := h.whole_of (by simp [Sender.Stuck, hpc])
    apply h.advance (by simp [hpc])
    · apply Sender.loopTurn_holds hseq _ hlt hdvd h.mode
      rw [← List.append_assoc, hgiven]
    · intro e
      rw [hw] at e
      cases e
    · simpa using h.mode
    · simp
    · exact fun c hc => hc
  · cases hstep

theorem sndEot (h : Agrees s blocks acc) (hstep : s.step .sndEot = some t) :
    Agrees t blocks acc := by
  simp only [Sys.step] at hstep
  split at hstep
  next hpc =>
    cases hstep
    have hw := h.whole_of (by simp [Sender.Stuck, hpc])
    apply h.advance (by simp [hpc])
    · exact Sender.eotCall_holds h.sender hpc h.mode
    · intro e
      rw [hw] at e
      cases e
    · simpa [Sender.eotCall] using h.mode
    · simp [Sender.eotCall]
    · exact fun c hc => hc
  · cases hstep

theorem sndPkt (h : Agrees s blocks acc) {f : Fault} (hstep : s.step (.sndPkt f) = some t) :
    ∃ blocks', Agrees t blocks' acc := by
  simp only [Sys.step] at hstep
  split at hstep
  next pkt retry rest hpc =>
    simp only [Option.map_eq_some_iff] at hstep
    obtain ⟨sigs, hsigs, rfl⟩ := hstep
    have hsnd := h.sender
    rw [Sender.Holds, hpc] at hsnd
    obtain ⟨hseq, hidle, data, hsz, rfl, hrest⟩ := hsnd
    have hw := h.whole_of (by simp [Sender.Stuck, hpc])
    refine ⟨blocks ++ [data], ?_⟩
    have hacc : blocks.drop acc ++ [data] = (blocks ++ [data]).drop acc := by
      rw [List.drop_append_of_le_length h.acc_le]
    have hcoming := h.coming
    rw [hw] at hcoming
    have hlen : acc + (blocks.drop acc).length + 1 = blocks.length + 1 := by
      have := h.acc_le
      rw [List.length_drop]
      omega
    rw [hseq, ← hlen] at hsigs
    have hopen : s.snd.pc ≠ .closed := by simp [hpc]
    have hsent := hcoming.send hopen hsigs
    exact
      { h with
        sizes := by
          intro b hb
          rcases List.mem_append.mp hb with hb | hb
          · exact h.sizes b hb
          · rw [List.mem_singleton.mp hb]
            exact hsz
        sender := by
          constructor
          · show s.snd.seq + 1 = _
            rw [hseq, List.length_append, List.length_singleton]
            exact (BitVec.ofNat_add ..).symm
          · rw [List.flatten_append, List.flatten_singleton]
            exact hrest
        stuck := fun _ => trivial
        opening := fun e _ => absurd e hidle
        acc_le := h.acc_le.trans (by simp)
        out := by
          rw [List.take_append_of_le_length h.acc_le]
          exact h.out
        coming := by
          rw [← hacc, ← List.append_assoc]
          exact hsent.mono fun e => absurd e hopen
        flushing := fun len e => by
          have := (h.flushing len e).1
          rw [hw] at this
          cases this
        finished := fun e => absurd (h.finished e).2 hopen }
  · cases hstep

theorem fail (h : Agrees s blocks acc) (hopen : s.snd.pc ≠ .closed) {up : List Byte}
    (hup : ∀ c ∈ up, c ∈ s.up) : Agrees (s.sndFail up) blocks acc :=
  h.advance hopen h.sender.front_padded (fun _ => trivial) h.mode id hup

theorem sndTimeout (h : Agrees s blocks acc) (hstep : s.step .sndTimeout = some t) :
    Agrees t blocks acc := by
  simp only [Sys.step] at hstep
  split at hstep
  next hpc =>
    cases hstep
    exact h.fail (by simp [hpc]) fun _ hc => hc
  next hpc =>
    cases hstep
    exact h.fail (by simp [hpc]) fun _ hc => hc
  · cases hstep

/-- The byte that opens the transfer tells the receiver's mode. -/
theorem sndRecv_opening (h : Agrees s blocks acc) {data up : List Byte} {rest : Rest} {c : Byte}
    (hpc : s.snd.pc = .opening data rest) (hup : s.up = c :: up)
    (hstep : s.sndRecv c up = some t) : Agrees t blocks acc := by
  have hopen : s.snd.pc ≠ .closed := by simp [hpc]
  have htail : ∀ c ∈ up, c ∈ s.up := fun c hc => hup ▸ List.mem_cons_of_mem _ hc
  have hsnd := h.sender
  rw [Sender.Holds, hpc] at hsnd
  obtain ⟨hseq, hidle, hsz, hrest⟩ := hsnd
  obtain ⟨-, -, hfirst⟩ := h.opening hidle hopen
  have hc := hfirst c (hup ▸ List.mem_cons_self)
  have hw := h.whole_of (by simp [Sender.Stuck, hpc])
  have hstuck : ∀ snd : Sender, s.whole = false → snd.Stuck := by
    intro snd e
    rw [hw] at e
    cases e
  simp only [Sys.sndRecv, hpc] at hstep
  split_ifs at hstep with hcan hC hnak
  · cases hstep
    exact h.fail hopen htail
  · cases hstep
    have hcrc : s.rcv.crc = true := by
      rcases hc with hc | hc
      · by_contra hf
        rw [Receiver.first, if_neg hf, hC] at hc
        exact absurd hc (by decide)
      · exact absurd hc hcan
    apply h.advance hopen _ (hstuck _) _ _ htail
    · exact Sender.sendPkt_holds (s := { s.snd with state := .crc }) hseq hsz hrest
        fun _ => by simp [hcrc]
    · simp [hcrc]
    · simp
  · cases hstep
    have hcks : s.rcv.crc = false := by
      rcases hc with hc | hc
      · by_contra hf
        rw [Receiver.first, if_pos (by simpa using hf), hnak] at hc
        exact absurd hc (by decide)
      · exact absurd hc hcan
    apply h.advance hopen _ (hstuck _) _ _ htail
    · exact Sender.sendPkt_holds (s := { s.snd with state := .cks }) hseq hsz hrest
        fun _ => by simp [hcks]
    · simp [hcks]
    · simp
  · cases hstep
    exact h.advance hopen h.sender h.stuck h.mode id htail

/-- An acknowledgement of a packet that arrived whole, or the end of the call. -/
theorem sndRecv_awaiting (h : Agrees s blocks acc) {pkt up : List Byte} {retry : Nat} {rest : Rest}
    {c : Byte} (hpc : s.snd.pc = .awaiting pkt retry rest) (hup : s.up = c :: up) (hnak : c ≠ nak)
    (hack : c = ack → s.whole = true) (hstep : s.sndRecv c up = some t) : Agrees t blocks acc := by
  have hopen : s.snd.pc ≠ .closed := by simp [hpc]
  simp only [Sys.sndRecv, hpc] at hstep
  split_ifs at hstep with ha hcan
  · cases hstep
    apply h.advance hopen
    · exact Sender.acked_holds h.sender hpc h.mode
    · intro e
      rw [hack ha] at e
      cases e
    · simpa using h.mode
    · simp
    · exact fun c hc => hup ▸ List.mem_cons_of_mem _ hc
  · cases hstep
    exact h.fail hopen (by simp)
  · cases hstep
    exact h.fail hopen (by simp)

theorem sendEot (h : Agrees s blocks acc) {arrives : Bool}
    (hstep : s.step (.sendEot arrives) = some t) : Agrees t blocks acc := by
  simp only [Sys.step] at hstep
  split at hstep
  next hpc =>
    cases hstep
    have hopen : s.snd.pc ≠ .closed := by simp [hpc]
    have hsnd := h.sender
    rw [Sender.Holds, hpc] at hsnd
    have hw := h.whole_of (by simp [Sender.Stuck, hpc])
    have hcoming := h.coming
    rw [hw] at hcoming
    exact
      { h with
        sender := hsnd
        stuck := fun e => by
          rw [hw] at e
          cases e
        mode := fun e => absurd rfl e
        opening := fun _ e => absurd rfl e
        coming := by
          rw [hw, ← List.append_assoc]
          cases arrives with
          | true => exact (hcoming.close hopen).mono fun _ => rfl
          | false =>
              have hlost : s.snd.pc = .closed → s.snd.reset.pc = .closed := fun e => absurd e hopen
              simpa using hcoming.mono hlost
        flushing := fun len e => by
          have := (h.flushing len e).1
          rw [hw] at this
          cases this
        finished := fun e => absurd (h.finished e).2 hopen }
  · cases hstep

/-! ### The receiver -/

/-- The receiver is between two packets and has the same line before it. -/
theorem rest (h : Agrees s blocks acc) (hdata : s.rcv.data = []) (r : Receiver) {down : List Sig}
    {up : List Byte} (hcrc : r.crc = s.rcv.crc) (hpktno : r.pktno = s.rcv.pktno)
    (hrdata : r.data = []) (hpc : (∃ len, r.pc = .answering len) ∨
      (∃ len, r.pc = .waiting len) ∨ r.pc = .ended (-1))
    (hcoming : Coming s.rcv.crc (s.snd.pc = .closed) s.whole acc (blocks.drop acc) down)
    (hopening : s.snd.state = .idle → s.snd.pc ≠ .closed →
      r.sync = s.rcv.first ∧ ∀ c ∈ up, c = s.rcv.first ∨ c = can) :
    Agrees { s with rcv := r, down := down, up := up } blocks acc := by
  have hgot : r.got = [] := by
    rcases hpc with ⟨len, e⟩ | ⟨len, e⟩ | e <;> simp [Receiver.got, e]
  have hfirst : r.first = s.rcv.first := by rw [Receiver.first, hcrc, ← Receiver.first]
  exact
    { h with
      sender := by
        show s.snd.Holds r.crc blocks s.given
        rw [hcrc]
        exact h.sender
      mode := by
        show _ → _ = r.crc
        rw [hcrc]
        exact h.mode
      opening := by
        intro e e'
        obtain ⟨hs, hu⟩ := hopening e e'
        exact ⟨(h.opening e e').1, hs.trans hfirst.symm, fun c hc => hfirst ▸ hu c hc⟩
      pktno := hpktno.trans h.pktno
      out := by
        show s.delivered ++ r.data = _
        rw [hrdata, ← hdata]
        exact h.out
      empty := fun _ => hrdata
      coming := by
        show Coming r.crc _ _ _ _ (r.got.map _ ++ down)
        rw [hgot, hcrc]
        exact hcoming
      inside := by
        intro len cnt body e
        rcases hpc with ⟨len, e'⟩ | ⟨len, e'⟩ | e' <;> simp [e'] at e
      flushing := by
        intro len e
        rcases hpc with ⟨len, e'⟩ | ⟨len, e'⟩ | e' <;> simp [e'] at e
      finished := by
        intro e
        rcases hpc with ⟨len, e'⟩ | ⟨len, e'⟩ | e' <;> simp [e'] at e }

theorem rcvRetry (h : Agrees s blocks acc) (hdata : s.rcv.data = []) {sync : Byte}
    {down : List Sig} {len cans : Nat}
    (hcoming : Coming s.rcv.crc (s.snd.pc = .closed) s.whole acc (blocks.drop acc) down)
    (hsync : s.snd.state = .idle → s.snd.pc ≠ .closed → sync = s.rcv.first) :
    Agrees ({ s with down := down, rcv := { s.rcv with sync := sync } }.rcvRetry len cans)
      blocks acc := by
  unfold Sys.rcvRetry
  dsimp only
  split
  · refine h.rest hdata ⟨_, _, _, _, _, .ended (-1)⟩ rfl rfl hdata (Or.inr (Or.inr rfl))
      hcoming ?_
    intro e e'
    refine ⟨hsync e e', fun c hc => ?_⟩
    rcases List.mem_append.mp hc with hc | hc
    · exact (h.opening e e').2.2 c hc
    · exact Or.inr (List.mem_replicate.mp hc).2
  · refine h.rest hdata ⟨_, _, _, _, _, .answering len⟩ rfl rfl hdata (Or.inl ⟨len, rfl⟩)
      hcoming ?_
    intro e e'
    exact ⟨hsync e e', (h.opening e e').2.2⟩

/-- Between two packets, the line before the receiver is what is coming. -/
theorem coming_down (h : Agrees s blocks acc) (hgot : s.rcv.got = []) :
    Coming s.rcv.crc (s.snd.pc = .closed) s.whole acc (blocks.drop acc) s.down := by
  have hc := h.coming
  rwa [hgot] at hc

theorem sizes_drop (h : Agrees s blocks acc) : ∀ b ∈ blocks.drop acc, Size b :=
  fun b hb => h.sizes b (List.mem_of_mem_drop hb)

theorem rcvTimeout (h : Agrees s blocks acc) {cans : Nat}
    (hstep : s.step (.rcvTimeout cans) = some t) : Agrees t blocks acc := by
  simp only [Sys.step, Sys.rcvTimeout] at hstep
  split at hstep
  next len hpc =>
    cases hstep
    have hdata := h.empty (by simp [hpc])
    have hc := h.coming_down (by simp [Receiver.got, hpc])
    have hdown : (Sys.silence s.down).getD s.down = s.down := by
      cases hs : Sys.silence s.down with
      | none => rfl
      | some rest => exact hc.silence_eq hs
    rw [hdown]
    exact h.rcvRetry hdata hc fun e e' => (h.opening e e').2.1
  next len cnt body hpc =>
    simp only [Option.map_eq_some_iff] at hstep
    obtain ⟨down, hsil, rfl⟩ := hstep
    have hdata := h.empty (by simp [hpc])
    obtain ⟨hcnt, hlen⟩ := h.inside len cnt body hpc
    have hc := h.coming
    rw [Receiver.got, hpc] at hc
    obtain ⟨blk, hblk, hw, rfl⟩ := hc.silent hcnt hlen h.sizes_drop hsil
    apply h.rcvRetry hdata
    · rw [hblk, hw]
      exact .gone
    · exact fun e e' => (h.opening e e').2.1
  next len hpc =>
    simp only [Option.map_eq_some_iff] at hstep
    obtain ⟨down, hsil, rfl⟩ := hstep
    have hdata := h.empty (by simp [hpc])
    have hc := h.coming_down (by simp [Receiver.got, hpc])
    obtain ⟨hw, -⟩ := h.flushing len hpc
    rw [← hc.silence_eq hsil] at hc
    apply h.rcvRetry hdata hc
    intro e e'
    -- nothing was sent, so nothing was damaged
    obtain ⟨rfl, -⟩ := h.opening e e'
    rw [hw, List.drop_nil] at hc
    cases hc
  · cases hstep

theorem sendSync (h : Agrees s blocks acc) {arrives : Bool}
    (hstep : s.step (.sendSync arrives) = some t) : Agrees t blocks acc := by
  simp only [Sys.step] at hstep
  split at hstep
  next len hpc =>
    cases hstep
    have hdata := h.empty (by simp [hpc])
    have hc := h.coming_down (by simp [Receiver.got, hpc])
    refine h.rest hdata ⟨_, _, _, _, _, .waiting len⟩ rfl rfl hdata
      (Or.inr (Or.inl ⟨len, rfl⟩)) hc ?_
    intro e e'
    obtain ⟨-, hs, hu⟩ := h.opening e e'
    refine ⟨hs, fun c hc => ?_⟩
    rcases List.mem_append.mp hc with hc | hc
    · exact hu c hc
    · cases arrives with
      | true => exact Or.inl ((List.mem_singleton.mp hc).trans hs)
      | false => cases hc
  · cases hstep

theorem rcvLoop (h : Agrees s blocks acc) {len : Nat} (hstep : s.step (.rcvLoop len) = some t) :
    Agrees t blocks acc := by
  simp only [Sys.step] at hstep
  split at hstep
  next hpc =>
    simp only [Option.ite_none_right_eq_some, Option.some.injEq] at hstep
    obtain ⟨-, rfl⟩ := hstep
    have hc := h.coming_down (by simp [Receiver.got, hpc])
    unfold Sys.rcvLoop
    split
    · exact
        { h with
          out := by
            rw [List.append_assoc, List.take_append_drop]
            exact h.out
          empty := fun e => absurd hpc e
          coming := h.coming }
    next hdata =>
      have hnil : s.rcv.data = [] := not_not.mp hdata
      refine h.rest hnil ⟨_, _, _, _, _, .answering len⟩ rfl rfl hnil (Or.inl ⟨len, rfl⟩) hc ?_
      exact fun e e' => (h.opening e e').2
  · cases hstep

/-- The first byte of a packet, or the end of the transmission. -/
theorem rcvByte_waiting (h : Agrees s blocks acc) {len : Nat} {arrives : Bool} {b : Byte}
    {down : List Sig} (hpc : s.rcv.pc = .waiting len) (hdown : s.down = .byte b :: down)
    (hstep : { s with down := down }.rcvByte arrives b = some t) : Agrees t blocks acc := by
  have hdata := h.empty (by simp [hpc])
  have hc := h.coming_down (by simp [Receiver.got, hpc])
  rw [hdown] at hc
  -- the byte is kept as the first one of a packet
  have hbegin : ∀ cnt, cnt = 128 ∨ cnt = 1024 → b = header cnt →
      Agrees { s with down := down, rcv := { s.rcv with pc := .packet len cnt [] } } blocks acc := by
    intro cnt hcnt hb
    exact
      { h with
        empty := fun _ => hdata
        coming := by
          rw [hb] at hc
          exact hc
        inside := by
          intro len' cnt' body e
          cases e
          refine ⟨hcnt, ?_⟩
          simp
        flushing := fun _ e => by cases e
        finished := fun e => by cases e }
  simp only [Sys.rcvByte, hpc] at hstep
  rcases hc.head h.sizes_drop with ⟨rfl, hnil, hfin, rfl⟩ | ⟨cnt, hcnt, rfl⟩
  · rw [if_neg (by decide), if_neg (by decide), if_pos rfl] at hstep
    cases hstep
    have hacc : acc = blocks.length := by
      have := List.drop_eq_nil_iff.mp hnil
      have := h.acc_le
      omega
    rw [hnil] at hc
    have hw : s.whole = true := by
      generalize s.whole = w at hc ⊢
      cases hc
      rfl
    exact
      { h with
        opening := fun _ e => absurd hfin e
        empty := fun _ => hdata
        coming := by
          rw [hnil, hw]
          exact .done
        inside := fun _ _ _ e => by cases e
        flushing := fun _ e => by cases e
        finished := fun _ => ⟨hacc, hfin⟩ }
  · rcases hcnt with rfl | rfl
    · rw [if_neg (by decide), if_pos (by decide)] at hstep
      cases hstep
      exact hbegin 128 (Or.inl rfl) rfl
    · rw [if_pos (by decide)] at hstep
      cases hstep
      exact hbegin 1024 (Or.inr rfl) rfl

/-- A complete packet is taken if it is the next block, and thrown away if it is damaged. -/
theorem rcvPacket (h : Agrees s blocks acc) {len cnt : Nat} {body : List Byte} {down : List Sig}
    (hdata : s.rcv.data = []) (hcnt : cnt = 128 ∨ cnt = 1024)
    (hlen : body.length = cnt + 2 + fcsLen s.rcv.crc)
    (hc : Coming s.rcv.crc (s.snd.pc = .closed) s.whole acc (blocks.drop acc)
      ((header cnt :: body).map .byte ++ down)) :
    ∃ acc', Agrees ({ s with down := down }.rcvPacket len cnt body) blocks acc' := by
  rcases hc.complete hcnt hlen h.sizes_drop with
    ⟨blk, bs, hblk, rfl, hframe, hnext⟩ | ⟨blk, cp, hblk, hw, rfl, herr, rfl⟩
  · have hbody : body = s.rcv.pktno :: ~~~s.rcv.pktno :: (blk ++ fcs s.rcv.crc blk) := by
      rw [frame_eq, ← h.pktno] at hframe
      exact (List.cons.inj hframe).2
    have hlt : acc < blocks.length := by
      by_contra hge
      rw [List.drop_eq_nil_iff.mpr (Nat.not_lt.mp hge)] at hblk
      cases hblk
    have hdrop : blocks.drop (acc + 1) = bs := by
      rw [← List.drop_drop, hblk]
      rfl
    have htake : (blocks.take (acc + 1)).flatten = (blocks.take acc).flatten ++ blk := by
      rw [List.take_add, hblk]
      simp
    refine ⟨acc + 1, ?_⟩
    simp only [Sys.rcvPacket, hbody, check_frame]
    exact
      { h with
        opening := fun e e' => by
          obtain ⟨rfl, -⟩ := h.opening e e'
          cases hlt
        acc_le := hlt
        pktno := by
          show s.rcv.pktno + 1 = _
          rw [h.pktno, BitVec.ofNat_add (acc + 1) 1]
          rfl
        out := by
          have hout := h.out
          rw [hdata, List.append_nil] at hout
          rw [htake, ← hout, List.append_assoc]
          simp
        empty := fun e => absurd rfl e
        coming := by
          rw [hdrop]
          exact hnext
        inside := fun _ _ _ e => by cases e
        flushing := fun _ e => by cases e
        finished := fun e => by cases e }
  · refine ⟨acc, ?_⟩
    simp only [Sys.rcvPacket, check_garbled s.rcv _ herr]
    exact
      { h with
        empty := fun _ => hdata
        coming := by
          rw [hblk, hw]
          exact .gone
        inside := fun _ _ _ e => by cases e
        flushing := fun _ _ => ⟨hw, rfl⟩
        finished := fun e => by cases e }

theorem rcvByte (h : Agrees s blocks acc) {arrives : Bool}
    (hstep : s.step (.rcvByte arrives) = some t) : ∃ acc', Agrees t blocks acc' := by
  simp only [Sys.step] at hstep
  split at hstep
  next b down hdown =>
    rcases hpc : s.rcv.pc with _ | len | len | ⟨len, cnt, body⟩ | len | ret
    · simp [Sys.rcvByte, hpc] at hstep
    · simp [Sys.rcvByte, hpc] at hstep
    · exact ⟨acc, h.rcvByte_waiting hpc hdown hstep⟩
    · have hdata := h.empty (by simp [hpc])
      obtain ⟨hcnt, hlen⟩ := h.inside len cnt body hpc
      have hc := h.coming
      rw [Receiver.got, hpc, hdown] at hc
      have happ : (header cnt :: body).map Sig.byte ++ .byte b :: down =
          (header cnt :: (body ++ [b])).map Sig.byte ++ down := by simp
      simp only [happ] at hc
      simp only [Sys.rcvByte, hpc] at hstep
      split at hstep
      next hfull =>
        cases hstep
        exact h.rcvPacket hdata hcnt hfull hc
      next hpart =>
        cases hstep
        refine ⟨acc, ?_⟩
        exact
          { h with
            empty := fun _ => hdata
            coming := hc
            inside := by
              intro len' cnt' body' e
              cases e
              refine ⟨hcnt, ?_⟩
              show (body ++ [b]).length < cnt + 2 + fcsLen s.rcv.crc
              rw [List.length_append, List.length_singleton] at hpart ⊢
              omega
            flushing := fun _ e => by cases e
            finished := fun e => by cases e }
    · have := (h.flushing len hpc).2
      rw [hdown] at this
      cases this
    · simp [Sys.rcvByte, hpc] at hstep
  · cases hstep

end Agrees

/-! ## Runs -/

/-- The sender waits for the answer to a packet. -/
def Sender.awaits (s : Sender) : Bool :=
  match s.pc with
  | .awaiting _ _ _ => true
  | _ => false

/-- The sender reads a byte. -/
def Act.sndReads : Act → Bool
  | .sndRecv => true
  | _ => false

/-- No `NAK` is read in place of the answer to a packet, and no `ACK` for a damaged one. -/
def RightAnswer (s : Sys) (a : Act) : Prop :=
  a.sndReads = true → s.snd.awaits = true →
    s.up.head? ≠ some nak ∧ (s.up.head? = some ack → s.whole = true)

instance (s : Sys) (a : Act) : Decidable (RightAnswer s a) :=
  inferInstanceAs (Decidable (a.sndReads = true → s.snd.awaits = true →
    s.up.head? ≠ some nak ∧ (s.up.head? = some ack → s.whole = true)))

theorem Agrees.step {s t : Sys} {blocks : List (List Byte)} {acc : Nat} {a : Act}
    (h : Agrees s blocks acc) (hok : RightAnswer s a) (hstep : s.step a = some t) :
    ∃ blocks' acc', Agrees t blocks' acc' := by
  cases a with
  | sndLoop src => exact ⟨_, _, h.sndLoop hstep⟩
  | sndEot => exact ⟨_, _, h.sndEot hstep⟩
  | sndPkt f =>
      obtain ⟨blocks', h'⟩ := h.sndPkt hstep
      exact ⟨_, _, h'⟩
  | sndRecv =>
      simp only [Sys.step] at hstep
      split at hstep
      · cases hstep
      next c up hup =>
        rcases hpc : s.snd.pc with _ | ⟨data, rest⟩ | _ | ⟨pkt, retry, rest⟩ | _ | _ | _
        · simp [Sys.sndRecv, hpc] at hstep
        · exact ⟨_, _, h.sndRecv_opening hpc hup hstep⟩
        · simp [Sys.sndRecv, hpc] at hstep
        · have hans := hok rfl (by simp [Sender.awaits, hpc])
          simp only [hup, List.head?_cons, ne_eq, Option.some.injEq] at hans
          exact ⟨_, _, h.sndRecv_awaiting hpc hup hans.1 hans.2 hstep⟩
        · simp [Sys.sndRecv, hpc] at hstep
        · simp [Sys.sndRecv, hpc] at hstep
        · simp [Sys.sndRecv, hpc] at hstep
  | sndTimeout => exact ⟨_, _, h.sndTimeout hstep⟩
  | sendEot arrives => exact ⟨_, _, h.sendEot hstep⟩
  | rcvLoop len => exact ⟨_, _, h.rcvLoop hstep⟩
  | sendSync arrives => exact ⟨_, _, h.sendSync hstep⟩
  | rcvByte arrives =>
      obtain ⟨acc', h'⟩ := h.rcvByte hstep
      exact ⟨_, _, h'⟩
  | rcvTimeout cans => exact ⟨_, _, h.rcvTimeout hstep⟩

/-- The receiver has reported the end of the transmission, and all calls of the sender succeeded. -/
def Sys.finished (s : Sys) : Bool :=
  match s.rcv.pc, s.snd.pc with
  | .ended ret, .closed => ret = 0
  | _, _ => false

/-- A prefix of the padded bytes has been delivered, and at the end all of them. -/
def Sys.Delivers (s : Sys) : Prop :=
  s.delivered <+: padded s.given ∧ (s.finished = true → s.delivered = padded s.given)

theorem Sys.finished_cases {s : Sys} (h : s.finished = true) :
    s.rcv.pc = .ended 0 ∧ s.snd.pc = .closed := by
  unfold Sys.finished at h
  split at h
  next hr hs =>
    rw [decide_eq_true_eq] at h
    exact ⟨h ▸ hr, hs⟩
  · cases h

theorem Agrees.delivers {s : Sys} {blocks : List (List Byte)} {acc : Nat}
    (h : Agrees s blocks acc) : s.Delivers := by
  constructor
  · calc s.delivered <+: s.delivered ++ s.rcv.data := List.prefix_append _ _
      _ = (blocks.take acc).flatten := h.out
      _ <+: blocks.flatten := by
        rw [← List.take_append_drop acc blocks, List.flatten_append, List.take_append_drop]
        exact List.prefix_append _ _
      _ <+: padded s.given := h.sender.front_padded
  · intro hfin
    obtain ⟨hend, hclosed⟩ := Sys.finished_cases hfin
    have hsnd := h.sender
    rw [Sender.Holds, hclosed] at hsnd
    have hout := h.out
    rw [h.empty (by simp [hend]), (h.finished hend).1, List.take_length, List.append_nil] at hout
    rw [hout]
    exact hsnd

/-- Both ends agree in every run in which the sender takes no wrong answer. -/
theorem transfer_agrees (oneK crc : Bool) (as : List Act) (s : Sys)
    (hok : Lib.Along Sys.step RightAnswer (start oneK crc) as)
    (hrun : Lib.exec Sys.step (start oneK crc) as = some s) : s.Delivers := by
  have hinv : ∃ blocks acc, Agrees s blocks acc :=
    Lib.exec_invariant (I := fun s => ∃ blocks acc, Agrees s blocks acc)
      (fun _ _ _ ⟨_, _, h⟩ ha hstep => h.step ha hstep) ⟨[], 0, Agrees.start oneK crc⟩ hok hrun
  obtain ⟨blocks, acc, h⟩ := hinv
  exact h.delivers

/-- Three bytes in one packet, with a CRC. -/
def oneBlock : List Act :=
  List.flatten
    [[.sndLoop [1, 2, 3], .sndEot, .rcvLoop 200, .sendSync true, .sndRecv, .sndPkt .none],
      List.replicate 133 (.rcvByte true),
      [.rcvLoop 200, .sendSync true, .sndRecv, .sendEot true, .rcvByte true]]

theorem transfer_agrees_oneBlock :
    ∃ s, Lib.exec Sys.step (start false true) oneBlock = some s ∧ s.Delivers := by
  have hsome : (Lib.exec Sys.step (start false true) oneBlock).isSome := by decide +kernel
  obtain ⟨s, hs⟩ := Option.isSome_iff_exists.mp hsome
  exact ⟨s, hs, transfer_agrees false true oneBlock s (by decide +kernel) hs⟩

/-- Two blocks; the second one arrives incomplete, and the receiver repeats its last `ACK`. -/
def cutBlock : List Act :=
  List.flatten
    [[.sndLoop (List.replicate 256 7), .rcvLoop 200, .sendSync true, .sndRecv, .sndPkt .none],
      List.replicate 132 (.rcvByte true),
      [.rcvLoop 200, .sendSync true, .sndRecv, .sndPkt (.short 5)],
      List.replicate 5 (.rcvByte true),
      [.rcvTimeout 0, .sendSync true, .sndRecv, .sndEot, .sendEot true, .rcvByte true]]

/-- The calls of both ends report success, and a block is missing. -/
theorem cutBlock_lost :
    ¬ ∀ (as : List Act) (s : Sys), Lib.exec Sys.step (start false false) as = some s →
      s.Delivers := by
  intro h
  have hrun : ((Lib.exec Sys.step (start false false) cutBlock).any fun s =>
      s.finished && s.delivered.length != (padded s.given).length) = true := by decide +kernel
  obtain ⟨s, hs, hlost⟩ := (Option.any_eq_true _ _).mp hrun
  simp only [Bool.and_eq_true, bne_iff_ne, ne_eq] at hlost
  exact hlost.2 (congrArg List.length ((h cutBlock s hs).2 hlost.1))

end YardIce.Xmodem
