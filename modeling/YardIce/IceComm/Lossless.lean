import YardIce.Lib.Runs
import YardIce.IceComm.Buffers

/-!
# The trace channel loses nothing

Three counts describe a connected link: the words that the debugger has acknowledged to
the target, those in its queue, and those that `ice_comm_read` has returned. Each party
owns the counters it writes and sees the others late, so that what it believes to be free
or to be there is.
-/

namespace YardIce.IceComm

open YardIce.Lib

/-- The room that a call waits for is the number of its words, and fits the ring. -/
def Job.Ok : Job → Prop
  | .trace room ws => room = BitVec.ofNat 32 ws.length ∧ ws.length ≤ 16
  | .write _ => True

theorem Call.job_ok (c : Call) : c.job.Ok := by
  cases c with
  | ioWrite buf => trivial
  | _ => exact ⟨rfl, by simp only [List.length_cons, List.length_nil]; lia⟩

/-- What a call of the target knows while it runs. -/
def DeviceInv (h acked : Nat) (sent : List Word) (buf : TxBuf) : Device → Prop
  | .idle => True
  | .testConnected job => job.Ok
  | .testSync => False
  | .setConnected => False
  | .loadHead job => job.Ok
  | .wait job head => job.Ok ∧ head = BitVec.ofNat 16 (h + sent.length)
  | .fill stores ws head _ =>
      head = BitVec.ofNat 16 (h + (sent.length + ws.length)) ∧
        sent.length + ws.length ≤ acked + 16 ∧ Fills buf h acked sent ws stores
  | .publish ws head _ =>
      head = BitVec.ofNat 16 (h + (sent.length + ws.length)) ∧
        sent.length + ws.length ≤ acked + 16 ∧ Ring.Holds buf.u32 h (sent ++ ws) acked

/-- What the poll thread knows: `taken` is the number of words it has read, `n` the
number in the queue since the connection, of which `got` have been returned. -/
def PollInv (r n got : Nat) (sent : List Word) (buf : BitVec 9 → Word) (fetched : List Word)
    (taken : Nat) : Poll → Prop
  | .idle => taken = n
  | .readHead => taken = n
  | .readWord head rem left =>
      taken = n ∧ head = BitVec.ofNat 32 (r + n) ∧ 0 < left ∧ rem ≠ 0 ∧
        rem.toNat + n ≤ got + 512 ∧ n + left ≤ sent.length
  | .put data head rem left =>
      taken = n + 1 ∧ head = BitVec.ofNat 32 (r + n) ∧ 0 < left ∧ rem ≠ 0 ∧
        rem.toNat + n ≤ got + 512 ∧ n + left ≤ sent.length ∧ fetched ++ [data] <+: sent
  | .advance head rem left =>
      taken = n + 1 ∧ head = BitVec.ofNat 32 (r + (n + 1)) ∧
        rem.toNat + (n + 1) ≤ got + 512 ∧ n + 1 + left ≤ sent.length ∧
        ∃ data, fetched ++ [data] <+: sent ∧ Ring.Holds buf r (fetched ++ [data]) got
  | .writeTail => taken = n
  | .resync => False
  | .syncAddr => False
  | .syncRo => False
  | .syncRw => False
  | .syncWrite => False

/-- What a call of `ice_comm_read` knows. -/
def ReaderInv (r got : Nat) (fetched : List Word) : Reader → Prop
  | .idle => True
  | .waiting tail _ => tail = BitVec.ofNat 32 (r + got)
  | .copy tail head _ =>
      tail = BitVec.ofNat 32 (r + got) ∧
        ∃ q, head = BitVec.ofNat 32 (r + q) ∧ got < q ∧ q ≤ fetched.length
  | .commit ws => ws <+: fetched.drop got

/-- A connected link: `acked` words have been acknowledged to the target, and `fetched`
are the words that have been queued. -/
structure Inv (h r acked taken : Nat) (fetched : List Word) (s : Link) : Prop where
  dev : s.blk.dev = devConnected
  dbg : s.blk.dbg = dbgConnected
  copy : s.cc.dbg = dbgConnected
  txHead : s.blk.txHead = BitVec.ofNat 16 (h + s.sent.length)
  txTail : s.blk.txTail = BitVec.ofNat 16 (h + acked)
  ccTail : s.cc.txTail = BitVec.ofNat 16 (h + taken)
  acked_le : acked ≤ taken
  taken_le : taken ≤ s.sent.length
  room : s.sent.length ≤ acked + 16
  ring : Ring.Holds s.blk.txBuf.u32 h s.sent acked
  rxHead : s.rx.head = BitVec.ofNat 32 (r + fetched.length)
  rxTail : s.rx.tail = BitVec.ofNat 32 (r + s.received.length)
  sent_prefix : fetched <+: s.sent
  received_prefix : s.received <+: fetched
  queue_le : fetched.length ≤ s.received.length + 512
  queue : Ring.Holds s.rx.buf r fetched s.received.length
  device : DeviceInv h acked s.sent s.blk.txBuf s.device
  poll : PollInv r fetched.length s.received.length s.sent s.rx.buf fetched taken s.poll
  reader : ReaderInv r s.received.length fetched s.reader

/-! ## The target -/

section Device

variable {h acked : Nat} {sent : List Word} {buf : TxBuf} {d : Device}

theorem DeviceInv.mono {acked' : Nat} (hd : DeviceInv h acked sent buf d) (hle : acked ≤ acked') :
    DeviceInv h acked' sent buf d := by
  cases d with
  | fill stores ws head rest => exact ⟨hd.1, hd.2.1.trans (by lia), hd.2.2.mono hle⟩
  | publish ws head rest => exact ⟨hd.1, hd.2.1.trans (by lia), hd.2.2.mono hle⟩
  | _ => exact hd

theorem loaded_inv {job : Job} (hj : job.Ok) :
    DeviceInv h acked sent buf (loaded (BitVec.ofNat 16 (h + sent.length)) job) := by
  cases job with
  | trace room ws => exact ⟨hj, rfl⟩
  | write cp =>
      cases cp with
      | nil => trivial
      | cons c cp => exact ⟨trivial, rfl⟩

theorem toNat_room {tail : BitVec 16} (ht : tail = BitVec.ofNat 16 (h + acked))
    (hle : acked ≤ sent.length) (hcount : sent.length < acked + 2 ^ 16) :
    (BitVec.ofNat 16 (h + sent.length) - tail).toNat = sent.length - acked := by
  rw [ht, Ring.toNat_sub_counter (by lia) (by lia)]
  lia

/-- An `ice_trace` function goes on only if its words fit. -/
theorem room_of_noRoom {room : Word} {ws : List Word} {tail : BitVec 16}
    (hj : (Job.trace room ws).Ok) (ht : tail = BitVec.ofNat 16 (h + acked))
    (hle : acked ≤ sent.length) (hroom : sent.length ≤ acked + 16)
    (hr : noRoom (BitVec.ofNat 16 (h + sent.length)) tail room = false) :
    sent.length + ws.length ≤ acked + 16 := by
  have hd := toNat_room ht hle (by lia)
  have hw : ws.length < 2 ^ 32 := Nat.lt_of_le_of_lt hj.2 (by decide)
  rw [noRoom, BitVec.ult, decide_eq_false_iff_not, BitVec.toNat_sub, BitVec.toNat_setWidth, hd,
    hj.1, BitVec.toNat_ofNat, Nat.mod_eq_of_lt hw] at hr
  have h16 : (16 : Word).toNat = 16 := rfl
  rw [h16] at hr
  lia

/-- Each character takes one byte or two, so that the copy ends within its bound. -/
theorem length_ioCopy (bound i : Nat) (cp : List Byte) (hi : i ≤ bound + 1) :
    i + (ioCopy bound i cp).1.length ≤ bound + 1 := by
  induction cp generalizing i with
  | nil => simpa [ioCopy] using hi
  | cons c cp ih =>
      rw [ioCopy]
      split_ifs with hb hc
      · have := ih (i + 2) (by lia)
        simp only [List.length_cons]
        lia
      · have := ih (i + 1) (by lia)
        simp only [List.length_cons]
        lia
      · simpa using hi

theorem length_padded (bs : List Byte) : (padded bs).length = 4 * wordsOf bs.length := by
  simp only [padded, wordsOf, List.length_append, List.length_replicate]
  lia

theorem length_words_padded (bs : List Byte) :
    (wordsOfBytes (padded bs)).length = wordsOf bs.length := by
  have h4 : 4 * (wordsOfBytes (padded bs)).length = (padded bs).length :=
    length_wordsOfBytes ⟨_, length_padded bs⟩
  rw [length_padded] at h4
  lia

theorem base_byte (p : Nat) :
    ((BitVec.ofNat 16 p).setWidth 4 : BitVec 4) ++ 0#2 = BitVec.ofNat 6 (4 * p) := by
  rw [setWidth_head]
  exact place_eq p 0

theorem ioStores_slot {p : Nat} {bs : List Byte} {s : Store}
    (hs : s ∈ ioStores (BitVec.ofNat 6 p) bs) :
    ∃ i < bs.length, s.slot = BitVec.ofNat 4 ((p + i) / 4) := by
  induction bs generalizing p with
  | nil => exact absurd hs List.not_mem_nil
  | cons b bs ih =>
      have h1 : BitVec.ofNat 6 p + 1 = BitVec.ofNat 6 (p + 1) := Ring.counter_succ p
      rw [ioStores, h1, List.mem_cons] at hs
      obtain rfl | hs := hs
      · refine ⟨0, Nat.zero_lt_succ _, ?_⟩
        apply BitVec.eq_of_toNat_eq
        simp only [Store.slot, BitVec.extractLsb'_toNat, BitVec.toNat_ofNat,
          Nat.shiftRight_eq_div_pow]
        lia
      · obtain ⟨i, hi, hslot⟩ := ih hs
        refine ⟨i + 1, Nat.succ_lt_succ hi, ?_⟩
        rw [hslot]
        congr 2
        lia

theorem ioStores_fills {bs : List Byte} (hold : Ring.Holds buf.u32 h sent acked)
    (hlen : 4 ∣ bs.length) (hroom : sent.length + (wordsOfBytes bs).length ≤ acked + 16) :
    Fills buf h acked sent (wordsOfBytes bs)
      (ioStores (BitVec.ofNat 6 (4 * (h + sent.length))) bs) where
  free s hs := by
    obtain ⟨i, hi, hslot⟩ := ioStores_slot hs
    have h4 := length_wordsOfBytes hlen
    refine ⟨i / 4, by lia, ?_⟩
    rw [hslot]
    congr 1
    lia
  result := ioStores_result hlen hold hroom

/-- The characters that are about to be stored fit the ring, whatever was in it before. -/
theorem waited_write_inv (cp : List Byte) {tail : BitVec 16}
    (ht : tail = BitVec.ofNat 16 (h + acked)) (hle : acked ≤ sent.length)
    (hcount : sent.length < acked + 2 ^ 16) (hold : Ring.Holds buf.u32 h sent acked) :
    DeviceInv h acked sent buf (waited (BitVec.ofNat 16 (h + sent.length)) tail (.write cp)) := by
  rw [waited]
  split_ifs with hr
  · exact ⟨trivial, rfl⟩
  · have hd := toNat_room ht hle hcount
    rw [ioRoom, hd] at hr ⊢
    generalize hb :
      (min ((16 - ((sent.length - acked : Nat) : Int)) * 4 - 1) (ioRem cp)).toNat = b
    have hlen := length_ioCopy b 0 cp (Nat.zero_le _)
    have hwords := length_words_padded (ioCopy b 0 cp).1
    have hfit : sent.length + wordsOf (ioCopy b 0 cp).1.length ≤ acked + 16 := by
      rw [wordsOf]
      lia
    dsimp only
    rw [base_byte]
    refine ⟨?_, by rwa [hwords],
      ioStores_fills hold ⟨_, length_padded _⟩ (by rwa [hwords])⟩
    rw [Ring.counter_add, hwords, Nat.add_assoc]

/-- The end of the wait: the words that are about to be stored fit the ring. -/
theorem waited_inv {job : Job} {tail : BitVec 16} (hj : job.Ok)
    (ht : tail = BitVec.ofNat 16 (h + acked)) (hle : acked ≤ sent.length)
    (hroom : sent.length ≤ acked + 16) (hold : Ring.Holds buf.u32 h sent acked) :
    DeviceInv h acked sent buf (waited (BitVec.ofNat 16 (h + sent.length)) tail job) := by
  cases job with
  | trace room ws =>
      rw [waited]
      split_ifs with hr
      · exact ⟨hj, rfl⟩
      · have hfit := room_of_noRoom hj ht hle hroom (Bool.eq_false_iff.mpr hr)
        refine ⟨?_, hfit, traceStores_fills hold hfit⟩
        rw [Ring.counter_add, Nat.add_assoc]
  | write cp => exact waited_write_inv cp ht hle (by lia) hold

end Device

section Steps

variable {h r acked taken : Nat} {fetched : List Word} {s t : Link}

/-- More words from the target change nothing for the debugger. -/
theorem PollInv.sent_mono {n got : Nat} {sent sent' : List Word} {buf : BitVec 9 → Word}
    {p : Poll} (hp : PollInv r n got sent buf fetched taken p) (hs : sent <+: sent') :
    PollInv r n got sent' buf fetched taken p := by
  have hlen := hs.length_le
  cases p with
  | readWord head rem left =>
      obtain ⟨h₁, h₂, h₃, h₄, h₅, h₆⟩ := hp
      exact ⟨h₁, h₂, h₃, h₄, h₅, h₆.trans hlen⟩
  | put data head rem left =>
      obtain ⟨h₁, h₂, h₃, h₄, h₅, h₆, h₇⟩ := hp
      exact ⟨h₁, h₂, h₃, h₄, h₅, h₆.trans hlen, h₇.trans hs⟩
  | advance head rem left =>
      obtain ⟨h₁, h₂, h₃, h₄, data, h₅, h₆⟩ := hp
      exact ⟨h₁, h₂, h₃, h₄.trans hlen, data, h₅.trans hs, h₆⟩
  | _ => exact hp

theorem Inv.device_step (hi : Inv h r acked taken fetched s) {q : CommBlk × Device × List Word}
    (hq : s.device.step s.blk = some q) :
    Inv h r acked taken fetched
      { s with blk := q.1, device := q.2.1, sent := s.sent ++ q.2.2 } := by
  have hd := hi.device
  have hle : acked ≤ s.sent.length := hi.acked_le.trans hi.taken_le
  cases hdev : s.device with
  | idle => simp [hdev, Device.step] at hq
  | testConnected job =>
      rw [hdev] at hd hq
      simp only [Device.step, hi.dbg, if_true, Option.some.injEq] at hq
      subst hq
      simp only [List.append_nil]
      exact { hi with device := hd }
  | testSync =>
      rw [hdev] at hd
      exact hd.elim
  | setConnected =>
      rw [hdev] at hd
      exact hd.elim
  | loadHead job =>
      rw [hdev] at hd hq
      simp only [Device.step, Option.some.injEq] at hq
      subst hq
      simp only [List.append_nil, hi.txHead]
      exact { hi with device := loaded_inv hd }
  | wait job head =>
      rw [hdev] at hd hq
      simp only [Device.step, Option.some.injEq] at hq
      subst hq
      simp only [List.append_nil, hd.2]
      exact { hi with device := waited_inv hd.1 hi.txTail hle hi.room hi.ring }
  | fill stores ws head rest =>
      rw [hdev] at hd hq
      obtain ⟨hhead, hfit, hf⟩ := hd
      cases stores with
      | nil =>
          simp only [Device.step, Option.some.injEq] at hq
          subst hq
          simp only [List.append_nil]
          exact { hi with device := ⟨hhead, hfit, hf.result⟩ }
      | cons a stores =>
          simp only [Device.step, Option.some.injEq] at hq
          subst hq
          simp only [List.append_nil]
          exact { hi with
            ring := hf.head hfit hi.ring
            device := ⟨hhead, hfit, hf.tail⟩ }
  | publish ws head rest =>
      rw [hdev] at hd hq
      obtain ⟨hhead, hfit, hold⟩ := hd
      simp only [Device.step, Option.some.injEq] at hq
      subst hq
      have hlen : (s.sent ++ ws).length = s.sent.length + ws.length := List.length_append
      rw [← hlen] at hhead hfit
      exact {
        dev := hi.dev
        dbg := hi.dbg
        copy := hi.copy
        txHead := hhead
        txTail := hi.txTail
        ccTail := hi.ccTail
        acked_le := hi.acked_le
        taken_le := hi.taken_le.trans (List.prefix_append s.sent ws).length_le
        room := hfit
        ring := hold
        rxHead := hi.rxHead
        rxTail := hi.rxTail
        sent_prefix := hi.sent_prefix.trans (List.prefix_append _ _)
        received_prefix := hi.received_prefix
        queue_le := hi.queue_le
        queue := hi.queue
        device := hhead ▸ loaded_inv trivial
        poll := hi.poll.sent_mono (List.prefix_append _ _)
        reader := hi.reader }

/-! ## The poll thread -/

theorem wordLoop_inv {n got left : Nat} {sent : List Word} {buf : BitVec 9 → Word}
    {head rem : Word} (hhead : head = BitVec.ofNat 32 (r + n)) (hrem : rem.toNat + n ≤ got + 512)
    (hleft : n + left ≤ sent.length) :
    PollInv r n got sent buf fetched n (wordLoop head rem left) := by
  unfold wordLoop
  split_ifs with hc
  · exact rfl
  · rw [not_or] at hc
    exact ⟨rfl, hhead, Nat.pos_of_ne_zero hc.1, hc.2, hrem, hleft⟩

theorem rem_toNat (hi : Inv h r acked taken fetched s) :
    (iceCommRxBufLen - (s.rx.head - s.rx.tail)).toNat + fetched.length =
      s.received.length + 512 := by
  have hle := hi.received_prefix.length_le
  have hq := hi.queue_le
  have hd : (s.rx.head - s.rx.tail).toNat = fetched.length - s.received.length := by
    rw [hi.rxHead, hi.rxTail, Ring.toNat_sub_counter (by lia) (by lia)]
    lia
  rw [BitVec.toNat_sub, hd, iceCommRxBufLen]
  have h512 : (512 : Word).toNat = 512 := rfl
  rw [h512]
  lia

/-- What the poll thread does with the head it has read. -/
theorem headRead_inv (hi : Inv h r acked taken fetched s) (hidle : taken = fetched.length) :
    let cc := { s.cc with txHead := s.blk.txHead, dev := s.blk.dev }
    (headRead cc s.rx).1 = cc ∧
      PollInv r fetched.length s.received.length s.sent s.rx.buf fetched taken
        (headRead cc s.rx).2 := by
  have hcnt : (s.blk.txHead - s.cc.txTail).toNat = s.sent.length - taken := by
    have := hi.room
    have := hi.acked_le
    have := hi.taken_le
    rw [hi.txHead, hi.ccTail, Ring.toNat_sub_counter (by lia) (by lia)]
    lia
  have h16 : ¬ 16 < s.sent.length - taken := by
    have := hi.room
    have := hi.acked_le
    lia
  have hrem := rem_toNat hi
  have hle := hi.taken_le
  simp only [headRead, hi.dev, hi.copy, ne_eq, not_true_eq_false, or_self, if_false, hcnt, h16]
  split_ifs with hr hc
  · exact ⟨rfl, hidle⟩
  · exact ⟨rfl, hidle⟩
  · refine ⟨rfl, ?_⟩
    rw [hidle]
    exact wordLoop_inv hi.rxHead hrem.le (by lia)

theorem prefix_snoc {l l' : List Word} (h : l <+: l') (hlt : l.length < l'.length) :
    l ++ [l'[l.length]] <+: l' := by
  obtain ⟨ws, rfl⟩ := h
  cases ws with
  | nil => simp at hlt
  | cons w ws => exact ⟨ws, by simp⟩

/-- An access of the poll thread; the acknowledged and the queued words may become more. -/
theorem Inv.poll_step (hi : Inv h r acked taken fetched s) {enabled : Bool} {ack : Ack}
    (hs : s.pollStep enabled ack = some t) :
    ∃ acked' taken' fetched', Inv h r acked' taken' fetched' t := by
  have hp := hi.poll
  unfold Link.pollStep at hs
  cases hpoll : s.poll with
  | idle => simp [hpoll] at hs
  | readHead =>
      rw [hpoll] at hp
      simp only [hpoll] at hs
      cases ack with
      | fault =>
          cases hs
          exact ⟨acked, taken, fetched, { hi with poll := hp }⟩
      | sticky =>
          cases hs
          exact ⟨acked, taken, fetched, { hi with poll := hp }⟩
      | ok =>
          obtain ⟨hcc, hnext⟩ := headRead_inv hi hp
          cases hs
          refine ⟨acked, taken, fetched, { hi with copy := ?_, ccTail := ?_, poll := hnext }⟩
          · rw [hcc]
            exact hi.copy
          · rw [hcc]
            exact hi.ccTail
  | readWord head rem left =>
      rw [hpoll] at hp
      simp only [hpoll] at hs
      obtain ⟨htaken, hhead, hleft, hrem, hroom, hlen⟩ := hp
      split_ifs at hs with hf
      · cases hs
        exact ⟨acked, taken, fetched, { hi with poll := htaken }⟩
      · cases hs
        have hlt : fetched.length < s.sent.length := by lia
        have hdata : s.blk.txBuf.u32 (s.cc.txTail.setWidth 4) = s.sent[fetched.length] := by
          rw [hi.ccTail, setWidth_head, htaken]
          exact hi.ring _ hlt (htaken ▸ hi.acked_le)
        have hpre := prefix_snoc hi.sent_prefix hlt
        refine ⟨acked, taken + 1, fetched, { hi with
          ccTail := ?_
          acked_le := hi.acked_le.trans (Nat.le_succ _)
          taken_le := htaken ▸ hlt
          poll := ⟨by rw [htaken], hhead, hleft, hrem, hroom, hlen, hdata ▸ hpre⟩ }⟩
        rw [hi.ccTail]
        exact head_succ (h + taken)
  | put data head rem left =>
      rw [hpoll] at hp
      simp only [hpoll, Option.some.injEq] at hs
      subst hs
      obtain ⟨htaken, hhead, hleft, hrem, hroom, hlen, hpre⟩ := hp
      have hidx : head.setWidth 9 = BitVec.ofNat 9 (r + fetched.length) := by
        rw [hhead, Ring.setWidth_counter (by decide)]
      have hpos : 0 < rem.toNat := Nat.pos_of_ne_zero fun hz => hrem (BitVec.eq_of_toNat_eq hz)
      have hfree : fetched.length < s.received.length + 2 ^ 9 := by lia
      have hrem' : (rem - 1).toNat = rem.toNat - 1 := by
        have h1 : (1 : Word).toNat = 1 := rfl
        have hlt := rem.isLt
        rw [BitVec.toNat_sub, h1]
        lia
      have hroom' : (rem - 1).toNat + (fetched.length + 1) ≤ s.received.length + 512 := by lia
      have hlen' : fetched.length + 1 + (left - 1) ≤ s.sent.length := by lia
      refine ⟨acked, taken, fetched, { hi with
        queue := by
          rw [hidx]
          exact hi.queue.update le_rfl hfree data
        poll := ⟨htaken, ?_, hroom', hlen', data, hpre, ?_⟩ }⟩
      · rw [hhead]
        exact Ring.counter_succ (r + fetched.length)
      · rw [hidx]
        exact hi.queue.push hfree data
  | advance head rem left =>
      rw [hpoll] at hp
      simp only [hpoll, Option.some.injEq] at hs
      subst hs
      obtain ⟨htaken, hhead, hrem, hlen, data, hpre, hold⟩ := hp
      have hn : (fetched ++ [data]).length = fetched.length + 1 := List.length_append
      rw [← hn] at htaken hhead hrem hlen
      have hqueue : (fetched ++ [data]).length ≤ s.received.length + 512 := by lia
      have hloop : PollInv r _ _ _ s.rx.buf (fetched ++ [data]) _ (wordLoop head rem left) :=
        wordLoop_inv hhead hrem hlen
      refine ⟨acked, taken, fetched ++ [data], {
        dev := hi.dev
        dbg := hi.dbg
        copy := hi.copy
        txHead := hi.txHead
        txTail := hi.txTail
        ccTail := hi.ccTail
        acked_le := hi.acked_le
        taken_le := hi.taken_le
        room := hi.room
        ring := hi.ring
        rxHead := hhead
        rxTail := hi.rxTail
        sent_prefix := hpre
        received_prefix := hi.received_prefix.trans (List.prefix_append _ _)
        queue_le := hqueue
        queue := hold
        device := hi.device
        poll := by
          rw [htaken]
          exact hloop
        reader := ?_ }⟩
      have hr := hi.reader
      cases hread : s.reader with
      | copy tail head' len =>
          rw [hread] at hr
          obtain ⟨htail, q, hq, hlt, hle⟩ := hr
          exact ⟨htail, q, hq, hlt, hle.trans (by lia)⟩
      | commit ws =>
          rw [hread] at hr
          exact hr.trans ((List.prefix_append fetched [data]).drop _)
      | _ =>
          rw [hread] at hr
          exact hr
  | writeTail =>
      rw [hpoll] at hp
      simp only [hpoll] at hs
      split_ifs at hs with hf
      · cases hs
        exact ⟨acked, taken, fetched, { hi with poll := hp }⟩
      · cases hs
        refine ⟨taken, taken, fetched, { hi with
          dbg := hi.copy
          txTail := hi.ccTail
          acked_le := le_rfl
          room := hi.room.trans (Nat.add_le_add_right hi.acked_le 16)
          ring := hi.ring.mono hi.acked_le
          device := hi.device.mono hi.acked_le
          poll := ?_ }⟩
        cases enabled <;> exact hp
  | _ =>
      rw [hpoll] at hp
      exact hp.elim

/-! ## The reader -/

theorem PollInv.got_mono {n got got' : Nat} {sent : List Word} {buf : BitVec 9 → Word}
    {p : Poll} (hp : PollInv r n got sent buf fetched taken p) (hg : got ≤ got') :
    PollInv r n got' sent buf fetched taken p := by
  cases p with
  | readWord head rem left =>
      obtain ⟨h₁, h₂, h₃, h₄, h₅, h₆⟩ := hp
      exact ⟨h₁, h₂, h₃, h₄, by lia, h₆⟩
  | put data head rem left =>
      obtain ⟨h₁, h₂, h₃, h₄, h₅, h₆, h₇⟩ := hp
      exact ⟨h₁, h₂, h₃, h₄, by lia, h₆, h₇⟩
  | advance head rem left =>
      obtain ⟨h₁, h₂, h₃, h₄, data, h₅, h₆⟩ := hp
      exact ⟨h₁, h₂, by lia, h₄, data, h₅, h₆.mono hg⟩
  | _ => exact hp

/-- A queue that is not empty for the reader has words between its tail and its head. -/
theorem copy_inv (hi : Inv h r acked taken fetched s) (len : Nat) {tail : Word}
    (htail : tail = BitVec.ofNat 32 (r + s.received.length)) (hne : s.rx.head ≠ tail) :
    ReaderInv r s.received.length fetched (.copy tail s.rx.head len) := by
  refine ⟨htail, fetched.length, hi.rxHead, ?_, le_rfl⟩
  have hle := hi.received_prefix.length_le
  refine lt_of_le_of_ne hle fun heq => hne ?_
  rw [htail, hi.rxHead, heq]

theorem Inv.reader_step (hi : Inv h r acked taken fetched s) (hs : s.readerStep = some t) :
    Inv h r acked taken fetched t := by
  have hr := hi.reader
  unfold Link.readerStep at hs
  cases hread : s.reader with
  | idle => simp [hread] at hs
  | waiting tail len =>
      rw [hread] at hr
      simp only [hread, Option.some.injEq] at hs
      subst hs
      split_ifs with hc
      · exact { hi with reader := trivial }
      · exact { hi with reader := copy_inv hi len hr hc }
  | copy tail head len =>
      rw [hread] at hr
      obtain ⟨htail, q, hq, hlt, hle⟩ := hr
      simp only [hread, Option.some.injEq] at hs
      subst hs
      have hfull := hi.queue_le
      have hcopied := copied_take hi.queue hlt (by lia) hle len
      rw [← htail, ← hq] at hcopied
      refine { hi with reader := ?_ }
      rw [hcopied]
      exact List.take_prefix _ _
  | commit ws =>
      rw [hread] at hr
      simp only [hread, Option.some.injEq] at hs
      subst hs
      have hpre : s.received ++ ws <+: fetched := by
        obtain ⟨rest, hrest⟩ := hr
        refine ⟨rest, ?_⟩
        rw [List.append_assoc, hrest]
        conv_rhs => rw [← List.take_append_drop s.received.length fetched,
          ← List.prefix_iff_eq_take.mp hi.received_prefix]
      have hlen : (s.received ++ ws).length = s.received.length + ws.length :=
        List.length_append
      have hgot : s.received.length ≤ (s.received ++ ws).length := by lia
      exact { hi with
        rxTail := by
          rw [hi.rxTail, Ring.counter_add, hlen, Nat.add_assoc]
        received_prefix := hpre
        queue_le := hi.queue_le.trans (Nat.add_le_add_right hgot 512)
        queue := hi.queue.mono hgot
        poll := hi.poll.got_mono hgot
        reader := trivial }

theorem Inv.iceCommRead (hi : Inv h r acked taken fetched s) (len : Nat) :
    Inv h r acked taken fetched (s.iceCommRead len) := by
  unfold Link.iceCommRead
  split_ifs with ho hc
  · exact hi
  · exact { hi with reader := hi.rxTail }
  · exact { hi with reader := copy_inv hi len hi.rxTail hc }

/-! ## Runs -/

/-- Every step keeps the invariant of a connected link. -/
theorem Inv.step (hi : Inv h r acked taken fetched s) {a : Act} (hs : s.step a = some t) :
    ∃ acked' taken' fetched', Inv h r acked' taken' fetched' t := by
  cases a with
  | call c =>
      simp only [Link.step] at hs
      split at hs
      · cases hs
        exact ⟨acked, taken, fetched, { hi with device := c.job_ok }⟩
      · exact absurd hs (by simp)
  | device =>
      obtain ⟨q, hq, rfl⟩ := Option.map_eq_some_iff.mp hs
      exact ⟨acked, taken, fetched, hi.device_step hq⟩
  | pollStart enabled =>
      have hp := hi.poll
      simp only [Link.step] at hs
      split at hs
      · next hidle =>
          rw [hidle] at hp
          cases hs
          refine ⟨acked, taken, fetched, { hi with poll := ?_ }⟩
          unfold pollLoop
          split_ifs <;> exact hp
      · exact absurd hs (by simp)
  | poll enabled ack => exact hi.poll_step hs
  | read len =>
      simp only [Link.step] at hs
      split at hs
      · cases hs
        exact ⟨acked, taken, fetched, hi.iceCommRead len⟩
      · exact absurd hs (by simp)
  | reader => exact ⟨acked, taken, fetched, hi.reader_step hs⟩

theorem Link.Connected.inv (hc : s.Connected) :
    Inv s.blk.txHead.toNat s.rx.head.toNat 0 0 [] s where
  dev := hc.dev
  dbg := hc.dbg
  copy := hc.copy
  txHead := by simp [hc.sent]
  txTail := by simp [hc.head]
  ccTail := by simp [hc.tail, hc.head]
  acked_le := le_rfl
  taken_le := Nat.zero_le _
  room := by simp [hc.sent]
  ring := by
    rw [hc.sent]
    exact Ring.holds_nil
  rxHead := by simp
  rxTail := by simp [hc.received, hc.empty]
  sent_prefix := List.nil_prefix
  received_prefix := by rw [hc.received]
  queue_le := Nat.zero_le _
  queue := Ring.holds_nil
  device := by
    rw [hc.device]
    trivial
  poll := by
    rw [hc.poll]
    rfl
  reader := by
    rw [hc.reader]
    trivial

end Steps

/-- A link that was just connected, both counters about to wrap. -/
def linked : Link where
  blk := ⟨0xffff, devConnected, 0xffff, dbgConnected, fun _ => 0⟩
  device := .idle
  cc := ⟨0xffff, devConnected, 0xffff, dbgConnected⟩
  commAddr := true
  poll := .idle
  rx := ⟨true, 511, 511, fun _ => 0⟩
  reader := .idle
  sent := []
  received := []

/-- `ice_trace1`, a poll and a read of two words. -/
def traceRun : List Act :=
  .call (.trace1 7 9) :: List.replicate 7 .device ++
    .pollStart true :: List.replicate 8 (.poll false .ok) ++ [.read 8, .reader, .reader]

end YardIce.IceComm
