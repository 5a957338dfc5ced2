import YardIce.Xmodem.SendBuffer

/-!
# What the XMODEM sender transmits

As long as the buffer holds the next bytes of the transmission and its count of packets is right,
an attempt to send a packet is well formed: the header of a packet overwrites only what was sent
before it. A `NAK` ends this, since it stays in the first byte of the packet that is sent again.
-/

namespace YardIce.Xmodem

open YardIce.Lib

/-! ## Blocks -/

theorem blockSize_cases (oneK : Bool) (rem : Nat) :
    (blockSize oneK rem = 1024 ∧ oneK = true ∧ 896 < rem) ∨
      (blockSize oneK rem = 128 ∧ (oneK = false ∨ rem ≤ 896)) := by
  rw [blockSize]
  split
  next h => exact Or.inl ⟨rfl, h⟩
  next h =>
    refine Or.inr ⟨rfl, ?_⟩
    cases oneK
    · exact Or.inl rfl
    · exact Or.inr (Nat.le_of_not_lt fun hlt => h ⟨rfl, hlt⟩)

theorem blockStart_dvd (oneK : Bool) (len k : Nat) : 128 ∣ blockStart oneK len k := by
  induction k with
  | zero => exact Nat.dvd_zero 128
  | succ k ih =>
      rw [blockStart]
      rcases blockSize_cases oneK (len - blockStart oneK len k) with ⟨hsize, -⟩ | ⟨hsize, -⟩
      · rw [hsize]
        omega
      · rw [hsize]
        omega

/-- As long as there is a whole packet the blocks have the size of the mode. -/
theorem blockStart_mul {oneK : Bool} {max len k : Nat} (hmax : max = if oneK then 1024 else 128)
    (h : k * max ≤ len) : blockStart oneK len k = k * max := by
  induction k with
  | zero => rw [blockStart, Nat.zero_mul]
  | succ k ih =>
      rw [Nat.succ_mul] at h ⊢
      rw [blockStart, ih (by omega)]
      rcases blockSize_cases oneK (len - k * max) with ⟨hsize, honeK, -⟩ | ⟨hsize, hshort⟩
      · rw [hsize, hmax, honeK, if_pos rfl]
      · rcases hshort with hstd | hle
        · rw [hsize, hmax, hstd, if_neg Bool.false_ne_true]
        · cases oneK
          · rw [hsize, hmax, if_neg Bool.false_ne_true]
          · rw [if_pos rfl] at hmax
            omega

/-- A block is what is left of the data, up to its size, with zeros behind. -/
theorem block_eq {oneK : Bool} {given : List Byte} {k start rem size : Nat}
    (hstart : blockStart oneK given.length k = start) (hlen : given.length = start + rem)
    (hpos : 0 < rem) (hsize : size = blockSize oneK rem) :
    block oneK given k =
      (given.drop start).take size ++ List.replicate (size - rem) 0 := by
  have hdvd : 128 ∣ start := hstart ▸ blockStart_dvd oneK given.length k
  have hleft : given.length - start = rem := by omega
  rw [block, hstart, hleft, ← hsize, padded, List.drop_append_of_le_length (by omega)]
  rcases Nat.lt_or_ge rem size with hlt | hge
  · have hzeros : size - rem ≤ (128 - given.length % 128) % 128 := by
      rcases blockSize_cases oneK rem with ⟨h, -, hlong⟩ | ⟨h, -⟩
      · omega
      · omega
    rw [List.take_append, List.length_drop, hleft, List.take_replicate, Nat.min_eq_left hzeros]
  · rw [List.take_append_of_le_length (by rw [List.length_drop]; omega), Nat.sub_eq_zero_of_le hge,
      List.replicate_zero, List.append_nil]

theorem block_size {oneK : Bool} {given : List Byte} {k start rem size : Nat}
    (hstart : blockStart oneK given.length k = start) (hlen : given.length = start + rem)
    (hpos : 0 < rem) (hsize : size = blockSize oneK rem) :
    (block oneK given k).length = size := by
  rw [block_eq hstart hlen hpos hsize, List.length_append, List.length_take, List.length_drop,
    List.length_replicate]
  omega

/-! ## What the buffer holds -/

namespace XmodemSnd

/-- The buffer holds the last `rem` bytes given, from `data` on; before them stand those of the
packets that are done. -/
structure Stored (s : XmodemSnd) (data rem : Nat) : Prop where
  given : s.given.length = blockStart s.oneK s.given.length s.done + rem
  bytes : window s.pkt (3 + data) rem = s.given.drop (blockStart s.oneK s.given.length s.done)
  dataLen : s.dataLen = data + rem
  fits : s.dataLen ≤ s.dataMax
  aligned : 128 ∣ data
  front : data = 0 → blockStart s.oneK s.given.length s.done = s.done * s.dataMax

/-- What the caller has not sent yet. -/
def left (s : XmodemSnd) (p : Packet) : Nat :=
  match p.caller with
  | .loop _ => s.dataLen
  | .eot dataLen _ => dataLen

/-- The buffer holds the packet that is being sent. -/
structure Held (s : XmodemSnd) (p : Packet) : Prop where
  stored : s.Stored p.data (s.left p)
  pos : 0 < s.left p
  size : p.len = blockSize s.oneK (s.left p)
  bytes : window s.pkt (3 + p.data) p.len = block s.oneK s.given s.done
  caller : match p.caller with
    | .loop _ => p.data = 0 ∧ s.dataLen = s.dataMax
    | .eot dataLen len => len = min dataLen p.len

/-- The sender is at a place where the next packet is the right one. -/
def Good (s : XmodemSnd) : Prop :=
  match s.pc with
  | .ready => s.seq = BitVec.ofNat 8 (s.done + 1) ∧ s.Stored 0 s.dataLen
  | .opening p => s.seq = BitVec.ofNat 8 (s.done + 1) ∧ s.Held p
  | .sending p _ _ =>
      s.seq = BitVec.ofNat 8 (s.done + 1) ∧ s.Held p ∧
        s.attempt = some (frame (s.state = .crc) s.seq (block s.oneK s.given s.done))
  | .answer p _ _ => s.seq = BitVec.ofNat 8 (s.done + 1) ∧ s.Held p
  | .flushing p => s.seq = BitVec.ofNat 8 (s.done + 1) ∧ s.Held p
  | .closing => True

variable {s : XmodemSnd} {p : Packet}

theorem dataMax_cases (s : XmodemSnd) :
    (s.oneK = true ∧ s.dataMax = 1024) ∨ (s.oneK = false ∧ s.dataMax = 128) := by
  rw [dataMax]
  cases s.oneK
  · exact Or.inr ⟨rfl, rfl⟩
  · exact Or.inl ⟨rfl, rfl⟩

theorem Stored.of_eq {t : XmodemSnd} {data rem : Nat} (h : s.Stored data rem)
    (honeK : t.oneK = s.oneK) (hgiven : t.given = s.given) (hdone : t.done = s.done)
    (hlen : t.dataLen = s.dataLen)
    (hpkt : window t.pkt (3 + data) rem = window s.pkt (3 + data) rem) : t.Stored data rem := by
  have hmax : t.dataMax = s.dataMax := by rw [dataMax, honeK, dataMax]
  refine ⟨?_, ?_, ?_, ?_, h.aligned, ?_⟩
  · rw [hgiven, honeK, hdone]
    exact h.given
  · rw [hpkt, hgiven, honeK, hdone]
    exact h.bytes
  · rw [hlen]
    exact h.dataLen
  · rw [hlen, hmax]
    exact h.fits
  · rw [hgiven, honeK, hdone, hmax]
    exact h.front

theorem Held.of_eq {t : XmodemSnd} (h : s.Held p)
    (honeK : t.oneK = s.oneK) (hgiven : t.given = s.given) (hdone : t.done = s.done)
    (hlen : t.dataLen = s.dataLen) (hpkt : ∀ n, window t.pkt (3 + p.data) n =
      window s.pkt (3 + p.data) n) : t.Held p := by
  have hleft : t.left p = s.left p := by
    rw [left, hlen, left]
  have hmax : t.dataMax = s.dataMax := by rw [dataMax, honeK, dataMax]
  refine ⟨?_, ?_, ?_, ?_, ?_⟩
  · rw [hleft]
    exact h.stored.of_eq honeK hgiven hdone hlen (hpkt _)
  · rw [hleft]
    exact h.pos
  · rw [hleft, honeK]
    exact h.size
  · rw [hpkt, honeK, hgiven, hdone]
    exact h.bytes
  · rw [hlen, hmax]
    exact h.caller

theorem Held.block_length (h : s.Held p) : (block s.oneK s.given s.done).length = p.len :=
  block_size rfl h.stored.given h.pos h.size

/-- The buffer holds a packet when zeros stand behind the last bytes. -/
theorem Stored.held (h : s.Stored p.data (s.left p)) (hpos : 0 < s.left p)
    (hsize : p.len = blockSize s.oneK (s.left p))
    (hbytes : window s.pkt (3 + p.data) p.len =
      (s.given.drop (blockStart s.oneK s.given.length s.done)).take p.len ++
        List.replicate (p.len - s.left p) 0)
    (hcaller : match p.caller with
      | .loop _ => p.data = 0 ∧ s.dataLen = s.dataMax
      | .eot dataLen len => len = min dataLen p.len) : s.Held p :=
  ⟨h, hpos, hsize, hbytes.trans (block_eq rfl h.given hpos hsize).symm, hcaller⟩

/-! ## The steps -/

theorem build_good (hseq : s.seq = BitVec.ofNat 8 (s.done + 1)) (h : s.Held p) :
    (s.build p).Good := by
  have hwindow : ∀ hdr : List Byte, hdr.length = 3 → ∀ n,
      window (store s.pkt p.data hdr) (3 + p.data) n = window s.pkt (3 + p.data) n :=
    fun hdr hhdr n => window_store_apart (Or.inr (by omega))
  have hheader : ∀ hdr : List Byte, hdr.length = 3 →
      window (store s.pkt p.data hdr) p.data 3 = hdr := fun hdr hhdr => window_store hhdr
  refine ⟨hseq, h.of_eq rfl rfl rfl rfl (hwindow _ rfl), congrArg some ?_⟩
  show window (store s.pkt p.data _) p.data (p.len + 3) ++ fcs _ (window _ _ _) =
    frame _ s.seq (block s.oneK s.given s.done)
  rw [hwindow _ rfl, h.bytes, Nat.add_comm p.len 3, window_add, hheader _ rfl,
    Nat.add_comm p.data 3, hwindow _ rfl, h.bytes, frame, h.block_length, List.append_assoc]
  rfl

theorem sendPkt_good (hseq : s.seq = BitVec.ofNat 8 (s.done + 1)) (h : s.Held p) :
    (s.sendPkt p).Good := by
  rw [sendPkt]
  split
  · exact ⟨hseq, h.of_eq rfl rfl rfl rfl fun _ => rfl⟩
  · exact build_good hseq h

theorem copied_stored (h : s.Stored 0 s.dataLen) {bytes : List Byte}
    (hroom : s.dataLen + bytes.length ≤ s.dataMax) :
    (s.copied bytes).Stored 0 (s.copied bytes).dataLen := by
  have hfront := h.front rfl
  have hgiven := h.given
  have hlen : (s.given ++ bytes).length = s.done * s.dataMax + (s.dataLen + bytes.length) := by
    rw [List.length_append, hgiven, hfront, Nat.add_assoc]
  have hstart : blockStart s.oneK (s.given ++ bytes).length s.done = s.done * s.dataMax :=
    blockStart_mul rfl (by omega)
  have hbytes : window (store s.pkt (3 + s.dataLen) bytes) 3 (s.dataLen + bytes.length) =
      (s.given ++ bytes).drop (s.done * s.dataMax) := by
    have hold := h.bytes
    rw [hfront] at hold
    rw [window_store_behind rfl, List.drop_append_of_le_length (by omega), ← hold]
  refine ⟨?_, ?_, (Nat.zero_add _).symm, hroom, Nat.dvd_zero 128, fun _ => hstart⟩
  · exact hlen.trans (congrArg (· + (s.dataLen + bytes.length)) hstart.symm)
  · exact hbytes.trans (congrArg (fun i => (s.given ++ bytes).drop i) hstart.symm)

theorem blockSize_dataMax (s : XmodemSnd) : blockSize s.oneK s.dataMax = s.dataMax := by
  rw [blockSize, dataMax]
  cases s.oneK <;> rfl

/-- A full buffer holds a packet. -/
theorem full_held (h : s.Stored 0 s.dataLen) (hfull : s.dataLen = s.dataMax) (src : List Byte) :
    s.Held ⟨0, s.dataLen, .loop src⟩ := by
  have hgiven := h.given
  have hmax : 0 < s.dataMax := by
    rcases s.dataMax_cases with ⟨-, hmax⟩ | ⟨-, hmax⟩ <;> omega
  have hsize : s.dataLen = blockSize s.oneK s.dataLen := by
    rw [hfull, s.blockSize_dataMax]
  have hpos : 0 < s.dataLen := hfull ▸ hmax
  refine @Stored.held s ⟨0, s.dataLen, .loop src⟩ h hpos hsize ?_ ⟨rfl, hfull⟩
  show window s.pkt (3 + 0) s.dataLen =
    List.take s.dataLen _ ++ List.replicate (s.dataLen - s.dataLen) 0
  rw [h.bytes, Nat.sub_self, List.replicate_zero, List.append_nil,
    List.take_of_length_le (by rw [List.length_drop]; omega)]

theorem loopTurn_good (hseq : s.seq = BitVec.ofNat 8 (s.done + 1)) (h : s.Stored 0 s.dataLen)
    (src : List Byte) : (s.loopTurn src).Good := by
  have hfits := h.fits
  generalize hbytes : src.take (min src.length (s.dataMax - s.dataLen)) = bytes
  have hroom : s.dataLen + bytes.length ≤ s.dataMax := by
    rw [← hbytes, List.length_take]
    omega
  have hstored := copied_stored h hroom
  simp only [loopTurn, hbytes]
  split
  next hfull => exact sendPkt_good hseq (full_held hstored hfull _)
  · exact ⟨hseq, hstored.of_eq rfl rfl rfl rfl rfl⟩

/-- The padding stands behind the bytes that are left. -/
theorem pad_window {data rem size : Nat} :
    window (s.pad data (min rem size) size).pkt (3 + data) rem = window s.pkt (3 + data) rem := by
  rcases Nat.lt_or_ge rem size with hlt | hge
  · exact window_store_apart (Or.inl (by omega))
  · have hnone : size - min rem size = 0 := by omega
    rw [pad, hnone, List.replicate_zero, store_nil]

theorem eotTurn_good (hseq : s.seq = BitVec.ofNat 8 (s.done + 1)) {data rem size : Nat}
    (h : 0 < rem → s.Stored data rem ∧ size = blockSize s.oneK rem) :
    (s.eotTurn data rem size).Good := by
  rw [eotTurn]
  split
  next hpos =>
    obtain ⟨hold, hsize⟩ := h hpos
    have hgiven := hold.given
    have hstored : (s.pad data (min rem size) size).Stored data rem :=
      hold.of_eq rfl rfl rfl rfl pad_window
    refine sendPkt_good hseq (@Stored.held _ ⟨data, size, .eot rem (min rem size)⟩
      hstored hpos hsize ?_ rfl)
    have hbytes : window (s.pad data (min rem size) size).pkt (3 + data) rem =
        s.given.drop (blockStart s.oneK s.given.length s.done) := hstored.bytes
    show window (s.pad data (min rem size) size).pkt (3 + data) size =
      (s.given.drop (blockStart s.oneK s.given.length s.done)).take size ++
        List.replicate (size - rem) 0
    rcases Nat.lt_or_ge rem size with hlt | hge
    · have hbehind : window (s.pad data (min rem size) size).pkt (3 + data + rem) (size - rem) =
          List.replicate (size - rem) 0 := by
        rw [Nat.min_eq_left (Nat.le_of_lt hlt)]
        exact window_store List.length_replicate
      have hsum : rem + (size - rem) = size := by omega
      calc window (s.pad data (min rem size) size).pkt (3 + data) size
          = window (s.pad data (min rem size) size).pkt (3 + data) rem ++
              window (s.pad data (min rem size) size).pkt (3 + data + rem) (size - rem) := by
            rw [← window_add, hsum]
        _ = s.given.drop (blockStart s.oneK s.given.length s.done) ++
              List.replicate (size - rem) 0 := by rw [hbytes, hbehind]
        _ = _ := by rw [List.take_of_length_le (by rw [List.length_drop]; omega)]
    · rw [Nat.sub_eq_zero_of_le hge, List.replicate_zero, List.append_nil, ← window_take hge,
        hbytes]
  · trivial

/-- Behind a packet the caller goes on with the next one. -/
theorem proceed_good (hseq : s.seq = BitVec.ofNat 8 (s.done + 1 + 1)) (h : s.Held p) :
    (s.proceed p).Good := by
  have hgiven := h.stored.given
  have hfits := h.stored.fits
  have hlen := h.stored.dataLen
  have hstart : blockStart s.oneK s.given.length (s.done + 1) =
      blockStart s.oneK s.given.length s.done + p.len := by
    rw [blockStart, h.size]
    congr 2
    omega
  rcases p with ⟨data, size, ⟨src⟩ | ⟨dataLen, len⟩⟩
  · obtain ⟨hdata, hfull⟩ : data = 0 ∧ s.dataLen = s.dataMax := h.caller
    have hsize : size = s.dataMax := by
      have hblock : size = blockSize s.oneK s.dataLen := h.size
      rw [hblock, hfull, s.blockSize_dataMax]
    have hnext : ({ s with done := s.done + 1, dataLen := 0 } : XmodemSnd).Stored 0 0 := by
      have hend : s.given.length = blockStart s.oneK s.given.length (s.done + 1) := by
        rw [hstart, hsize, ← hfull]
        exact hgiven
      refine ⟨hend, ?_, rfl, Nat.zero_le _, Nat.dvd_zero 128, fun _ => ?_⟩
      · rw [window_zero]
        exact (List.drop_of_length_le (Nat.le_of_eq hend)).symm
      · have hfront := h.stored.front hdata
        show blockStart s.oneK s.given.length (s.done + 1) = (s.done + 1) * s.dataMax
        rw [hstart, hsize, hfront, Nat.succ_mul]
    simp only [proceed]
    split
    · exact ⟨hseq, hnext.of_eq rfl rfl rfl rfl rfl⟩
    · exact loopTurn_good hseq hnext src
  · have hmin : len = min dataLen size := h.caller
    have hblock : size = blockSize s.oneK dataLen := h.size
    have hstart : blockStart s.oneK s.given.length (s.done + 1) =
        blockStart s.oneK s.given.length s.done + size := hstart
    have hdata : s.dataLen = data + dataLen := hlen
    refine eotTurn_good hseq fun hpos => ?_
    have hlen' : len = size := by omega
    rw [hlen'] at hpos ⊢
    have h128 : size = 128 ∧ blockSize s.oneK (dataLen - size) = 128 := by
      rcases blockSize_cases s.oneK dataLen with ⟨h1024, honeK, -⟩ | ⟨hshort, hle⟩
      · rcases s.dataMax_cases with ⟨-, hmax⟩ | ⟨hstd, -⟩
        · omega
        · rw [honeK] at hstd
          cases hstd
      · refine ⟨hblock.trans hshort, ?_⟩
        rcases blockSize_cases s.oneK (dataLen - size) with ⟨-, honeK, hlong⟩ | ⟨hnext, -⟩
        · rcases hle with hstd | hle
          · rw [honeK] at hstd
            cases hstd
          · omega
        · exact hnext
    refine ⟨⟨?_, ?_, ?_, hfits, ?_, fun hzero => ?_⟩, h128.1.trans h128.2.symm⟩
    · have hold : s.given.length = blockStart s.oneK s.given.length s.done + dataLen := hgiven
      show s.given.length = blockStart s.oneK s.given.length (s.done + 1) + (dataLen - size)
      omega
    · have hbytes : window s.pkt (3 + data) dataLen =
          s.given.drop (blockStart s.oneK s.given.length s.done) := h.stored.bytes
      show window s.pkt (3 + (data + size)) (dataLen - size) =
        s.given.drop (blockStart s.oneK s.given.length (s.done + 1))
      rw [hstart, ← List.drop_drop, ← hbytes, window_drop (by omega), Nat.add_assoc]
    · show s.dataLen = data + size + (dataLen - size)
      omega
    · show 128 ∣ data + size
      exact Nat.dvd_add h.stored.aligned (by omega)
    · omega

theorem eotCall_good (hseq : s.seq = BitVec.ofNat 8 (s.done + 1)) (h : s.Stored 0 s.dataLen) :
    s.eotCall.Good := by
  have hfits := h.fits
  refine eotTurn_good hseq fun _ => ⟨h, ?_⟩
  rcases blockSize_cases s.oneK s.dataLen with ⟨hsize, honeK, hlong⟩ | ⟨hsize, hshort⟩
  · rw [hsize, if_neg (by omega), dataMax, honeK, if_pos rfl]
  · rcases s.dataMax_cases with ⟨honeK, -⟩ | ⟨-, hmax⟩
    · rcases hshort with hstd | hle
      · rw [honeK] at hstd
        cases hstd
      · rw [hsize, if_pos hle]
    · rw [hsize, hmax, ite_self]

/-- A call that fails at its first packet leaves the buffer as it is. -/
theorem fail_good (hseq : s.seq = BitVec.ofNat 8 (s.done + 1)) (h : s.Held p)
    (hclean : (s.fail p).spoiled = false) : (s.fail p).Good := by
  have hdata : p.data = 0 := by
    simp only [fail, Bool.or_eq_false_iff, bne_eq_false_iff_eq] at hclean
    exact hclean.2
  have hstored := h.stored
  have hlen : s.dataLen = s.left p := by rw [hstored.dataLen, hdata, Nat.zero_add]
  rw [hdata, ← hlen] at hstored
  exact ⟨hseq, hstored.of_eq rfl rfl rfl rfl rfl⟩

/-! ## Runs -/

/-- No attempt is made once the buffer or the count has gone apart: behind a `NAK` or nothing in
place of the answer to a packet, behind bytes that were flushed into the buffer, and behind a
failure of `xmodem_snd_eot` past its first packet. -/
def Clean (s : XmodemSnd) (_ : BufAct) : Prop := s.attempt.isSome = true → s.spoiled = false

instance (s : XmodemSnd) (a : BufAct) : Decidable (Clean s a) :=
  inferInstanceAs (Decidable (s.attempt.isSome = true → s.spoiled = false))

/-- What holds in every state of a run: a sender that has not gone apart is at a good place. -/
def Inv (s : XmodemSnd) : Prop := s.spoiled = false → s.Good

@[simp] theorem sendPkt_spoiled : (s.sendPkt p).spoiled = s.spoiled := by
  rw [sendPkt]
  split <;> rfl

@[simp] theorem loopTurn_spoiled (src : List Byte) : (s.loopTurn src).spoiled = s.spoiled := by
  simp only [loopTurn]
  split
  · exact sendPkt_spoiled
  · rfl

@[simp] theorem eotTurn_spoiled (data rem size : Nat) :
    (s.eotTurn data rem size).spoiled = s.spoiled := by
  rw [eotTurn]
  split
  · exact sendPkt_spoiled
  · rfl

@[simp] theorem proceed_spoiled : (s.proceed p).spoiled = s.spoiled := by
  rw [proceed]
  rcases p.caller with src | ⟨dataLen, len⟩
  · dsimp only
    split
    · rfl
    · exact loopTurn_spoiled src
  · exact eotTurn_spoiled _ _ _

theorem fail_inv (hseq : s.spoiled = false → s.seq = BitVec.ofNat 8 (s.done + 1))
    (h : s.spoiled = false → s.Held p) : (s.fail p).Inv := by
  intro hclean
  have hold : s.spoiled = false := (Bool.or_eq_false_iff.mp hclean).1
  exact fail_good (hseq hold) (h hold) hclean

/-- An answer is read in front of the data of the packet. -/
theorem into_window (a : Answer) {buf : Nat → Byte} {i n : Nat} :
    window (a.into buf i) (3 + i) n = window buf (3 + i) n := by
  cases a with
  | byte c => exact window_store_apart (Or.inr (by rw [List.length_singleton]; omega))
  | nothing => rfl
  | error => rfl

theorem recv_opening_inv {t : XmodemSnd} {a : Answer} (hpc : s.pc = .opening p)
    (h : s.spoiled = false → s.seq = BitVec.ofNat 8 (s.done + 1) ∧ s.Held p)
    (hstep : s.recv a = some t) : t.Inv := by
  have hheld : ∀ st : SndState, s.spoiled = false →
      ({ s with pkt := a.into s.pkt p.data, state := st } : XmodemSnd).Held p :=
    fun st hclean => (h hclean).2.of_eq rfl rfl rfl rfl fun _ => into_window a
  have hbyte : ∀ u : XmodemSnd,
      (let s := { s with pkt := a.into s.pkt p.data }
       let c := s.pkt p.data
       if c = can then some (s.fail p)
       else if c = charC then some ({ s with state := .crc }.build p)
       else if c = nak then some ({ s with state := .cks }.build p)
       else some s) = some u → u.Inv := by
    intro u hu
    dsimp only at hu
    split at hu
    · cases hu
      exact fail_inv (fun hclean => (h hclean).1) (hheld s.state)
    · split at hu
      · cases hu
        exact fun hclean => build_good (h hclean).1 (hheld .crc hclean)
      · split at hu
        · cases hu
          exact fun hclean => build_good (h hclean).1 (hheld .cks hclean)
        · cases hu
          intro hclean
          rw [Good, hpc]
          exact ⟨(h hclean).1, (hheld s.state hclean).of_eq rfl rfl rfl rfl fun _ => rfl⟩
  cases a with
  | byte c => exact hbyte t (by simpa only [recv, hpc] using hstep)
  | nothing => exact hbyte t (by simpa only [recv, hpc] using hstep)
  | error =>
      simp only [recv, hpc, Option.some.injEq] at hstep
      subst hstep
      exact fail_inv (fun hclean => (h hclean).1) fun hclean => (h hclean).2

theorem recv_answer_inv {t : XmodemSnd} {a : Answer} {fcs : List Byte} {retry : Nat}
    (hpc : s.pc = .answer p fcs retry)
    (h : s.spoiled = false → s.seq = BitVec.ofNat 8 (s.done + 1) ∧ s.Held p)
    (hstep : s.recv a = some t) : t.Inv := by
  cases a with
  | byte c =>
      have hheld : ∀ seq : Byte, s.spoiled = false →
          ({ s with pkt := store s.pkt p.data [c], seq := seq } : XmodemSnd).Held p :=
        fun seq hclean => (h hclean).2.of_eq rfl rfl rfl rfl fun _ => into_window (.byte c)
      simp only [recv, hpc] at hstep
      split at hstep
      · cases hstep
        intro hclean
        rw [proceed_spoiled] at hclean
        refine proceed_good ?_ ((hheld s.seq hclean).of_eq rfl rfl rfl rfl fun _ => rfl)
        show s.seq + BitVec.ofNat 8 1 = BitVec.ofNat 8 (s.done + 1 + 1)
        rw [(h hclean).1, ← BitVec.ofNat_add]
      · split at hstep
        · cases hstep
          exact fun hclean =>
            ⟨(h hclean).1, (hheld s.seq hclean).of_eq rfl rfl rfl rfl fun _ => rfl⟩
        · cases hstep
          exact nofun
  | nothing =>
      simp only [recv, hpc, Option.some.injEq] at hstep
      subst hstep
      intro hclean
      rw [proceed_spoiled] at hclean
      cases hclean
  | error =>
      simp only [recv, hpc, Option.some.injEq] at hstep
      subst hstep
      exact fail_inv (fun hclean => (h hclean).1) fun hclean => (h hclean).2

theorem reset_good (s : XmodemSnd) : s.reset.Good :=
  ⟨rfl, rfl, rfl, rfl, Nat.zero_le _, Nat.dvd_zero 128, fun _ => (Nat.zero_mul _).symm⟩

theorem Inv.ready (h : s.Inv) (hidle : s.idle = true) (hclean : s.spoiled = false) :
    s.seq = BitVec.ofNat 8 (s.done + 1) ∧ s.Stored 0 s.dataLen := by
  have hgood := h hclean
  rw [idle] at hidle
  split at hidle
  next hpc =>
    rw [Good, hpc] at hgood
    exact hgood
  · cases hidle

/-- Every step keeps the invariant. -/
theorem step_inv {t : XmodemSnd} {a : BufAct} (h : s.Inv) (hstep : s.step a = some t) : t.Inv := by
  cases a with
  | loop src =>
      rw [step] at hstep
      split at hstep
      next hidle =>
        cases hstep
        intro hclean
        rw [loopTurn_spoiled] at hclean
        exact loopTurn_good (h.ready hidle hclean).1 (h.ready hidle hclean).2 src
      · cases hstep
  | eot =>
      rw [step] at hstep
      split at hstep
      next hidle =>
        cases hstep
        intro hclean
        rw [eotCall, eotTurn_spoiled] at hclean
        exact eotCall_good (h.ready hidle hclean).1 (h.ready hidle hclean).2
      · cases hstep
  | recv a =>
      rcases hpc : s.pc with _ | p | _ | ⟨p, fcs, retry⟩ | _ | _
      case opening =>
        refine recv_opening_inv hpc ?_ hstep
        simpa only [Inv, Good, hpc] using h
      case answer =>
        refine recv_answer_inv hpc ?_ hstep
        simpa only [Inv, Good, hpc] using h
      all_goals simp [step, recv, hpc] at hstep
  | send sent =>
      rcases hpc : s.pc with _ | _ | ⟨p, fcs, retry⟩ | _ | _ | _
      case sending =>
        have hheld : s.spoiled = false → s.seq = BitVec.ofNat 8 (s.done + 1) ∧ s.Held p := by
          intro hclean
          have hgood := h hclean
          rw [Good, hpc] at hgood
          exact ⟨hgood.1, hgood.2.1⟩
        simp only [step, send, hpc, Option.some.injEq] at hstep
        subst hstep
        split
        · exact fun hclean =>
            ⟨(hheld hclean).1, (hheld hclean).2.of_eq rfl rfl rfl rfl fun _ => rfl⟩
        · exact fail_inv (fun hclean => (hheld hclean).1) fun hclean => (hheld hclean).2
      case closing =>
        simp only [step, send, hpc, Option.some.injEq] at hstep
        subst hstep
        exact fun _ => s.reset_good
      all_goals simp [step, send, hpc] at hstep
  | flush bytes =>
      rcases hpc : s.pc with _ | _ | _ | _ | p | _
      case flushing =>
        simp only [Inv, Good, hpc] at h
        simp only [step, flush, hpc] at hstep
        split at hstep
        · cases hstep
          exact fail_inv (fun hclean => (h hclean).1) fun hclean => (h hclean).2
        · split at hstep
          · cases hstep
            exact nofun
          · cases hstep
      all_goals simp [step, flush, hpc] at hstep

theorem init_inv (oneK : Bool) (pkt : Nat → Byte) : (init oneK pkt).Inv := fun _ =>
  ⟨rfl, rfl, rfl, rfl, Nat.zero_le _, Nat.dvd_zero 128, fun _ => (Nat.zero_mul _).symm⟩

theorem Inv.wellFormed (h : s.Inv) {a : BufAct} (hclean : Clean s a) : s.WellFormed := by
  intro bytes hbytes
  have hgood := h (hclean (by rw [hbytes]; rfl))
  rcases hpc : s.pc with _ | _ | ⟨p, fcs, retry⟩ | _ | _ | _
  case sending =>
    rw [Good, hpc] at hgood
    obtain ⟨hseq, hheld, hattempt⟩ := hgood
    rw [hbytes] at hattempt
    refine ⟨?_, ?_⟩
    · rw [Size, hheld.block_length, hheld.size]
      rcases blockSize_cases s.oneK (s.left p) with ⟨hsize, -⟩ | ⟨hsize, -⟩
      · exact Or.inr hsize
      · exact Or.inl hsize
    · rw [← hseq]
      exact Option.some.inj hattempt
  all_goals simp [attempt, hpc] at hbytes

/-- In a run with no attempt behind such an event every attempt is well formed. -/
theorem attempts_wellFormed (oneK : Bool) (pkt : Nat → Byte) (as : List BufAct) (a : BufAct)
    (s : XmodemSnd) (hclean : Along step Clean (init oneK pkt) (as ++ [a]))
    (hrun : exec step (init oneK pkt) as = some s) : s.WellFormed := by
  have hinv : s.Inv := @exec_invariant _ _ _ _ Inv (fun _ _ _ hs _ hstep => step_inv hs hstep)
    _ _ _ (init_inv oneK pkt) (along_append_left hclean) hrun
  exact hinv.wellFormed (along_last hclean hrun)

/-- The first packet, with its answer. -/
def packet (c : Byte) : List BufAct :=
  [.loop (List.replicate 128 7), .recv (.byte charC), .send true, .recv (.byte c)]

theorem attempts_wellFormed_twoPackets :
    ∃ s, exec step (init false fun _ => 0)
        (packet ack ++ [.loop (List.replicate 128 9)]) = some s ∧
      s.attempt.isSome = true ∧ s.WellFormed := by
  have hsome : ((exec step (init false fun _ => 0)
      (packet ack ++ [.loop (List.replicate 128 9)])).any fun s => s.attempt.isSome) = true := by
    decide +kernel
  obtain ⟨s, hs, hattempt⟩ := (Option.any_eq_true _ _).mp hsome
  have hclean : Along step Clean (init false fun _ => 0)
      ((packet ack ++ [.loop (List.replicate 128 9)]) ++ [.send true]) := by decide +kernel
  exact ⟨s, hs, hattempt, attempts_wellFormed false _ _ (.send true) s hclean hs⟩

theorem frame_head (crc : Bool) (seq : Byte) (data : List Byte) :
    (frame crc seq data).head? ≠ some nak := by
  rw [frame, List.head?_cons]
  have hsoh : soh ≠ nak := by decide
  have hstx : stx ≠ nak := by decide
  split
  · exact fun h => hstx (Option.some.inj h)
  · exact fun h => hsoh (Option.some.inj h)

theorem WellFormed.head {bytes : List Byte} (h : s.WellFormed) (hbytes : s.attempt = some bytes) :
    bytes.head? ≠ some nak := by
  rw [(h bytes hbytes).2]
  exact frame_head _ _ _

/-- A packet that is sent again behind a `NAK` begins with the `NAK`. -/
theorem retransmission_malformed {t : XmodemSnd} {fcs : List Byte} {retry : Nat}
    (hpc : s.pc = .answer p fcs retry) (hretry : retry + 1 ≠ 10)
    (hstep : s.recv (.byte nak) = some t) : ¬ t.WellFormed := by
  have hack : nak ≠ ack := by decide
  have hcan : nak ≠ can := by decide
  simp only [recv, hpc, hack, hcan, hretry, if_false, ne_eq, not_true, or_self, Option.some.injEq]
    at hstep
  subst hstep
  refine fun h => h.head rfl ?_
  rw [window_succ, List.cons_append, List.head?_cons]
  show some (store s.pkt p.data [nak] p.data) = some nak
  rw [store, if_pos (Nat.le_refl _), Nat.sub_self]
  rfl

/-- The peer answers `NAK` to the first packet. -/
theorem nak_malformed :
    ¬ ∀ (oneK : Bool) (pkt : Nat → Byte) (as : List BufAct) (s : XmodemSnd),
    exec step (init oneK pkt) as = some s → s.WellFormed := by
  intro h
  have hrun : ((exec step (init false fun _ => 0) (packet nak)).any fun s =>
      s.attempt.any fun bytes => bytes.head? = some nak) = true := by decide +kernel
  obtain ⟨s, hs, hattempt⟩ := (Option.any_eq_true _ _).mp hrun
  obtain ⟨bytes, hbytes, hhead⟩ := (Option.any_eq_true _ _).mp hattempt
  exact (h false _ _ s hs).head hbytes (of_decide_eq_true hhead)

end XmodemSnd

end YardIce.Xmodem
