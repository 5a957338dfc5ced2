import YardIce.IceComm.Lossless

/-!
# Text through the trace channel

The target writes a text with `ice_io_comm_write` while the debugger takes words out of the ring of
the block and advances `tx_tail`. Whatever it takes, and whenever, the words behind those that were
in the ring are the text, with a carriage return before each newline and zeros in between.
-/

namespace YardIce.IceComm

open YardIce.Lib

/-! ## The words in the ring -/

/-- The number of words that the debugger has not taken. -/
def CommBlk.unread (blk : CommBlk) : Nat := (blk.txHead - blk.txTail).toNat

/-- The word of the ring at a place behind the tail. -/
def CommBlk.word (blk : CommBlk) (i : Nat) : Word :=
  blk.txBuf.u32 ((blk.txTail + BitVec.ofNat 16 i).setWidth 4)

/-- These words, in the order of the ring. -/
def CommBlk.ringWords (blk : CommBlk) : List Word := (List.range blk.unread).map blk.word

/-- A target that writes, and the words that the debugger has taken. -/
structure Pipe where
  blk : CommBlk
  device : Device
  got : List Word

/-- A step: an access of the target, or the debugger takes some words and advances the tail. -/
inductive Turn
  | device
  | take (n : Nat)

def Pipe.step (s : Pipe) : Turn → Option Pipe
  | .device => (s.device.step s.blk).map fun r => { s with blk := r.1, device := r.2.1 }
  | .take n =>
      if n ≤ s.blk.unread then
        some { s with
          blk := { s.blk with txTail := s.blk.txTail + BitVec.ofNat 16 n }
          got := s.got ++ s.blk.ringWords.take n }
      else none

/-- The words taken and those in the ring. -/
def Pipe.words (s : Pipe) : List Word := s.got ++ s.blk.ringWords

/-! ## Texts -/

/-- The bytes of a word in their order in the buffer. -/
def bytesOf (w : Word) : List Byte := [byteOf w 0, byteOf w 1, byteOf w 2, byteOf w 3]

/-- The text in words: their bytes without zeros. -/
def text (ws : List Word) : List Byte := (ws.flatMap bytesOf).filter (· ≠ 0)

/-- A text with a carriage return before each newline. -/
def crlf (cp : List Byte) : List Byte := cp.flatMap fun c : Byte => if c = 0x0a then [0x0d, c] else [c]

/-- A call of `ice_io_comm_write` on a connected block. -/
structure Writing (cp : List Byte) (s : Pipe) : Prop where
  connected : s.blk.dbg = dbgConnected
  call : s.device = .testConnected (iceIoCommWrite cp)

/-- What a call does in every run: it adds its text to the words in the ring, it leaves the words
that have not been taken, and it returns if there is room again and again. -/
structure Preserves (s : Pipe) (cp : List Byte) : Prop where
  adds : ∀ turns t, exec Pipe.step s turns = some t → t.device = .idle →
    ∃ ws, t.words = s.words ++ ws ∧ text ws = crlf cp
  leaves : ∀ turns t u, exec Pipe.step s turns = some t → t.step .device = some u →
    ∀ i < t.blk.unread, u.blk.word i = t.blk.word i
  returns : ∀ (st : ℕ → Pipe) (turn : ℕ → Turn), st 0 = s →
    (∀ n, (st n).step (turn n) = some (st (n + 1))) →
    (∀ n, (st n).device ≠ .idle → ∃ m ≥ n, turn m = .device ∧ (st m).blk.unread < 16) →
    ∃ n, (st n).device = .idle

/-! ## The copy of a batch -/

theorem bytesOf_ofBytes (b₀ b₁ b₂ b₃ : Byte) : bytesOf (ofBytes b₀ b₁ b₂ b₃) = [b₀, b₁, b₂, b₃] := by
  have hget : ∀ n, (ofBytes b₀ b₁ b₂ b₃).getLsbD n = if n < 8 then b₀.getLsbD n
      else if n < 16 then b₁.getLsbD (n - 8) else if n < 24 then b₂.getLsbD (n - 16)
        else b₃.getLsbD (n - 24) := by
    intro n
    simp only [ofBytes, BitVec.getLsbD_append]
    split_ifs <;> first | rfl | lia
  have hbyte : ∀ (i : BitVec 2) (k : Nat) (b : Byte), 8 * i.toNat = k →
      (∀ n < 8, (ofBytes b₀ b₁ b₂ b₃).getLsbD (k + n) = b.getLsbD n) →
      byteOf (ofBytes b₀ b₁ b₂ b₃) i = b := by
    rintro i k b rfl h
    apply BitVec.eq_of_getLsbD_eq
    intro n hn
    rw [byteOf, BitVec.getLsbD_extractLsb', h n hn, decide_eq_true hn, Bool.true_and]
  rw [bytesOf, hbyte 0 0 b₀ rfl, hbyte 1 8 b₁ rfl, hbyte 2 16 b₂ rfl, hbyte 3 24 b₃ rfl]
  all_goals
    intro n hn
    rw [hget]
  · rw [if_neg (by lia), if_neg (by lia), if_neg (by lia), Nat.add_sub_cancel_left]
  · rw [if_neg (by lia), if_neg (by lia), if_pos (by lia), Nat.add_sub_cancel_left]
  · rw [if_neg (by lia), if_pos (by lia), Nat.add_sub_cancel_left]
  · rw [if_pos (by lia), Nat.zero_add]

theorem text_append (ws ws' : List Word) : text (ws ++ ws') = text ws ++ text ws' := by
  rw [text, List.flatMap_append, List.filter_append]
  rfl

theorem text_wordsOfBytes {bs : List Byte} (hlen : 4 ∣ bs.length) :
    text (wordsOfBytes bs) = bs.filter (· ≠ 0) := by
  induction bs using wordsOfBytes.induct with
  | case1 b₀ b₁ b₂ b₃ bs ih =>
      have hrest : 4 ∣ bs.length := by
        simp only [List.length_cons] at hlen
        lia
      have hsplit : text (wordsOfBytes (b₀ :: b₁ :: b₂ :: b₃ :: bs)) =
          (bytesOf (ofBytes b₀ b₁ b₂ b₃)).filter (· ≠ 0) ++ text (wordsOfBytes bs) := by
        rw [text, wordsOfBytes, List.flatMap_cons, List.filter_append]
        rfl
      rw [hsplit, bytesOf_ofBytes, ih hrest, ← List.filter_append]
      rfl
  | case2 bs hne =>
      -- What is left has less than four bytes, so it has none.
      rcases bs with _ | ⟨b₀, _ | ⟨b₁, _ | ⟨b₂, _ | ⟨b₃, bs⟩⟩⟩⟩
      · rfl
      · simp at hlen
      · simp at hlen
      · simp at hlen
      · exact absurd rfl (hne b₀ b₁ b₂ b₃ bs)

theorem filter_padded (bs : List Byte) : (padded bs).filter (· ≠ 0) = bs.filter (· ≠ 0) := by
  rw [padded, List.filter_append]
  simp

/-- The characters placed are those consumed, with their carriage returns. -/
theorem ioCopy_crlf (bound i : Nat) (cp : List Byte) :
    ∃ done, cp = done ++ (ioCopy bound i cp).2 ∧ (ioCopy bound i cp).1 = crlf done := by
  induction cp generalizing i with
  | nil => exact ⟨[], rfl, rfl⟩
  | cons c cp ih =>
      rw [ioCopy]
      split_ifs with hb hc
      · obtain ⟨done, hcp, hcrlf⟩ := ih (i + 2)
        refine ⟨c :: done, congrArg (c :: ·) hcp, ?_⟩
        rw [crlf, List.flatMap_cons, if_pos hc, hcrlf]
        rfl
      · obtain ⟨done, hcp, hcrlf⟩ := ih (i + 1)
        refine ⟨c :: done, congrArg (c :: ·) hcp, ?_⟩
        rw [crlf, List.flatMap_cons, if_neg hc, hcrlf]
        rfl
      · exact ⟨[], rfl, rfl⟩

theorem length_ioCopy_rest_le (bound i : Nat) (cp : List Byte) :
    (ioCopy bound i cp).2.length ≤ cp.length := by
  obtain ⟨done, hcp, -⟩ := ioCopy_crlf bound i cp
  have hlen := congrArg List.length hcp
  rw [List.length_append] at hlen
  lia

/-- With room for a character at least one is consumed. -/
theorem length_ioCopy_rest_lt {bound : Nat} {cp : List Byte} (hb : 0 < bound) (hne : cp ≠ []) :
    (ioCopy bound 0 cp).2.length < cp.length := by
  cases cp with
  | nil => exact absurd rfl hne
  | cons c cp =>
      rw [ioCopy, if_pos hb]
      split_ifs with hc
      · exact Nat.lt_succ_of_le (length_ioCopy_rest_le bound 2 cp)
      · exact Nat.lt_succ_of_le (length_ioCopy_rest_le bound 1 cp)

theorem zero_not_mem_crlf {cp : List Byte} (h : 0 ∉ cp) : 0 ∉ crlf cp := by
  intro hmem
  obtain ⟨c, hc, hmem⟩ := List.mem_flatMap.mp hmem
  have hzero : c ≠ 0 := fun h0 => h (h0 ▸ hc)
  split at hmem
  · simp only [List.mem_cons, List.not_mem_nil, or_false] at hmem
    rcases hmem with hmem | hmem
    · cases hmem
    · exact hzero hmem.symm
  · exact hzero (List.mem_singleton.mp hmem).symm

theorem crlf_append (cp cp' : List Byte) : crlf (cp ++ cp') = crlf cp ++ crlf cp' :=
  List.flatMap_append

/-- The text of the words of a batch and of what remains is the text of both. -/
theorem text_batch (bound : Nat) {cp : List Byte} (h : 0 ∉ cp) :
    text (wordsOfBytes (padded (ioCopy bound 0 cp).1)) ++ crlf (ioCopy bound 0 cp).2 = crlf cp := by
  obtain ⟨done, hcp, hcrlf⟩ := ioCopy_crlf bound 0 cp
  have hdone : 0 ∉ done := by
    intro hmem
    rw [hcp] at h
    exact h (List.mem_append_left _ hmem)
  have hfilter : (crlf done).filter (· ≠ 0) = crlf done := by
    rw [List.filter_eq_self]
    intro c hc
    have hne : c ≠ 0 := fun h0 => zero_not_mem_crlf hdone (h0 ▸ hc)
    simpa using hne
  rw [text_wordsOfBytes ⟨_, length_padded _⟩, filter_padded, hcrlf, hfilter, ← crlf_append, ← hcp]
/-! ## The words of a pipe -/

section Words

variable {h : Nat} {blk : CommBlk} {got log : List Word}

theorem CommBlk.length_ringWords (blk : CommBlk) : blk.ringWords.length = blk.unread := by
  rw [CommBlk.ringWords, List.length_map, List.length_range]

theorem CommBlk.unread_lt (blk : CommBlk) : blk.unread < 2 ^ 16 := BitVec.isLt _

theorem CommBlk.word_eq {a : Nat} (htail : blk.txTail = BitVec.ofNat 16 (h + a)) (i : Nat) :
    blk.word i = blk.txBuf.u32 (BitVec.ofNat 4 (h + (a + i))) := by
  rw [CommBlk.word, htail, Ring.counter_add, setWidth_head, Nat.add_assoc]

/-- A log whose entries from the tail to the head are in the ring is the list of its words. -/
theorem words_eq (htail : blk.txTail = BitVec.ofNat 16 (h + got.length))
    (hhead : blk.txHead = BitVec.ofNat 16 (h + log.length)) (hgot : got <+: log)
    (hcount : log.length < got.length + 2 ^ 16)
    (hold : Ring.Holds blk.txBuf.u32 h log got.length) : got ++ blk.ringWords = log := by
  have hle := hgot.length_le
  have hunread : blk.unread = log.length - got.length := by
    rw [CommBlk.unread, hhead]
    exact toNat_room htail hle hcount
  have hwords : blk.ringWords = (log.drop got.length).take (log.length - got.length) := by
    rw [← hold.read (by lia), CommBlk.ringWords, hunread]
    exact List.map_congr_left fun i _ => CommBlk.word_eq htail i
  obtain ⟨rest, rfl⟩ := hgot
  rw [hwords, List.drop_left, List.take_of_length_le (by rw [List.length_append]; lia)]

theorem Pipe.length_words (s : Pipe) : s.words.length = s.got.length + s.blk.unread := by
  rw [Pipe.words, List.length_append, CommBlk.length_ringWords]

theorem Pipe.words_holds {s : Pipe} (htail : s.blk.txTail = BitVec.ofNat 16 (h + s.got.length)) :
    Ring.Holds s.blk.txBuf.u32 h s.words s.got.length := by
  intro i hi hle
  rw [Pipe.length_words] at hi
  simp only [Pipe.words, List.getElem_append_right hle, CommBlk.ringWords, List.getElem_map,
    List.getElem_range]
  rw [CommBlk.word_eq htail, Nat.add_sub_cancel' hle]

theorem Pipe.txHead_eq {s : Pipe} (htail : s.blk.txTail = BitVec.ofNat 16 (h + s.got.length)) :
    s.blk.txHead = BitVec.ofNat 16 (h + s.words.length) := by
  rw [Pipe.length_words, ← Nat.add_assoc, ← Ring.counter_add, ← htail, CommBlk.unread,
    BitVec.ofNat_toNat, BitVec.setWidth_eq, add_sub_cancel]

theorem exists_base (tail : BitVec 16) (n : Nat) : ∃ h, tail = BitVec.ofNat 16 (h + n) := by
  refine ⟨(tail - BitVec.ofNat 16 n).toNat, ?_⟩
  rw [← Ring.counter_add, BitVec.ofNat_toNat, BitVec.setWidth_eq, sub_add_cancel]

end Words

/-! ## A call in progress -/

/-- The text that a call has still to publish. -/
def Device.unsent : Device → List Byte
  | .testConnected (.write cp) => crlf cp
  | .loadHead (.write cp) => crlf cp
  | .wait (.write cp) _ => crlf cp
  | .fill _ ws _ rest => text ws ++ crlf rest
  | .publish ws _ rest => text ws ++ crlf rest
  | _ => []

/-- A text without zeros whose length is a positive `int`, or zero. -/
def Writable (cp : List Byte) : Prop := 0 ∉ cp ∧ cp.length < 2 ^ 31

/-- A call of `ice_io_comm_write` with such a text. -/
def Device.Writes : Device → Prop
  | .idle => True
  | .testConnected (.write cp) => Writable cp
  | .loadHead (.write cp) => Writable cp
  | .wait (.write cp) _ => Writable cp ∧ cp ≠ []
  | .fill stores _ _ rest => Writable rest ∧ stores.length ≤ 64
  | .publish _ _ rest => Writable rest
  | _ => False

/-- A bound of the accesses that find room until the call returns. -/
def Device.rank : Device → Nat
  | .testConnected (.write cp) => 70 * cp.length + 3
  | .loadHead (.write cp) => 70 * cp.length + 2
  | .wait (.write cp) _ => 70 * cp.length + 1
  | .fill stores _ _ rest => 70 * rest.length + stores.length + 3
  | .publish _ _ rest => 70 * rest.length + 2
  | _ => 0

/-- A call that adds the text of `cp` to the words that were in the ring. -/
structure PipeInv (h : Nat) (old : List Word) (cp : List Byte) (s : Pipe) : Prop where
  connected : s.blk.dbg = dbgConnected
  tail : s.blk.txTail = BitVec.ofNat 16 (h + s.got.length)
  device : DeviceInv h s.got.length s.words s.blk.txBuf s.device
  writes : s.device.Writes
  added : ∃ ws, s.words = old ++ ws ∧ text ws ++ s.device.unsent = crlf cp
section Steps

variable {h : Nat} {old : List Word} {cp : List Byte} {s t : Pipe}

theorem ioRem_eq {cp : List Byte} (hlen : cp.length < 2 ^ 31) : ioRem cp = cp.length := by
  have hmod : (BitVec.ofNat 32 cp.length).toNat = cp.length := by
    rw [BitVec.toNat_ofNat, Nat.mod_eq_of_lt (by lia)]
  rw [ioRem, BitVec.toInt_eq_toNat_of_lt (by lia), hmod]

theorem length_ioStores (p : BitVec 6) (bs : List Byte) : (ioStores p bs).length = bs.length := by
  induction bs generalizing p with
  | nil => rfl
  | cons b bs ih => rw [ioStores, List.length_cons, List.length_cons, ih]

theorem loaded_writes {cp : List Byte} (hw : Writable cp) (head : BitVec 16) :
    (loaded head (.write cp)).Writes ∧ (loaded head (.write cp)).unsent = crlf cp ∧
      (loaded head (.write cp)).rank ≤ 70 * cp.length + 1 := by
  cases cp with
  | nil => exact ⟨trivial, rfl, Nat.zero_le _⟩
  | cons c cp => exact ⟨⟨hw, List.cons_ne_nil c cp⟩, rfl, Nat.le_refl _⟩

/-- The end of the wait: the characters of the batch and those that remain are all there were. -/
theorem waited_writes {cp : List Byte} (hw : Writable cp) (hne : cp ≠ []) (head tail : BitVec 16) :
    (waited head tail (.write cp)).Writes ∧ (waited head tail (.write cp)).unsent = crlf cp ∧
      (waited head tail (.write cp)).rank ≤ 70 * cp.length + 1 ∧
      ((head - tail).toNat < 16 → (waited head tail (.write cp)).rank < 70 * cp.length + 1) := by
  rw [waited]
  split_ifs with hr
  · refine ⟨⟨hw, hne⟩, rfl, Nat.le_refl _, ?_⟩
    rw [ioRoom] at hr
    intro hroom
    lia
  · have hpos : 0 < cp.length := List.length_pos_of_ne_nil hne
    have hrem := ioRem_eq hw.2
    rw [ioRoom, hrem] at *
    generalize hb : (min ((16 - ((head - tail).toNat : Int)) * 4 - 1) (cp.length : Int)).toNat = b
    have hcopy := length_ioCopy b 0 cp (Nat.zero_le _)
    have hbound : 0 < b := by lia
    have hrest := length_ioCopy_rest_lt hbound hne
    have hstores : (ioStores ((head.setWidth 4 : BitVec 4) ++ 0#2)
        (padded (ioCopy b 0 cp).1)).length ≤ 64 := by
      rw [length_ioStores, length_padded, wordsOf]
      lia
    have hzero : 0 ∉ (ioCopy b 0 cp).2 := by
      obtain ⟨done, hcp, -⟩ := ioCopy_crlf b 0 cp
      intro hmem
      exact hw.1 (hcp ▸ List.mem_append_right done hmem)
    have hlen := hw.2
    refine ⟨⟨⟨hzero, by lia⟩, hstores⟩, text_batch b hw.1, ?_, ?_⟩
    · simp only [Device.rank]
      lia
    · intro _
      simp only [Device.rank]
      lia

/-- A step of the target keeps the call in progress, and brings it nearer to its end if there is
room. -/
theorem PipeInv.device_step (hi : PipeInv h old cp s) (hs : s.step .device = some t) :
    PipeInv h old cp t ∧ t.device.rank ≤ s.device.rank ∧
      (s.blk.unread < 16 → t.device.rank < s.device.rank) := by
  have hd := hi.device
  have hw := hi.writes
  obtain ⟨ws₀, hwords, htext⟩ := hi.added
  obtain ⟨r, hr, rfl⟩ := Option.map_eq_some_iff.mp hs
  cases hdev : s.device with
  | idle => simp [hdev, Device.step] at hr
  | testSync => simp [hdev, Device.Writes] at hw
  | setConnected => simp [hdev, Device.Writes] at hw
  | testConnected job =>
      cases job with
      | trace room ws => simp [hdev, Device.Writes] at hw
      | write cp' =>
          rw [hdev] at hw htext hr
          simp only [Device.step, hi.connected, if_true, Option.some.injEq] at hr
          subst hr
          exact ⟨⟨hi.connected, hi.tail, trivial, hw, ws₀, hwords, htext⟩, by simp [Device.rank],
            by simp [Device.rank]⟩
  | loadHead job =>
      cases job with
      | trace room ws => simp [hdev, Device.Writes] at hw
      | write cp' =>
          rw [hdev] at hw htext hr
          simp only [Device.step, Option.some.injEq] at hr
          subst hr
          obtain ⟨hwrites, hunsent, hrank⟩ := loaded_writes hw s.blk.txHead
          have hloaded : DeviceInv h s.got.length s.words s.blk.txBuf
              (loaded s.blk.txHead (.write cp')) := by
            rw [Pipe.txHead_eq hi.tail]
            exact loaded_inv trivial
          refine ⟨⟨hi.connected, hi.tail, hloaded, hwrites, ws₀, hwords, ?_⟩, ?_, ?_⟩
          · rw [hunsent]
            exact htext
          · exact hrank.trans (Nat.le_succ _)
          · exact fun _ => Nat.lt_succ_of_le hrank
  | wait job head =>
      cases job with
      | trace room ws => simp [hdev, Device.Writes] at hw
      | write cp' =>
          rw [hdev] at hw htext hr hd
          simp only [Device.step, Option.some.injEq] at hr
          subst hr
          have hhead : head = s.blk.txHead := hd.2.trans (Pipe.txHead_eq hi.tail).symm
          obtain ⟨hwrites, hunsent, hrank, hlt⟩ := waited_writes hw.1 hw.2 head s.blk.txTail
          have hlen := s.length_words
          have hunread := s.blk.unread_lt
          have hwaited : DeviceInv h s.got.length s.words s.blk.txBuf
              (waited head s.blk.txTail (.write cp')) := by
            rw [hd.2]
            exact waited_write_inv cp' hi.tail (by lia) (by lia) (Pipe.words_holds hi.tail)
          refine ⟨⟨hi.connected, hi.tail, hwaited, hwrites, ws₀, hwords, ?_⟩, hrank, ?_⟩
          · rw [hunsent]
            exact htext
          · rw [hhead] at hlt ⊢
            exact hlt
  | fill stores ws head rest =>
      rw [hdev] at hw htext hr hd
      obtain ⟨hhead, hfit, hf⟩ := hd
      cases stores with
      | nil =>
          simp only [Device.step, Option.some.injEq] at hr
          subst hr
          exact ⟨⟨hi.connected, hi.tail, ⟨hhead, hfit, hf.result⟩, hw.1, ws₀, hwords, htext⟩,
            by simp [Device.rank], by simp [Device.rank]⟩
      | cons a stores =>
          simp only [Device.step, Option.some.injEq] at hr
          subst hr
          have hlen := s.length_words
          have hunread := s.blk.unread_lt
          have hsame : s.got ++ ({ s.blk with txBuf := s.blk.txBuf.store a } : CommBlk).ringWords =
              s.words :=
            words_eq hi.tail (Pipe.txHead_eq hi.tail) (List.prefix_append _ _) (by lia)
              (hf.head hfit (Pipe.words_holds hi.tail))
          refine ⟨⟨hi.connected, hi.tail, ?_, ⟨hw.1, ?_⟩, ws₀, hsame.trans hwords, htext⟩, ?_, ?_⟩
          · rw [Pipe.words, hsame]
            exact ⟨hhead, hfit, hf.tail⟩
          · exact Nat.le_of_succ_le hw.2
          · simp [Device.rank]
          · simp [Device.rank]
  | publish ws head rest =>
      rw [hdev] at hw htext hr hd
      obtain ⟨hhead, hfit, hold⟩ := hd
      simp only [Device.step, Option.some.injEq] at hr
      subst hr
      have hlog : (s.words ++ ws).length = s.words.length + ws.length := List.length_append
      have hmore : s.got ++ ({ s.blk with txHead := head } : CommBlk).ringWords = s.words ++ ws :=
        words_eq hi.tail (by rw [hlog]; exact hhead)
          ((List.prefix_append _ _).trans (List.prefix_append _ _)) (by lia) hold
      obtain ⟨hwrites, hunsent, hrank⟩ := loaded_writes hw head
      have hloaded : DeviceInv h s.got.length (s.words ++ ws) s.blk.txBuf
          (loaded head (.write rest)) := by
        rw [hhead, ← hlog]
        exact loaded_inv trivial
      refine ⟨⟨hi.connected, hi.tail, ?_, hwrites, ws₀ ++ ws, ?_, ?_⟩, ?_, ?_⟩
      · rw [Pipe.words, hmore]
        exact hloaded
      · rw [← List.append_assoc, ← hwords]
        exact hmore
      · rw [hunsent, text_append, List.append_assoc]
        exact htext
      · exact hrank.trans (Nat.le_succ _)
      · exact fun _ => Nat.lt_succ_of_le hrank

/-- A step of the target leaves the words that have not been taken. -/
theorem PipeInv.device_leaves (hi : PipeInv h old cp s) (hs : s.step .device = some t) {i : Nat}
    (hlt : i < s.blk.unread) : t.blk.word i = s.blk.word i := by
  have hd := hi.device
  obtain ⟨r, hr, rfl⟩ := Option.map_eq_some_iff.mp hs
  cases hdev : s.device with
  | fill stores ws head rest =>
      rw [hdev] at hr hd
      obtain ⟨-, hfit, hf⟩ := hd
      cases stores with
      | nil =>
          simp only [Device.step, Option.some.injEq] at hr
          subst hr
          rfl
      | cons a stores =>
          simp only [Device.step, Option.some.injEq] at hr
          subst hr
          have hkept := hf.head hfit (Pipe.words_holds hi.tail)
          have hlen := s.length_words
          have hidx : s.got.length + i < s.words.length := by lia
          have hbefore := Pipe.words_holds hi.tail _ hidx (Nat.le_add_right _ _)
          have hafter := hkept _ hidx (Nat.le_add_right _ _)
          have hword := CommBlk.word_eq hi.tail i
          have hword' := @CommBlk.word_eq h { s.blk with txBuf := s.blk.txBuf.store a } _ hi.tail i
          exact hword'.trans (hafter.trans (hbefore.symm.trans hword.symm))
  | _ =>
      rw [hdev] at hr
      cases hr <;> rfl

/-- The debugger takes words from the ring. -/
theorem PipeInv.take_step {n : Nat} (hi : PipeInv h old cp s) (hs : s.step (.take n) = some t) :
    PipeInv h old cp t ∧ t.device = s.device := by
  simp only [Pipe.step, Option.ite_none_right_eq_some, Option.some.injEq] at hs
  obtain ⟨hn, rfl⟩ := hs
  have hgot : (s.got ++ s.blk.ringWords.take n).length = s.got.length + n := by
    rw [List.length_append, List.length_take, CommBlk.length_ringWords, Nat.min_eq_left hn]
  have htail : s.blk.txTail + BitVec.ofNat 16 n =
      BitVec.ofNat 16 (h + (s.got ++ s.blk.ringWords.take n).length) := by
    rw [hi.tail, Ring.counter_add, hgot, Nat.add_assoc]
  have hle : s.got.length ≤ (s.got ++ s.blk.ringWords.take n).length := by lia
  have hpre : s.got ++ s.blk.ringWords.take n <+: s.words :=
    (List.prefix_append_right_inj _).mpr (List.take_prefix _ _)
  have hlen := s.length_words
  have hunread := s.blk.unread_lt
  have hsame : s.got ++ s.blk.ringWords.take n ++
      ({ s.blk with txTail := s.blk.txTail + BitVec.ofNat 16 n } : CommBlk).ringWords = s.words :=
    words_eq htail (Pipe.txHead_eq hi.tail) hpre (by lia) ((Pipe.words_holds hi.tail).mono hle)
  obtain ⟨ws, hwords, htext⟩ := hi.added
  refine ⟨⟨hi.connected, htail, ?_, hi.writes, ws, hsame.trans hwords, htext⟩, rfl⟩
  rw [Pipe.words, hsame]
  exact hi.device.mono hle

theorem PipeInv.step {a : Turn} (hi : PipeInv h old cp s) (hs : s.step a = some t) :
    PipeInv h old cp t ∧ t.device.rank ≤ s.device.rank := by
  cases a with
  | device => exact ⟨(hi.device_step hs).1, (hi.device_step hs).2.1⟩
  | take n =>
      obtain ⟨ht, hdev⟩ := hi.take_step hs
      exact ⟨ht, by rw [hdev]⟩

theorem Writing.inv (hw : Writing cp s) (hcp : Writable cp) : ∃ h, PipeInv h s.words cp s := by
  obtain ⟨h, htail⟩ := exists_base s.blk.txTail s.got.length
  refine ⟨h, hw.connected, htail, ?_, ?_, [], (List.append_nil _).symm, ?_⟩
  · rw [hw.call]
    trivial
  · rw [hw.call]
    exact hcp
  · rw [hw.call]
    rfl

end Steps

/-! ## Runs -/

section Runs

variable {cp : List Byte} {s : Pipe}

theorem preserves_of_writable (hw : Writing cp s) (hcp : Writable cp) : Preserves s cp := by
  obtain ⟨h, hinv⟩ := hw.inv hcp
  have hrun : ∀ {turns t}, exec Pipe.step s turns = some t → PipeInv h s.words cp t := by
    intro turns t ht
    exact exec_invariant (fun u a v hu _ huv => (hu.step huv).1) hinv
      (along_of_forall (fun _ _ => trivial) s turns) ht
  constructor
  case adds =>
    intro turns t ht hidle
    obtain ⟨ws, hwords, htext⟩ := (hrun ht).added
    rw [hidle] at htext
    exact ⟨ws, hwords, (List.append_nil _).symm.trans htext⟩
  case leaves => exact fun turns t u ht hu i hi => (hrun ht).device_leaves hu hi
  case returns =>
    intro st turn hstart hstep hroom
    have hall : ∀ n, PipeInv h s.words cp (st n) := by
      intro n
      induction n with
      | zero => exact hstart ▸ hinv
      | succ n ih => exact (ih.step (hstep n)).1
    refine reaches_of_measure (μ := fun u : Pipe => u.device.rank)
      (P := fun u : Pipe => u.device = .idle) ?_ ?_
    · exact fun n => ((hall n).step (hstep n)).2
    · intro n hn
      obtain ⟨m, hm, hturn, hfree⟩ := hroom n hn
      have hdevice := hstep m
      rw [hturn] at hdevice
      exact ⟨m, hm, ((hall m).device_step hdevice).2.2 hfree⟩

end Runs
/-! ## Texts of 2 GiB -/

section Endless

variable {cp : List Byte} {s t : Pipe}

/-- A call that publishes no words and finds the same text before it again. -/
def Device.Spins (cp : List Byte) (blk : CommBlk) : Device → Prop
  | .testConnected job => job = .write cp
  | .loadHead job => job = .write cp
  | .wait job head => job = .write cp ∧ head = blk.txHead
  | .fill stores ws head rest => stores = [] ∧ ws = [] ∧ head = blk.txHead ∧ rest = cp
  | .publish ws head rest => ws = [] ∧ head = blk.txHead ∧ rest = cp
  | _ => False

/-- Such a call in front of an empty ring. -/
structure Spinning (cp : List Byte) (s : Pipe) : Prop where
  connected : s.blk.dbg = dbgConnected
  empty : s.blk.unread = 0
  spins : s.device.Spins cp s.blk

theorem ioRem_neg (hle : 2 ^ 31 ≤ cp.length) (hlt : cp.length < 2 ^ 32) : ioRem cp < 0 := by
  have hmod : (BitVec.ofNat 32 cp.length).toNat = cp.length := by
    rw [BitVec.toNat_ofNat, Nat.mod_eq_of_lt hlt]
  rw [ioRem, BitVec.toInt_eq_toNat_cond, hmod, if_neg (by lia)]
  lia

/-- A batch of a text whose length is negative is empty. -/
theorem waited_spins (hle : 2 ^ 31 ≤ cp.length) (hlt : cp.length < 2 ^ 32) {blk : CommBlk}
    (hempty : blk.unread = 0) :
    (waited blk.txHead blk.txTail (.write cp)).Spins cp blk := by
  have hneg := ioRem_neg hle hlt
  have hroom : ioRoom blk.txHead blk.txTail = 16 := by
    rw [ioRoom]
    exact congrArg (fun n : Nat => 16 - (n : Int)) hempty
  have hbound : (min ((16 : Int) * 4 - 1) (ioRem cp)).toNat = 0 := by lia
  have hcopy : ioCopy 0 0 cp = ([], cp) := by cases cp <;> rfl
  rw [waited, hroom, if_neg (by decide), hbound]
  simp only [hcopy]
  exact ⟨rfl, rfl, BitVec.add_zero _, rfl⟩

theorem loaded_spins (hle : 2 ^ 31 ≤ cp.length) (blk : CommBlk) :
    (loaded blk.txHead (.write cp)).Spins cp blk := by
  cases cp with
  | nil => exact absurd hle (by decide)
  | cons c cp => exact ⟨rfl, rfl⟩

theorem Spinning.device_step (h : Spinning cp s) (hle : 2 ^ 31 ≤ cp.length)
    (hlt : cp.length < 2 ^ 32) : ∃ t, s.step .device = some t ∧ Spinning cp t := by
  have hs := h.spins
  simp only [Pipe.step, Option.map_eq_some_iff]
  cases hdev : s.device with
  | idle => simp [hdev, Device.Spins] at hs
  | testSync => simp [hdev, Device.Spins] at hs
  | setConnected => simp [hdev, Device.Spins] at hs
  | testConnected job =>
      rw [hdev] at hs
      obtain rfl : job = .write cp := hs
      refine ⟨_, ⟨_, rfl, rfl⟩, h.connected, h.empty, ?_⟩
      simp only [h.connected, if_true]
      rfl
  | loadHead job =>
      rw [hdev] at hs
      obtain rfl : job = .write cp := hs
      exact ⟨_, ⟨_, rfl, rfl⟩, h.connected, h.empty, loaded_spins hle s.blk⟩
  | wait job head =>
      rw [hdev] at hs
      obtain ⟨rfl, rfl⟩ := hs
      exact ⟨_, ⟨_, rfl, rfl⟩, h.connected, h.empty, waited_spins hle hlt h.empty⟩
  | fill stores ws head rest =>
      rw [hdev] at hs
      obtain ⟨rfl, rfl, rfl, rfl⟩ := hs
      exact ⟨_, ⟨_, rfl, rfl⟩, h.connected, h.empty, rfl, rfl, rfl⟩
  | publish ws head rest =>
      rw [hdev] at hs
      obtain ⟨rfl, rfl, rfl⟩ := hs
      exact ⟨_, ⟨_, rfl, rfl⟩, h.connected, h.empty, loaded_spins hle s.blk⟩

/-- The debugger takes all words once, and then the target alone takes steps. -/
def drainTurn (s : Pipe) : ℕ → Turn
  | 0 => .take s.blk.unread
  | _ + 1 => .device

/-- The states of that run. -/
def drained (s : Pipe) : ℕ → Pipe
  | 0 => s
  | n + 1 => ((drained s n).step (drainTurn s n)).getD (drained s n)

theorem Writing.drained_step (hw : Writing cp s) (hle : 2 ^ 31 ≤ cp.length)
    (hlt : cp.length < 2 ^ 32) (n : ℕ) :
    (drained s n).step (drainTurn s n) = some (drained s (n + 1)) ∧
      Spinning cp (drained s (n + 1)) := by
  have hsome : ∀ {m t}, (drained s m).step (drainTurn s m) = some t → drained s (m + 1) = t := by
    intro m t h
    rw [drained, h, Option.getD_some]
  induction n with
  | zero =>
      have hstep : (drained s 0).step (drainTurn s 0) = some { s with
          blk := { s.blk with txTail := s.blk.txTail + BitVec.ofNat 16 s.blk.unread }
          got := s.got ++ s.blk.ringWords.take s.blk.unread } := if_pos (Nat.le_refl _)
      rw [hstep, hsome hstep]
      refine ⟨rfl, hw.connected, ?_, ?_⟩
      · have hall : s.blk.txTail + BitVec.ofNat 16 s.blk.unread = s.blk.txHead := by
          rw [CommBlk.unread, BitVec.ofNat_toNat, BitVec.setWidth_eq, add_sub_cancel]
        change (s.blk.txHead - (s.blk.txTail + BitVec.ofNat 16 s.blk.unread)).toNat = 0
        rw [hall, sub_self]
        rfl
      · rw [hw.call]
        rfl
  | succ n ih =>
      obtain ⟨t, hstep, ht⟩ := ih.2.device_step hle hlt
      rw [hsome (m := n + 1) hstep]
      exact ⟨hstep, ht⟩

theorem not_preserves_of_long (hw : Writing cp s) (hle : 2 ^ 31 ≤ cp.length)
    (hlt : cp.length < 2 ^ 32) : ¬Preserves s cp := by
  intro h
  have hsteps := hw.drained_step hle hlt
  have hnever : ∀ n, (drained s n).device ≠ .idle := by
    intro n hidle
    cases n with
    | zero =>
        have hcall := hw.call
        rw [show s.device = .idle from hidle] at hcall
        cases hcall
    | succ n =>
        have hspins := (hsteps n).2.spins
        rw [hidle] at hspins
        exact hspins
  obtain ⟨n, hn⟩ := h.returns (drained s) (drainTurn s) rfl (fun n => (hsteps n).1)
    fun n _ => ⟨n + 1, Nat.le_succ n, rfl, by rw [(hsteps n).2.empty]; decide⟩
  exact hnever n hn

/-- A text without zeros goes through the ring, whatever the debugger takes and when, exactly if its
length is no negative number as an `int`. -/
theorem preserves_iff (hw : Writing cp s) (hzero : 0 ∉ cp) (hlen : cp.length < 2 ^ 32) :
    Preserves s cp ↔ cp.length < 2 ^ 31 := by
  constructor
  · intro h
    by_contra hlong
    exact not_preserves_of_long hw (Nat.le_of_not_lt hlong) hlen h
  · exact fun hshort => preserves_of_writable hw ⟨hzero, hshort⟩

/-- A connected block, both counters about to wrap, in front of a call. -/
def writer (cp : List Byte) : Pipe where
  blk := ⟨0xffff, devConnected, 0xfffd, dbgConnected, fun _ => 0x2e⟩
  device := .testConnected (iceIoCommWrite cp)
  got := []

theorem writing_writer (cp : List Byte) : Writing cp (writer cp) := ⟨rfl, rfl⟩

theorem preserves_iff_hello : Preserves (writer [0x68, 0x69, 0x0a]) [0x68, 0x69, 0x0a] :=
  (preserves_iff (writing_writer _) (by decide) (by decide)).mpr (by decide)

/-- A text of 2 GiB is written for ever. -/
theorem not_preserves_two_gib : ¬Preserves (writer (List.replicate (2 ^ 31) 0x61))
    (List.replicate (2 ^ 31) 0x61) := by
  have hlen : (List.replicate (2 ^ 31) (0x61 : Byte)).length = 2 ^ 31 := List.length_replicate
  exact not_preserves_of_long (writing_writer _) hlen.ge (by rw [hlen]; decide)

end Endless

end YardIce.IceComm
