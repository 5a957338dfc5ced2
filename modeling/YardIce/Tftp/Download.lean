import YardIce.Tftp.Packets

/-!
# Reading a file from the target

A client reads a range of the target in octet mode and acknowledges the blocks in order,
each of them any number of times. The server finds the block to send, the bytes that are
left and the end of the range from the number of the acknowledgement, which has 16 bits,
and from a signed difference of addresses: a range of 65536 blocks or more is sent from
its beginning again and again, and one of 2 GiB or more is not sent at all.
-/

namespace YardIce.Tftp

open IceDrv (Word)
open Lib

variable {σ : Type}

/-- The bytes of a range of the target. -/
def contents (mem : Word → Byte) (range : MemRange) : List Byte :=
  (List.range range.size.toNat).map fun i => mem (range.base + BitVec.ofNat 32 i)

/-- While the target is as `holds` says, `target_mem_read` gives the bytes of the memory
`mem` and leaves it so. -/
def Target.Reads (t : Target σ) (holds : σ → Prop) (mem : Word → Byte) : Prop :=
  ∀ addr (n : Nat) target, holds target →
    (t.memRead addr n target).1 = n ∧
    (t.memRead addr n target).2.1 =
      ((List.range n).map fun i => mem (addr + BitVec.ofNat 32 i)) ∧
    holds (t.memRead addr n target).2.2

/-- The variables of a transfer to the client. -/
structure Sending (holds : σ → Prop) (range : MemRange) (b : Nat) (s : Server σ) : Prop where
  target : holds s.dbg.target
  state : s.state = .sendOctet
  addrStart : s.addrStart = range.base
  addrEnd : s.addrEnd = range.base + range.size
  blksize : s.blksize = b

/-! ## The block of a number -/

theorem length_contents (mem : Word → Byte) (range : MemRange) :
    (contents mem range).length = range.size.toNat := by
  rw [contents, List.length_map, List.length_range]

/-- The bytes read for a block are the block of that number of the range. -/
theorem block_contents (mem : Word → Byte) (range : MemRange) (b k : Nat) :
    block b (contents mem range) k = (List.range (min b (range.size.toNat - k * b))).map
      fun i => mem (range.base + BitVec.ofNat 32 (k * b) + BitVec.ofNat 32 i) := by
  apply List.ext_getElem
  · rw [length_block, length_contents, List.length_map, List.length_range]
  · intro i h₁ h₂
    simp only [block, contents, List.getElem_take, List.getElem_drop, List.getElem_map,
      List.getElem_range]
    rw [BitVec.ofNat_add, BitVec.add_assoc]

/-- The value of `rem` is the signed difference of the end and the address. -/
theorem rem_eq (base size : Word) {m : Nat} (hs : size.toNat < 2 ^ 31) (hm : m < 2 ^ 31) :
    (base + size - (base + BitVec.ofNat 32 m)).toInt = (size.toNat : Int) - m := by
  have hsub : base + size - (base + BitVec.ofNat 32 m) = size - BitVec.ofNat 32 m := by
    rw [BitVec.add_comm base size, ← BitVec.sub_sub, BitVec.add_sub_cancel]
  have hsize : size.toInt = size.toNat := BitVec.toInt_eq_toNat_of_lt (by omega)
  have hmod : m % 2 ^ 32 = m := Nat.mod_eq_of_lt (by omega)
  have hnum : (BitVec.ofNat 32 m).toInt = m := by
    rw [BitVec.toInt_eq_toNat_of_lt] <;> rw [BitVec.toNat_ofNat, hmod]
    omega
  rw [hsub, BitVec.toInt_sub, hsize, hnum]
  apply Int.bmod_eq_of_le <;> omega

/-- The packet built in the buffer. -/
theorem Buf.take_store_store (buf : Buf) {hdr bs : List Byte} (hhdr : hdr.length = 4)
    (hbs : bs.length ≤ maxTftpSegsize) :
    ((buf.store 4 bs).store 0 hdr).bytes.take (4 + bs.length) = hdr ++ bs := by
  have hlen := buf.length_eq
  have hmax : maxTftpMsg = maxTftpSegsize + 4 := rfl
  have h4 : (buf.bytes.take 4).length = 4 := List.length_take_of_le (by omega)
  have hdata : ((buf.store 4 bs).bytes).drop 4 = bs ++ buf.bytes.drop (4 + bs.length) := by
    rw [Buf.bytes_store, List.take_of_length_le, List.drop_left' h4]
    simp only [List.length_append, List.length_drop, h4]
    omega
  rw [Buf.store_zero _ (by omega), hhdr, hdata, ← List.append_assoc, List.take_left']
  rw [List.length_append, hhdr]

section Blocks

variable {t : Target σ} {holds : σ → Prop} {mem : Word → Byte} {range : MemRange} {b k : Nat} {s : Server σ}

/-- A block within the range is sent. -/
theorem sendOctet_block (ht : t.Reads holds mem) (h : Sending holds range b s) (hb : b ≤ maxTftpSegsize)
    (hblock : s.block = k) (hsize : range.size.toNat < 2 ^ 31) (hk : k * b ≤ range.size.toNat) :
    ∃ s', sendOctet t 0 s =
        (s', [.sendto (dataPkt (k + 1) (block b (contents mem range) k))]) ∧
      Sending holds range b s' := by
  have hrem := rem_eq range.base range.size (m := k * b) hsize (by omega)
  have hneg : ¬(range.size.toNat : Int) - (k * b : Nat) < 0 := by omega
  have hn : (if (range.size.toNat : Int) - (k * b : Nat) < b then
      (range.size.toNat : Int) - (k * b : Nat) else b) =
      (min b (range.size.toNat - k * b) : Nat) := by
    split <;> omega
  have hread := ht (range.base + BitVec.ofNat 32 (k * b)) (min b (range.size.toNat - k * b))
    s.dbg.target h.target
  rw [← block_contents mem range b k] at hread
  have hlen : (block b (contents mem range) k).length = min b (range.size.toNat - k * b) := by
    rw [length_block, length_contents]
  have htake : (block b (contents mem range) k).take (min b (range.size.toNat - k * b)) =
      block b (contents mem range) k := List.take_of_length_le hlen.le
  have hpkt : (((s.buf.store 4 (block b (contents mem range) k)).store 0
      (be16 opcData ++ be16 (k + 1))).bytes.take (4 + min b (range.size.toNat - k * b))) =
      dataPkt (k + 1) (block b (contents mem range) k) := by
    rw [← hlen]
    exact Buf.take_store_store s.buf rfl (by omega)
  have hpos : ¬((min b (range.size.toNat - k * b) : Nat) : Int) < 0 := by omega
  simp only [sendOctet, sendData, Server.setTarget, h.addrStart, h.addrEnd, h.blksize, hblock, hrem,
    hneg, if_false, hn, hread, hpos, Int.toNat_natCast, htake, hpkt, Int.lt_irrefl]
  exact ⟨_, rfl, hread.2.2, h.state, rfl, rfl, rfl⟩

/-- An acknowledgement of the last block ends the transfer. -/
theorem sendOctet_end (h : Sending holds range b s) (hblock : s.block = k)
    (hsize : range.size.toNat < 2 ^ 31) (hkb : k * b < 2 ^ 31)
    (hk : range.size.toNat < k * b) : sendOctet t 0 s = ({ s with state := .idle }, []) := by
  have hrem := rem_eq range.base range.size hsize hkb
  apply if_pos
  rw [h.addrEnd, h.addrStart, h.blksize, hblock, hrem]
  omega

/-- In a range of 2 GiB or more the bytes left are a negative number from the start. -/
theorem sendOctet_huge (h : Sending holds range b s) (hblock : s.block = 0)
    (hsize : 2 ^ 31 ≤ range.size.toNat) : sendOctet t 0 s = ({ s with state := .idle }, []) := by
  apply if_pos
  have hlt := range.size.isLt
  have hsub : range.base + range.size - (range.base + BitVec.ofNat 32 (0 * b)) = range.size := by
    rw [Nat.zero_mul, BitVec.add_zero, BitVec.add_comm, BitVec.add_sub_cancel]
  rw [h.addrEnd, h.addrStart, h.blksize, hblock, hsub, BitVec.toInt_eq_toNat_cond,
    if_neg (by omega)]
  omega

/-! ## Acknowledgements -/

/-- A transfer to the client that waits for an acknowledgement. -/
def Waiting (holds : σ → Prop) (range : MemRange) (b : Nat) (s : Server σ) : Prop :=
  s.connected = true ∧ Sending holds range b s

theorem Sending.after (h : Sending holds range b s) : Waiting holds range b s.after :=
  ⟨by simp [Server.after, h.state], h.target, h.state, h.addrStart, h.addrEnd, h.blksize⟩

/-- The server as it looks for the block after the one acknowledged. -/
def Server.acked (s : Server σ) (n : Nat) : Server σ :=
  { s.load (dgram (ackPkt n)) with block := n % 2 ^ 16 }

theorem Sending.acked (h : Sending holds range b s) (n : Nat) : Sending holds range b (s.acked n) :=
  ⟨h.target, h.state, h.addrStart, h.addrEnd, h.blksize⟩

theorem waiting_ack (h : Waiting holds range b s) {n : Nat} {s' : Server σ} {acts : List Action}
    (hsend : sendOctet t 0 (s.acked n) = (s', acts)) :
    tftpDaemonTask t s (client (ackPkt n)) = some (s'.after, acts) := by
  have hfield := (load_ackPkt_holds s n).field_two
  have hstate : (s.load (dgram (ackPkt n))).state = .sendOctet := h.2.state
  have hack : ackPacket t 0 (s.load (dgram (ackPkt n))) = sendOctet t 0 (s.acked n) := by
    simp only [ackPacket, hfield, hstate, Server.acked]
  rw [task_ack t h.1, hack, hsend]

theorem waiting_block (ht : t.Reads holds mem) (hb : b ≤ maxTftpSegsize)
    (hsize : range.size.toNat < 2 ^ 31) (h : Waiting holds range b s) {n : Nat}
    (hn : n % 2 ^ 16 * b ≤ range.size.toNat) :
    ∃ s', tftpDaemonTask t s (client (ackPkt n)) = some (s', [.sendto
        (dataPkt (n % 2 ^ 16 + 1) (block b (contents mem range) (n % 2 ^ 16)))]) ∧
      Waiting holds range b s' := by
  obtain ⟨s', hsend, hs'⟩ := sendOctet_block ht (h.2.acked n) hb rfl hsize hn
  exact ⟨s'.after, waiting_ack h hsend, hs'.after⟩

theorem waiting_end (hsize : range.size.toNat < 2 ^ 31) (h : Waiting holds range b s) {n : Nat}
    (hnb : n % 2 ^ 16 * b < 2 ^ 31) (hn : range.size.toNat < n % 2 ^ 16 * b) :
    ∃ s', tftpDaemonTask t s (client (ackPkt n)) = some (s', []) ∧ Ended s' :=
  ⟨_, waiting_ack h (sendOctet_end (h.2.acked n) rfl hsize hnb hn), Ended.after rfl⟩

theorem ack_dropped (h : Ended s) (n : Nat) :
    ∃ s', tftpDaemonTask t s (client (ackPkt n)) = some (s', []) ∧ Ended s' :=
  task_dropped t h (.inr rfl) (load_ackPkt_holds s n)

end Blocks

/-! ## The blocks of a range -/

/-- The acknowledgement of a number. -/
def ackOf (k : Nat) : Event := client (ackPkt k)

/-- The packet with the block of number `k` of a range, counted from zero. -/
def blockOf (mem : Word → Byte) (range : MemRange) (b k : Nat) : List Byte :=
  dataPkt (k + 1) (block b (contents mem range) k)

section Ranges

variable {t : Target σ} {holds : σ → Prop} {mem : Word → Byte} {range : MemRange} {b : Nat} {s : Server σ}

/-- A range of at most 65535 blocks is smaller than 2 GiB. -/
theorem size_lt (hb : 0 < b) (hbmax : b ≤ maxTftpSegsize)
    (hwire : range.size.toNat / b < 65535) : range.size.toNat < 2 ^ 31 := by
  have hlt : range.size.toNat < 65535 * b := Nat.lt_mul_of_div_lt hwire hb
  have hmax : maxTftpSegsize = 1428 := rfl
  omega

/-- The blocks are sent in order, each as often as the one before it is acknowledged. -/
theorem waiting_blocks (ht : t.Reads holds mem) (hb : 0 < b) (hbmax : b ≤ maxTftpSegsize) (r : ℕ → ℕ)
    (hwire : range.size.toNat / b < 65535) {lo n : Nat} (hn : lo + n ≤ range.size.toNat / b + 1)
    (h : Waiting holds range b s) :
    ∃ s' acts, respond (tftpDaemonTask t) s (copies r ackOf (List.range' lo n)) =
        some (s', acts) ∧ Waiting holds range b s' ∧
      sent acts = copies r (blockOf mem range b) (List.range' lo n) := by
  have hsize := size_lt hb hbmax hwire
  have hstep : ∀ k (u : Server σ), lo ≤ k → k < lo + n → Waiting holds range b u →
      ∃ u', tftpDaemonTask t u (ackOf k) = some (u', [.sendto (blockOf mem range b k)]) ∧
        Waiting holds range b u' := by
    intro k u _ hk hu
    have hmod : k % 2 ^ 16 = k := Nat.mod_eq_of_lt (by omega)
    have hkb : k * b ≤ range.size.toNat :=
      (Nat.mul_le_mul_right b (by omega)).trans (Nat.div_mul_le_self range.size.toNat b)
    have hblock := waiting_block ht hbmax hsize hu (n := k) (by rwa [hmod])
    rwa [hmod] at hblock
  obtain ⟨s', hrun, hs'⟩ := respond_copies (I := fun _ => Waiting holds range b) r lo n hstep hstep h
  refine ⟨s', _, hrun, hs', ?_⟩
  rw [sent_flatMap, copies]
  congr 1
  funext k
  rw [sent_append, sent_replicate]
  rfl

/-- The acknowledgement of the last block ends the transfer of a range of at most 65535
blocks. -/
theorem waiting_range (ht : t.Reads holds mem) (hb : 0 < b) (hbmax : b ≤ maxTftpSegsize) (r : ℕ → ℕ)
    (hwire : range.size.toNat / b < 65535) {lo : Nat} (hlo : lo ≤ range.size.toNat / b + 1)
    (h : Waiting holds range b s) :
    ∃ s' acts, respond (tftpDaemonTask t) s
        (copies r ackOf (List.range' lo (range.size.toNat / b + 2 - lo))) = some (s', acts) ∧
      s'.state = .idle ∧ sent acts =
        copies r (blockOf mem range b) (List.range' lo (range.size.toNat / b + 1 - lo)) := by
  have hsize := size_lt hb hbmax hwire
  have hmax : maxTftpSegsize = 1428 := rfl
  have hlast : lo + (range.size.toNat / b + 1 - lo) = range.size.toNat / b + 1 := by omega
  have hmod : (range.size.toNat / b + 1) % 2 ^ 16 = range.size.toNat / b + 1 :=
    Nat.mod_eq_of_lt (by omega)
  have hover : range.size.toNat < (range.size.toNat / b + 1) * b :=
    Nat.lt_mul_of_div_lt (Nat.lt_succ_self _) hb
  have hbound : (range.size.toNat / b + 1) * b < 2 ^ 31 := by
    have hdiv := Nat.div_mul_le_self range.size.toNat b
    have hlt : range.size.toNat < 65535 * b := Nat.lt_mul_of_div_lt hwire hb
    rw [Nat.succ_mul]
    omega
  obtain ⟨u, acts, hrun, hu, hsent⟩ := waiting_blocks ht hb hbmax r hwire hlast.le h
  obtain ⟨v, hend, hv⟩ : ∃ v, tftpDaemonTask t u (ackOf (range.size.toNat / b + 1)) =
      some (v, []) ∧ Ended v :=
    waiting_end hsize hu (by rwa [hmod]) (by rwa [hmod])
  have hdropped : ∀ w : Server σ, ∀ e ∈ List.replicate (r (range.size.toNat / b + 1))
      (ackOf (range.size.toNat / b + 1)), Ended w →
      ∃ w', tftpDaemonTask t w e = some (w', []) ∧ Ended w' := by
    intro w e he hw
    rw [List.eq_of_mem_replicate he]
    exact ack_dropped hw _
  obtain ⟨s', hrest, hs'⟩ := respond_silent hdropped hv
  refine ⟨s', acts ++ ([] ++ []), ?_, hs'.state, ?_⟩
  · have hcount : range.size.toNat / b + 2 - lo = range.size.toNat / b + 1 - lo + 1 := by omega
    rw [hcount, List.range'_1_concat, hlast, copies_append, copies_singleton]
    exact respond_append hrun (respond_cons hend hrest)
  · rw [List.append_nil, List.append_nil, hsent]

/-- A longer range below 2 GiB is sent for ever. -/
theorem waiting_long_range (ht : t.Reads holds mem) (hbmax : b ≤ maxTftpSegsize)
    (hsize : range.size.toNat < 2 ^ 31) (hwire : 65535 ≤ range.size.toNat / b) (r : ℕ → ℕ)
    (ks : List ℕ) (h : Waiting holds range b s) :
    ∃ s' acts, respond (tftpDaemonTask t) s (copies r ackOf ks) = some (s', acts) ∧
      Waiting holds range b s' := by
  apply respond_invariant _ h
  intro u e he hu
  obtain ⟨k, -, rfl⟩ := mem_copies he
  have hmod := Nat.mod_lt k (show 2 ^ 16 > 0 by decide)
  have hkb : k % 2 ^ 16 * b ≤ range.size.toNat :=
    (Nat.mul_le_mul_right b (by omega)).trans (Nat.div_mul_le_self range.size.toNat b)
  obtain ⟨u', hstep, hu'⟩ := waiting_block ht hbmax hsize hu hkb
  exact ⟨u', _, hstep, hu'⟩

end Ranges

/-! ## Downloads -/

/-- The first number the client acknowledges: a request with an option is answered by an
OACK, which it acknowledges with zero. -/
def firstAck (req : Req) : Nat := if req.opt ≠ [] then 0 else 1

theorem firstAck_le_one (req : Req) : firstAck req ≤ 1 := by
  rw [firstAck]
  split <;> omega

/-- The packets in answer to a read request. -/
def offered (mem : Word → Byte) (range : MemRange) (req : Req) : List (List Byte) :=
  if req.opt ≠ [] then sent (tftpOack req.opt) else [blockOf mem range req.blksize 0]

/-- The download of a range: the packets sent are its blocks in order, the last of them
shorter than the others, each as often as the one before it was acknowledged, and the
server ends idle. -/
structure Downloaded (mem : Word → Byte) (range : MemRange) (req : Req) (r : ℕ → ℕ)
    (s' : Server σ) (acts : List Action) : Prop where
  blocks : sent acts = offered mem range req ++ copies r (blockOf mem range req.blksize)
    (List.range' (firstAck req) (range.size.toNat / req.blksize + 1 - firstAck req))
  idle : s'.state = .idle

/-- What the task does with a read request and the acknowledgements of all blocks, the one
of number `k` received `r k + 1` times, is a download of the range. -/
def Downloads (t : Target σ) (mem : Word → Byte) (s : Server σ) (pkt : List Byte) (req : Req)
    (range : MemRange) (r : ℕ → ℕ) : Prop :=
  ∃ s' acts, respond (tftpDaemonTask t) s (client pkt :: copies r ackOf
      (List.range' (firstAck req) (range.size.toNat / req.blksize + 2 - firstAck req))) =
        some (s', acts) ∧ Downloaded mem range req r s' acts

section Downloads

variable {t : Target σ} {holds : σ → Prop} {mem : Word → Byte} {s : Server σ} {pkt : List Byte} {req : Req}
  {range : MemRange}

/-- A read request is answered by an OACK or by the first block. -/
theorem OctetRequest.sending (t : Target σ) (holds : σ → Prop)
    (h : OctetRequest s opcRrq pkt req range) (hs : holds s.dbg.target) :
    ∃ u, Sending holds range req.blksize u ∧ u.block = 0 ∧
      tftpDaemonTask t s (client pkt) = some (if req.opt ≠ [] then (u.after, tftpOack req.opt)
        else ((sendOctet t 0 u).1.after, (sendOctet t 0 u).2)) := by
  obtain ⟨u, hstart, hu⟩ := h.startTransfer
  have hmode : u.req.mode = .octet := by rw [hu.req_eq, h.octet]
  refine ⟨{ u with state := .sendOctet }, ⟨hu.target_eq ▸ hs, rfl, hu.addrStart,
    hu.addrEnd, hu.blksize⟩, hu.block, ?_⟩
  rw [task_request t (.inl rfl) pkt h.opcode, serve_eq, dispatch, h.opcode, if_pos rfl,
    readRequest, hstart, ← hu.req_eq]
  simp only [Option.bind_eq_bind, Option.bind_some, hmode, Bool.not_true, Bool.false_eq_true,
    if_false]
  by_cases hopt : u.req.opt ≠ []
  · rw [if_pos hopt, if_pos hopt]
    rfl
  · rw [if_neg hopt, if_neg hopt]
    rfl

/-- A range below 2 GiB is offered. -/
theorem OctetRequest.waiting (ht : t.Reads holds mem) (hs : holds s.dbg.target)
    (h : OctetRequest s opcRrq pkt req range) (hsize : range.size.toNat < 2 ^ 31) :
    ∃ s' acts, tftpDaemonTask t s (client pkt) = some (s', acts) ∧
      Waiting holds range req.blksize s' ∧ sent acts = offered mem range req := by
  obtain ⟨u, hu, hblock, hstep⟩ := h.sending t holds hs
  by_cases hopt : req.opt ≠ []
  · rw [if_pos hopt] at hstep
    exact ⟨u.after, _, hstep, hu.after, (if_pos hopt).symm⟩
  · rw [if_neg hopt] at hstep
    obtain ⟨v, hsend, hv⟩ := sendOctet_block ht hu h.blksize_le hblock hsize
      (by rw [Nat.zero_mul]; exact Nat.zero_le _)
    rw [hsend] at hstep
    exact ⟨v.after, _, hstep, hv.after, (if_neg hopt).symm⟩

/-- Nothing of a range of 2 GiB or more is sent. -/
theorem OctetRequest.huge (t : Target σ) (h : OctetRequest s opcRrq pkt req range)
    (hsize : 2 ^ 31 ≤ range.size.toNat) (r : ℕ → ℕ) (n : Nat) :
    ∃ s', respond (tftpDaemonTask t) s (client pkt :: copies r ackOf
        (List.range' (firstAck req) (n + 1))) =
      some (s', if req.opt ≠ [] then tftpOack req.opt else []) := by
  obtain ⟨u, hu, hblock, hstep⟩ := h.sending t (fun _ => True) trivial
  have hdropped : ∀ w : Server σ, ∀ e ∈ copies r ackOf (List.range' (firstAck req) (n + 1)),
      Ended w → ∃ w', tftpDaemonTask t w e = some (w', []) ∧ Ended w' := by
    intro w e he hw
    obtain ⟨k, -, rfl⟩ := mem_copies he
    exact ack_dropped hw k
  by_cases hopt : req.opt ≠ []
  · rw [if_pos hopt] at hstep
    obtain ⟨v, hend, hv⟩ : ∃ v, tftpDaemonTask t u.after (ackOf 0) = some (v, []) ∧ Ended v :=
      ⟨_, waiting_ack hu.after (sendOctet_huge (hu.after.2.acked 0) rfl hsize), Ended.after rfl⟩
    rw [firstAck, if_pos hopt, List.range'_succ, copies_cons] at hdropped
    obtain ⟨s', hrest, -⟩ :=
      respond_silent (fun w e he => hdropped w e (List.mem_cons_of_mem _ he)) hv
    refine ⟨s', ?_⟩
    rw [firstAck, if_pos hopt, if_pos hopt, List.range'_succ, copies_cons]
    simpa using respond_cons hstep (respond_cons hend hrest)
  · rw [if_neg hopt, sendOctet_huge hu hblock hsize] at hstep
    obtain ⟨s', hrest, -⟩ :=
      respond_silent hdropped (Ended.after (s := { u with state := .idle }) rfl)
    rw [if_neg hopt]
    exact ⟨s', respond_cons hstep hrest⟩

theorem downloads_of_short (ht : t.Reads holds mem) (hs : holds s.dbg.target)
    (hreq : OctetRequest s opcRrq pkt req range) (hb : 0 < req.blksize) (r : ℕ → ℕ) (hwire : range.size.toNat / req.blksize < 65535) :
    Downloads t mem s pkt req range r := by
  have hlo : firstAck req ≤ range.size.toNat / req.blksize + 1 :=
    (firstAck_le_one req).trans (Nat.le_add_left _ _)
  obtain ⟨u, acts, hstep, hu, hsent⟩ :=
    hreq.waiting ht hs (size_lt hb hreq.blksize_le hwire)
  obtain ⟨s', acts', hrun, hidle, hsent'⟩ :=
    waiting_range ht hb hreq.blksize_le r hwire hlo hu
  refine ⟨s', acts ++ acts', respond_cons hstep hrun, ?_, hidle⟩
  rw [sent_append, hsent, hsent']

theorem not_downloads_of_long (ht : t.Reads holds mem) (hs : holds s.dbg.target)
    (hreq : OctetRequest s opcRrq pkt req range) (r : ℕ → ℕ) (hsize : range.size.toNat < 2 ^ 31)
    (hwire : 65535 ≤ range.size.toNat / req.blksize) : ¬Downloads t mem s pkt req range r := by
  rintro ⟨s', acts, hrun, hdown⟩
  obtain ⟨u, acts₁, hstep, hu, -⟩ := hreq.waiting ht hs hsize
  obtain ⟨v, acts₂, hrun', hv⟩ := waiting_long_range ht hreq.blksize_le hsize hwire r
    (List.range' (firstAck req) (range.size.toNat / req.blksize + 2 - firstAck req)) hu
  have hend := hrun.symm.trans (respond_cons hstep hrun')
  simp only [Option.some.injEq, Prod.mk.injEq] at hend
  have hidle := hdown.idle
  rw [hend.1, hv.2.state] at hidle
  cases hidle

theorem not_downloads_of_huge (t : Target σ) (mem : Word → Byte)
    (hreq : OctetRequest s opcRrq pkt req range) (r : ℕ → ℕ)
    (hsize : 2 ^ 31 ≤ range.size.toNat) : ¬Downloads t mem s pkt req range r := by
  rintro ⟨s', acts, hrun, hdown⟩
  have hcount : range.size.toNat / req.blksize + 2 - firstAck req =
      range.size.toNat / req.blksize + 1 - firstAck req + 1 :=
    Nat.succ_sub ((firstAck_le_one req).trans (Nat.le_add_left _ _))
  obtain ⟨v, hrun'⟩ := hreq.huge t hsize r (range.size.toNat / req.blksize + 1 - firstAck req)
  rw [← hcount] at hrun'
  have hend := hrun.symm.trans hrun'
  simp only [Option.some.injEq, Prod.mk.injEq] at hend
  have hblocks := hdown.blocks
  rw [hend.2, offered] at hblocks
  by_cases hopt : req.opt ≠ []
  · rw [if_pos hopt, if_pos hopt, firstAck, if_pos hopt, Nat.sub_zero, List.range'_succ,
      copies_cons, List.self_eq_append_right] at hblocks
    cases hblocks
  · rw [if_neg hopt, if_neg hopt] at hblocks
    cases hblocks

/-- A range is downloaded for all that the acknowledgements are repeated exactly if it has at
most 65535 blocks. -/
theorem downloads_iff (t : Target σ) (ht : t.Reads holds mem) (hs : holds s.dbg.target)
    (hreq : OctetRequest s opcRrq pkt req range) (hb : 0 < req.blksize) (r : ℕ → ℕ) :
    Downloads t mem s pkt req range r ↔ range.size.toNat / req.blksize < 65535 := by
  constructor
  · intro hdown
    by_contra hwire
    by_cases hsize : range.size.toNat < 2 ^ 31
    · exact not_downloads_of_long ht hs hreq r hsize (Nat.le_of_not_lt hwire) hdown
    · exact not_downloads_of_huge t mem hreq r (Nat.le_of_not_lt hsize) hdown
  · exact downloads_of_short ht hs hreq hb r

theorem ram_reads (mem : Word → Byte) : ram.Reads (· = mem) mem := by
  rintro addr n target rfl
  exact ⟨rfl, by simp [ram], rfl⟩

theorem octetRequest_rrq_four : OctetRequest ramServer opcRrq (requestPkt opcRrq "0x100.10" 4)
    (blksizeReq 4) ⟨0x100, 10⟩ := by
  constructor <;> decide

theorem octetRequest_rrq_huge :
    OctetRequest ramServer opcRrq (requestPkt opcRrq "0x0.0x80000000" 1024) (blksizeReq 1024)
      ⟨0, 0x80000000⟩ := by
  constructor <;> decide

/-- Ten bytes in blocks of four, each acknowledgement received twice. -/
theorem downloads_iff_ten_bytes : Downloads ram ramBytes ramServer
    (requestPkt opcRrq "0x100.10" 4) (blksizeReq 4) ⟨0x100, 10⟩ (fun _ => 1) :=
  (downloads_iff ram (ram_reads _) rfl octetRequest_rrq_four (by decide) _).mpr (by decide)

/-- Nothing is sent of a range of 2 GiB. -/
theorem not_downloads_two_gib : ¬Downloads ram ramBytes ramServer
    (requestPkt opcRrq "0x0.0x80000000" 1024) (blksizeReq 1024) ⟨0, 0x80000000⟩ (fun _ => 0) :=
  not_downloads_of_huge ram _ octetRequest_rrq_huge _ (by decide)

end Downloads

end YardIce.Tftp
