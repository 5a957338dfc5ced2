import YardIce.Tftp.Packets

/-!
# Writing a file to the target

A client writes a file in octet mode: after the request it sends the blocks of the file
in order, each of them again for every acknowledgement that is lost. The block number of
the server is an `int` and that of a packet has 16 bits, so that a file of more than
65535 blocks is not written.
-/

namespace YardIce.Tftp

open IceDrv (Word)
open Lib

variable {σ : Type}

/-! ## What the server did -/

/-- The bytes of a text from an address on, each with its own address. -/
def place (addr : Word) (data : List Byte) : List (Word × Byte) :=
  data.mapIdx fun i x => (addr + BitVec.ofNat 32 i, x)

/-- The bytes an action writes to the target. -/
def Action.written : Action → List (Word × Byte)
  | .sendto _ => []
  | .memWrite addr data => place addr data

/-- The bytes written to the target, in their order. -/
def written (acts : List Action) : List (Word × Byte) := acts.flatMap Action.written

theorem written_append (as bs : List Action) : written (as ++ bs) = written as ++ written bs :=
  List.flatMap_append

theorem written_flatMap {α : Type} (l : List α) (f : α → List Action) :
    written (l.flatMap f) = l.flatMap fun a => written (f a) :=
  List.flatMap_assoc

theorem written_acks (n m : Nat) : written (List.replicate m [tftpAck n]).flatten = [] := by
  induction m with
  | zero => rfl
  | succ m ih => exact ih

theorem place_append (addr : Word) (l l' : List Byte) :
    place addr (l ++ l') = place addr l ++ place (addr + BitVec.ofNat 32 l.length) l' := by
  rw [place, List.mapIdx_append]
  congr 1
  apply List.mapIdx_eq_mapIdx_iff.mpr
  intro i hi
  rw [Nat.add_comm, BitVec.ofNat_add, BitVec.add_assoc]

/-! ## Blocks received -/

/-- A transfer from the client that has got `k` blocks. -/
structure Receiving (start : Word) (b k : Nat) (s : Server σ) : Prop where
  connected : s.connected = true
  state : s.state = .recvOctet
  addrStart : s.addrStart = start
  blksize : s.blksize = b
  block : s.block = k

/-- `target_mem_write` takes all bytes. -/
def Target.Writes (t : Target σ) : Prop :=
  ∀ addr data (len : Nat) target, (t.memWrite addr data len target).1 = len

section Blocks

variable {t : Target σ} {start : Word} {b k : Nat} {s : Server σ} {data : List Byte}

theorem Receiving.load (h : Receiving start b k s) (d : Datagram) :
    Receiving start b k (s.load d) :=
  ⟨h.connected, h.state, h.addrStart, h.blksize, h.block⟩

theorem Receiving.after (h : Receiving start b k s) : Receiving start b k s.after :=
  ⟨by simp [Server.after, h.state], h.state, h.addrStart, h.blksize, h.block⟩

theorem dataPacket_next {len : Int} (hstate : s.state = .recvOctet)
    (hfield : s.buf.field 2 = s.block + 1) :
    dataPacket t len s = some (recvOctet t (len - 4) s) := by
  rw [dataPacket, if_neg (not_not.mpr hfield), hstate]

/-- A full block is acknowledged and written. -/
theorem recvOctet_full (ht : t.Writes) (h : Receiving start b k s) (hlen : data.length = b)
    (hdata : s.buf.data.take data.length = data) :
    ∃ s', recvOctet t data.length s =
        (s', [tftpAck (k + 1), .memWrite (start + BitVec.ofNat 32 (k * b)) data]) ∧
      Receiving start b (k + 1) s' := by
  subst hlen
  have hwrite := ht (start + BitVec.ofNat 32 (k * data.length)) data data.length s.dbg.target
  simp only [recvOctet, h.block, h.blksize, h.addrStart, h.state, Int.toNat_natCast, hdata, hwrite,
    Int.lt_irrefl, Server.setTarget, ne_eq, not_true_eq_false, false_and, if_false]
  exact ⟨_, rfl, h.connected, rfl, rfl, rfl, rfl⟩

/-- The last block is written, acknowledged and ends the transfer. -/
theorem recvOctet_last (ht : t.Writes) (h : Receiving start b k s) (hlen : data.length < b)
    (hdata : s.buf.data.take data.length = data) :
    ∃ s' acts, recvOctet t data.length s = (s', acts) ∧ s'.state = .idle ∧
      sent acts = [ackPkt (k + 1)] ∧
      written acts = place (start + BitVec.ofNat 32 (k * b)) data := by
  have hsize : (data.length : Int) ≠ b := by omega
  have hwrite := ht (start + BitVec.ofNat 32 (k * b)) data data.length s.dbg.target
  by_cases hzero : (data.length : Int) = 0
  · have hnil : data = [] := List.length_eq_zero_iff.mp (Int.natCast_eq_zero.mp hzero)
    have hsize' : (data.length : Int) ≠ s.blksize := by
      rw [h.blksize]
      exact hsize
    refine ⟨_, _, if_pos ⟨hsize', hzero⟩, rfl, ?_, ?_⟩
    · rw [h.block]
      rfl
    · rw [hnil]
      rfl
  · simp only [recvOctet, h.block, h.blksize, h.addrStart, Int.toNat_natCast, hdata, hwrite,
      Int.lt_irrefl, Server.setTarget, ne_eq, hsize, hzero, not_false_eq_true, and_false, if_true,
      if_false]
    exact ⟨_, _, rfl, rfl, rfl, List.append_nil _⟩

/-! ## Packets received -/

/-- A packet with another number than the next one is taken as a retransmission. -/
theorem receiving_retransmission (h : Receiving start b k s)
    (hlen : data.length ≤ maxTftpSegsize) {n : Nat} (hn : n % 2 ^ 16 ≠ k + 1) :
    ∃ s', tftpDaemonTask t s (client (dataPkt n data)) = some (s', [tftpAck k]) ∧
      Receiving start b k s' := by
  have hload := h.load (dgram (dataPkt n data))
  have hfield : (s.load (dgram (dataPkt n data))).buf.field 2 = n % 2 ^ 16 :=
    (load_holds s opcData n hlen).field_two
  refine ⟨(s.load (dgram (dataPkt n data))).after, ?_, hload.after⟩
  rw [task_data t h.connected n hlen, dataPacket, hfield, hload.block, if_pos hn]
  rfl

/-- The packet with the next number is stored. -/
theorem receiving_next (h : Receiving start b k s) (hlen : data.length ≤ maxTftpSegsize)
    (hk : k + 1 < 2 ^ 16) {s' : Server σ} {acts : List Action}
    (hrecv : recvOctet t data.length (s.load (dgram (dataPkt (k + 1) data))) = (s', acts)) :
    tftpDaemonTask t s (client (dataPkt (k + 1) data)) = some (s'.after, acts) := by
  have hload := h.load (dgram (dataPkt (k + 1) data))
  have hfield : (s.load (dgram (dataPkt (k + 1) data))).buf.field 2 =
      (s.load (dgram (dataPkt (k + 1) data))).block + 1 := by
    rw [hload.block]
    exact (load_holds s opcData (k + 1) hlen).field_two.trans (Nat.mod_eq_of_lt hk)
  have hsub : ((data.length + 4 : Nat) : Int) - 4 = data.length := by omega
  rw [task_data t h.connected (k + 1) hlen, dataPacket_next hload.state hfield, hsub, hrecv]
  rfl

theorem receiving_full (ht : t.Writes) (h : Receiving start b k s) (hbmax : b ≤ maxTftpSegsize)
    (hk : k + 1 < 2 ^ 16) (hlen : data.length = b) :
    ∃ s', tftpDaemonTask t s (client (dataPkt (k + 1) data)) =
        some (s', [tftpAck (k + 1), .memWrite (start + BitVec.ofNat 32 (k * b)) data]) ∧
      Receiving start b (k + 1) s' := by
  have hmax : data.length ≤ maxTftpSegsize := hlen ▸ hbmax
  obtain ⟨s', hrecv, hs'⟩ := recvOctet_full ht (h.load (dgram (dataPkt (k + 1) data))) hlen
    (load_holds s opcData (k + 1) hmax).data_take
  exact ⟨s'.after, receiving_next h hmax hk hrecv, hs'.after⟩

theorem receiving_last (ht : t.Writes) (h : Receiving start b k s) (hbmax : b ≤ maxTftpSegsize)
    (hk : k + 1 < 2 ^ 16) (hlen : data.length < b) :
    ∃ s' acts, tftpDaemonTask t s (client (dataPkt (k + 1) data)) = some (s', acts) ∧
      Ended s' ∧ sent acts = [ackPkt (k + 1)] ∧
      written acts = place (start + BitVec.ofNat 32 (k * b)) data := by
  have hmax : data.length ≤ maxTftpSegsize := hlen.le.trans hbmax
  obtain ⟨s', acts, hrecv, hidle, hsent, hwritten⟩ :=
    recvOctet_last ht (h.load (dgram (dataPkt (k + 1) data))) hlen
      (load_holds s opcData (k + 1) hmax).data_take
  exact ⟨s'.after, acts, receiving_next h hmax hk hrecv, Ended.after hidle, hsent, hwritten⟩

end Blocks

/-! ## The blocks of a file -/

/-- The packet with the block of number `k` of a file, counted from zero. -/
def blockPkt (b : Nat) (file : List Byte) (k : Nat) : Event :=
  client (dataPkt (k + 1) (block b file k))

section Files

variable {t : Target σ} {start : Word} {b : Nat} {s : Server σ} {file : List Byte}

theorem length_block_le (b : Nat) (file : List Byte) (k : Nat) : (block b file k).length ≤ b :=
  List.length_take_le _ _

theorem place_blocks (start : Word) {n : Nat} (hn : n ≤ file.length / b) :
    ((List.range' 0 n).flatMap fun k => place (start + BitVec.ofNat 32 (k * b)) (block b file k)) =
      place start (file.take (n * b)) := by
  induction n with
  | zero => simp [place]
  | succ n ih =>
      have hle : n * b ≤ file.length :=
        (Nat.mul_le_mul_right b (Nat.le_of_succ_le hn)).trans (Nat.div_mul_le_self _ _)
      have hlen : (file.take (n * b)).length = n * b := List.length_take_of_le hle
      rw [List.range'_1_concat, Nat.zero_add, List.flatMap_append, List.flatMap_singleton,
        ih (Nat.le_of_succ_le hn), ← take_append_block, place_append, hlen]

/-- The full blocks are written, and each copy of a block is acknowledged. -/
theorem receiving_blocks (ht : t.Writes) (hb : b ≤ maxTftpSegsize) (r : ℕ → ℕ) {n : Nat}
    (hn : n ≤ file.length / b) (hwire : n < 2 ^ 16) (h : Receiving start b 0 s) :
    ∃ s' acts, respond (tftpDaemonTask t) s (copies r (blockPkt b file) (List.range' 0 n)) =
        some (s', acts) ∧ Receiving start b n s' ∧
      sent acts = copies r (fun k => ackPkt (k + 1)) (List.range' 0 n) ∧
      written acts = place start (file.take (n * b)) := by
  have hfirst : ∀ k (u : Server σ), 0 ≤ k → k < 0 + n → Receiving start b k u →
      ∃ u', tftpDaemonTask t u (blockPkt b file k) = some (u', [tftpAck (k + 1),
        .memWrite (start + BitVec.ofNat 32 (k * b)) (block b file k)]) ∧
        Receiving start b (k + 1) u' := by
    intro k u _ hk hu
    exact receiving_full ht hu hb (by omega) (length_block_of_lt (by omega))
  have hagain : ∀ k (u : Server σ), 0 ≤ k → k < 0 + n → Receiving start b (k + 1) u →
      ∃ u', tftpDaemonTask t u (blockPkt b file k) = some (u', [tftpAck (k + 1)]) ∧
        Receiving start b (k + 1) u' := by
    intro k u _ hk hu
    apply receiving_retransmission hu ((length_block_le b file k).trans hb)
    omega
  obtain ⟨s', hrun, hs'⟩ := respond_copies r 0 n hfirst hagain h
  rw [Nat.zero_add] at hs'
  refine ⟨s', _, hrun, hs', ?_, ?_⟩
  · rw [sent_flatMap, copies]
    congr 1
    funext k
    rw [sent_append, tftpAck, sent_replicate]
    rfl
  · rw [written_flatMap, ← place_blocks start hn]
    congr 1
    funext k
    rw [written_append, written_acks, List.append_nil]
    exact List.append_nil _

/-- A file of at most 65535 blocks is written, and ends the transfer. Only the first copy of
its last block is acknowledged. -/
theorem receiving_file (ht : t.Writes) (hb : 0 < b) (hbmax : b ≤ maxTftpSegsize) (r : ℕ → ℕ)
    (hwire : file.length / b < 65535) (h : Receiving start b 0 s) :
    ∃ s' acts, respond (tftpDaemonTask t) s
        (copies r (blockPkt b file) (List.range' 0 (file.length / b + 1))) = some (s', acts) ∧
      s'.state = .idle ∧ written acts = place start file ∧
      sent acts = copies r (fun k => ackPkt (k + 1)) (List.range' 0 (file.length / b)) ++
        [ackPkt (file.length / b + 1)] := by
  obtain ⟨u, acts, hrun, hu, hsent, hwritten⟩ :=
    receiving_blocks ht hbmax r (le_refl (file.length / b)) (by omega) h
  obtain ⟨v, last, hlast, hend, hsent', hwritten'⟩ :=
    receiving_last ht hu hbmax (by omega) (length_block_last hb file)
  have hdropped : ∀ w : Server σ, ∀ e ∈ List.replicate (r (file.length / b))
      (blockPkt b file (file.length / b)), Ended w →
      ∃ w', tftpDaemonTask t w e = some (w', []) ∧ Ended w' := by
    intro w e he hw
    rw [List.eq_of_mem_replicate he]
    exact task_dropped t hw (.inl rfl) (load_holds w opcData (file.length / b + 1)
      ((length_block_le b file (file.length / b)).trans hbmax))
  obtain ⟨s', hrest, hs'⟩ := respond_silent hdropped hend
  refine ⟨s', acts ++ (last ++ []), ?_, hs'.state, ?_, ?_⟩
  · rw [List.range'_1_concat, Nat.zero_add, copies_append, copies_singleton]
    exact respond_append hrun (respond_cons hlast hrest)
  · have hlen : (file.take (file.length / b * b)).length = file.length / b * b :=
      List.length_take_of_le (Nat.div_mul_le_self _ _)
    calc
      written (acts ++ (last ++ [])) = written acts ++ written last := by
        rw [List.append_nil, written_append]
      _ = place start (file.take (file.length / b * b) ++ block b file (file.length / b)) := by
        rw [hwritten, hwritten', place_append, hlen]
      _ = place start file := by rw [take_append_last hb]
  · rw [List.append_nil, sent_append, hsent, hsent']

/-- A longer file is never written to its end: after 65535 blocks every packet is taken as a
retransmission. -/
theorem receiving_long_file (ht : t.Writes) (hbmax : b ≤ maxTftpSegsize) (r : ℕ → ℕ)
    (hwire : 65535 ≤ file.length / b) (h : Receiving start b 0 s) :
    ∃ s' acts, respond (tftpDaemonTask t) s
        (copies r (blockPkt b file) (List.range' 0 (file.length / b + 1))) = some (s', acts) ∧
      s'.state = .recvOctet := by
  obtain ⟨u, acts, hrun, hu, -, -⟩ := receiving_blocks ht hbmax r hwire (by decide) h
  have hkeep : ∀ w : Server σ, ∀ e ∈ copies r (blockPkt b file)
      (List.range' (0 + 65535) (file.length / b + 1 - 65535)), Receiving start b 65535 w →
      ∃ w' o, tftpDaemonTask t w e = some (w', o) ∧ Receiving start b 65535 w' := by
    intro w e he hw
    obtain ⟨k, -, rfl⟩ := mem_copies he
    have hmod := Nat.mod_lt (k + 1) (show 2 ^ 16 > 0 by decide)
    obtain ⟨w', hstep, hw'⟩ := receiving_retransmission hw
      ((length_block_le b file k).trans hbmax) (n := k + 1) (by omega)
    exact ⟨w', _, hstep, hw'⟩
  obtain ⟨s', rest, hrest, hs'⟩ := respond_invariant hkeep hu
  refine ⟨s', acts ++ rest, ?_, hs'.state⟩
  have hsplit : file.length / b + 1 = 65535 + (file.length / b + 1 - 65535) := by omega
  rw [hsplit, ← List.range'_append_1, copies_append]
  exact respond_append hrun hrest

end Files

/-! ## Uploads -/

/-- The answer to a write request. -/
def accepted (req : Req) : List Action :=
  if req.opt ≠ [] then tftpOack req.opt else [tftpAck 0]

/-- The upload of a file: after the request, every byte is written once and at its place,
each packet received is acknowledged with its own number, and the server ends idle. -/
structure Uploaded (start : Word) (b : Nat) (file : List Byte) (r : ℕ → ℕ) (s' : Server σ)
    (acts : List Action) : Prop where
  bytes : written acts = place start file
  acks : sent acts = copies r (fun k => ackPkt (k + 1)) (List.range' 0 (file.length / b + 1))
  idle : s'.state = .idle

/-- What the task does with a write request and the blocks of a file, the block of number
`k` received `r k + 1` times, is an upload of the file. -/
def Uploads (t : Target σ) (s : Server σ) (pkt : List Byte) (req : Req) (range : MemRange)
    (file : List Byte) (r : ℕ → ℕ) : Prop :=
  ∃ s' acts, respond (tftpDaemonTask t) s (client pkt :: copies r (blockPkt req.blksize file)
      (List.range' 0 (file.length / req.blksize + 1))) = some (s', accepted req ++ acts) ∧
    Uploaded range.base req.blksize file r s' acts

section Uploads

variable {t : Target σ} {s : Server σ} {pkt : List Byte} {req : Req} {range : MemRange}

/-- A write request starts a transfer at its first block. -/
theorem OctetRequest.receiving (t : Target σ) (h : OctetRequest s opcWrq pkt req range) :
    ∃ s', tftpDaemonTask t s (client pkt) = some (s', accepted req) ∧
      Receiving range.base req.blksize 0 s' := by
  obtain ⟨u, hstart, hu⟩ := h.startTransfer
  have hmode : u.req.mode = .octet := by rw [hu.req_eq, h.octet]
  have hwrite : writeRequest (s.load (dgram pkt)) = some (acceptWrite .recvOctet u) := by
    simp only [writeRequest, hstart, Option.bind_eq_bind, Option.bind_some, hmode, Bool.not_true,
      Bool.false_eq_true, if_false]
    rfl
  refine ⟨(acceptWrite .recvOctet u).1.after, ?_, rfl, rfl, hu.addrStart, hu.blksize, hu.block⟩
  rw [task_request t (.inr rfl) pkt h.opcode, serve_eq, dispatch, h.opcode, accepted, ← hu.req_eq]
  simp only [show ¬opcWrq = opcRrq by decide, if_true, if_false, hwrite, Option.map_some,
    acceptWrite, hu.block]

theorem not_uploads_of_long (ht : t.Writes) (hreq : OctetRequest s opcWrq pkt req range)
    {file : List Byte} (r : ℕ → ℕ) (hwire : 65535 ≤ file.length / req.blksize) :
    ¬Uploads t s pkt req range file r := by
  rintro ⟨s', acts, hrun, hup⟩
  obtain ⟨u, hstep, hu⟩ := hreq.receiving t
  obtain ⟨v, acts', hrun', hstate⟩ := receiving_long_file ht hreq.blksize_le r hwire hu
  have hend := hrun.symm.trans (respond_cons hstep hrun')
  simp only [Option.some.injEq, Prod.mk.injEq] at hend
  have hidle := hup.idle
  rw [hend.1, hstate] at hidle
  cases hidle

theorem uploads_iff_of_short (ht : t.Writes) (hreq : OctetRequest s opcWrq pkt req range)
    (hb : 0 < req.blksize) {file : List Byte} (r : ℕ → ℕ)
    (hwire : file.length / req.blksize < 65535) :
    Uploads t s pkt req range file r ↔ r (file.length / req.blksize) = 0 := by
  obtain ⟨u, hstep, hu⟩ := hreq.receiving t
  obtain ⟨v, acts', hrun', hidle, hwritten, hsent⟩ :=
    receiving_file ht hb hreq.blksize_le r hwire hu
  have hrun := respond_cons hstep hrun'
  have hacks : sent acts' = copies r (fun k => ackPkt (k + 1))
      (List.range' 0 (file.length / req.blksize + 1)) ↔ r (file.length / req.blksize) = 0 := by
    rw [hsent, List.range'_1_concat, Nat.zero_add, copies_append, copies_singleton,
      List.append_cancel_left_eq]
    constructor
    · intro heq
      have hlen := congrArg List.length heq
      rw [List.length_replicate, List.length_singleton] at hlen
      omega
    · intro hlast
      rw [hlast]
      rfl
  constructor
  · rintro ⟨s', acts, hrun₁, hup⟩
    have hend := hrun₁.symm.trans hrun
    simp only [Option.some.injEq, Prod.mk.injEq, List.append_cancel_left_eq] at hend
    exact hacks.mp (hend.2 ▸ hup.acks)
  · intro hlast
    exact ⟨v, acts', hrun, hwritten, hacks.mpr hlast, hidle⟩

/-- A file is uploaded for all that the packets are repeated exactly if it has at most 65535
blocks and its last block comes once. -/
theorem uploads_iff (t : Target σ) (ht : t.Writes) (hreq : OctetRequest s opcWrq pkt req range)
    (hb : 0 < req.blksize) (file : List Byte) (r : ℕ → ℕ) :
    Uploads t s pkt req range file r ↔
      file.length / req.blksize < 65535 ∧ r (file.length / req.blksize) = 0 := by
  by_cases hwire : file.length / req.blksize < 65535
  · rw [uploads_iff_of_short ht hreq hb r hwire]
    exact (and_iff_right hwire).symm
  · constructor
    · intro hup
      exact absurd hup (not_uploads_of_long ht hreq r (Nat.le_of_not_lt hwire))
    · intro h
      exact absurd h.1 hwire

theorem ram_writes : ram.Writes := fun _ _ _ _ => rfl

theorem octetRequest_wrq_two : OctetRequest ramServer opcWrq (requestPkt opcWrq "0x100" 2)
    (blksizeReq 2) ⟨0x100, 65536⟩ := by
  constructor <;> decide

theorem octetRequest_wrq_one : OctetRequest ramServer opcWrq (requestPkt opcWrq "0x100" 1)
    (blksizeReq 1) ⟨0x100, 65536⟩ := by
  constructor <;> decide

/-- Five bytes in blocks of two, the first block received three times. -/
theorem uploads_iff_five_bytes : Uploads ram ramServer (requestPkt opcWrq "0x100" 2) (blksizeReq 2)
    ⟨0x100, 65536⟩ [1, 2, 3, 4, 5] (fun k => if k = 0 then 2 else 0) :=
  (uploads_iff ram ram_writes octetRequest_wrq_two (by decide) _ _).mpr ⟨by decide, by decide⟩

/-- The block after the one of number 65535 is never written. -/
theorem not_uploads_wrapped : ¬Uploads ram ramServer (requestPkt opcWrq "0x100" 1) (blksizeReq 1)
    ⟨0x100, 65536⟩ (List.replicate 65535 0) (fun _ => 0) := by
  apply not_uploads_of_long ram_writes octetRequest_wrq_one
  rw [List.length_replicate]
  decide

end Uploads

end YardIce.Tftp
