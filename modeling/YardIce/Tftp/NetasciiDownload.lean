import YardIce.Tftp.Download
import YardIce.Tftp.HexDump

/-!
# Reading a dump of the target

A client reads a range of the target in netascii mode. The server sends the dump of 256 bytes in
each packet, whatever block size was negotiated.
-/

namespace YardIce.Tftp

open IceDrv (Word)
open Lib

variable {σ : Type}

/-- A datagram that the server takes as a read request in netascii mode for a range of the
target. What the server made of the request is `req`. -/
structure NetasciiRequest (s : Server σ) (pkt : List Byte) (req : Req) (range : MemRange) :
    Prop where
  opcode : (s.load (dgram pkt)).buf.field 0 = opcRrq
  parsed : tftpReqParse (s.load (dgram pkt)).buf.stuff s.req = some (0, req)
  netascii : req.mode = .netascii
  decoded : (tftpDecodeFname s.dbg (s.load (dgram pkt)).buf.stuff).map
    (fun p => (p.1, p.2.1.transf)) = some (0, range)

/-- The variables of a transfer of a dump. -/
structure Dumping (holds : σ → Prop) (range : MemRange) (s : Server σ) : Prop where
  target : holds s.dbg.target
  state : s.state = .sendNetascii
  addrStart : s.addrStart = range.base
  addrEnd : s.addrEnd = range.base + range.size

/-- The packet for the number `k` when the data is cut into `blocks`. -/
def dataOf (blocks : List (List Byte)) (k : Nat) : List Byte := dataPkt (k + 1) (blocks.getD k [])

/-- The packets in answer to a read request. -/
def firstOf (blocks : List (List Byte)) (req : Req) : List (List Byte) :=
  if req.opt ≠ [] then sent (tftpOack req.opt) else [dataOf blocks 0]

/-- However far the client acknowledges, the one of number `k` received `r k + 1` times, the
packets sent are those of `blocks` up to there. -/
def Serves (t : Target σ) (s : Server σ) (pkt : List Byte) (req : Req) (r : ℕ → ℕ)
    (blocks : List (List Byte)) : Prop :=
  ∀ n, ∃ s' acts, respond (tftpDaemonTask t) s
      (client pkt :: copies r ackOf (List.range' (firstAck req) n)) = some (s', acts) ∧
    sent acts = firstOf blocks req ++ copies r (dataOf blocks)
      (List.range' (firstAck req) (min n (blocks.length - firstAck req)))

/-- The packets carry the dump of the range, all but the last one as many bytes of it as the
negotiated block size. -/
def DumpDownloads (t : Target σ) (mem : Word → Byte) (s : Server σ) (pkt : List Byte) (req : Req)
    (range : MemRange) (r : ℕ → ℕ) : Prop :=
  ∃ blocks, blocks ≠ [] ∧ Serves t s pkt req r blocks ∧
    (∀ blk ∈ blocks.dropLast, blk.length = req.blksize) ∧
    blocks.flatten = dump (contents mem range)

/-- The dumps of 256 bytes each. -/
def dumpBlocks (mem : Word → Byte) (range : MemRange) : List (List Byte) :=
  (List.range (range.size.toNat / 256 + 1)).map fun k => dump (block 256 (contents mem range) k)

/-! ## One packet -/

section Packets

variable {t : Target σ} {holds : σ → Prop} {mem : Word → Byte} {range : MemRange} {k : Nat}
  {s : Server σ}

theorem Buf.take_store_header (buf : Buf) {hdr : List Byte} (hhdr : hdr.length = 4) (m : Nat) :
    (buf.store 0 hdr).bytes.take (4 + m) = hdr ++ buf.data.take m := by
  rw [Buf.store_zero buf (by rw [hhdr]; decide), hhdr, ← Buf.data, List.take_append, hhdr,
    List.take_of_length_le (by lia), Nat.add_sub_cancel_left]

/-- The dump of a block within the range is sent. -/
theorem sendNetascii_block (ht : t.Reads holds mem) (h : Dumping holds range s)
    (hblock : s.block = k) (hsize : range.size.toNat < 2 ^ 31) (hk : k * 256 ≤ range.size.toNat) :
    ∃ s', sendNetascii t 0 s =
        (s', [.sendto (dataPkt (k + 1) (dump (block 256 (contents mem range) k)))]) ∧
      Dumping holds range s' := by
  have hrem := rem_eq range.base range.size (m := k * 256) hsize (by lia)
  have hneg : ¬(range.size.toNat : Int) - (k * 256 : Nat) < 0 := by lia
  have hn : (if (range.size.toNat : Int) - (k * 256 : Nat) < 256 then
      (range.size.toNat : Int) - (k * 256 : Nat) else 256) =
      (min 256 (range.size.toNat - k * 256) : Nat) := by
    split <;> lia
  have hread := ht (range.base + BitVec.ofNat 32 (k * 256)) (min 256 (range.size.toNat - k * 256))
    s.dbg.target h.target
  rw [← block_contents mem range 256 k] at hread
  have hlen : (block 256 (contents mem range) k).length = min 256 (range.size.toNat - k * 256) := by
    rw [length_block, length_contents]
  have hmin : min 256 (range.size.toNat - k * 256) ≤ 256 := Nat.min_le_left _ _
  generalize min 256 (range.size.toNat - k * 256) = n at hn hread hlen hmin
  generalize block 256 (contents mem range) k = bytes at hread hlen ⊢
  have hle : bytes.length ≤ 256 := by lia
  have hpos : ¬(n : Int) < 0 := by lia
  have hdigits : ((n : Int) * 2).toNat = 2 * n := by lia
  have hdump := hexLoop_dump s.buf hle
  rw [hlen] at hdump
  have hpkt : ((hexLoop n 0 (s.buf.store (4 + 256) bytes)).store 0
      (be16 opcData ++ be16 (k + 1))).bytes.take (4 + 2 * n) = dataPkt (k + 1) (dump bytes) := by
    rw [Buf.take_store_header _ rfl, hdump, dataPkt]
  have htake : bytes.take n = bytes := List.take_of_length_le hlen.le
  simp only [sendNetascii, tftpHex, sendData, Server.setTarget, h.addrStart, h.addrEnd, hblock, hrem,
    hneg, if_false, hn, hread, hpos, Int.toNat_natCast, htake, hdigits, Int.lt_irrefl, hpkt]
  exact ⟨_, rfl, hread.2.2, h.state, rfl, rfl⟩

/-- An acknowledgement of the last dump ends the transfer. -/
theorem sendNetascii_end (h : Dumping holds range s) (hblock : s.block = k)
    (hsize : range.size.toNat < 2 ^ 31) (hbound : k * 256 < 2 ^ 31)
    (hk : range.size.toNat < k * 256) : sendNetascii t 0 s = ({ s with state := .idle }, []) := by
  have hrem := rem_eq range.base range.size hsize hbound
  apply if_pos
  rw [h.addrEnd, h.addrStart, hblock, hrem]
  lia

/-- In a range of 2 GiB or more the bytes left are a negative number from the start. -/
theorem sendNetascii_huge (h : Dumping holds range s) (hblock : s.block = 0)
    (hsize : 2 ^ 31 ≤ range.size.toNat) : sendNetascii t 0 s = ({ s with state := .idle }, []) := by
  apply if_pos
  have hlt := range.size.isLt
  have hsub : range.base + range.size - (range.base + BitVec.ofNat 32 (0 * 256)) = range.size := by
    rw [Nat.zero_mul, BitVec.add_zero, BitVec.add_comm, BitVec.add_sub_cancel]
  rw [h.addrEnd, h.addrStart, hblock, hsub, BitVec.toInt_eq_toNat_cond, if_neg (by lia)]
  lia

/-! ## Acknowledgements -/

/-- A transfer of a dump that waits for an acknowledgement. -/
def Serving (holds : σ → Prop) (range : MemRange) (s : Server σ) : Prop :=
  s.connected = true ∧ Dumping holds range s

theorem Dumping.after (h : Dumping holds range s) : Serving holds range s.after :=
  ⟨by simp [Server.after, h.state], h.target, h.state, h.addrStart, h.addrEnd⟩

theorem Dumping.acked (h : Dumping holds range s) (n : Nat) : Dumping holds range (s.acked n) :=
  ⟨h.target, h.state, h.addrStart, h.addrEnd⟩

theorem serving_ack (h : Serving holds range s) {n : Nat} {s' : Server σ} {acts : List Action}
    (hsend : sendNetascii t 0 (s.acked n) = (s', acts)) :
    tftpDaemonTask t s (client (ackPkt n)) = some (s'.after, acts) := by
  have hfield := (load_ackPkt_holds s n).field_two
  have hstate : (s.load (dgram (ackPkt n))).state = .sendNetascii := h.2.state
  have hack : ackPacket t 0 (s.load (dgram (ackPkt n))) = sendNetascii t 0 (s.acked n) := by
    simp only [ackPacket, hfield, hstate, Server.acked]
  rw [task_ack t h.1, hack, hsend]

/-- The packet after the acknowledgement of a number, of which the server sees 16 bits. -/
def dumpOf (mem : Word → Byte) (range : MemRange) (k : Nat) : List Byte :=
  dataPkt (k % 2 ^ 16 + 1) (dump (block 256 (contents mem range) (k % 2 ^ 16)))

theorem serving_dump (ht : t.Reads holds mem) (hsize : range.size.toNat < 2 ^ 31)
    (h : Serving holds range s) (hk : k % 2 ^ 16 * 256 ≤ range.size.toNat) :
    ∃ s', tftpDaemonTask t s (ackOf k) = some (s', [.sendto (dumpOf mem range k)]) ∧
      Serving holds range s' := by
  obtain ⟨s', hsend, hs'⟩ := sendNetascii_block ht (h.2.acked k) rfl hsize hk
  exact ⟨s'.after, serving_ack h hsend, hs'.after⟩

theorem serving_end (hsize : range.size.toNat < 2 ^ 31) (h : Serving holds range s)
    (hbound : k % 2 ^ 16 * 256 < 2 ^ 31) (hk : range.size.toNat < k % 2 ^ 16 * 256) :
    ∃ s', tftpDaemonTask t s (ackOf k) = some (s', []) ∧ Ended s' :=
  ⟨_, serving_ack h (sendNetascii_end (h.2.acked k) rfl hsize hbound hk), Ended.after rfl⟩

theorem acks_dropped {es : List Event} (hes : ∀ e ∈ es, ∃ k, e = ackOf k) (h : Ended s) :
    ∃ s', respond (tftpDaemonTask t) s es = some (s', []) ∧ Ended s' := by
  apply respond_silent _ h
  intro u e he hu
  obtain ⟨k, rfl⟩ := hes e he
  exact ack_dropped hu k

/-- While the numbers acknowledged lie in the range, their dumps are sent. -/
theorem serving_dumps (ht : t.Reads holds mem) (hsize : range.size.toNat < 2 ^ 31) (r : ℕ → ℕ)
    {lo n : Nat} (hks : ∀ k, lo ≤ k → k < lo + n → k % 2 ^ 16 * 256 ≤ range.size.toNat)
    (h : Serving holds range s) :
    ∃ s' acts, respond (tftpDaemonTask t) s (copies r ackOf (List.range' lo n)) =
        some (s', acts) ∧ Serving holds range s' ∧
      sent acts = copies r (dumpOf mem range) (List.range' lo n) := by
  have hstep : ∀ k (u : Server σ), lo ≤ k → k < lo + n → Serving holds range u →
      ∃ u', tftpDaemonTask t u (ackOf k) = some (u', [.sendto (dumpOf mem range k)]) ∧
        Serving holds range u' :=
    fun k u hlo hhi hu => serving_dump ht hsize hu (hks k hlo hhi)
  obtain ⟨s', hrun, hs'⟩ := respond_copies (I := fun _ => Serving holds range) r lo n hstep hstep h
  refine ⟨s', _, hrun, hs', ?_⟩
  rw [sent_flatMap, copies]
  congr 1
  funext k
  rw [sent_append, sent_replicate]
  rfl

end Packets
/-! ## The request -/

section Requests

variable {t : Target σ} {holds : σ → Prop} {mem : Word → Byte} {range : MemRange} {s : Server σ}
  {pkt : List Byte} {req : Req} {r : ℕ → ℕ}

/-- A read request is answered by an OACK or by the first dump. -/
theorem NetasciiRequest.dumping (t : Target σ) (holds : σ → Prop)
    (h : NetasciiRequest s pkt req range) (hs : holds s.dbg.target) :
    ∃ u, Dumping holds range u ∧ u.block = 0 ∧
      tftpDaemonTask t s (client pkt) = some (if req.opt ≠ [] then (u.after, tftpOack req.opt)
        else ((sendNetascii t 0 u).1.after, (sendNetascii t 0 u).2)) := by
  obtain ⟨u, hstart, hu⟩ := startTransfer_started h.parsed h.decoded
  have hmode : u.req.mode = .netascii := by rw [hu.req_eq, h.netascii]
  refine ⟨{ u with state := .sendNetascii }, ⟨hu.target_eq ▸ hs, rfl, hu.addrStart,
    hu.addrEnd⟩, hu.block, ?_⟩
  rw [task_request t (.inl rfl) pkt h.opcode, serve_eq, dispatch, h.opcode, if_pos rfl,
    readRequest, hstart, ← hu.req_eq]
  simp only [Option.bind_eq_bind, Option.bind_some, hmode, Bool.not_true, Bool.false_eq_true,
    if_false]
  by_cases hopt : u.req.opt ≠ []
  · rw [if_pos hopt, if_pos hopt]
    rfl
  · rw [if_neg hopt, if_neg hopt]
    rfl

/-- A range below 2 GiB is offered. -/
theorem NetasciiRequest.serving (ht : t.Reads holds mem) (hs : holds s.dbg.target)
    (h : NetasciiRequest s pkt req range) (hsize : range.size.toNat < 2 ^ 31) :
    ∃ s' acts, tftpDaemonTask t s (client pkt) = some (s', acts) ∧ Serving holds range s' ∧
      sent acts = if req.opt ≠ [] then sent (tftpOack req.opt) else [dumpOf mem range 0] := by
  obtain ⟨u, hu, hblock, hstep⟩ := h.dumping t holds hs
  by_cases hopt : req.opt ≠ []
  · rw [if_pos hopt] at hstep
    exact ⟨u.after, _, hstep, hu.after, (if_pos hopt).symm⟩
  · rw [if_neg hopt] at hstep
    obtain ⟨v, hsend, hv⟩ := sendNetascii_block ht hu hblock hsize
      (by rw [Nat.zero_mul]; exact Nat.zero_le _)
    rw [hsend] at hstep
    exact ⟨v.after, _, hstep, hv.after, (if_neg hopt).symm⟩

/-- Of a range of 2 GiB or more nothing is sent. -/
theorem NetasciiRequest.huge (t : Target σ) (h : NetasciiRequest s pkt req range)
    (hsize : 2 ^ 31 ≤ range.size.toNat) (r : ℕ → ℕ) :
    ∃ s', respond (tftpDaemonTask t) s (client pkt :: copies r ackOf (List.range' (firstAck req) 1)) =
      some (s', if req.opt ≠ [] then tftpOack req.opt else []) := by
  obtain ⟨u, hu, hblock, hstep⟩ := h.dumping t (fun _ => True) trivial
  by_cases hopt : req.opt ≠ []
  · rw [if_pos hopt] at hstep
    have hsilent : ∀ w : Server σ, ∀ e ∈ copies r ackOf [0],
        Serving (fun _ => True) range w ∨ Ended w →
        ∃ w', tftpDaemonTask t w e = some (w', []) ∧
          (Serving (fun _ => True) range w' ∨ Ended w') := by
      intro w e he hw
      obtain ⟨k, hk, rfl⟩ := mem_copies he
      obtain rfl := List.mem_singleton.mp hk
      rcases hw with hw | hw
      · exact ⟨_, serving_ack hw (sendNetascii_huge (hw.2.acked 0) rfl hsize),
          .inr (Ended.after rfl)⟩
      · obtain ⟨w', hdrop, hw'⟩ := ack_dropped hw 0
        exact ⟨w', hdrop, .inr hw'⟩
    obtain ⟨s', hrest, -⟩ := respond_silent hsilent (.inl hu.after)
    refine ⟨s', ?_⟩
    rw [firstAck, if_pos hopt, if_pos hopt]
    simpa using respond_cons hstep hrest
  · rw [if_neg hopt, sendNetascii_huge hu hblock hsize] at hstep
    have hacks : ∀ e ∈ copies r ackOf (List.range' (firstAck req) 1), ∃ k, e = ackOf k := by
      intro e he
      obtain ⟨k, -, rfl⟩ := mem_copies he
      exact ⟨k, rfl⟩
    obtain ⟨s', hrest, -⟩ :=
      acks_dropped (t := t) hacks (Ended.after (s := { u with state := .idle }) rfl)
    rw [if_neg hopt]
    exact ⟨s', respond_cons hstep hrest⟩

end Requests
/-! ## The packets of a range -/

theorem length_dumpBlocks (mem : Word → Byte) (range : MemRange) :
    (dumpBlocks mem range).length = range.size.toNat / 256 + 1 := by
  rw [dumpBlocks, List.length_map, List.length_range]

theorem dataOf_dumpBlocks {mem : Word → Byte} {range : MemRange} {k : Nat}
    (hk : k < range.size.toNat / 256 + 1) :
    dataOf (dumpBlocks mem range) k = dataPkt (k + 1) (dump (block 256 (contents mem range) k)) := by
  have hlen : k < (dumpBlocks mem range).length := by rwa [length_dumpBlocks]
  rw [dataOf, List.getD_eq_getElem _ _ hlen]
  simp [dumpBlocks]

section Serves

variable {t : Target σ} {holds : σ → Prop} {mem : Word → Byte} {range : MemRange} {s : Server σ}
  {pkt : List Byte} {req : Req} {r : ℕ → ℕ}

/-- After the last dump nothing is sent. -/
theorem serving_rest (hwire : range.size.toNat / 256 < 65535) (d : Nat)
    (h : Serving holds range s) :
    ∃ s', respond (tftpDaemonTask t) s
        (copies r ackOf (List.range' (range.size.toNat / 256 + 1) (d + 1))) = some (s', []) ∧
      Ended s' := by
  have hmod : (range.size.toNat / 256 + 1) % 2 ^ 16 = range.size.toNat / 256 + 1 :=
    Nat.mod_eq_of_lt (by lia)
  obtain ⟨v, hend, hv⟩ := serving_end (t := t) (k := range.size.toNat / 256 + 1) (by lia) h
    (by lia) (by lia)
  rw [List.range'_succ, copies_cons]
  have hacks : ∀ e ∈ List.replicate (r (range.size.toNat / 256 + 1))
      (ackOf (range.size.toNat / 256 + 1)) ++
        copies r ackOf (List.range' (range.size.toNat / 256 + 1 + 1) d), ∃ k, e = ackOf k := by
    intro e he
    rcases List.mem_append.mp he with he | he
    · exact ⟨_, List.eq_of_mem_replicate he⟩
    · obtain ⟨k, -, rfl⟩ := mem_copies he
      exact ⟨k, rfl⟩
  obtain ⟨s', hrest, hs'⟩ := acks_dropped hacks hv
  exact ⟨s', respond_cons hend hrest, hs'⟩

/-- A range of at most 65535 dumps is served with them. -/
theorem serves_dumpBlocks (ht : t.Reads holds mem) (hs : holds s.dbg.target)
    (h : NetasciiRequest s pkt req range) (hwire : range.size.toNat / 256 < 65535) :
    Serves t s pkt req r (dumpBlocks mem range) := by
  intro n
  have hsize : range.size.toNat < 2 ^ 31 := by lia
  have hlo := firstAck_le_one req
  rw [length_dumpBlocks]
  obtain ⟨u, acts, hstep, hu, hsent⟩ := h.serving ht hs hsize
  have hfirst : sent acts = firstOf (dumpBlocks mem range) req := by
    rw [hsent, firstOf, dataOf_dumpBlocks (Nat.succ_pos _)]
    rfl
  have hks : ∀ k, firstAck req ≤ k →
      k < firstAck req + min n (range.size.toNat / 256 + 1 - firstAck req) →
      k % 2 ^ 16 * 256 ≤ range.size.toNat := by
    intro k _ hk
    lia
  obtain ⟨v, acts', hrun, hv, hsent'⟩ := serving_dumps ht hsize r hks hu
  have hdumps : sent acts' = copies r (dataOf (dumpBlocks mem range)) (List.range' (firstAck req)
      (min n (range.size.toNat / 256 + 1 - firstAck req))) := by
    rw [hsent']
    apply copies_congr
    intro k hk
    rw [List.mem_range'_1] at hk
    rw [dataOf_dumpBlocks (by lia), dumpOf, Nat.mod_eq_of_lt (by lia)]
  by_cases hn : n ≤ range.size.toNat / 256 + 1 - firstAck req
  · rw [Nat.min_eq_left hn] at hrun hdumps ⊢
    refine ⟨v, acts ++ acts', respond_cons hstep hrun, ?_⟩
    rw [sent_append, hfirst, hdumps]
  · obtain ⟨d, rfl⟩ := Nat.exists_eq_add_of_lt (Nat.lt_of_not_le hn)
    rw [Nat.min_eq_right (by lia)] at hrun hdumps ⊢
    obtain ⟨w, hrest, -⟩ := serving_rest (t := t) (r := r) hwire d hv
    refine ⟨w, acts ++ (acts' ++ []), respond_cons hstep ?_, ?_⟩
    · have hsplit : List.range' (firstAck req) (range.size.toNat / 256 + 1 - firstAck req + d + 1) =
          List.range' (firstAck req) (range.size.toNat / 256 + 1 - firstAck req) ++
            List.range' (range.size.toNat / 256 + 1) (d + 1) := by
        have hnext : range.size.toNat / 256 + 1 =
            firstAck req + (range.size.toNat / 256 + 1 - firstAck req) := by lia
        nth_rewrite 3 [hnext]
        rw [List.range'_append_1, Nat.add_assoc]
      rw [hsplit, copies_append]
      exact respond_append hrun hrest
    · rw [List.append_nil, sent_append, hfirst, hdumps]

end Serves
section Converse

variable {t : Target σ} {holds : σ → Prop} {mem : Word → Byte} {range : MemRange} {s : Server σ}
  {pkt : List Byte} {req : Req} {r : ℕ → ℕ} {blocks blocks' : List (List Byte)}

/-- The packets sent determine the blocks. -/
theorem Serves.agree (h : Serves t s pkt req r blocks) (h' : Serves t s pkt req r blocks') (n : ℕ) :
    firstOf blocks req = firstOf blocks' req ∧
      copies r (dataOf blocks) (List.range' (firstAck req) (min n (blocks.length - firstAck req))) =
        copies r (dataOf blocks')
          (List.range' (firstAck req) (min n (blocks'.length - firstAck req))) := by
  obtain ⟨s₁, acts₁, hrun, hsent⟩ := h n
  obtain ⟨s₂, acts₂, hrun', hsent'⟩ := h' n
  rw [hrun] at hrun'
  simp only [Option.some.injEq, Prod.mk.injEq] at hrun'
  rw [← hrun'.2, hsent] at hsent'
  apply List.append_inj hsent'
  rw [firstOf, firstOf]
  split <;> rfl

theorem Serves.length_eq (h : Serves t s pkt req r blocks) (h' : Serves t s pkt req r blocks')
    (hne : blocks ≠ []) (hne' : blocks' ≠ []) : blocks.length = blocks'.length := by
  have hpos := List.length_pos_of_ne_nil hne
  have hpos' := List.length_pos_of_ne_nil hne'
  have hlo := firstAck_le_one req
  have hlength := congrArg List.length (h.agree h' (blocks.length + blocks'.length)).2
  rw [Nat.min_eq_right (by lia), Nat.min_eq_right (by lia),
    length_copies r (dataOf blocks) (dataOf blocks')] at hlength
  rcases Nat.lt_trichotomy (blocks.length - firstAck req) (blocks'.length - firstAck req) with
    hlt | heq | hgt
  · exact absurd hlength (length_copies_lt r _ _ hlt).ne
  · lia
  · exact absurd hlength (length_copies_lt r _ _ hgt).ne'

theorem Serves.first_eq (h : Serves t s pkt req r blocks) (h' : Serves t s pkt req r blocks')
    (hne : blocks ≠ []) (hne' : blocks' ≠ []) : blocks.getD 0 [] = blocks'.getD 0 [] := by
  have hdata : dataOf blocks 0 = dataOf blocks' 0 := by
    by_cases hopt : req.opt ≠ []
    · have hlo : firstAck req = 0 := if_pos hopt
      have hpos := List.length_pos_of_ne_nil hne
      have hpos' := List.length_pos_of_ne_nil hne'
      have hcopies := (h.agree h' 1).2
      rw [hlo, Nat.min_eq_left (by lia), Nat.min_eq_left (by lia)] at hcopies
      exact copies_injective hcopies 0 (by simp)
    · have hfirst := (h.agree h' 0).1
      rw [firstOf, firstOf, if_neg hopt, if_neg hopt] at hfirst
      exact List.head_eq_of_cons_eq hfirst
  exact List.append_cancel_left hdata

/-- Nothing serves a range of 2 GiB or more. -/
theorem not_serves_of_huge (hreq : NetasciiRequest s pkt req range)
    (hsize : 2 ^ 31 ≤ range.size.toNat) (hne : blocks ≠ []) : ¬Serves t s pkt req r blocks := by
  intro h
  obtain ⟨s', hrun⟩ := hreq.huge t hsize r
  obtain ⟨s₁, acts, hrun', hsent⟩ := h 1
  rw [hrun] at hrun'
  simp only [Option.some.injEq, Prod.mk.injEq] at hrun'
  rw [← hrun'.2, firstOf] at hsent
  have hpos := List.length_pos_of_ne_nil hne
  by_cases hopt : req.opt ≠ []
  · rw [if_pos hopt, if_pos hopt, firstAck, if_pos hopt, Nat.min_eq_left (by lia),
      List.self_eq_append_right] at hsent
    cases hsent
  · rw [if_neg hopt, if_neg hopt] at hsent
    cases hsent

/-- A longer range below 2 GiB is served for ever. -/
theorem not_serves_of_long (ht : t.Reads holds mem) (hs : holds s.dbg.target)
    (hreq : NetasciiRequest s pkt req range) (hsize : range.size.toNat < 2 ^ 31)
    (hwire : 65535 ≤ range.size.toNat / 256) (hne : blocks ≠ []) :
    ¬Serves t s pkt req r blocks := by
  intro h
  have hpos := List.length_pos_of_ne_nil hne
  have hlo := firstAck_le_one req
  obtain ⟨u, acts, hstep, hu, hfirst⟩ := hreq.serving ht hs hsize
  have hks : ∀ k, firstAck req ≤ k → k < firstAck req + (blocks.length + 1) →
      k % 2 ^ 16 * 256 ≤ range.size.toNat := by
    intro k _ _
    lia
  obtain ⟨v, acts', hrun, -, hdumps⟩ := serving_dumps ht hsize r hks hu
  obtain ⟨s₁, acts₁, hrun', hsent⟩ := h (blocks.length + 1)
  rw [respond_cons hstep hrun] at hrun'
  simp only [Option.some.injEq, Prod.mk.injEq] at hrun'
  rw [← hrun'.2, sent_append, hfirst, hdumps, Nat.min_eq_right (by lia), firstOf] at hsent
  have hlength := congrArg List.length (List.append_inj_right hsent (by split <;> rfl))
  rw [length_copies r (dumpOf mem range) (dataOf blocks)] at hlength
  exact absurd hlength (length_copies_lt r _ _ (by lia)).ne'

end Converse
/-! ## Downloads -/

section DumpDownloads

variable {t : Target σ} {holds : σ → Prop} {mem : Word → Byte} {range : MemRange} {s : Server σ}
  {pkt : List Byte} {req : Req}

theorem dump_flatten (blocks : List (List Byte)) :
    (blocks.map dump).flatten = dump blocks.flatten := by
  induction blocks with
  | nil => rfl
  | cons blk blocks ih =>
      rw [List.map_cons, List.flatten_cons, List.flatten_cons, ih, dump, dump, dump,
        List.flatMap_append]

/-- The dumps of the blocks are the dump of the range. -/
theorem dumpBlocks_flatten (mem : Word → Byte) (range : MemRange) :
    (dumpBlocks mem range).flatten = dump (contents mem range) := by
  have hmap : dumpBlocks mem range =
      ((List.range (range.size.toNat / 256 + 1)).map (block 256 (contents mem range))).map dump := by
    rw [List.map_map]
    rfl
  rw [hmap, dump_flatten, flatten_blocks, List.take_of_length_le]
  rw [length_contents]
  lia

/-- All the dumps but the last one have 512 digits. -/
theorem length_of_mem_dropLast {blk : List Byte} (h : blk ∈ (dumpBlocks mem range).dropLast) :
    blk.length = 512 := by
  rw [dumpBlocks, List.range_succ, List.map_append, List.map_singleton, List.dropLast_concat,
    List.mem_map] at h
  obtain ⟨k, hk, rfl⟩ := h
  rw [List.mem_range] at hk
  rw [length_dump, length_block_of_lt (by rwa [length_contents])]

theorem dumpDownloads_of (ht : t.Reads holds mem) (hs : holds s.dbg.target)
    (hreq : NetasciiRequest s pkt req range) (r : ℕ → ℕ)
    (hb : req.blksize = 512 ∨ range.size.toNat < 256) (hwire : range.size.toNat / 256 < 65535) :
    DumpDownloads t mem s pkt req range r := by
  have hlen := length_dumpBlocks mem range
  refine ⟨dumpBlocks mem range, ?_, serves_dumpBlocks ht hs hreq hwire, ?_,
    dumpBlocks_flatten mem range⟩
  · exact List.ne_nil_of_length_pos (by lia)
  · intro blk hblk
    rcases hb with hb | hsize
    · rw [hb, length_of_mem_dropLast hblk]
    · have hnone : (dumpBlocks mem range).dropLast.length = 0 := by
        rw [List.length_dropLast]
        lia
      rw [List.length_eq_zero_iff.mp hnone] at hblk
      exact absurd hblk List.not_mem_nil

theorem DumpDownloads.wire (ht : t.Reads holds mem) (hs : holds s.dbg.target)
    (hreq : NetasciiRequest s pkt req range) {r : ℕ → ℕ}
    (h : DumpDownloads t mem s pkt req range r) : range.size.toNat / 256 < 65535 := by
  obtain ⟨blocks, hne, hserves, -⟩ := h
  by_contra hwire
  by_cases hsize : range.size.toNat < 2 ^ 31
  · exact not_serves_of_long ht hs hreq hsize (Nat.le_of_not_lt hwire) hne hserves
  · exact not_serves_of_huge hreq (Nat.le_of_not_lt hsize) hne hserves

/-- With two packets or more the block size is that of a full dump. -/
theorem DumpDownloads.blksize (ht : t.Reads holds mem) (hs : holds s.dbg.target)
    (hreq : NetasciiRequest s pkt req range) {r : ℕ → ℕ}
    (h : DumpDownloads t mem s pkt req range r) (hsize : 256 ≤ range.size.toNat) :
    req.blksize = 512 := by
  have hwire := h.wire ht hs hreq
  obtain ⟨blocks, hne, hserves, hfull, -⟩ := h
  have hdumps : Serves t s pkt req r (dumpBlocks mem range) := serves_dumpBlocks ht hs hreq hwire
  have hlen := length_dumpBlocks mem range
  have hne' : dumpBlocks mem range ≠ [] := List.ne_nil_of_length_pos (by lia)
  have hlength := hserves.length_eq hdumps hne hne'
  have hfirst := hserves.first_eq hdumps hne hne'
  have hfirst' : ∀ {l : List (List Byte)}, 2 ≤ l.length → l.getD 0 [] ∈ l.dropLast := by
    intro l hl
    match l, hl with
    | blk :: blk' :: l, _ => exact List.mem_cons_self
  have hmem := hfirst' (show 2 ≤ blocks.length by lia)
  have hmem' := hfirst' (show 2 ≤ (dumpBlocks mem range).length by lia)
  rw [← hfull _ hmem, hfirst, length_of_mem_dropLast hmem']

/-- The packets of a dump have the negotiated block size exactly if it is twice the size of the
blocks read or a single packet takes the range, and the numbers of all packets have 16 bits. The
conversion in place keeps the bytes to convert in any case. -/
theorem dumpDownloads_iff (ht : t.Reads holds mem) (hs : holds s.dbg.target)
    (hreq : NetasciiRequest s pkt req range) (r : ℕ → ℕ) :
    (DumpDownloads t mem s pkt req range r ∧ ∀ n ≤ 256, ∀ buf, KeepsUnconverted n buf) ↔
      (req.blksize = 512 ∨ range.size.toNat < 256) ∧ range.size.toNat / 256 < 65535 := by
  constructor
  · rintro ⟨h, -⟩
    refine ⟨?_, h.wire ht hs hreq⟩
    by_cases hsize : range.size.toNat < 256
    · exact .inr hsize
    · exact .inl (h.blksize ht hs hreq (Nat.le_of_not_lt hsize))
  · rintro ⟨hb, hwire⟩
    exact ⟨dumpDownloads_of ht hs hreq r hb hwire, fun n hn buf => keepsUnconverted hn buf⟩

/-- A request in netascii mode without options. -/
def netasciiPkt (fname : String) : List Byte :=
  be16 opcRrq ++ text fname ++ 0 :: text "netascii" ++ [0]

/-- A request in netascii mode with a block size. -/
def netasciiBlksizePkt (fname : String) (blksize : Nat) : List Byte :=
  netasciiPkt fname ++ text "blksize" ++ 0 :: decimal blksize ++ [0]

theorem netasciiRequest_plain : NetasciiRequest ramServer (netasciiPkt "0x100.300")
    ⟨.netascii, 512, []⟩ ⟨0x100, 300⟩ := by
  constructor <;> decide

theorem netasciiRequest_blksize :
    NetasciiRequest ramServer (netasciiBlksizePkt "0x100.300" 1024)
      ⟨.netascii, 1024, text "blksize" ++ 0 :: decimal 1024 ++ [0]⟩ ⟨0x100, 300⟩ := by
  constructor <;> decide

/-- Two packets of a dump of 300 bytes, with the block size of a request without options. -/
theorem dumpDownloads_iff_plain : DumpDownloads ram ramBytes ramServer (netasciiPkt "0x100.300")
      ⟨.netascii, 512, []⟩ ⟨0x100, 300⟩ (fun _ => 1) ∧
    ∀ n ≤ 256, ∀ buf, KeepsUnconverted n buf :=
  (dumpDownloads_iff (ram_reads _) rfl netasciiRequest_plain _).mpr (by decide)

/-- With blocks of 1024 bytes the first of two packets has 512. -/
theorem not_dumpDownloads_blksize : ¬DumpDownloads ram ramBytes ramServer
    (netasciiBlksizePkt "0x100.300" 1024)
    ⟨.netascii, 1024, text "blksize" ++ 0 :: decimal 1024 ++ [0]⟩ ⟨0x100, 300⟩ (fun _ => 0) := by
  intro h
  exact absurd (h.blksize (ram_reads _) rfl netasciiRequest_blksize (by decide)) (by decide)

end DumpDownloads

end YardIce.Tftp
