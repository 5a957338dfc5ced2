import YardIce.Tftp.Daemon
import YardIce.Lib.StopAndWait

/-!
# Packets of a client

The datagrams of a client that transfers a file in octet mode, and what the task does
with them: where a packet stands in the message buffer, which branch of the task takes
it, and how a request sets up the transfer.
-/

namespace YardIce.Tftp

open IceDrv (Word)
open Lib

variable {σ : Type}

/-! ## Packets in the buffer -/

/-- A datagram for which the UDP layer reports no error. -/
def dgram (bytes : List Byte) : Datagram := ⟨bytes, 0, 0⟩

/-- The reception of a datagram. -/
def client (bytes : List Byte) : Event := .datagram (dgram bytes)

def dataPkt (block : Nat) (data : List Byte) : List Byte := be16 opcData ++ be16 block ++ data

def ackPkt (block : Nat) : List Byte := be16 opcAck ++ be16 block

/-- The packets an action sends. -/
def Action.sent : Action → List (List Byte)
  | .sendto pkt => [pkt]
  | .memWrite _ _ => []

/-- The packets sent, in their order. -/
def sent (acts : List Action) : List (List Byte) := acts.flatMap Action.sent

theorem sent_append (as bs : List Action) : sent (as ++ bs) = sent as ++ sent bs :=
  List.flatMap_append

theorem sent_flatMap {α : Type} (l : List α) (f : α → List Action) :
    sent (l.flatMap f) = l.flatMap fun a => sent (f a) :=
  List.flatMap_assoc

theorem sent_replicate (n : Nat) (pkt : List Byte) :
    sent (List.replicate n [.sendto pkt]).flatten = List.replicate n pkt := by
  induction n with
  | zero => rfl
  | succ n ih => exact congrArg (pkt :: ·) ih

/-- The buffer starts with an operation code, a block number and data. -/
def Buf.Holds (buf : Buf) (opc num : Nat) (data : List Byte) : Prop :=
  ∃ rest, buf.bytes = be16 opc ++ be16 num ++ data ++ rest

theorem be16_toNat (n : Nat) :
    (BitVec.ofNat 8 (n / 256)).toNat * 256 + (BitVec.ofNat 8 n).toNat = n % 2 ^ 16 := by
  simp only [BitVec.toNat_ofNat]
  omega

section Holds

variable {buf : Buf} {opc num : Nat} {data : List Byte}

theorem Buf.Holds.field_zero (h : buf.Holds opc num data) : buf.field 0 = opc % 2 ^ 16 := by
  obtain ⟨rest, h⟩ := h
  simp only [Buf.field, h, be16, List.cons_append, List.getD_cons_zero, List.getD_cons_succ]
  exact be16_toNat opc

theorem Buf.Holds.field_two (h : buf.Holds opc num data) : buf.field 2 = num % 2 ^ 16 := by
  obtain ⟨rest, h⟩ := h
  simp only [Buf.field, h, be16, List.cons_append, List.nil_append, List.getD_cons_zero,
    List.getD_cons_succ]
  exact be16_toNat num

theorem Buf.Holds.data_take (h : buf.Holds opc num data) : buf.data.take data.length = data := by
  obtain ⟨rest, h⟩ := h
  simp [Buf.data, h, be16]

end Holds

theorem Buf.bytes_store (buf : Buf) (pos : Nat) (bs : List Byte) :
    (buf.store pos bs).bytes =
      (buf.bytes.take pos ++ (bs ++ buf.bytes.drop (pos + bs.length))).take maxTftpMsg := rfl

theorem Buf.store_zero (buf : Buf) {bs : List Byte} (h : bs.length ≤ maxTftpMsg) :
    (buf.store 0 bs).bytes = bs ++ buf.bytes.drop bs.length := by
  have hlen := buf.length_eq
  rw [Buf.bytes_store, List.take_zero, List.nil_append, Nat.zero_add]
  apply List.take_of_length_le
  rw [List.length_append, List.length_drop]
  omega

/-- A packet that fits the buffer stands at its beginning once it has been received. -/
theorem load_holds (s : Server σ) (opc num : Nat) {data : List Byte}
    (h : data.length ≤ maxTftpSegsize) :
    (s.load (dgram (be16 opc ++ be16 num ++ data))).buf.Holds opc num data := by
  have hlen : (be16 opc ++ be16 num ++ data).length ≤ maxTftpMsg := by
    simp only [be16, maxTftpMsg, List.length_append, List.length_cons, List.length_nil]
    omega
  refine ⟨s.buf.bytes.drop (be16 opc ++ be16 num ++ data).length, ?_⟩
  rw [Server.load, dgram, List.take_of_length_le hlen]
  exact Buf.store_zero s.buf hlen

theorem load_ackPkt_holds (s : Server σ) (n : Nat) :
    (s.load (dgram (ackPkt n))).buf.Holds opcAck n [] := by
  have hlen : ([] : List Byte).length ≤ maxTftpSegsize := Nat.zero_le _
  have hload := load_holds s opcAck n hlen
  rwa [List.append_nil] at hload

/-! ## The branch taken -/

section Branches

variable (t : Target σ) {s : Server σ}

/-- The state after the `switch`: the connection ends in `TFTPD_IDLE`. -/
def Server.after (s : Server σ) : Server σ := { s with connected := s.state ≠ .idle }

theorem serve_eq (d : Datagram) (len : Int) (s : Server σ) :
    serve t d len s = (dispatch t d len s).map fun r => (r.1.after, r.2) := rfl

theorem task_of_connected (hc : s.connected = true) (bytes : List Byte) :
    tftpDaemonTask t s (client bytes) =
      serve t (dgram bytes) (bytes.take maxTftpMsg).length (s.load (dgram bytes)) :=
  if_pos hc

/-- Packets of a client the task is not connected to are dropped. -/
theorem task_of_disconnected (hc : s.connected = false) (bytes : List Byte)
    (h : ∀ opc ∈ [opcRrq, opcWrq], (s.load (dgram bytes)).buf.field 0 ≠ opc) :
    tftpDaemonTask t s (client bytes) = some (s.load (dgram bytes), []) := by
  have hc' : (s.load (dgram bytes)).connected ≠ true := by simp [Server.load, hc]
  have hopc : (s.load (dgram bytes)).buf.field 0 ≠ opcRrq ∧
      (s.load (dgram bytes)).buf.field 0 ≠ opcWrq := ⟨h _ (by simp), h _ (by simp)⟩
  simp only [tftpDaemonTask, client]
  rw [if_neg hc', if_pos hopc]

theorem task_request {opc : Nat} (hopc : opc = opcRrq ∨ opc = opcWrq) (bytes : List Byte)
    (h : (s.load (dgram bytes)).buf.field 0 = opc) :
    tftpDaemonTask t s (client bytes) =
      serve t (dgram bytes) (bytes.take maxTftpMsg).length (s.load (dgram bytes)) := by
  have hreq : ¬((s.load (dgram bytes)).buf.field 0 ≠ opcRrq ∧
      (s.load (dgram bytes)).buf.field 0 ≠ opcWrq) := by
    rw [h]
    tauto
  have hconnect : ¬(dgram bytes).connect < 0 := Int.lt_irrefl 0
  simp only [tftpDaemonTask, client]
  rw [if_neg hreq, if_neg hconnect]
  exact ite_self _

theorem task_data (hc : s.connected = true) (n : Nat) {data : List Byte}
    (hlen : data.length ≤ maxTftpSegsize) :
    tftpDaemonTask t s (client (dataPkt n data)) =
      (dataPacket t (data.length + 4 : Nat) (s.load (dgram (dataPkt n data)))).map
        fun r => (r.1.after, r.2) := by
  have hfield := (load_holds s opcData n hlen).field_zero
  have htake : ((dataPkt n data).take maxTftpMsg).length = data.length + 4 := by
    simp only [dataPkt, be16, maxTftpMsg, List.length_take, List.length_append, List.length_cons,
      List.length_nil]
    omega
  rw [task_of_connected t hc, serve_eq, dispatch, htake]
  rw [dataPkt, hfield]
  rfl

theorem task_ack (hc : s.connected = true) (n : Nat) :
    tftpDaemonTask t s (client (ackPkt n)) =
      some ((ackPacket t 0 (s.load (dgram (ackPkt n)))).1.after,
        (ackPacket t 0 (s.load (dgram (ackPkt n)))).2) := by
  rw [task_of_connected t hc, serve_eq, dispatch, (load_ackPkt_holds s n).field_zero]
  rfl

/-- The task after a transfer. -/
structure Ended (s : Server σ) : Prop where
  connected : s.connected = false
  state : s.state = .idle

theorem Ended.after (h : s.state = .idle) : Ended s.after := ⟨by simp [Server.after, h], h⟩

/-- Data and acknowledgements after the end of a transfer are not answered. -/
theorem task_dropped (h : Ended s) {bytes : List Byte} {opc n : Nat} {data : List Byte}
    (hopc : opc = opcData ∨ opc = opcAck) (hload : (s.load (dgram bytes)).buf.Holds opc n data) :
    ∃ s', tftpDaemonTask t s (client bytes) = some (s', []) ∧ Ended s' := by
  refine ⟨_, task_of_disconnected t h.connected _ ?_, h.connected, h.state⟩
  intro opc' hopc'
  rw [hload.field_zero]
  simp only [List.mem_cons, List.not_mem_nil, or_false] at hopc'
  rcases hopc with rfl | rfl <;> rcases hopc' with rfl | rfl <;> decide

end Branches

/-! ## Requests in octet mode -/

/-- A datagram that the server takes as a request in octet mode for a range of the
target. What the server made of the request is `req`. -/
structure OctetRequest (s : Server σ) (opc : Nat) (pkt : List Byte) (req : Req)
    (range : MemRange) : Prop where
  opcode : (s.load (dgram pkt)).buf.field 0 = opc
  parsed : tftpReqParse (s.load (dgram pkt)).buf.stuff s.req = some (0, req)
  octet : req.mode = .octet
  decoded : (tftpDecodeFname s.dbg (s.load (dgram pkt)).buf.stuff).map
    (fun p => (p.1, p.2.1.transf)) = some (0, range)

/-- The variables of a transfer that has just been set up. -/
structure Started (target : σ) (req : Req) (range : MemRange) (s : Server σ) : Prop where
  target_eq : s.dbg.target = target
  req_eq : s.req = req
  blksize : s.blksize = req.blksize
  addrStart : s.addrStart = range.base
  addrEnd : s.addrEnd = range.base + range.size
  block : s.block = 0

theorem tftpDecodeFname_target {dbg dbg' : Debugger σ} {fname fname' : List Byte} {ret : Int}
    (h : tftpDecodeFname dbg fname = some (ret, dbg', fname')) : dbg'.target = dbg.target := by
  rw [tftpDecodeFname] at h
  by_cases haddr : isAddress fname
  · simp only [haddr, if_true, Option.bind_eq_bind, Option.bind_eq_some_iff] at h
    obtain ⟨_, -, last, -, h⟩ := h
    cases last with
    | none => cases h; rfl
    | some last => cases h; rfl
  · simp only [haddr, Bool.false_eq_true, if_false, Option.bind_eq_bind,
      Option.bind_eq_some_iff] at h
    obtain ⟨_, -, name, -, h⟩ := h
    cases hmem : iceMemByName dbg.mem name.1 with
    | none =>
        rw [hmem] at h
        cases h
        rfl
    | some e =>
        rw [hmem] at h
        cases h
        rfl

theorem parseBlksize_le {cp : List Byte} {b : Nat} {opt : List Byte}
    (h : parseBlksize cp = some (b, opt)) : b ≤ maxTftpSegsize := by
  simp only [parseBlksize, Option.bind_eq_bind, Option.bind_eq_some_iff] at h
  obtain ⟨named, -, h⟩ := h
  cases named with
  | false =>
      simp only [Bool.false_eq_true, if_false, Option.pure_def, Option.some.injEq,
        Prod.mk.injEq] at h
      rw [← h.1]
      decide
  | true =>
      simp only [if_true, Option.bind_eq_some_iff, Option.pure_def, Option.some.injEq,
        Prod.mk.injEq] at h
      obtain ⟨_, -, _, -, hb, -⟩ := h
      rw [← hb]
      exact Nat.min_le_right _ _

section Requests

variable {s : Server σ} {opc : Nat} {pkt : List Byte} {req : Req} {range : MemRange}

theorem OctetRequest.blksize_le (h : OctetRequest s opc pkt req range) :
    req.blksize ≤ maxTftpSegsize := by
  have hp := h.parsed
  simp only [tftpReqParse, Option.bind_eq_bind, Option.bind_eq_some_iff] at hp
  obtain ⟨_, -, mode, -, hp⟩ := hp
  cases mode with
  | none => simp at hp
  | some mode =>
      simp only [Option.bind_eq_some_iff, Option.pure_def, Option.some.injEq, Prod.mk.injEq] at hp
      obtain ⟨_, -, q, hq, -, hreq⟩ := hp
      rw [← hreq]
      exact parseBlksize_le hq

/-- A request that is parsed and decoded sets up a transfer. -/
theorem startTransfer_started
    (hparsed : tftpReqParse (s.load (dgram pkt)).buf.stuff s.req = some (0, req))
    (hdecoded : (tftpDecodeFname s.dbg (s.load (dgram pkt)).buf.stuff).map
      (fun p => (p.1, p.2.1.transf)) = some (0, range)) :
    ∃ s', startTransfer (s.load (dgram pkt)) = some (true, s') ∧
      Started s.dbg.target req range s' := by
  obtain ⟨⟨ret, dbg, fname⟩, hdec, heq⟩ := Option.map_eq_some_iff.mp hdecoded
  simp only [Prod.mk.injEq] at heq
  obtain ⟨rfl, hrange⟩ := heq
  have hparsed : tftpReqParse (s.load (dgram pkt)).buf.stuff (s.load (dgram pkt)).req =
    some (0, req) := hparsed
  have hdecoded : tftpDecodeFname (s.load (dgram pkt)).dbg (s.load (dgram pkt)).buf.stuff =
    some (0, dbg, fname) := hdec
  simp only [Tftp.startTransfer, hparsed, hdecoded, Option.bind_eq_bind, Option.bind_some]
  refine ⟨_, rfl, tftpDecodeFname_target hdec, rfl, rfl, ?_, ?_, rfl⟩
  · exact congrArg MemRange.base hrange
  · simp only [hrange]

theorem OctetRequest.startTransfer (h : OctetRequest s opc pkt req range) :
    ∃ s', startTransfer (s.load (dgram pkt)) = some (true, s') ∧
      Started s.dbg.target req range s' :=
  startTransfer_started h.parsed h.decoded

end Requests

/-! ## A target of memory only -/

/-- A target whose memory takes and gives all bytes and whose commands do nothing. -/
def ram : Target (Word → Byte) where
  memRead addr n mem := (n, (List.range n.toNat).map fun i => mem (addr + BitVec.ofNat 32 i), mem)
  memWrite addr data len mem :=
    (len, fun a => if (a - addr).toNat < len.toNat then data.getD (a - addr).toNat 0 else mem a)
  exec _ dbg := (0, dbg)
  strerror _ := []

/-- A memory in which each byte is the low byte of its address. -/
def ramBytes (addr : Word) : Byte := addr.setWidth 8

/-- The task at its start, in front of that memory. -/
def ramServer : Server (Word → Byte) :=
  .init ⟨List.replicate maxTftpMsg 0, List.length_replicate⟩ ⟨.unset, 0, []⟩
    ⟨⟨0, 65536⟩, [], ramBytes⟩

/-- A request in octet mode with a block size. -/
def requestPkt (opc : Nat) (fname : String) (blksize : Nat) : List Byte :=
  be16 opc ++ text fname ++ 0 :: text "octet" ++ 0 :: text "blksize" ++ 0 :: decimal blksize ++ [0]

/-- What the server makes of it. -/
def blksizeReq (blksize : Nat) : Req :=
  ⟨.octet, blksize, text "blksize" ++ 0 :: decimal blksize ++ [0]⟩

end YardIce.Tftp
