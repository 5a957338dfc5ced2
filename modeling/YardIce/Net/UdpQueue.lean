import YardIce.Lib.Runs
import YardIce.Mbuf.ListData
import YardIce.Mbuf.Shared
import Mathlib.Data.Nat.ModEq

/-!
# The receive queue of a UDP control block

`udp_input` puts a datagram into a ring of slots, its payload into a list of mbufs;
`udp_recv` takes the oldest one out. The counters of the ring have 8 bits, and a slot is a
counter modulo the length of the ring.

## Implementation notes

The pool of mbufs has other clients, whose calls come between those of the queue. The lock of
the network makes each call one step. `udp_input` is modelled from the lookup of the control
block on, for a datagram that has passed the tests. A log of the datagrams that were queued
and of what `udp_recv` returned is kept beside the state; no function looks at it.
-/

namespace YardIce.Net

open Lib MbufPool ListPool

/-! ## The source -/

/-- `struct udp_dgram`. -/
structure UdpDgram where
  addr : BitVec 32
  port : BitVec 16
  len : BitVec 16
  q : Option Mbuf

/-- The fields of `struct udp_pcb` that the receive queue uses. -/
structure UdpRcv where
  lport : BitVec 16
  icmpErr : Bool
  rcvTail : BitVec 8
  rcvHead : BitVec 8
  rcvBuf : Nat → UdpDgram

/-- A datagram, as `udp_input` gets it. -/
structure Datagram where
  addr : BitVec 32
  port : BitVec 16
  payload : List UInt8

/-- The control block and the pool. -/
structure UdpState (Q V : Type) where
  clients : Clients Q V
  up : UdpRcv

section Source

variable {Q V : Type} [DecidableEq Q] [DecidableEq V] (qlen : Nat)

/-- The count of the entries, `(tail - head) & 0xff`. -/
def UdpRcv.cnt (up : UdpRcv) : Nat := (up.rcvTail - up.rcvHead).toNat

/-- The end of `udp_input`; whether the datagram was queued. -/
def udpEnqueue (s : UdpState Q V) (d : Datagram) : Except Stop (Bool × UdpState Q V) :=
  let up := s.up
  let i := up.rcvTail.toNat % qlen
  if up.cnt ≥ qlen then .ok (false, s)
  else
    match mbufListAlloc s.clients.sys d.payload.length with
    | .error e => .error e
    | .ok (none, sys) =>
        let dgram := { up.rcvBuf i with q := none }
        .ok (false, ⟨{ s.clients with sys := sys },
          { up with rcvBuf := Function.update up.rcvBuf i dgram }⟩)
    | .ok (some m, sys) =>
        let w := mbufListWrite sys (some m) d.payload
        let dgram := ⟨d.addr, d.port, BitVec.ofNat 16 w.1, some m⟩
        .ok (true, ⟨{ s.clients with sys := w.2 },
          { up with rcvTail := up.rcvTail + 1, rcvBuf := Function.update up.rcvBuf i dgram }⟩)

/-- What `udp_recv` returns: an error, or a count with the bytes and the address. -/
inductive UdpResult where
  | notconn
  | connrefused
  | datagram (n : Nat) (bytes : List UInt8) (addr : BitVec 32) (port : BitVec 16)

/-- `udp_recv` with a buffer of `len` bytes. -/
def udpRecv (s : UdpState Q V) (len : Nat) : Except Stop (UdpResult × UdpState Q V) :=
  let up := s.up
  if up.lport = 0 then .ok (.notconn, s)
  else if up.icmpErr then .ok (.connrefused, { s with up := { up with icmpErr := false } })
  else if up.rcvHead = up.rcvTail then .error .blocked
  else
    let dgram := up.rcvBuf (up.rcvHead.toNat % qlen)
    let r := mbufListRead s.clients.sys dgram.q (min dgram.len.toNat len)
    match mbufListFree s.clients.sys dgram.q with
    | .error e => .error e
    | .ok sys =>
        .ok (.datagram r.1 r.2 dgram.addr dgram.port,
          ⟨{ s.clients with sys := sys }, { up with rcvHead := up.rcvHead + 1 }⟩)

/-! ## Runs -/

/-- What a `udp_recv` with a buffer of `size` bytes returned. -/
structure Reception where
  size : Nat
  n : Nat
  bytes : List UInt8
  addr : BitVec 32
  port : BitVec 16

/-- The state, with the datagrams that were queued and what was received. -/
structure UdpRun (Q V : Type) where
  state : UdpState Q V
  queued : List Datagram
  received : List Reception

/-- A step: a call of another client of the pool, an ICMP error for the control block, or a
call of the queue. -/
inductive UdpAct (Q V : Type) where
  | client (a : Call Q V)
  | icmpError
  | input (d : Datagram)
  | recv (size : Nat)

def UdpRun.step (r : UdpRun Q V) : UdpAct Q V → Option (UdpRun Q V)
  | .client a =>
      match r.state.clients.call a with
      | .error _ => none
      | .ok (_, clients) => some { r with state := { r.state with clients := clients } }
  | .icmpError =>
      some { r with state := { r.state with up := { r.state.up with icmpErr := true } } }
  | .input d =>
      match udpEnqueue qlen r.state d with
      | .error _ => none
      | .ok (true, s) => some { r with state := s, queued := r.queued ++ [d] }
      | .ok (false, s) => some { r with state := s }
  | .recv size =>
      match udpRecv qlen r.state size with
      | .error _ => none
      | .ok (.datagram n bytes addr port, s) =>
          some { r with state := s, received := r.received ++ [⟨size, n, bytes, addr, port⟩] }
      | .ok (_, s) => some { r with state := s }

/-- The start: a queue without entries and the pool after `mbuf_init`. -/
def UdpRun.init (data : Mbuf → Nat → UInt8) (up : UdpRcv) : UdpRun Q V :=
  ⟨⟨Clients.init data, { up with rcvTail := up.rcvHead }⟩, [], []⟩

/-! ## What is right -/

/-- What is received for a datagram. -/
def Reception.Of (d : Datagram) (x : Reception) : Prop :=
  x.n = min d.payload.length x.size ∧ x.bytes = d.payload.take x.size ∧ x.addr = d.addr ∧
    x.port = d.port

/-- The datagrams that were queued and not yet received. -/
def UdpRun.unread (r : UdpRun Q V) : List Datagram := r.queued.drop r.received.length

/-- The slot of the entry number `j` from the oldest on. -/
def UdpRcv.slot (up : UdpRcv) (j : Nat) : Nat := (up.rcvHead + BitVec.ofNat 8 j).toNat % qlen

/-- A slot has a datagram with all its payload. -/
structure SlotHolds (sys : MbufSys Q) (dgram : UdpDgram) (d : Datagram) : Prop where
  addr : dgram.addr = d.addr
  port : dgram.port = d.port
  len : dgram.len.toNat = d.payload.length
  payload : mbufListRead sys dgram.q d.payload.length = (d.payload.length, d.payload)

/-- The queue is a FIFO of whole datagrams: what was received are the first of the datagrams
that were queued, the others are in their slots, and the next call gets the first of them. -/
structure FifoRight (r : UdpRun Q V) : Prop where
  order : List.Forall₂ Reception.Of (r.queued.take r.received.length) r.received
  unread : ∀ j d, r.unread[j]? = some d →
    SlotHolds r.state.clients.sys (r.state.up.rcvBuf (r.state.up.slot qlen j)) d
  next : ∀ d, r.unread.head? = some d → r.state.up.lport ≠ 0 → r.state.up.icmpErr = false →
    ∀ size, ∃ s, udpRecv qlen r.state size = .ok (.datagram (min d.payload.length size)
      (d.payload.take size) d.addr d.port, s)

/-- The steps that meet no fault: lists are asked for with at least one byte and with no more
than the pool has, and an entry comes to no slot that is in use. -/
def UdpMeets (r : UdpRun Q V) : UdpAct Q V → Prop
  | .client a => Fits r.state.clients a
  | .input d => r.state.up.cnt < qlen →
      ListAllocFits r.state.clients.sys d.payload.length ∧
        ∀ j < r.state.up.cnt, r.state.up.slot qlen j ≠ r.state.up.rcvTail.toNat % qlen
  | _ => True

end Source

/-! ## The counters -/

section Counters

variable {qlen : Nat} {up : UdpRcv}

/-- The entry behind the last one would come to the slot of the tail. -/
theorem slot_cnt (up : UdpRcv) : up.slot qlen up.cnt = up.rcvTail.toNat % qlen := by
  have hsum : up.rcvHead + BitVec.ofNat 8 up.cnt = up.rcvTail := by
    rw [UdpRcv.cnt, BitVec.ofNat_toNat, BitVec.setWidth_eq, BitVec.add_comm,
      BitVec.sub_add_cancel]
  rw [UdpRcv.slot, hsum]

theorem cnt_push (h : up.cnt < 255) (buf : Nat → UdpDgram) :
    { up with rcvTail := up.rcvTail + 1, rcvBuf := buf }.cnt = up.cnt + 1 := by
  have hone : (1 : BitVec 8).toNat = 1 := rfl
  simp only [UdpRcv.cnt, BitVec.toNat_sub, BitVec.toNat_add, hone] at h ⊢
  omega

theorem cnt_pop (h : 0 < up.cnt) : { up with rcvHead := up.rcvHead + 1 }.cnt = up.cnt - 1 := by
  have hone : (1 : BitVec 8).toNat = 1 := rfl
  simp only [UdpRcv.cnt, BitVec.toNat_sub, BitVec.toNat_add, hone] at h ⊢
  omega

theorem slot_pop (up : UdpRcv) (j : Nat) :
    { up with rcvHead := up.rcvHead + 1 }.slot qlen j = up.slot qlen (j + 1) := by
  have hsum : up.rcvHead + 1 + BitVec.ofNat 8 j = up.rcvHead + BitVec.ofNat 8 (j + 1) := by
    have hone : (1 : BitVec 8).toNat = 1 := rfl
    apply BitVec.eq_of_toNat_eq
    simp only [BitVec.toNat_add, BitVec.toNat_ofNat, hone]
    omega
  simp only [UdpRcv.slot, hsum]

end Counters

/-! ## The invariant -/

section Invariant

variable {Q V : Type} {qlen : Nat}

/-- A slot with the chain of its datagram. -/
structure SlotOk (sys : MbufSys Q) (l : List Mbuf) (dgram : UdpDgram) (d : Datagram) : Prop where
  addr : dgram.addr = d.addr
  port : dgram.port = d.port
  len : dgram.len.toNat = d.payload.length
  linked : Linked sys.heap.next dgram.q l
  room : d.payload.length ≤ mbufDataSize * l.length
  bytes : chainBytes sys.data l 0 d.payload.length = d.payload

/-- The place of the chain of a slot. -/
abbrev slotPlace (i : Nat) : Place Q (V ⊕ Nat) := .inr (.inr i)

/-- The unread datagrams are in as many slots, and the other slots hold no buffers. -/
structure QueueInv (qlen : Nat) (r : UdpRun Q V) (c : Place Q (V ⊕ Nat) → List Mbuf) : Prop where
  shared : SharedInv r.state.clients c
  order : List.Forall₂ Reception.Of (r.queued.take r.received.length) r.received
  count : r.unread.length = r.state.up.cnt
  le : r.state.up.cnt ≤ qlen
  inj : ∀ j k, j < k → k < r.state.up.cnt → r.state.up.slot qlen j ≠ r.state.up.slot qlen k
  slots : ∀ j d, r.unread[j]? = some d →
    SlotOk r.state.clients.sys (c (slotPlace (r.state.up.slot qlen j)))
      (r.state.up.rcvBuf (r.state.up.slot qlen j)) d
  unused : ∀ i, (∀ j < r.state.up.cnt, r.state.up.slot qlen j ≠ i) → c (slotPlace i) = []

variable {sys sys' : MbufSys Q} {c c' : Place Q (V ⊕ Nat) → List Mbuf} {p : Place Q (V ⊕ Nat)}
  {d : Datagram} {dgram : UdpDgram} {i : Nat}

theorem SlotOk.frame (hf : Frame p sys c sys' c') (hi : slotPlace i ≠ p)
    (h : SlotOk sys (c (slotPlace i)) dgram d) : SlotOk sys' (c' (slotPlace i)) dgram d := by
  have hfree : (slotPlace i : Place Q (V ⊕ Nat)) ≠ freePlace := by simp
  rw [hf.contents _ hfree hi]
  refine ⟨h.addr, h.port, h.len, hf.linked _ hfree hi _ h.linked, h.room, ?_⟩
  rw [chainBytes_congr (hf.data _ hfree hi), h.bytes]

theorem SlotOk.holds {l : List Mbuf} (h : SlotOk sys l dgram d) : SlotHolds sys dgram d :=
  ⟨h.addr, h.port, h.len, by rw [mbufListRead_spec h.linked _ h.room, h.bytes]⟩

/-- What is read of a slot for a buffer of some size. -/
theorem SlotOk.read {l : List Mbuf} (h : SlotOk sys l dgram d) (size : Nat) :
    mbufListRead sys dgram.q (min dgram.len.toNat size) =
      (min d.payload.length size, d.payload.take size) := by
  have hle : min d.payload.length size ≤ d.payload.length := Nat.min_le_left _ _
  rw [h.len, mbufListRead_spec h.linked _ (hle.trans h.room), ← chainBytes_take _ _ _ hle, h.bytes,
    List.take_eq_take_iff.mpr (show min (min d.payload.length size) d.payload.length =
      min size d.payload.length by omega)]

/-- Data that is written into the chain of one place. -/
theorem Inv.write {data' : Mbuf → Nat → UInt8} (h : Inv sys c)
    (hdata : ∀ b ∉ c p, data' b = sys.data b) :
    Inv { sys with data := data' } c ∧ Frame p sys c { sys with data := data' } c := by
  refine ⟨⟨⟨h.pool, h.max_eq, h.used_eq, h.unlocked⟩, h.fill⟩, fun _ _ _ => rfl, ?_,
    fun _ _ _ _ hx => hx, fun _ _ => rfl⟩
  intro r _ hr b hb
  exact hdata b fun hp => hr (h.pool.part.eq_of_mem hb hp)

/-- A step that moves buffers only between the free list and a place that is no slot. -/
theorem QueueInv.other {r : UdpRun Q V} {clients : Clients Q V} (h : QueueInv qlen r c)
    (hshared : SharedInv clients c') (hf : Frame p r.state.clients.sys c clients.sys c')
    (hp : ∀ i, slotPlace i ≠ p) :
    QueueInv qlen { r with state := { r.state with clients := clients } } c' := by
  refine ⟨hshared, h.order, h.count, h.le, h.inj, fun j d hd => (h.slots j d hd).frame hf (hp _),
    fun i hi => ?_⟩
  rw [hf.contents _ (by simp) (hp i)]
  exact h.unused i hi

theorem place_ne (a : Call Q V) (i : Nat) : (slotPlace i : Place Q (V ⊕ Nat)) ≠ a.place := by
  cases a <;> simp [Call.place, slotPlace]

theorem QueueInv.client [DecidableEq Q] [DecidableEq V] {r : UdpRun Q V} {a : Call Q V} {clients : Clients Q V} {reply : Reply}
    (h : QueueInv qlen r c) (hfit : Fits r.state.clients a)
    (hcall : r.state.clients.call a = .ok (reply, clients)) :
    ∃ c', QueueInv qlen { r with state := { r.state with clients := clients } } c' := by
  obtain ⟨c', hshared, hf⟩ := h.shared.call hfit hcall
  exact ⟨c', h.other hshared hf (place_ne a)⟩

theorem unread_push (r : UdpRun Q V) (s : UdpState Q V) (d : Datagram)
    (h : r.received.length ≤ r.queued.length) :
    { r with state := s, queued := r.queued ++ [d] }.unread = r.unread ++ [d] :=
  List.drop_append_of_le_length h

theorem QueueInv.received_le {r : UdpRun Q V} (h : QueueInv qlen r c) :
    r.received.length ≤ r.queued.length := by
  have hlen := h.order.length_eq
  rw [List.length_take] at hlen
  omega

end Invariant

/-! ## The calls of the queue -/

section Calls

variable {Q V : Type} [DecidableEq Q] [DecidableEq V] {qlen : Nat} {r : UdpRun Q V}
  {c : Place Q (V ⊕ Nat) → List Mbuf} {d : Datagram}

omit [DecidableEq V] in
/-- A full queue refuses a datagram. -/
theorem enqueue_full {s : UdpState Q V} (h : ¬ s.up.cnt < qlen) :
    udpEnqueue qlen s d = .ok (false, s) := by
  rw [udpEnqueue, if_pos (Nat.not_lt.mp h)]

/-- The chain that a datagram gets, with its payload. -/
theorem QueueInv.chain (h : QueueInv qlen r c) {i : Nat} (hempty : c (slotPlace i) = [])
    (hfit : ListAllocFits r.state.clients.sys d.payload.length) :
    ∃ m sys w c', mbufListAlloc r.state.clients.sys d.payload.length = .ok (some m, sys) ∧
      mbufListWrite sys (some m) d.payload = (d.payload.length, w) ∧ Inv w c' ∧
      Frame (slotPlace i) r.state.clients.sys c w c' ∧
      Linked w.heap.next (some m) (c' (slotPlace i)) ∧
      d.payload.length ≤ mbufDataSize * (c' (slotPlace i)).length ∧
      chainBytes w.data (c' (slotPlace i)) 0 d.payload.length = d.payload := by
  obtain ⟨u, b, w, hc, hn⟩ := hfit.split h.shared.inv
  obtain ⟨m, hm⟩ : ∃ m, (u ++ [b]).head? = some m := by
    cases u with
    | nil => exact ⟨b, rfl⟩
    | cons x u => exact ⟨x, rfl⟩
  have hinv := listTaken_inv h.shared.inv hc hempty
  have hframe := listTaken_frame h.shared.inv (.inr i) hc (u.length + 1)
  have hlinked := listTaken_linked h.shared.inv hc (u.length + 1)
  have halloc := mbufListAlloc_eq h.shared.inv hc hn
  rw [hm] at hlinked halloc
  have hplace := splitOff_target c freePlace (slotPlace i) (u ++ [b]) w
  have hroom : d.payload.length ≤ mbufDataSize * (u ++ [b]).length := by
    rw [List.length_append, List.length_singleton]
    simp only [mbufDataSize] at hn ⊢
    omega
  have hnd : (u ++ [b]).Nodup := by
    rw [← hplace]
    exact hinv.pool.part.nodup _
  obtain ⟨data', hwrite, hother, hbytes⟩ := mbufListWrite_spec hnd hlinked d.payload hroom
  have hdata := @Inv.write Q V _ _ (slotPlace i) data' hinv (by rwa [hplace])
  refine ⟨m, _, _, _, halloc, hwrite, hdata.1, hframe.trans hdata.2, ?_, ?_, ?_⟩
  · rw [hplace]
    exact hlinked
  · rw [hplace]
    exact hroom
  · rw [hplace]
    exact hbytes

/-- The control block after a datagram was queued. -/
def UdpRcv.pushed (qlen : Nat) (up : UdpRcv) (d : Datagram) (m : Mbuf) : UdpRcv :=
  { up with
    rcvTail := up.rcvTail + 1
    rcvBuf := Function.update up.rcvBuf (up.rcvTail.toNat % qlen)
      ⟨d.addr, d.port, BitVec.ofNat 16 d.payload.length, some m⟩ }

/-- A datagram that there is room for is queued. -/
theorem QueueInv.push (h : QueueInv qlen r c) (hq : qlen ≤ 255) (hroom : r.state.up.cnt < qlen)
    (hfit : ListAllocFits r.state.clients.sys d.payload.length)
    (hfree : ∀ j < r.state.up.cnt, r.state.up.slot qlen j ≠ r.state.up.rcvTail.toNat % qlen) :
    ∃ s c', udpEnqueue qlen r.state d = .ok (true, s) ∧
      QueueInv qlen { r with state := s, queued := r.queued ++ [d] } c' := by
  have hempty := h.unused _ hfree
  obtain ⟨m, sys, w, c', halloc, hwrite, hinv, hframe, hlinked, hlong, hbytes⟩ :=
    h.chain hempty hfit
  have hshort : d.payload.length < 2 ^ 16 := by
    obtain ⟨-, hle⟩ := hfit
    rw [h.shared.inv.max_eq] at hle
    simp only [mbufDataSize, mbufPoolSize] at hle
    omega
  have hne : ∀ {k}, k ≠ r.state.up.rcvTail.toNat % qlen →
      (slotPlace k : Place Q (V ⊕ Nat)) ≠ slotPlace (r.state.up.rcvTail.toNat % qlen) :=
    fun hk heq => hk (Sum.inr.inj (Sum.inr.inj heq))
  have hcnt : (r.state.up.pushed qlen d m).cnt = r.state.up.cnt + 1 := cnt_push (by omega) _
  have hslot : ∀ j, (r.state.up.pushed qlen d m).slot qlen j = r.state.up.slot qlen j :=
    fun _ => rfl
  have hunread := unread_push r ⟨{ r.state.clients with sys := w }, r.state.up.pushed qlen d m⟩ d
    h.received_le
  refine ⟨⟨{ r.state.clients with sys := w }, r.state.up.pushed qlen d m⟩, c', ?_,
    ⟨hinv, fun v => (h.shared.held v).frame hframe (by simp)⟩, ?_, ?_, ?_, ?_, ?_, ?_⟩
  · rw [udpEnqueue, if_neg (Nat.not_le.mpr hroom), halloc]
    dsimp only
    rw [hwrite]
    rfl
  · rw [List.take_append_of_le_length h.received_le]
    exact h.order
  · rw [hunread, List.length_append, h.count, List.length_singleton, hcnt]
  · rw [hcnt]
    exact hroom
  · intro j k hjk hk
    rw [hcnt] at hk
    rw [hslot, hslot]
    rcases Nat.lt_or_eq_of_le (Nat.le_of_lt_succ hk) with hlt | rfl
    · exact h.inj j k hjk hlt
    · rw [slot_cnt]
      exact hfree j hjk
  · intro j d' hd'
    rw [hunread] at hd'
    rw [hslot]
    rcases Nat.lt_or_ge j r.unread.length with hlt | hge
    · rw [List.getElem?_append_left hlt] at hd'
      have hother := hfree j (by rwa [← h.count])
      show SlotOk w _ (Function.update r.state.up.rcvBuf _ _ _) d'
      rw [Function.update_of_ne hother]
      exact (h.slots j d' hd').frame hframe (hne hother)
    · rw [List.getElem?_append_right hge, List.getElem?_singleton] at hd'
      split at hd'
      · next hzero =>
        obtain rfl := Option.some.inj hd'
        have hlast : r.state.up.slot qlen j = r.state.up.rcvTail.toNat % qlen := by
          rw [show j = r.state.up.cnt by rw [← h.count]; omega, slot_cnt]
        rw [hlast]
        show SlotOk w _ (Function.update r.state.up.rcvBuf _ _ _) d
        rw [Function.update_self]
        exact ⟨rfl, rfl, Nat.mod_eq_of_lt hshort, hlinked, hlong, hbytes⟩
      · cases hd'
  · intro k hk
    have hother : k ≠ r.state.up.rcvTail.toNat % qlen := by
      rintro rfl
      refine hk r.state.up.cnt (by rw [hcnt]; exact Nat.lt_succ_self _) ?_
      rw [hslot, slot_cnt]
    rw [hframe.contents _ (by simp) (hne hother)]
    exact h.unused k fun j hj => hk j (by rw [hcnt]; exact Nat.lt_succ_of_lt hj)

/-- The control block after a datagram was taken out. -/
def UdpRcv.popped (up : UdpRcv) : UdpRcv := { up with rcvHead := up.rcvHead + 1 }

/-- The oldest entry is in the slot of the head. -/
theorem slot_zero (up : UdpRcv) : up.slot qlen 0 = up.rcvHead.toNat % qlen := by
  exact congrArg (fun x : BitVec 8 => x.toNat % qlen) (BitVec.add_zero up.rcvHead)

/-- The oldest datagram is returned. -/
theorem QueueInv.pop (h : QueueInv qlen r c) (hd : r.unread.head? = some d)
    (hport : r.state.up.lport ≠ 0) (herr : r.state.up.icmpErr = false) (size : Nat) :
    ∃ s c', udpRecv qlen r.state size =
        .ok (.datagram (min d.payload.length size) (d.payload.take size) d.addr d.port, s) ∧
      QueueInv qlen { r with
        state := s
        received := r.received ++
          [⟨size, min d.payload.length size, d.payload.take size, d.addr, d.port⟩] } c' := by
  obtain ⟨ds, hunread⟩ : ∃ ds, r.unread = d :: ds := by
    cases hlist : r.unread with
    | nil =>
        rw [hlist] at hd
        cases hd
    | cons d' ds =>
        rw [hlist] at hd
        exact ⟨ds, by rw [Option.some.inj hd]⟩
  have hpos : 0 < r.state.up.cnt := by
    rw [← h.count, hunread]
    exact Nat.succ_pos _
  have hslot := h.slots 0 d (by rw [hunread]; rfl)
  rw [slot_zero] at hslot
  have hplace : (slotPlace (r.state.up.rcvHead.toNat % qlen) : Place Q (V ⊕ Nat)) ≠ freePlace := by
    simp
  have hfree := mbufListFree_eq h.shared.inv hslot.linked
  have hframe := listFreed_frame h.shared.inv hplace
  have hne : ∀ {k}, k ≠ r.state.up.rcvHead.toNat % qlen →
      (slotPlace k : Place Q (V ⊕ Nat)) ≠ slotPlace (r.state.up.rcvHead.toNat % qlen) :=
    fun hk heq => hk (Sum.inr.inj (Sum.inr.inj heq))
  have hcnt : r.state.up.popped.cnt = r.state.up.cnt - 1 := cnt_pop hpos
  have hshift : ∀ j, r.state.up.popped.slot qlen j = r.state.up.slot qlen (j + 1) := slot_pop _
  have hlater : ∀ j, j + 1 < r.state.up.cnt →
      r.state.up.slot qlen (j + 1) ≠ r.state.up.rcvHead.toNat % qlen := fun j hj => by
    rw [← slot_zero]
    exact (h.inj 0 (j + 1) (Nat.succ_pos j) hj).symm
  have hdrop : r.queued.drop (r.received.length + 1) = ds := by
    rw [← List.drop_drop]
    have : r.queued.drop r.received.length = d :: ds := hunread
    rw [this]
    rfl
  have hget : r.queued[r.received.length]? = some d := by
    have : r.queued.drop r.received.length = d :: ds := hunread
    rw [← Nat.add_zero r.received.length, ← List.getElem?_drop, this]
    rfl
  refine ⟨⟨{ r.state.clients with sys := listFreed r.state.clients.sys (c (slotPlace
    (r.state.up.rcvHead.toNat % qlen))) }, r.state.up.popped⟩, _, ?_,
    ⟨listFreed_inv h.shared.inv _, fun v => (h.shared.held v).frame hframe (by simp)⟩,
    ?_, ?_, ?_, ?_, ?_, ?_⟩
  · have hwait : ¬ r.state.up.rcvHead = r.state.up.rcvTail := by
      intro heq
      rw [UdpRcv.cnt, heq, BitVec.sub_self] at hpos
      exact absurd hpos (by decide)
    have hclear : ¬ r.state.up.icmpErr = true := by
      rw [herr]
      decide
    rw [udpRecv, if_neg hport, if_neg hclear, if_neg hwait]
    dsimp only
    rw [hfree, hslot.read, hslot.addr, hslot.port]
    rfl
  · rw [List.length_append, List.length_singleton, List.take_add_one, hget]
    exact List.rel_append h.order (.cons ⟨rfl, rfl, rfl, rfl⟩ .nil)
  · show (r.queued.drop (r.received ++ [_]).length).length = _
    rw [List.length_append, List.length_singleton, hdrop, hcnt, ← h.count, hunread]
    rfl
  · rw [hcnt]
    exact (Nat.sub_le _ _).trans h.le
  · intro j k hjk hk
    rw [hcnt] at hk
    rw [hshift, hshift]
    exact h.inj _ _ (Nat.succ_lt_succ hjk) (by omega)
  · intro j d' hd'
    have hd' : (r.queued.drop (r.received ++ [_]).length)[j]? = some d' := hd'
    rw [List.length_append, List.length_singleton, hdrop] at hd'
    have hold : r.unread[j + 1]? = some d' := by
      rw [hunread]
      exact hd'
    have hj : j + 1 < r.state.up.cnt := by
      rw [← h.count]
      exact (List.getElem?_eq_some_iff.mp hold).1
    rw [hshift]
    exact (h.slots (j + 1) d' hold).frame hframe (hne (hlater j hj))
  · intro k hk
    by_cases hhead : k = r.state.up.rcvHead.toNat % qlen
    · rw [hhead]
      exact drained_source (by simp)
    · rw [hframe.contents _ (by simp) (hne hhead)]
      refine h.unused k fun j hj => ?_
      rcases j with - | j
      · rw [slot_zero]
        exact fun heq => hhead heq.symm
      · rw [← hshift]
        exact hk j (by rw [hcnt]; omega)

end Calls

/-! ## Runs -/

section Runs

variable {Q V : Type} [DecidableEq Q] [DecidableEq V] {qlen : Nat} {r t : UdpRun Q V}
  {c : Place Q (V ⊕ Nat) → List Mbuf}

omit [DecidableEq V] in
theorem QueueInv.init (data : Mbuf → Nat → UInt8) (up : UdpRcv) :
    QueueInv qlen (UdpRun.init data up : UdpRun Q V) initContents := by
  have hcnt : (UdpRun.init data up : UdpRun Q V).state.up.cnt = 0 := by
    show (up.rcvHead - up.rcvHead).toNat = 0
    rw [BitVec.sub_self]
    rfl
  refine ⟨⟨mbufInit_inv data, fun _ => rfl⟩, .nil, hcnt.symm, ?_, ?_, ?_, fun _ _ => rfl⟩
  · rw [hcnt]
    exact Nat.zero_le _
  · intro j k _ hk
    rw [hcnt] at hk
    omega
  · intro j d hd
    cases hd

omit [DecidableEq Q] [DecidableEq V] in
/-- An ICMP error leaves the queue alone. -/
theorem QueueInv.setErr (h : QueueInv qlen r c) (b : Bool) :
    QueueInv qlen { r with state := { r.state with up := { r.state.up with icmpErr := b } } } c :=
  ⟨h.shared, h.order, h.count, h.le, h.inj, h.slots, h.unused⟩

theorem QueueInv.recv (h : QueueInv qlen r c) {size : Nat}
    (hstep : r.step qlen (.recv size) = some t) : ∃ c', QueueInv qlen t c' := by
  by_cases hport : r.state.up.lport = 0
  · have hcall : udpRecv qlen r.state size = .ok (.notconn, r.state) := if_pos hport
    simp only [UdpRun.step, hcall, Option.some.injEq] at hstep
    exact ⟨c, hstep ▸ h⟩
  by_cases herr : r.state.up.icmpErr = true
  · have hcall : udpRecv qlen r.state size = .ok (.connrefused,
        { r.state with up := { r.state.up with icmpErr := false } }) :=
      (if_neg hport).trans (if_pos herr)
    simp only [UdpRun.step, hcall, Option.some.injEq] at hstep
    exact ⟨c, hstep ▸ h.setErr false⟩
  cases hhead : r.unread.head? with
  | none =>
      -- without an entry the call waits
      have hnil : r.unread = [] := List.head?_eq_none_iff.mp hhead
      have hcnt : r.state.up.cnt = 0 := by
        rw [← h.count, hnil]
        rfl
      have hempty : r.state.up.rcvHead = r.state.up.rcvTail := by
        have hzero : r.state.up.rcvTail - r.state.up.rcvHead = 0#8 :=
          BitVec.eq_of_toNat_eq hcnt
        rw [← BitVec.sub_add_cancel r.state.up.rcvTail r.state.up.rcvHead, hzero, BitVec.zero_add]
      have hcall : udpRecv qlen r.state size = .error .blocked :=
        (if_neg hport).trans ((if_neg herr).trans (if_pos hempty))
      simp only [UdpRun.step, hcall] at hstep
      cases hstep
  | some d =>
      obtain ⟨s, c', hcall, hinv⟩ := h.pop hhead hport (Bool.eq_false_iff.mpr herr) size
      simp only [UdpRun.step, hcall, Option.some.injEq] at hstep
      exact ⟨c', hstep ▸ hinv⟩

theorem QueueInv.input (h : QueueInv qlen r c) (hq : qlen ≤ 255) {d : Datagram}
    (hmeets : UdpMeets qlen r (.input d)) (hstep : r.step qlen (.input d) = some t) :
    ∃ c', QueueInv qlen t c' := by
  by_cases hroom : r.state.up.cnt < qlen
  · obtain ⟨hfit, hfree⟩ := hmeets hroom
    obtain ⟨s, c', hcall, hinv⟩ := h.push hq hroom hfit hfree
    simp only [UdpRun.step, hcall, Option.some.injEq] at hstep
    exact ⟨c', hstep ▸ hinv⟩
  · simp only [UdpRun.step, enqueue_full hroom, Option.some.injEq] at hstep
    exact ⟨c, hstep ▸ h⟩

theorem QueueInv.step (h : QueueInv qlen r c) (hq : qlen ≤ 255) {a : UdpAct Q V}
    (hmeets : UdpMeets qlen r a) (hstep : r.step qlen a = some t) : ∃ c', QueueInv qlen t c' := by
  cases a with
  | client a =>
      cases hcall : r.state.clients.call a with
      | error e =>
          simp only [UdpRun.step, hcall] at hstep
          cases hstep
      | ok x =>
          simp only [UdpRun.step, hcall, Option.some.injEq] at hstep
          exact hstep ▸ h.client hmeets hcall
  | icmpError =>
      simp only [UdpRun.step, Option.some.injEq] at hstep
      exact ⟨c, hstep ▸ h.setErr true⟩
  | input d => exact h.input hq hmeets hstep
  | recv size => exact h.recv hstep

theorem QueueInv.right (h : QueueInv qlen r c) : FifoRight qlen r := by
  refine ⟨h.order, fun j d hd => (h.slots j d hd).holds, fun d hd hport herr size => ?_⟩
  obtain ⟨s, c', hcall, -⟩ := h.pop hd hport herr size
  exact ⟨s, hcall⟩

/-- In every run whose steps meet no fault the queue is a FIFO of whole datagrams, and a
datagram that is refused changes nothing. -/
theorem udpQueue_fifo (qlen : Nat) (hq : 1 ≤ qlen ∧ qlen ≤ 255) (data : Mbuf → Nat → UInt8)
    (up : UdpRcv) (acts : List (UdpAct Q V))
    (hmeets : Along (UdpRun.step qlen) (UdpMeets qlen) (UdpRun.init data up) acts)
    (hrun : exec (UdpRun.step qlen) (UdpRun.init data up) acts = some r) :
    FifoRight qlen r ∧ ∀ d s, UdpMeets qlen r (.input d) →
      udpEnqueue qlen r.state d = .ok (false, s) → s = r.state := by
  have hinv : ∃ c : Place Q (V ⊕ Nat) → List Mbuf, QueueInv qlen r c := by
    refine @exec_invariant _ _ _ _ (fun r : UdpRun Q V => ∃ c, QueueInv qlen r c) ?_ _ _ _
      ⟨_, QueueInv.init data up⟩ hmeets hrun
    rintro r a t ⟨c, hc⟩ hok hstep
    exact hc.step hq.2 hok hstep
  obtain ⟨c, hc⟩ := hinv
  refine ⟨hc.right, fun d s hok hcall => ?_⟩
  by_cases hroom : r.state.up.cnt < qlen
  · obtain ⟨hfit, hfree⟩ := hok hroom
    obtain ⟨s', c', hpush, -⟩ := hc.push hq.2 hroom hfit hfree
    rw [hpush] at hcall
    injection hcall with hpair
    injection hpair with hfalse
    cases hfalse
  · rw [enqueue_full hroom] at hcall
    injection hcall with hpair
    injection hpair with _ hs
    exact hs.symm

end Runs

/-- A control block for port 7. -/
def udpExample : UdpRcv := ⟨0x0700, false, 0, 0, fun _ => ⟨0, 0, 0, none⟩⟩

/-- A datagram is queued and received while another client takes all the other buffers. -/
theorem udpQueue_fifo_one : ∃ r : UdpRun Unit Unit,
    exec (UdpRun.step 4) (UdpRun.init (fun _ _ => 0) udpExample)
      [.input ⟨1, 2, [3]⟩, .client (.tryAlloc ()), .recv 8] = some r ∧
    FifoRight 4 r ∧ ∀ d s, UdpMeets 4 r (.input d) →
      udpEnqueue 4 r.state d = .ok (false, s) → s = r.state :=
  ⟨_, rfl, udpQueue_fifo 4 (by decide) (fun _ _ => 0) udpExample
    [.input ⟨1, 2, [3]⟩, .client (.tryAlloc ()), .recv 8]
    ⟨fun _ => ⟨by decide, by decide⟩, fun _ _ => ⟨trivial, fun _ _ => ⟨trivial, fun _ _ => trivial⟩⟩⟩ rfl⟩

/-- A queued datagram, a client that takes the other 63 buffers, and a datagram more. -/
def shortage : List (UdpAct Unit Unit) :=
  [.input ⟨1, 2, [3]⟩, .client (.listAlloc () 7812), .input ⟨1, 2, [4]⟩]

/-- After a shortage of buffers the datagram that was queued before is not received: the lock of
the pool is still held. -/
theorem shortage_not_fifo :
    ¬ ∀ (qlen : Nat) (data : Mbuf → Nat → UInt8) (up : UdpRcv) (acts : List (UdpAct Unit Unit))
      (r : UdpRun Unit Unit), 1 ≤ qlen ∧ qlen ≤ 255 →
      exec (UdpRun.step qlen) (UdpRun.init data up) acts = some r → FifoRight qlen r := by
  intro hall
  have hnext := (hall 4 (fun _ _ => 0) udpExample shortage _ (by decide) rfl).next
    ⟨1, 2, [3]⟩ rfl (by decide) rfl 8
  obtain ⟨s, hs⟩ := hnext
  have hstop : (.error .blocked : Except Stop (UdpResult × UdpState Unit Unit)) = .ok _ := hs
  cases hstop

end YardIce.Net
