import YardIce.Mbuf.Pool
import YardIce.Net.Chksum
import Mathlib.Data.BitVec

/-!
# The input of IP datagrams

`ip_input` checks the header of a frame and hands what is behind it to `icmp_input`,
`udp_input` or `tcp_input`. `udp_input` looks for a control block and queues the payload.

## Implementation notes

The memory is given from the first byte of the frame on and goes on behind its end. The host
is little-endian and its integers have 32 bits. `udp_input` is modelled by what it reads and
by the lengths it hands on. With a negative length `in_chksum`, which compares it as an
unsigned number, runs through the whole memory; what would come after that is left out.
-/

namespace YardIce.Net

open MbufPool

/-! ## Memory -/

/-- The bytes from the first one of the frame on. -/
abbrev Memory := Nat → UInt8

/-- The load of a halfword. -/
def Memory.half (mem : Memory) (off : Nat) : BitVec 16 :=
  (mem (off + 1)).toBitVec ++ (mem off).toBitVec

/-- The load of a word. -/
def Memory.word (mem : Memory) (off : Nat) : BitVec 32 := mem.half (off + 2) ++ mem.half off

def Memory.bytes (mem : Memory) (off n : Nat) : List UInt8 :=
  (List.range n).map fun i => mem (off + i)

section Bytes

variable (mem : Memory) (p m n : Nat)

theorem bytes_length : (mem.bytes p m).length = m := by
  rw [Memory.bytes, List.length_map, List.length_range]

theorem bytes_succ : mem.bytes p (m + 1) = mem p :: mem.bytes (p + 1) m := by
  simp only [Memory.bytes, List.range_succ_eq_map, List.map_cons, List.map_map, Nat.add_zero]
  refine congrArg _ (List.map_congr_left fun i _ => ?_)
  exact congrArg mem (by simp only [Nat.succ_eq_add_one]; omega)

theorem bytes_drop : (mem.bytes p m).drop n = mem.bytes (p + n) (m - n) := by
  refine List.ext_getElem ?_ fun i h₁ h₂ => ?_
  · rw [List.length_drop, bytes_length, bytes_length]
  · simp only [Memory.bytes, List.getElem_drop, List.getElem_map, List.getElem_range]
    exact congrArg mem (by omega)

theorem bytes_add : mem.bytes p (m + n) = mem.bytes p m ++ mem.bytes (p + m) n := by
  simp only [Memory.bytes, List.range_add, List.map_append, List.map_map]
  refine congrArg _ (List.map_congr_left fun i _ => ?_)
  exact congrArg mem (Nat.add_assoc p m i).symm

end Bytes

/-- `ntohs`, and the macro `NTOHS`. -/
def ntohs (x : BitVec 16) : BitVec 16 := (x &&& 0xff) <<< 8 ||| (x &&& 0xff00) >>> 8

/-- `IP_MF`. -/
def ipMf : BitVec 16 := 0x0020

/-- `IP_OFFMASK`. -/
def ipOffmask : BitVec 16 := 0xff1f

/-! ## Control blocks -/

/-- `struct udp_pcb` without its datagrams. -/
structure UdpPcb where
  faddr : BitVec 32
  laddr : BitVec 32
  fport : BitVec 16
  lport : BitVec 16
  rcvTail : BitVec 8
  rcvHead : BitVec 8

/-- The tests of `pcb_wildlookup` on one address: the count of wildcards behind it, unless the
control block is passed over. -/
def wildAddr (own other : BitVec 32) (differ : Bool) (wildcard : Nat) : Option Nat :=
  if own ≠ 0 then
    if other = 0 then some (wildcard + 1) else if differ then none else some wildcard
  else if other ≠ 0 then some (wildcard + 1) else some wildcard

/-- The loop of `pcb_wildlookup`. The count of wildcards goes on from one control block to the
next. -/
def wildLoop (faddr : BitVec 32) (fport : BitVec 16) (laddr : BitVec 32) (lport : BitVec 16) :
    List UdpPcb → Option UdpPcb → Nat → Nat → Option UdpPcb
  | [], found, _, _ => found
  | pcb :: pcbs, found, matchwild, wildcard =>
      if pcb.lport ≠ lport then wildLoop faddr fport laddr lport pcbs found matchwild wildcard
      else
        match wildAddr pcb.laddr laddr (pcb.laddr ≠ laddr) wildcard with
        | none => wildLoop faddr fport laddr lport pcbs found matchwild wildcard
        | some wildcard =>
            match wildAddr pcb.faddr faddr (pcb.faddr ≠ faddr ∨ pcb.fport ≠ fport) wildcard with
            | none => wildLoop faddr fport laddr lport pcbs found matchwild wildcard
            | some wildcard =>
                if wildcard < matchwild then
                  if wildcard = 0 then some pcb
                  else wildLoop faddr fport laddr lport pcbs (some pcb) wildcard wildcard
                else wildLoop faddr fport laddr lport pcbs found matchwild wildcard

/-- `pcb_wildlookup`. -/
def pcbWildlookup (faddr : BitVec 32) (fport : BitVec 16) (laddr : BitVec 32) (lport : BitVec 16)
    (list : List UdpPcb) : Option UdpPcb :=
  wildLoop faddr fport laddr lport list none 3 0

/-- `NET_UDP_RECV_QUEUE_LEN`. -/
def netUdpRecvQueueLen : Nat := 4

/-- The queue of a control block has room for a datagram. -/
def UdpPcb.HasRoom (up : UdpPcb) : Prop := (up.rcvTail - up.rcvHead).toNat < netUdpRecvQueueLen

instance (up : UdpPcb) : Decidable up.HasRoom := inferInstanceAs (Decidable (_ < _))

/-! ## The source -/

/-- The options of the build. -/
structure NetConfig where
  udp : Bool
  tcp : Bool
  udpChecksum : Bool
  arpPingIpconfig : Bool

/-- `struct ifnet`: the addresses. -/
structure Ifnet where
  ipv4Addr : BitVec 32
  ipv4Mask : BitVec 32

section Header

variable (mem : Memory)

/-- The field `ver`. -/
def ipVer : UInt8 := mem 0 >>> 4

/-- `hdr_len`. -/
def hdrLen : Nat := (mem 0 &&& 0xf).toNat <<< 2

/-- `tot_len`. -/
def totLen : Nat := (ntohs (mem.half 2)).toNat

def ipOff : BitVec 16 := mem.half 6

def ipProto : UInt8 := mem 9

def ipSaddr : BitVec 32 := mem.word 12

def ipDaddr : BitVec 32 := mem.word 16

end Header

/-- What `ip_input` calls, with the place of the transport header and the length. -/
inductive IpCall where
  | drop
  | arpPingIpconfig (ptr : Nat) (len : Int)
  | icmpInput (ptr : Nat) (len : Int)
  | udpInput (ptr : Nat) (len : Int)
  | tcpInput (ptr : Nat) (len : Int)
  | invalidProto

/-- The address is not one of the interface. -/
def WrongDest (ifn : Ifnet) (daddr : BitVec 32) : Prop :=
  daddr ≠ ifn.ipv4Addr ∧ daddr ≠ 0xffffffff ∧ daddr ≠ ifn.ipv4Addr ||| ~~~ ifn.ipv4Mask

instance (ifn : Ifnet) (daddr : BitVec 32) : Decidable (WrongDest ifn daddr) :=
  inferInstanceAs (Decidable (_ ∧ _))

/-- The end of `ip_input`. -/
def ipSwitch (cfg : NetConfig) (mem : Memory) : IpCall :=
  let ptr := hdrLen mem
  let len := (totLen mem : Int) - hdrLen mem
  if ipProto mem = 1 then .icmpInput ptr len
  else if cfg.udp ∧ ipProto mem = 17 then .udpInput ptr len
  else if cfg.tcp ∧ ipProto mem = 6 then .tcpInput ptr len
  else .invalidProto

/-- `ip_input` of a frame at an address. -/
def ipInput (cfg : NetConfig) (ifn : Ifnet) (addr : Nat) (mem : Memory) (len : Nat) : IpCall :=
  if ipVer mem ≠ 4 then .drop
  else if hdrLen mem < 20 ∨ len < hdrLen mem then .drop
  else if len < totLen mem then .drop
  else if ipOff mem &&& ntohs ipMf ≠ 0 then .drop
  else if inChksum addr 0 (mem.bytes 0 (hdrLen mem)) ≠ 0xffff then .drop
  else if WrongDest ifn (ipDaddr mem) then
    if cfg.arpPingIpconfig ∧ ipProto mem = 1 then
      .arpPingIpconfig (hdrLen mem) ((totLen mem : Int) - hdrLen mem)
    else .drop
  else ipSwitch cfg mem

/-- What `udp_input` does with the frame: loads of header fields, and the calls that get the
payload or its length. -/
inductive UdpUse where
  | load (off n : Nat)
  | inChksum (ptr : Nat) (len : Int)
  | mbufListAlloc (len : Int)
  | mbufListWrite (ptr : Nat) (len : Int)
deriving DecidableEq

section Udp

variable {Q : Type} [DecidableEq Q]

/-- The sum of `udp_input` over the header and the pseudo header. -/
def udpSum (mem : Memory) (udp : Nat) : Nat :=
  ((mem.half (udp + 6)).toNat + (mem.half (udp + 4)).toNat <<< 1 + (mem.half (udp + 2)).toNat +
    (mem.half udp).toNat + 17 <<< 8 + (mem.half 12).toNat + (mem.half 14).toNat +
    (mem.half 16).toNat + (mem.half 18).toNat) % 2 ^ 32

/-- The end of `udp_input`, which queues the payload. -/
def udpQueue (pool : MbufSys Q) (up : UdpPcb) (ptr : Nat) (len : Int) : List UdpUse :=
  if up.HasRoom then
    .mbufListAlloc len ::
      match mbufListAlloc pool len.toNat with
      | .ok (some _, _) => [.mbufListWrite ptr len]
      | _ => []
  else []

/-- `udp_input` behind the lookup of the control block. -/
def udpPayload (cfg : NetConfig) (pool : MbufSys Q) (up : UdpPcb) (addr : Nat) (mem : Memory)
    (udp : Nat) (len : Int) : List UdpUse :=
  let ptr := udp + 8
  if cfg.udpChecksum then
    .load (udp + 6) 2 ::
      if mem.half (udp + 6) ≠ 0 then
        .inChksum ptr len ::
          if len < 0 then []
          else if inChksum (addr + ptr) (udpSum mem udp) (mem.bytes ptr len.toNat) ≠ 0xffff then []
          else udpQueue pool up ptr len
      else udpQueue pool up ptr len
  else udpQueue pool up ptr len

/-- `udp_input`, with the header at `udp`. -/
def udpInput (cfg : NetConfig) (active : List UdpPcb) (pool : MbufSys Q) (addr : Nat)
    (mem : Memory) (udp : Nat) (tlen : Int) : List UdpUse :=
  let len : Int := (ntohs (mem.half (udp + 4))).toNat
  .load (udp + 4) 2 ::
    if len > tlen then []
    else
      .load udp 2 :: .load (udp + 2) 2 ::
        match pcbWildlookup (ipSaddr mem) (mem.half udp) (ipDaddr mem) (mem.half (udp + 2))
            active with
        | none => []
        | some up => udpPayload cfg pool up addr mem udp (len - 8)

end Udp

/-! ## What is right -/

/-- An unfragmented datagram whose lengths are in order. -/
structure WholeDatagram (mem : Memory) (len : Nat) : Prop where
  moreFragments : ipOff mem &&& ipMf = 0
  offset : ipOff mem &&& ipOffmask = 0
  min_le : 20 ≤ hdrLen mem
  hdr_le : hdrLen mem ≤ totLen mem
  tot_le : totLen mem ≤ len

/-- The frame is handed to a transport protocol. -/
def IpCall.Handed : IpCall → Prop
  | .icmpInput _ _ => True
  | .udpInput _ _ => True
  | .tcpInput _ _ => True
  | _ => False

/-- A load is one of bytes of the frame, and a length of a payload is neither negative nor
more than what the frame has behind the header at `udp`. -/
def UdpUse.Inside (len udp : Nat) : UdpUse → Prop
  | .load off n => off + n ≤ len
  | .inChksum ptr n => 0 ≤ n ∧ (ptr : Int) + n ≤ len
  | .mbufListAlloc n => 0 ≤ n ∧ (udp : Int) + 8 + n ≤ len
  | .mbufListWrite ptr n => 0 ≤ n ∧ (ptr : Int) + n ≤ len

section Right

variable {Q : Type} [DecidableEq Q] (cfg : NetConfig) (ifn : Ifnet) (active : List UdpPcb)
  (pool : MbufSys Q) (addr : Nat) (mem : Memory) (len : Nat)

/-- Only a whole datagram is handed on, and `udp_input` stays in the frame. -/
structure InputRight : Prop where
  whole : (ipInput cfg ifn addr mem len).Handed → WholeDatagram mem len
  inside : ∀ udp tlen, ipInput cfg ifn addr mem len = .udpInput udp tlen →
    ∀ use ∈ udpInput cfg active pool addr mem udp tlen, use.Inside len udp

/-- The frame passes the tests that `ip_input` makes. -/
structure Accepted : Prop where
  ver : ipVer mem = 4
  min_le : 20 ≤ hdrLen mem
  hdr_le : hdrLen mem ≤ len
  tot_le : totLen mem ≤ len
  flag : ipOff mem &&& ntohs ipMf = 0
  chksum : inChksum addr 0 (mem.bytes 0 (hdrLen mem)) = 0xffff
  dest : ¬ WrongDest ifn (ipDaddr mem)

/-- The protocol is one that the build has a module for. -/
def ProtoHandled : Prop :=
  ipProto mem = 1 ∨ (cfg.udp ∧ ipProto mem = 17) ∨ (cfg.tcp ∧ ipProto mem = 6)

/-- The control block for the UDP header behind the IP header. -/
def udpPcb : Option UdpPcb :=
  pcbWildlookup (ipSaddr mem) (mem.half (hdrLen mem)) (ipDaddr mem) (mem.half (hdrLen mem + 2))
    active

/-- The length in the UDP header. -/
def udpLen : Nat := (ntohs (mem.half (hdrLen mem + 4))).toNat

/-- The frame ends in the UDP header, or the UDP length is less than that of the header and
`udp_input` comes to the payload. -/
def UdpShort : Prop :=
  len < hdrLen mem + 6 ∨
    hdrLen mem + udpLen mem ≤ totLen mem ∧ ∃ up, udpPcb active mem = some up ∧
      (cfg.udpChecksum ∧ len < hdrLen mem + 8 ∨
        udpLen mem < 8 ∧ (cfg.udpChecksum ∧ mem.half (hdrLen mem + 6) ≠ 0 ∨ up.HasRoom))

/-- The frames that the tests let pass though they are no whole datagrams. -/
def Overlooked : Prop :=
  Accepted ifn addr mem len ∧ ProtoHandled cfg mem ∧
    (ipOff mem &&& ipMf ≠ 0 ∨ ipOff mem &&& ipOffmask ≠ 0 ∨ totLen mem < hdrLen mem ∨
      ipProto mem = 17 ∧ UdpShort cfg active mem len)

end Right

section Input

variable {Q : Type} [DecidableEq Q] {cfg : NetConfig} {ifn : Ifnet} {active : List UdpPcb}
  {pool : MbufSys Q} {addr : Nat} {mem : Memory} {len : Nat}

theorem Accepted.input (h : Accepted ifn addr mem len) :
    ipInput cfg ifn addr mem len = ipSwitch cfg mem := by
  unfold ipInput
  rw [if_neg (not_not_intro h.ver), if_neg (not_or.mpr ⟨h.min_le.not_gt, h.hdr_le.not_gt⟩),
    if_neg h.tot_le.not_gt, if_neg (not_not_intro h.flag), if_neg (not_not_intro h.chksum),
    if_neg h.dest]

/-- What is handed on has passed the tests. -/
theorem handed_accepted (h : (ipInput cfg ifn addr mem len).Handed) :
    Accepted ifn addr mem len := by
  unfold ipInput at h
  split_ifs at h with hver hhdr htot hflag hsum hdest harp
  · exact h.elim
  · exact h.elim
  · exact h.elim
  · exact h.elim
  · exact h.elim
  · exact h.elim
  · exact h.elim
  · rw [not_or] at hhdr
    exact ⟨not_not.mp hver, not_lt.mp hhdr.1, not_lt.mp hhdr.2, not_lt.mp htot,
      not_not.mp hflag, not_not.mp hsum, hdest⟩

theorem ipSwitch_handed : (ipSwitch cfg mem).Handed ↔ ProtoHandled cfg mem := by
  unfold ipSwitch ProtoHandled
  split_ifs with hicmp hudp htcp
  · exact iff_of_true trivial (Or.inl hicmp)
  · exact iff_of_true trivial (Or.inr (Or.inl hudp))
  · exact iff_of_true trivial (Or.inr (Or.inr htcp))
  · exact iff_of_false id (not_or.mpr ⟨hicmp, not_or.mpr ⟨hudp, htcp⟩⟩)

/-- The frames that are handed on. -/
theorem handed_iff : (ipInput cfg ifn addr mem len).Handed ↔
    Accepted ifn addr mem len ∧ ProtoHandled cfg mem := by
  constructor
  · intro h
    have hacc := handed_accepted h
    rw [hacc.input, ipSwitch_handed] at h
    exact ⟨hacc, h⟩
  · rintro ⟨hacc, hproto⟩
    rw [hacc.input, ipSwitch_handed]
    exact hproto

theorem ipSwitch_udp {udp : Nat} {tlen : Int} : ipSwitch cfg mem = .udpInput udp tlen ↔
    (cfg.udp ∧ ipProto mem = 17) ∧ udp = hdrLen mem ∧ tlen = (totLen mem : Int) - hdrLen mem := by
  unfold ipSwitch
  split_ifs with hicmp hudp htcp
  · refine iff_of_false (fun h => by cases h) fun h => ?_
    rw [hicmp] at h
    exact absurd h.1.2 (by decide)
  · rw [IpCall.udpInput.injEq, eq_comm (a := hdrLen mem), eq_comm (b := tlen)]
    exact ⟨fun h => ⟨hudp, h⟩, fun h => h.2⟩
  · exact iff_of_false (fun h => by cases h) fun h => hudp h.1
  · exact iff_of_false (fun h => by cases h) fun h => hudp h.1

/-- The frames that are handed to `udp_input`. -/
theorem input_udp {udp : Nat} {tlen : Int} :
    ipInput cfg ifn addr mem len = .udpInput udp tlen ↔
      Accepted ifn addr mem len ∧ (cfg.udp ∧ ipProto mem = 17) ∧ udp = hdrLen mem ∧
        tlen = (totLen mem : Int) - hdrLen mem := by
  constructor
  · intro h
    have hhanded : (ipInput cfg ifn addr mem len).Handed := by
      rw [h]
      exact trivial
    have hacc := handed_accepted hhanded
    rw [hacc.input] at h
    exact ⟨hacc, ipSwitch_udp.mp h⟩
  · rintro ⟨hacc, hudp⟩
    rw [hacc.input]
    exact ipSwitch_udp.mpr hudp

/-! ## The payload -/

/-- The calls with the payload are right if its length is that of bytes of the frame. -/
theorem udpQueue_inside {up : UdpPcb} {udp : Nat} {n : Int} (hn : 0 ≤ n)
    (hlen : (udp : Int) + 8 + n ≤ len) :
    ∀ use ∈ udpQueue pool up (udp + 8) n, use.Inside len udp := by
  have hptr : ((udp + 8 : Nat) : Int) + n ≤ len := by omega
  intro use huse
  unfold udpQueue at huse
  split_ifs at huse with hroom
  · rcases List.mem_cons.mp huse with rfl | huse
    · exact ⟨hn, hlen⟩
    · split at huse
      · rw [List.mem_singleton] at huse
        subst huse
        exact ⟨hn, hptr⟩
      · exact absurd huse List.not_mem_nil
  · exact absurd huse List.not_mem_nil

/-- A negative length does no harm while the queue is full. -/
theorem udpQueue_negative {up : UdpPcb} {udp : Nat} {n : Int} (hn : n < 0) :
    (∀ use ∈ udpQueue pool up (udp + 8) n, use.Inside len udp) ↔ ¬ up.HasRoom := by
  constructor
  · intro hall hroom
    have huse : UdpUse.mbufListAlloc n ∈ udpQueue pool up (udp + 8) n := by
      rw [udpQueue, if_pos hroom]
      exact List.mem_cons_self
    have hinside : 0 ≤ n := (hall _ huse).1
    omega
  · intro hroom
    rw [udpQueue, if_neg hroom]
    exact fun _ huse => absurd huse List.not_mem_nil

/-- What `udp_input` does with a control block, for a length that the frame has room for. -/
theorem udpPayload_inside {up : UdpPcb} {udp : Nat} {n : Int} (hlen : (udp : Int) + 8 + n ≤ len) :
    (∀ use ∈ udpPayload cfg pool up addr mem udp n, use.Inside len udp) ↔
      ¬ (cfg.udpChecksum ∧ len < udp + 8 ∨
        n < 0 ∧ (cfg.udpChecksum ∧ mem.half (udp + 6) ≠ 0 ∨ up.HasRoom)) := by
  have hload : UdpUse.Inside len udp (.load (udp + 6) 2) ↔ ¬ len < udp + 8 := not_lt.symm
  unfold udpPayload
  by_cases hn : n < 0
  · by_cases hsum : cfg.udpChecksum = true
    · rw [if_pos hsum, List.forall_mem_cons, hload]
      by_cases hzero : mem.half (udp + 6) ≠ 0
      · rw [if_pos hzero, List.forall_mem_cons]
        refine iff_of_false (fun h => ?_) (not_not_intro (Or.inr ⟨hn, Or.inl ⟨hsum, hzero⟩⟩))
        have hinside : 0 ≤ n := h.2.1.1
        omega
      · rw [if_neg hzero, udpQueue_negative hn]
        simp only [hsum, hn, hzero, true_and, and_false, false_or, not_or]
    · rw [if_neg hsum, udpQueue_negative hn]
      simp only [hsum, hn, Bool.false_eq_true, false_and, true_and, false_or]
  · have hqueue : ∀ use ∈ udpQueue pool up (udp + 8) n, use.Inside len udp :=
      udpQueue_inside (not_lt.mp hn) hlen
    have hheader : ¬ len < udp + 8 := by omega
    have hright : ¬ (cfg.udpChecksum ∧ len < udp + 8 ∨
        n < 0 ∧ (cfg.udpChecksum ∧ mem.half (udp + 6) ≠ 0 ∨ up.HasRoom)) :=
      not_or.mpr ⟨fun h => hheader h.2, fun h => hn h.1⟩
    refine iff_of_true ?_ hright
    by_cases hsum : cfg.udpChecksum = true
    · rw [if_pos hsum, List.forall_mem_cons, hload]
      refine ⟨hheader, ?_⟩
      by_cases hzero : mem.half (udp + 6) ≠ 0
      · rw [if_pos hzero, List.forall_mem_cons, if_neg hn]
        refine ⟨⟨not_lt.mp hn, by push_cast; omega⟩, ?_⟩
        split_ifs
        · exact fun _ huse => absurd huse List.not_mem_nil
        · exact hqueue
      · rw [if_neg hzero]
        exact hqueue
    · rw [if_neg hsum]
      exact hqueue

/-- `udp_input` stays in a frame that holds the datagram, unless the header is cut off or its
length is too small. -/
theorem udpInput_inside (htot : totLen mem ≤ len) :
    (∀ use ∈ udpInput cfg active pool addr mem (hdrLen mem) ((totLen mem : Int) - hdrLen mem),
        use.Inside len (hdrLen mem)) ↔ ¬ UdpShort cfg active mem len := by
  have hlookup : pcbWildlookup (ipSaddr mem) (mem.half (hdrLen mem)) (ipDaddr mem)
      (mem.half (hdrLen mem + 2)) active = udpPcb active mem := rfl
  have hudpLen : (ntohs (mem.half (hdrLen mem + 4))).toNat = udpLen mem := rfl
  have hfirst : UdpUse.Inside len (hdrLen mem) (.load (hdrLen mem + 4) 2) ↔
      ¬ len < hdrLen mem + 6 := not_lt.symm
  unfold udpInput UdpShort
  rw [hlookup, hudpLen, List.forall_mem_cons, hfirst, not_or]
  refine and_congr_right fun hhdr => ?_
  by_cases hlong : hdrLen mem + udpLen mem ≤ totLen mem
  · have hfits : ¬ ((udpLen mem : Int) > (totLen mem : Int) - hdrLen mem) := by omega
    have hsport : UdpUse.Inside len (hdrLen mem) (.load (hdrLen mem) 2) := by
      show hdrLen mem + 2 ≤ len
      omega
    have hdport : UdpUse.Inside len (hdrLen mem) (.load (hdrLen mem + 2) 2) := by
      show hdrLen mem + 2 + 2 ≤ len
      omega
    rw [if_neg hfits, List.forall_mem_cons, List.forall_mem_cons, and_iff_right hsport,
      and_iff_right hdport, and_iff_right hlong]
    cases udpPcb active mem with
    | none =>
        refine iff_of_true (fun _ huse => absurd huse List.not_mem_nil) ?_
        rintro ⟨up, hup, -⟩
        cases hup
    | some up =>
        have hpayload := @udpPayload_inside _ _ cfg pool addr mem len up (hdrLen mem)
          ((udpLen mem : Int) - 8) (by omega)
        have hshort : (udpLen mem : Int) - 8 < 0 ↔ udpLen mem < 8 := by omega
        rw [hshort] at hpayload
        rw [hpayload]
        refine not_congr ⟨fun h => ⟨up, rfl, h⟩, ?_⟩
        rintro ⟨up', hup, h⟩
        obtain rfl := Option.some.inj hup
        exact h
  · have hover : (udpLen mem : Int) > (totLen mem : Int) - hdrLen mem := by omega
    rw [if_pos hover]
    exact iff_of_true (fun _ huse => absurd huse List.not_mem_nil) fun h => hlong h.1

/-- Only whole datagrams are handed on and `udp_input` stays in the frame, exactly if the frame
is not one that the tests overlook. -/
theorem ipInput_right : InputRight cfg ifn active pool addr mem len ↔
    ¬ Overlooked cfg ifn active addr mem len := by
  constructor
  · rintro ⟨hwhole, hinside⟩ ⟨hacc, hproto, hkind⟩
    have h := hwhole (handed_iff.mpr ⟨hacc, hproto⟩)
    rcases hkind with hmf | hoff | htot | ⟨hudp, hshort⟩
    · exact hmf h.moreFragments
    · exact hoff h.offset
    · exact absurd h.hdr_le (Nat.not_le_of_gt htot)
    · have hcfg : cfg.udp = true := by
        rcases hproto with hicmp | hudp' | htcp
        · rw [hudp] at hicmp
          exact absurd hicmp (by decide)
        · exact hudp'.1
        · rw [hudp] at htcp
          exact absurd htcp.2 (by decide)
      have huses := hinside _ _ (input_udp.mpr ⟨hacc, ⟨hcfg, hudp⟩, rfl, rfl⟩)
      exact (udpInput_inside hacc.tot_le).mp huses hshort
  · intro hnot
    refine ⟨fun hhanded => ?_, fun udp tlen hinput => ?_⟩
    · obtain ⟨hacc, hproto⟩ := handed_iff.mp hhanded
      have hkind := fun h => hnot ⟨hacc, hproto, h⟩
      exact ⟨not_not.mp fun h => hkind (Or.inl h), not_not.mp fun h => hkind (Or.inr (Or.inl h)),
        hacc.min_le, not_lt.mp fun h => hkind (Or.inr (Or.inr (Or.inl h))), hacc.tot_le⟩
    · obtain ⟨hacc, ⟨hcfg, hudp⟩, rfl, rfl⟩ := input_udp.mp hinput
      refine (udpInput_inside hacc.tot_le).mpr fun hshort => ?_
      exact hnot ⟨hacc, Or.inr (Or.inl ⟨hcfg, hudp⟩), Or.inr (Or.inr (Or.inr ⟨hudp, hshort⟩))⟩

end Input

/-- The first fragment of a datagram: 20 bytes of header with the flag for more fragments, and
the UDP header. -/
def firstFragment : Memory := fun i =>
  [0x45, 0, 0, 28, 0, 1, 0x20, 0, 64, 17, 0x46, 0xce, 10, 0, 0, 1, 10, 0, 0, 2,
    0, 7, 0, 7, 0, 8, 0, 0].getD i 0

/-- The first fragment of a datagram is handed to `udp_input`. -/
theorem firstFragment_handed :
    ¬ ∀ (cfg : NetConfig) (ifn : Ifnet) (active : List UdpPcb) (pool : MbufSys Unit) (addr : Nat)
      (mem : Memory) (len : Nat), 20 ≤ len → InputRight cfg ifn active pool addr mem len := by
  intro hall
  have hright := hall ⟨true, true, false, false⟩ ⟨0x0200000a, 0x000000ff⟩ []
    (mbufInit Unit fun _ _ => 0) 0 firstFragment 28 (by decide)
  have hhanded : (ipInput ⟨true, true, false, false⟩ ⟨0x0200000a, 0x000000ff⟩ 0 firstFragment
      28).Handed := by
    have hsum : 0 + wordSum (firstFragment.bytes 0 20) = 65535 := by decide
    have hchksum : inChksum 0 0 (firstFragment.bytes 0 20) = 0xffff := by
      rw [inChksum_eq _ _ _ (by rw [hsum]; decide), hsum]
      exact Lib.foldCarry_of_le (by decide)
    exact handed_iff.mpr ⟨⟨by decide, by decide, by decide, by decide, by decide, hchksum,
      by decide⟩, Or.inr (Or.inl ⟨rfl, by decide⟩)⟩
  exact absurd (hright.whole hhanded).moreFragments (by decide)

end YardIce.Net
