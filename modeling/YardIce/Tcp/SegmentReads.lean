import YardIce.Tcp.Options
import YardIce.Tcp.System
import YardIce.Tcp.Wire

/-!
# What `tcp_input` reads of a segment

The offsets from `th` on that `tcp_input` loads, that it has `in_chksum` add up, and that
`tcp_parse_options` looks at. The length of the header comes from the segment, and the options
from the lengths in them.

## Implementation notes

The memory is given from the first byte of the TCP header on and goes on behind the segment.
The host is little-endian and its integers have 32 bits. Loads of the IP header, which is in
front, are left out, and so are those of `mbuf_queue_add`. `chksum` is
`ENABLE_NET_TCP_CHECKSUM`.
-/

namespace YardIce.Tcp

open YardIce.Net (Memory ntohs inChksum)

/-! ## The checksum -/

/-- The offsets that `in_chksum` has read, where it goes on and the length that is left. -/
structure Span where
  reads : List Nat
  ptr : Nat
  len : Nat

namespace Span

/-- A block of `k` words, where the length allows it. -/
def block (k : Nat) (r : Span) : Span :=
  if 2 * k ≤ r.len then ⟨r.reads ++ List.range' r.ptr (2 * k), r.ptr + 2 * k, r.len - 2 * k⟩ else r

/-- The loop over blocks of eight words; the first argument bounds its turns. -/
def loop : Nat → Span → Span
  | 0, r => r
  | fuel + 1, r => if 16 ≤ r.len then loop fuel (r.block 8) else r

end Span

/-- A length as `in_chksum` compares it, without sign. -/
def lenWord (len : Int) : Nat := (BitVec.ofInt 32 len).toNat

/-- The offsets that `in_chksum` reads. -/
def chksumReads (ptr : Nat) (len : Int) : List Nat :=
  let r := Span.loop (lenWord len) ⟨[], ptr, lenWord len⟩
  let r := ((r.block 4).block 2).block 1
  if r.len ≠ 0 then r.reads ++ [r.ptr] else r.reads

/-! ## The source -/

/-- The flags of the byte `th_flags`. -/
def ThFlags.ofByte (b : UInt8) : ThFlags where
  fin := b &&& 0x01 ≠ 0
  syn := b &&& 0x02 ≠ 0
  rst := b &&& 0x04 ≠ 0
  psh := b &&& 0x08 ≠ 0
  ack := b &&& 0x10 ≠ 0
  urg := b &&& 0x20 ≠ 0

/-- `ntohl`. -/
def ntohl (x : BitVec 32) : BitVec 32 := ntohs (x.setWidth 16) ++ ntohs ((x >>> 16).setWidth 16)

section Header

variable (mem : Memory)

/-- `hdrlen`: the wrap of `optlen` is undone. -/
def hdrlen : Nat := (mem 12).toNat / 16 * 4

/-- `tiflags`. -/
def tiFlags : ThFlags := ThFlags.ofByte (mem 13)

/-- `ti_ack`. -/
def tiAck : Seq := ntohl (mem.word 8)

/-- `optlen`, as `tcp_parse_options` takes it. -/
def optlen : Int := (hdrlen mem : Int) - 20

end Header

/-- What a part of `tcp_input` loads, and the length with which it calls `tcp_parse_options`,
with `t_maxseg`. -/
structure SegReads where
  direct : List Nat
  options : Option (Int × Nat)

section Source

variable {N : Nat} (chksum : Bool) (s : TcpSystem N) (route : Option Ifnet) (cond : Bool)
  (saddr daddr : BitVec 32) (ip addr : Nat) (mem : Memory) (len : Int)

/-- `ti_len`. -/
def tiLen : Int := len - hdrlen mem

/-- The sum that `tcp_input` computes; `ip` is the address of the source address in the IP
header, `addr` that of the TCP header. -/
def segSum : Nat :=
  let sum := htons (BitVec.ofInt 16 len).toNat + ipprotoTcp
  let sum := inChksum ip sum (mem32 saddr.toNat ++ mem32 daddr.toNat)
  let sum := inChksum addr sum (mem.bytes 0 (hdrlen mem))
  if tiLen mem len ≠ 0 then
    inChksum (addr + hdrlen mem) sum (mem.bytes (hdrlen mem) (lenWord (tiLen mem len)))
  else sum

/-- The call of `tcp_parse_options`, if there is one. -/
def optCall (maxseg : Nat) : Option (Int × Nat) :=
  if optlen mem ≠ 0 then some (optlen mem, maxseg) else none

/-- `t_maxseg` of a connection to be opened, before the options. -/
def openMaxseg : Option Ifnet → Nat
  | none => min tcpDefmss tcpMaxmss
  | some rt => min (rt.mtu - 40) tcpMaxmss

/-- `tcp_passive_open`: it loads the ports, `th_seq` and `th_win`. -/
def passiveOpenReads (mux : Fin N) : SegReads :=
  let m := s.mux mux
  if m.tail = m.after m.head ∨ cond = false ∨ (s.tcpPcbNew .active).isNone then ⟨[], none⟩
  else ⟨[2, 3, 0, 1] ++ [4, 5, 6, 7, 14, 15], optCall mem (openMaxseg route)⟩

/-- The response to an active open: it loads `th_win`. -/
def synSentReads (p : Pcb) : SegReads :=
  if (tiFlags mem).rst then ⟨[], none⟩
  else if !(tiFlags mem).syn || !(tiFlags mem).ack || tiLen mem len ≠ 0 then ⟨[], none⟩
  else if p.sndSeq + 1 ≠ tiAck mem then ⟨[], none⟩
  else ⟨[14, 15], optCall mem p.maxseg⟩

/-- `tcp_input` behind the checksum, which loads `th_flags`, `th_win`, `th_seq`, `th_ack` and
the ports. -/
def segmentReads : SegReads :=
  let r : SegReads :=
    match s.pcbLookup saddr (mem.half 0) daddr (mem.half 2) .active with
    | some i =>
      if (s.pcb i).tState = .synSent then synSentReads mem len (s.pcb i) else ⟨[], none⟩
    | none =>
      match s.pcbWildlookup saddr (mem.half 0) daddr (mem.half 2) .listen with
      | none => ⟨[], none⟩
      | some mux =>
        if (tiFlags mem).ack || tiLen mem len ≠ 0 || !(tiFlags mem).syn || (tiFlags mem).rst then
          ⟨[], none⟩
        else passiveOpenReads s route cond mem mux
  ⟨[13, 14, 15, 4, 5, 6, 7, 8, 9, 10, 11, 0, 1, 2, 3] ++ r.direct, r.options⟩

/-- The test of the checksum. -/
def ChksumPasses : Prop := chksum = true → segSum saddr daddr ip addr mem len = 0xffff

instance : Decidable (ChksumPasses chksum saddr daddr ip addr mem len) :=
  inferInstanceAs (Decidable (_ → _))

/-- `tcp_input`. It loads `th_off` first. -/
def tcpInputReads : SegReads :=
  let sums :=
    if chksum then
      chksumReads 0 (hdrlen mem) ++
        if tiLen mem len ≠ 0 then chksumReads (hdrlen mem) (tiLen mem len) else []
    else []
  if ChksumPasses chksum saddr daddr ip addr mem len then
    let r := segmentReads s route cond saddr daddr mem len
    ⟨12 :: sums ++ r.direct, r.options⟩
  else ⟨12 :: sums, none⟩

/-! ## What is right -/

/-- `tcp_input` reads only bytes of the segment, and the loop over the options ends. -/
structure StaysInside : Prop where
  direct : ∀ off ∈ (tcpInputReads chksum s route cond saddr daddr ip addr mem len).direct,
    (off : Int) < len
  options : ∀ n maxseg,
    (tcpInputReads chksum s route cond saddr daddr ip addr mem len).options = some (n, maxseg) →
    OptionsInside mem (tiFlags mem).syn len 20 n maxseg

/-- A SYN for a listener that has room for another connection. -/
def SynForListener : Prop :=
  s.pcbLookup saddr (mem.half 0) daddr (mem.half 2) .active = none ∧
    ∃ mux, s.pcbWildlookup saddr (mem.half 0) daddr (mem.half 2) .listen = some mux ∧
      (tiFlags mem).ack = false ∧ (tiFlags mem).syn = true ∧ (tiFlags mem).rst = false ∧
      (s.mux mux).tail ≠ (s.mux mux).after (s.mux mux).head ∧ cond = true ∧
      (s.tcpPcbNew .active).isSome = true

/-- The SYN that acknowledges ours. -/
def AnswersSyn : Prop :=
  ∃ i, s.pcbLookup saddr (mem.half 0) daddr (mem.half 2) .active = some i ∧
    (s.pcb i).tState = .synSent ∧ (tiFlags mem).rst = false ∧ (tiFlags mem).syn = true ∧
    (tiFlags mem).ack = true ∧ (s.pcb i).sndSeq + 1 = tiAck mem

/-- The segment opens a connection. It has no text. -/
def OpensConnection : Prop :=
  len = hdrlen mem ∧ (SynForListener s cond saddr daddr mem ∨ AnswersSyn s saddr daddr mem)

/-- The fields of the header that are used are there, and so is what the header and the options
announce. -/
structure Readable : Prop where
  offset : 13 ≤ len
  header : chksum = true → (hdrlen mem : Int) ≤ len
  fields : ChksumPasses chksum saddr daddr ip addr mem len → 16 ≤ len
  options : ChksumPasses chksum saddr daddr ip addr mem len →
    OpensConnection s cond saddr daddr mem len →
    20 ≤ hdrlen mem ∧ Options (mem.bytes 20 (hdrlen mem - 20))

end Source

/-! ## What in_chksum reads -/

/-- A span of the `n` bytes at `ptr`, read up to its place. -/
structure Span.At (ptr n : Nat) (r : Span) : Prop where
  left : r.len ≤ n
  place : r.ptr = ptr + (n - r.len)
  reads : r.reads = List.range' ptr (n - r.len)

section Chksum

variable {ptr n k : Nat} {r : Span}

theorem Span.At.block (h : r.At ptr n) (k : Nat) : (r.block k).At ptr n := by
  simp only [Span.block]
  split
  · next hk =>
    have hlen := h.left
    have hn : n - (r.len - 2 * k) = n - r.len + 2 * k := by omega
    refine ⟨?_, ?_, ?_⟩
    · show r.len - 2 * k ≤ n
      omega
    · show r.ptr + 2 * k = ptr + (n - (r.len - 2 * k))
      rw [h.place]
      omega
    · show r.reads ++ List.range' r.ptr (2 * k) = List.range' ptr (n - (r.len - 2 * k))
      rw [h.reads, h.place, hn, List.range'_append_1]
  · exact h

theorem Span.At.loop (fuel : Nat) (h : r.At ptr n) (hfuel : r.len ≤ fuel) :
    (Span.loop fuel r).At ptr n ∧ (Span.loop fuel r).len < 16 := by
  induction fuel generalizing r with
  | zero =>
      have hlt : r.len < 16 := by omega
      exact ⟨h, hlt⟩
  | succ fuel ih =>
      simp only [Span.loop]
      split
      · next hlen =>
        have hblock : (r.block 8).len = r.len - 16 := by
          rw [Span.block, if_pos hlen]
        exact ih (h.block 8) (by omega)
      · next hlen => exact ⟨h, by omega⟩

theorem Span.block_len_lt (h : r.len < 4 * k) : (r.block k).len < 2 * k := by
  simp only [Span.block]
  split
  · show r.len - 2 * k < 2 * k
    omega
  · omega

/-- `in_chksum` reads the bytes of its block, whose length it takes without sign. -/
theorem chksumReads_eq (ptr : Nat) (len : Int) :
    chksumReads ptr len = List.range' ptr (lenWord len) := by
  have hstart : (Span.mk [] ptr (lenWord len)).At ptr (lenWord len) :=
    ⟨le_rfl, by simp, by simp⟩
  obtain ⟨hloop, hlt⟩ := hstart.loop (lenWord len) le_rfl
  have hend := ((hloop.block 4).block 2).block 1
  have hone := Span.block_len_lt (k := 1) (Span.block_len_lt (k := 2)
    (Span.block_len_lt (k := 4) hlt))
  simp only [chksumReads]
  generalize ((Span.block 4 _).block 2).block 1 = r at hend hone ⊢
  have hleft := hend.left
  split
  · next hodd =>
    have hlast : List.range' r.ptr 1 = [r.ptr] := rfl
    have hn : lenWord len - r.len + 1 = lenWord len := by omega
    rw [hend.reads, ← hlast, hend.place, List.range'_append_1, hn]
  · next hdone =>
    rw [hend.reads, not_not.mp hdone, Nat.sub_zero]

end Chksum

/-! ## The segment -/

section Segment

variable {N : Nat} {chksum : Bool} {s : TcpSystem N} {route : Option Ifnet} {cond : Bool}
  {saddr daddr : BitVec 32} {ip addr : Nat} {mem : Memory} {len : Int}

theorem hdrlen_le (mem : Memory) : hdrlen mem ≤ 60 := by
  have hlt := (mem 12).toNat_lt
  simp only [hdrlen]
  omega

/-- What `in_chksum` reads lies in front of a bound exactly if its block does. -/
theorem chksumReads_lt {ptr n : Nat} (hn : 0 < n) (hlt : n < 2 ^ 31) :
    (∀ off ∈ chksumReads ptr n, (off : Int) < len) ↔ (ptr : Int) + n ≤ len := by
  have hword : lenWord n = n := by
    simp only [lenWord, BitVec.toNat_ofInt]
    omega
  rw [chksumReads_eq, hword]
  constructor
  · intro h
    have hlast := h (ptr + (n - 1)) (List.mem_range'_1.mpr (by omega))
    omega
  · intro h off hoff
    have hoff' := List.mem_range'_1.mp hoff
    omega

theorem lenWord_le {n : Int} (hn : 0 ≤ n) : (lenWord n : Int) ≤ n := by
  simp only [lenWord, BitVec.toNat_ofInt]
  omega

/-- The sums stay in the segment exactly if its header does. -/
theorem sumReads_lt (hlen : 13 ≤ len) :
    (∀ off ∈ chksumReads 0 (hdrlen mem) ++
        if tiLen mem len ≠ 0 then chksumReads (hdrlen mem) (tiLen mem len) else [],
      (off : Int) < len) ↔ (hdrlen mem : Int) ≤ len := by
  have hle := hdrlen_le mem
  rw [List.forall_mem_append]
  constructor
  · rintro ⟨hheader, -⟩
    rcases Nat.eq_zero_or_pos (hdrlen mem) with hzero | hpos
    · omega
    · have hbound := (chksumReads_lt hpos (by omega)).mp hheader
      omega
  · intro hheader
    constructor
    · rcases Nat.eq_zero_or_pos (hdrlen mem) with hzero | hpos
      · rw [hzero, chksumReads_eq]
        exact fun off hoff => absurd hoff List.not_mem_nil
      · exact (chksumReads_lt hpos (by omega)).mpr (by omega)
    · split
      · intro off hoff
        rw [chksumReads_eq, List.mem_range'_1] at hoff
        have htext : (lenWord (tiLen mem len) : Int) ≤ tiLen mem len :=
          lenWord_le (by simp only [tiLen]; omega)
        simp only [tiLen] at htext hoff
        omega
      · exact fun off hoff => absurd hoff List.not_mem_nil

theorem optCall_eq_some (maxseg : Nat) {n : Int} :
    (∃ m, optCall mem maxseg = some (n, m)) ↔ optlen mem ≠ 0 ∧ n = optlen mem := by
  simp only [optCall, Option.ite_none_right_eq_some, Option.some.injEq, Prod.mk.injEq,
    eq_comm (a := n), exists_and_left, exists_eq', and_true]

theorem passiveOpenReads_direct (mux : Fin N) :
    ∀ off ∈ (passiveOpenReads s route cond mem mux).direct, off < 16 := by
  simp only [passiveOpenReads]
  split
  · exact fun off hoff => absurd hoff List.not_mem_nil
  · show ∀ off ∈ [2, 3, 0, 1, 4, 5, 6, 7, 14, 15], off < 16
    decide

theorem passiveOpenReads_options {mux : Fin N} {n : Int} :
    (∃ m, (passiveOpenReads s route cond mem mux).options = some (n, m)) ↔
      ((s.mux mux).tail ≠ (s.mux mux).after (s.mux mux).head ∧ cond = true ∧
        (s.tcpPcbNew .active).isSome = true) ∧ optlen mem ≠ 0 ∧ n = optlen mem := by
  rw [← optCall_eq_some (openMaxseg route)]
  simp only [passiveOpenReads]
  split
  · next hfull =>
    refine iff_of_false (fun h => ?_) fun h => ?_
    · obtain ⟨m, h⟩ := h
      cases h
    · rcases hfull with hfull | hcond | hnone
      · exact h.1.1 hfull
      · exact absurd (h.1.2.1.symm.trans hcond) (by decide)
      · rw [Option.isNone_iff_eq_none] at hnone
        rw [hnone] at h
        cases h.1.2.2
  · next hroom =>
    rw [not_or, not_or, Bool.not_eq_false, Bool.not_eq_true, Option.isNone_eq_false_iff] at hroom
    rw [and_iff_right hroom]

theorem synSentReads_direct (p : Pcb) : ∀ off ∈ (synSentReads mem len p).direct, off < 16 := by
  simp only [synSentReads]
  split_ifs
  · exact fun off hoff => absurd hoff List.not_mem_nil
  · exact fun off hoff => absurd hoff List.not_mem_nil
  · exact fun off hoff => absurd hoff List.not_mem_nil
  · show ∀ off ∈ [14, 15], off < 16
    decide

theorem synSentReads_options {p : Pcb} {n : Int} :
    (∃ m, (synSentReads mem len p).options = some (n, m)) ↔
      (len = hdrlen mem ∧ (tiFlags mem).rst = false ∧ (tiFlags mem).syn = true ∧
        (tiFlags mem).ack = true ∧ p.sndSeq + 1 = tiAck mem) ∧
          optlen mem ≠ 0 ∧ n = optlen mem := by
  have htext : tiLen mem len ≠ 0 ↔ ¬ len = hdrlen mem := by
    simp only [tiLen]
    omega
  rw [← optCall_eq_some p.maxseg]
  simp only [synSentReads, Bool.or_eq_true, Bool.not_eq_true', decide_eq_true_eq, htext]
  cases (tiFlags mem).rst with
  | true => simp
  | false =>
      cases (tiFlags mem).syn with
      | false => simp
      | true =>
          cases (tiFlags mem).ack with
          | false => simp
          | true =>
              by_cases hlen : len = hdrlen mem
              · by_cases hack : p.sndSeq + 1#32 = tiAck mem
                · simp [hlen, hack]
                · simp [hlen, hack]
              · simp [hlen]

/-- The fields are loaded from the first 16 bytes. -/
theorem segmentReads_direct :
    (∀ off ∈ (segmentReads s route cond saddr daddr mem len).direct, (off : Int) < len) ↔
      16 ≤ len := by
  constructor
  · intro h
    have hlast := h 15 (List.mem_append_left _ (by decide))
    omega
  · intro hlen
    have hsmall : ∀ off ∈ (segmentReads s route cond saddr daddr mem len).direct, off < 16 := by
      simp only [segmentReads]
      rw [List.forall_mem_append]
      refine ⟨by decide, ?_⟩
      split
      · split
        · exact synSentReads_direct _
        · exact fun off hoff => absurd hoff List.not_mem_nil
      · split
        · exact fun off hoff => absurd hoff List.not_mem_nil
        · split
          · exact fun off hoff => absurd hoff List.not_mem_nil
          · exact passiveOpenReads_direct _
    intro off hoff
    have hoff' := hsmall off hoff
    omega

/-- The options of a segment are looked at if it opens a connection. -/
theorem segmentReads_options {n : Int} : (∃ m,
      (segmentReads s route cond saddr daddr mem len).options = some (n, m)) ↔
    OpensConnection s cond saddr daddr mem len ∧ optlen mem ≠ 0 ∧ n = optlen mem := by
  have htext : tiLen mem len ≠ 0 ↔ ¬ len = hdrlen mem := by
    simp only [tiLen]
    omega
  simp only [segmentReads, OpensConnection, SynForListener, AnswersSyn]
  cases hactive : s.pcbLookup saddr (mem.half 0) daddr (mem.half 2) .active with
  | some i =>
      simp only [reduceCtorEq, false_and, false_or, Option.some.injEq, exists_eq_left']
      split
      · next hstate =>
        rw [synSentReads_options]
        simp only [hstate, true_and]
      · next hstate =>
        simp [hstate]
  | none =>
      simp only [true_and, reduceCtorEq, false_and, exists_false, or_false]
      cases hlisten : s.pcbWildlookup saddr (mem.half 0) daddr (mem.half 2) .listen with
      | none => simp
      | some mux =>
          simp only [Option.some.injEq, exists_eq_left', Bool.or_eq_true, Bool.not_eq_true',
            decide_eq_true_eq, htext]
          cases (tiFlags mem).ack with
          | true => simp
          | false =>
              cases (tiFlags mem).syn with
              | false => simp
              | true =>
                  cases (tiFlags mem).rst with
                  | true => simp
                  | false =>
                      by_cases hlen : len = hdrlen mem
                      · simp [hlen, passiveOpenReads_options]
                      · simp [hlen]

theorem tcpInputReads_eq :
    tcpInputReads chksum s route cond saddr daddr ip addr mem len =
      ⟨12 :: ((if chksum then chksumReads 0 (hdrlen mem) ++
            if tiLen mem len ≠ 0 then chksumReads (hdrlen mem) (tiLen mem len) else [] else []) ++
          if ChksumPasses chksum saddr daddr ip addr mem len then
            (segmentReads s route cond saddr daddr mem len).direct else []),
        if ChksumPasses chksum saddr daddr ip addr mem len then
          (segmentReads s route cond saddr daddr mem len).options else none⟩ := by
  simp only [tcpInputReads]
  split
  · rfl
  · rw [List.append_nil]

/-- The loads stay inside a segment that holds the fields and the header. -/
theorem tcpInputReads_direct :
    (∀ off ∈ (tcpInputReads chksum s route cond saddr daddr ip addr mem len).direct,
        (off : Int) < len) ↔
      13 ≤ len ∧ (chksum = true → (hdrlen mem : Int) ≤ len) ∧
        (ChksumPasses chksum saddr daddr ip addr mem len → 16 ≤ len) := by
  rw [tcpInputReads_eq, List.forall_mem_cons, List.forall_mem_append]
  have hfirst : ((12 : Nat) : Int) < len ↔ 13 ≤ len := by omega
  rw [hfirst]
  refine and_congr_right fun hlen => and_congr ?_ ?_
  · split
    · next hsum => rw [sumReads_lt hlen, forall_prop_of_true hsum]
    · next hsum =>
      exact iff_of_true (fun off hoff => absurd hoff List.not_mem_nil) fun h => absurd h hsum
  · split
    · next hpass => rw [segmentReads_direct, forall_prop_of_true hpass]
    · next hpass =>
      exact iff_of_true (fun off hoff => absurd hoff List.not_mem_nil) fun h => absurd h hpass

/-- The walk over the options of a segment that they fill. -/
theorem optionsInside_segment {syn : Bool} {maxseg : Nat} (hopt : optlen mem ≠ 0) :
    OptionsInside mem syn (hdrlen mem) 20 (optlen mem) maxseg ↔
      20 ≤ hdrlen mem ∧ Options (mem.bytes 20 (hdrlen mem - 20)) := by
  by_cases hlong : 20 ≤ hdrlen mem
  · have hbound : (hdrlen mem : Int) = (20 + (hdrlen mem - 20) : Nat) := by omega
    have hleft : optlen mem = (hdrlen mem - 20 : Nat) := by
      simp only [optlen]
      omega
    rw [and_iff_right hlong, hleft, hbound, optionsInside_iff le_rfl]
  · refine iff_of_false (fun h => ?_) fun h => hlong h.1
    have hread := (optionsInside_turn.mp h).1 _ (optTurn_reads hopt)
    omega

/-- `tcp_input` stays inside the segment, and the loop over the options ends, exactly if the
segment holds its header and the options of one that opens a connection are in order. -/
theorem tcpInput_inside (chksum : Bool) (s : TcpSystem N) (route : Option Ifnet) (cond : Bool)
    (saddr daddr : BitVec 32) (ip addr : Nat) (mem : Memory) (len : Int) :
    StaysInside chksum s route cond saddr daddr ip addr mem len ↔
      Readable chksum s cond saddr daddr ip addr mem len := by
  have hoptions : ∀ n m, (tcpInputReads chksum s route cond saddr daddr ip addr mem
      len).options = some (n, m) ↔ ChksumPasses chksum saddr daddr ip addr mem len ∧
        (segmentReads s route cond saddr daddr mem len).options = some (n, m) := by
    intro n m
    rw [tcpInputReads_eq]
    simp only [Option.ite_none_right_eq_some]
  constructor
  · rintro ⟨hdirect, hwalk⟩
    obtain ⟨hoffset, hheader, hfields⟩ := tcpInputReads_direct.mp hdirect
    refine ⟨hoffset, hheader, hfields, fun hpass hopens => ?_⟩
    by_cases hopt : optlen mem = 0
    · have htwenty : hdrlen mem = 20 := by
        simp only [optlen] at hopt
        omega
      rw [htwenty]
      exact ⟨le_rfl, .nil⟩
    · obtain ⟨m, hm⟩ : ∃ m, (segmentReads s route cond saddr daddr mem len).options =
          some (optlen mem, m) := segmentReads_options.mpr ⟨hopens, hopt, rfl⟩
      have hinside := hwalk _ _ ((hoptions _ _).mpr ⟨hpass, hm⟩)
      rw [hopens.1] at hinside
      exact (optionsInside_segment hopt).mp hinside
  · rintro ⟨hoffset, hheader, hfields, hopts⟩
    refine ⟨tcpInputReads_direct.mpr ⟨hoffset, hheader, hfields⟩, fun n m h => ?_⟩
    obtain ⟨hpass, hcall⟩ := (hoptions n m).mp h
    obtain ⟨hopens, hopt, rfl⟩ := segmentReads_options.mp ⟨m, hcall⟩
    rw [hopens.1]
    exact (optionsInside_segment hopt).mpr (hopts hpass hopens)

end Segment

/-- Twenty bytes whose header says that it has sixty. -/
def longHeader : Memory := fun i => if i = 12 then 0xf0 else 0

/-- The sum over the header reads forty bytes behind the segment. -/
theorem longHeader_overread : ¬ ∀ (N : Nat) (s : TcpSystem N) (route : Option Ifnet) (cond : Bool)
    (saddr daddr : BitVec 32) (ip addr : Nat) (mem : Memory) (len : Int), 20 ≤ len →
    StaysInside true s route cond saddr daddr ip addr mem len := by
  intro hall
  have hinside := hall 0 (TcpSystem.tcpInit 0 (fun i => i.elim0) 0) none true 1 2 12 20 longHeader 20 le_rfl
  have hheader := (tcpInputReads_direct.mp hinside.direct).2.1 rfl
  have hsixty : hdrlen longHeader = 60 := by decide
  omega

end YardIce.Tcp
