import YardIce.Net.Chksum
import YardIce.Tcp.Input
import YardIce.Tcp.OutputSpec

/-!
# Segments on the wire

The headers that `tcp_output` and `tcp_respond` fill in, the checksum they put into
them and the test at the head of `tcp_input`.

## Implementation notes

Memory is little-endian: a word in network order is the word that `htons` or `htonl`
returns. Addresses and ports are kept in network order by the source, so they are
copied as they are. The sender adds the halves of the addresses to the sum, the
receiver reads them from the IP header.
-/

namespace YardIce.Tcp

open YardIce.Lib YardIce.Net

/-- `htons`, which is also `ntohs`. -/
def htons (n : Nat) : Nat := n % 256 * 256 + n / 256 % 256

/-- `htonl`. -/
def htonl (n : Nat) : Nat := htons (n / 65536) + htons (n % 65536) * 65536

/-- The bytes of a 16-bit word in memory. -/
def mem16 (n : Nat) : List UInt8 := [UInt8.ofNat n, UInt8.ofNat (n / 256)]

/-- The bytes of a 32-bit word in memory. -/
def mem32 (n : Nat) : List UInt8 := mem16 n ++ mem16 (n / 65536)

/-- The byte `th_flags`. -/
def ThFlags.byte (f : ThFlags) : UInt8 :=
  (if f.fin then 0x01 else 0) + (if f.syn then 0x02 else 0) + (if f.rst then 0x04 else 0) +
    (if f.psh then 0x08 else 0) + (if f.ack then 0x10 else 0) + if f.urg then 0x20 else 0

/-- The TCP options of a segment. -/
def OutSeg.opt (g : OutSeg) : List UInt8 :=
  match g.mss with
  | none => []
  | some mss => [2, 4] ++ mem16 (htons mss)

/-- `hdrlen`. -/
def OutSeg.hdrlen (g : OutSeg) : Nat := 20 + g.opt.length

/-- The header up to the checksum. `th_off` is the high half of its byte. -/
def OutSeg.hdrFront (g : OutSeg) : List UInt8 :=
  mem16 g.sport.toNat ++ mem16 g.dport.toNat ++ mem32 (htonl g.seq.toNat) ++
    mem32 (htonl g.ack.toNat) ++ [UInt8.ofNat (g.hdrlen / 4 * 16), g.flags.byte] ++
    mem16 (htons g.win)

/-- The header with a checksum, a null urgent pointer and the options. -/
def OutSeg.hdr (g : OutSeg) (sum : Nat) : List UInt8 := g.hdrFront ++ (mem16 sum ++ (mem16 0 ++ g.opt))

/-- `IPPROTO_TCP << 8`. -/
def ipprotoTcp : Nat := 6 * 256

/-- The sum of the halves of an address. -/
def halves (a : BitVec 32) : Nat := a.toNat % 65536 + a.toNat / 65536

/-- The seed of the sum on the sending side. -/
def OutSeg.seed (g : OutSeg) : Nat :=
  (htons (g.hdrlen + g.len) + ipprotoTcp + halves g.saddr + halves g.daddr) % 2 ^ 32

/-- `th_sum` of a segment whose header is built at `addr`. -/
def OutSeg.thSum (g : OutSeg) (addr : Nat) : Nat :=
  let sum := inChksum addr g.seed (g.hdr 0)
  let sum := if g.len > 0 then inChksum (addr + g.hdrlen) sum g.data else sum
  2 ^ 16 - 1 - sum % 2 ^ 16

/-- The segment as it leaves. -/
def OutSeg.wire (g : OutSeg) (addr : Nat) : List UInt8 := g.hdr (g.thSum addr) ++ g.data

/-- The segment of `tcp_respond` to one from `src` to `dst`. -/
def tcpRespond (src dst : BitVec 32 × BitVec 16) (r : Reset) : OutSeg where
  saddr := dst.1
  daddr := src.1
  sport := dst.2
  dport := src.2
  seq := r.seq
  ack := r.ack
  flags := r.flags
  win := 0
  mss := none
  len := 0
  data := []

/-- The checksum test of `tcp_input` on `len` bytes from `th` on; `ip` is the address
of the source address in the IP header, `addr` that of the TCP header. -/
def chksumOk (ip addr : Nat) (saddr daddr : BitVec 32) (th : List UInt8) (len : Nat) : Bool :=
  let hdrlen := (th.getD 12 0).toNat / 16 * 4
  let tiLen := len - hdrlen
  let sum := htons len + ipprotoTcp
  let sum := inChksum ip sum (mem32 saddr.toNat ++ mem32 daddr.toNat)
  let sum := inChksum addr sum (th.take hdrlen)
  let sum := if tiLen ≠ 0 then inChksum (addr + hdrlen) sum ((th.drop hdrlen).take tiLen) else sum
  sum = 0xffff

variable {g : OutSeg}

theorem htons_lt (n : Nat) : htons n < 2 ^ 16 := by
  simp only [htons]
  omega

theorem wordSum_mem16_append (n : Nat) (xs : List UInt8) :
    wordSum (mem16 n ++ xs) = n % 2 ^ 16 + wordSum xs := by
  simp only [mem16, List.cons_append, List.nil_append, wordSum, UInt8.toNat_ofNat']
  omega

theorem wordSum_mem32_append (a : BitVec 32) (xs : List UInt8) :
    wordSum (mem32 a.toNat ++ xs) = halves a + wordSum xs := by
  have ha := a.isLt
  rw [mem32, List.append_assoc, wordSum_mem16_append, wordSum_mem16_append, halves]
  omega

theorem halves_lt (a : BitVec 32) : halves a < 2 ^ 17 := by
  have ha := a.isLt
  simp only [halves]
  omega

theorem hdrFront_length (g : OutSeg) : g.hdrFront.length = 16 := rfl

theorem hdr_length (g : OutSeg) (sum : Nat) : (g.hdr sum).length = g.hdrlen := by
  simp only [OutSeg.hdr, OutSeg.hdrlen, List.length_append, hdrFront_length, mem16,
    List.length_cons, List.length_nil]
  omega

theorem hdrlen_cases (g : OutSeg) : g.hdrlen = 20 ∨ g.hdrlen = 24 := by
  simp only [OutSeg.hdrlen, OutSeg.opt]
  split
  · exact Or.inl rfl
  · exact Or.inr rfl

/-- The checksum field adds its value to the sum of the header. -/
theorem wordSum_hdr (g : OutSeg) (sum : Nat) :
    wordSum (g.hdr sum) = wordSum (g.hdr 0) + sum % 2 ^ 16 := by
  have hfront : g.hdrFront.length % 2 = 0 := by rw [hdrFront_length]
  simp only [OutSeg.hdr, wordSum_append _ _ hfront, wordSum_mem16_append]
  omega

/-- The sum over the pseudo header, the header without checksum and the text. -/
def OutSeg.total (g : OutSeg) : Nat := g.seed + wordSum (g.hdr 0) + wordSum g.data

theorem seed_eq (g : OutSeg) :
    g.seed = htons (g.hdrlen + g.len) + ipprotoTcp + (halves g.saddr + halves g.daddr) := by
  have hlen := htons_lt (g.hdrlen + g.len)
  have hs := halves_lt g.saddr
  have hd := halves_lt g.daddr
  rw [OutSeg.seed, Nat.mod_eq_of_lt]
  · omega
  · simp only [ipprotoTcp]
    omega

theorem seed_pos (g : OutSeg) : 0 < g.seed := by
  rw [seed_eq]
  simp only [ipprotoTcp]
  omega

/-- No addition of a segment's checksum wraps. -/
theorem total_lt (hlen : g.data.length = g.len) (hlt : g.len < 2 ^ 16) :
    g.total + 2 ^ 16 < 2 ^ 32 := by
  have hseed := seed_eq g
  have h₁ := htons_lt (g.hdrlen + g.len)
  have h₂ := halves_lt g.saddr
  have h₃ := halves_lt g.daddr
  have hhdr := wordSum_le (g.hdr 0)
  have hdata := wordSum_le g.data
  have hcases := hdrlen_cases g
  rw [hdr_length] at hhdr
  simp only [OutSeg.total, ipprotoTcp] at hseed ⊢
  omega

/-- The sender complements the folded total. -/
theorem thSum_eq (hlen : g.data.length = g.len) (hlt : g.len < 2 ^ 16) (addr : Nat) :
    g.thSum addr = 0xffff - foldCarry 0xffff g.total := by
  have htotal := total_lt hlen hlt
  have hpos := seed_pos g
  have hfold := foldCarry_le (b := 0xffff) (by decide) (g.seed + wordSum (g.hdr 0))
  simp only [OutSeg.total] at htotal ⊢
  have hhdr := inChksum_eq addr g.seed (g.hdr 0) (by omega)
  have hsum : (if g.len > 0 then inChksum (addr + g.hdrlen) (inChksum addr g.seed (g.hdr 0)) g.data
      else inChksum addr g.seed (g.hdr 0)) =
      foldCarry 0xffff (g.seed + wordSum (g.hdr 0) + wordSum g.data) := by
    split
    · rw [hhdr, inChksum_eq _ _ _ (by omega), foldCarry_add (by decide) (by omega)]
    · have hnil : g.data = [] := List.eq_nil_of_length_eq_zero (by omega)
      rw [hhdr, hnil, wordSum, Nat.add_zero]
  have hle := foldCarry_le (b := 0xffff) (by decide)
    (g.seed + wordSum (g.hdr 0) + wordSum g.data)
  simp only [OutSeg.thSum, hsum]
  omega

/-- The receiver finds the length of the header. -/
theorem wire_hdrlen (g : OutSeg) (addr : Nat) :
    ((g.wire addr).getD 12 0).toNat / 16 * 4 = g.hdrlen := by
  have hbyte : (g.wire addr).getD 12 0 = UInt8.ofNat (g.hdrlen / 4 * 16) := rfl
  rw [hbyte]
  rcases hdrlen_cases g with h | h
  · rw [h]
    rfl
  · rw [h]
    rfl

/-- A segment with its checksum passes the test, wherever it is built and received. -/
theorem wire_accepted (hlen : g.data.length = g.len) (hlt : g.len < 2 ^ 16)
    (addr ip addr' : Nat) :
    chksumOk ip addr' g.saddr g.daddr (g.wire addr) (g.hdrlen + g.len) = true := by
  have htotal := total_lt hlen hlt
  have hsum := thSum_eq hlen hlt addr
  have hseed := seed_eq g
  have hpos : 0 < htons (g.hdrlen + g.len) + ipprotoTcp := by
    simp only [ipprotoTcp]
    omega
  have hfold := foldCarry_le (b := 0xffff) (by decide) g.total
  have hmod : g.thSum addr % 2 ^ 16 = g.thSum addr := Nat.mod_eq_of_lt (by omega)
  have hhdr : wordSum (g.hdr (g.thSum addr)) = wordSum (g.hdr 0) + g.thSum addr := by
    rw [wordSum_hdr, hmod]
  have htake : (g.wire addr).take g.hdrlen = g.hdr (g.thSum addr) :=
    List.take_left' (hdr_length g _)
  have hdrop : ((g.wire addr).drop g.hdrlen).take g.len = g.data := by
    rw [OutSeg.wire, List.drop_left' (hdr_length g _), ← hlen, List.take_length]
  have haddr : wordSum (mem32 g.saddr.toNat ++ mem32 g.daddr.toNat) =
      halves g.saddr + halves g.daddr := by
    have happ := wordSum_mem32_append g.daddr []
    rw [List.append_nil] at happ
    rw [wordSum_mem32_append, happ]
    rfl
  simp only [OutSeg.total] at htotal hfold hsum
  -- the three calls of the receiver, each folding what the one before left
  have h₁ : inChksum ip (htons (g.hdrlen + g.len) + ipprotoTcp)
      (mem32 g.saddr.toNat ++ mem32 g.daddr.toNat) = foldCarry 0xffff g.seed := by
    rw [inChksum_eq _ _ _ (by rw [haddr]; omega), haddr, hseed]
  have hseedle := foldCarry_le_self 0xffff g.seed
  have h₂ : inChksum addr' (foldCarry 0xffff g.seed) (g.hdr (g.thSum addr)) =
      foldCarry 0xffff (g.seed + wordSum (g.hdr (g.thSum addr))) := by
    rw [inChksum_eq _ _ _ (by rw [hhdr]; omega), foldCarry_add (by decide) (seed_pos g)]
  have h₃ : (if g.len ≠ 0 then inChksum (addr' + g.hdrlen)
      (foldCarry 0xffff (g.seed + wordSum (g.hdr (g.thSum addr)))) g.data
      else foldCarry 0xffff (g.seed + wordSum (g.hdr (g.thSum addr)))) =
      foldCarry 0xffff (g.seed + wordSum (g.hdr (g.thSum addr)) + wordSum g.data) := by
    have hle := foldCarry_le_self 0xffff (g.seed + wordSum (g.hdr (g.thSum addr)))
    have hp := seed_pos g
    split
    · rw [inChksum_eq _ _ _ (by omega), foldCarry_add (by decide) (by omega)]
    · have hnil : g.data = [] := List.eq_nil_of_length_eq_zero (by omega)
      rw [hnil, wordSum, Nat.add_zero]
  have hend : g.seed + wordSum (g.hdr (g.thSum addr)) + wordSum g.data =
      g.total + (0xffff - foldCarry 0xffff g.total) := by
    simp only [OutSeg.total]
    omega
  have htot : 0 < g.total := Nat.lt_of_lt_of_le (seed_pos g) (by simp only [OutSeg.total]; omega)
  simp only [chksumOk, wire_hdrlen, htake, Nat.add_sub_cancel_left, hdrop, h₁, h₂, h₃, hend]
  rw [foldCarry_add_complement (by decide) htot]
  rfl

/-- Every segment that `tcp_output` or `tcp_respond` builds passes the checksum test of
`tcp_input`. -/
theorem segments_verify :
    (∀ (p : Pcb) (es : List OutEnv), ∀ g ∈ (tcpOutput p es).2, ∀ addr ip addr' : Nat,
      chksumOk ip addr' g.saddr g.daddr (g.wire addr) (g.hdrlen + g.len) = true) ∧
    ∀ (src dst : BitVec 32 × BitVec 16) (r : Reset) (addr ip addr' : Nat),
      chksumOk ip addr' dst.1 src.1 ((tcpRespond src dst r).wire addr)
        (tcpRespond src dst r).hdrlen = true := by
  constructor
  · intro p es g hg addr ip addr'
    obtain ⟨hlen, hlt⟩ := tcpOutput_data_length p es g hg
    exact wire_accepted hlen hlt addr ip addr'
  · intro src dst r addr ip addr'
    have hlen : (tcpRespond src dst r).data.length = (tcpRespond src dst r).len := rfl
    have hlt : (tcpRespond src dst r).len < 2 ^ 16 := Nat.two_pow_pos 16
    exact wire_accepted hlen hlt addr ip addr'

end YardIce.Tcp
