import YardIce.Net.IpInput
import YardIce.Net.Routes

/-!
# Echo replies

`icmp_echoreplay` turns an echo request into its reply where it lies: it changes the type,
adds what the type lost to the checksum and swaps the addresses of the IP header.

## Implementation notes

The request is the frame that `ip_input` has handed to `icmp_input`. `ip_output` gets the
frame after these stores, with the route to the requester; without a route it gets nothing.
-/

namespace YardIce.Net

open YardIce.Lib

/-! ## The source -/

/-- The store of a byte. -/
def Memory.setByte (mem : Memory) (off : Nat) (x : UInt8) : Memory := fun i =>
  if i = off then x else mem i

/-- The store of a halfword. -/
def Memory.setHalf (mem : Memory) (off : Nat) (x : BitVec 16) : Memory :=
  (mem.setByte off (.ofBitVec (x.extractLsb' 0 8))).setByte (off + 1)
    (.ofBitVec (x.extractLsb' 8 8))

/-- The store of a word. -/
def Memory.setWord (mem : Memory) (off : Nat) (x : BitVec 32) : Memory :=
  (mem.setHalf off (x.extractLsb' 0 16)).setHalf (off + 2) (x.extractLsb' 16 16)

/-- `ICMP_ECHOREPLY`. -/
def icmpEchoreply : UInt8 := 0

/-- `ICMP_ECHO`. -/
def icmpEcho : UInt8 := 8

/-- `ICMP_ECHO << 8`. -/
def icmpEchoWord : BitVec 16 := icmpEcho.toBitVec.setWidth 16 <<< 8

/-- The checksum of the reply: that of the request and the type that is no more in the sum. -/
def adjustChksum (chksum : BitVec 16) : BitVec 16 :=
  if ntohs (0xffff - icmpEchoWord) ≤ chksum then chksum + (ntohs icmpEchoWord + 1)
  else chksum + ntohs icmpEchoWord

/-- The stores of `icmp_echoreplay`, with the message at `icmp`. -/
def echoStores (mem : Memory) (icmp : Nat) : Memory :=
  let mem := mem.setByte icmp icmpEchoreply
  let mem := mem.setHalf (icmp + 2) (adjustChksum (mem.half (icmp + 2)))
  let tmp := mem.word 16
  let mem := mem.setWord 16 (mem.word 12)
  mem.setWord 12 tmp

section Source

variable {ι : Type} (routeLen : Nat) (routes : List (Route ι))

/-- `icmp_echoreplay`: the route and the datagram that `ip_output` gets. -/
def icmpEchoreplay (mem : Memory) (icmp : Nat) : Option (Nat × Memory) :=
  let mem := echoStores mem icmp
  match routeLookup routeLen routes (ipDaddr mem) with
  | some (some rt) => some (rt, mem)
  | _ => none

/-- `icmp_input`; the other types of messages are answered by no datagram. -/
def icmpInput (mem : Memory) (icmp : Nat) : Option (Nat × Memory) :=
  if mem icmp = icmpEcho then icmpEchoreplay routeLen routes mem icmp else none

end Source

/-! ## What is right -/

/-- An echo request of `n` bytes with a right checksum. -/
structure EchoRequest (addr : Nat) (mem : Memory) (icmp : Nat) (n : Int) : Prop where
  type : mem icmp = icmpEcho
  min_le : 8 ≤ n
  chksum : inChksum (addr + icmp) 0 (mem.bytes icmp n.toNat) = 0xffff

/-- The datagram is the reply to a request. -/
structure ValidReply (ifn : Ifnet) (addr : Nat) (mem reply : Memory) (icmp : Nat) (n : Int) :
    Prop where
  same : ∀ i, i < 12 ∨ 20 ≤ i → i ≠ icmp → i ≠ icmp + 2 → i ≠ icmp + 3 → reply i = mem i
  type : reply icmp = icmpEchoreply
  saddr : ipSaddr reply = ifn.ipv4Addr
  daddr : ipDaddr reply = ipSaddr mem
  ipChksum : inChksum addr 0 (reply.bytes 0 (hdrLen reply)) = 0xffff
  icmpChksum : inChksum (addr + icmp) 0 (reply.bytes icmp n.toNat) = 0xffff

/-- A byte of the message that is neither type nor checksum is not zero. -/
def NotBlank (mem : Memory) (icmp : Nat) (n : Int) : Prop :=
  ∃ i : Nat, (i = 1 ∨ 4 ≤ i) ∧ i < n ∧ mem (icmp + i) ≠ 0

/-! ## Loads and stores -/

section Stores

variable (mem : Memory) (off : Nat)

theorem setHalf_of_ne {x : BitVec 16} {i : Nat} (h : i ≠ off) (h' : i ≠ off + 1) :
    mem.setHalf off x i = mem i := by
  rw [Memory.setHalf, Memory.setByte, if_neg h', Memory.setByte, if_neg h]

theorem setWord_of_lt {x : BitVec 32} {i : Nat} (h : i < off ∨ off + 4 ≤ i) :
    mem.setWord off x i = mem i := by
  rw [Memory.setWord, setHalf_of_ne _ _ (by omega) (by omega),
    setHalf_of_ne _ _ (by omega) (by omega)]

theorem half_setHalf (x : BitVec 16) : (mem.setHalf off x).half off = x := by
  have hlo : mem.setHalf off x off = .ofBitVec (x.extractLsb' 0 8) := by
    rw [Memory.setHalf, Memory.setByte, if_neg (by omega), Memory.setByte, if_pos rfl]
  have hhi : mem.setHalf off x (off + 1) = .ofBitVec (x.extractLsb' 8 8) := by
    rw [Memory.setHalf, Memory.setByte, if_pos rfl]
  rw [Memory.half, hlo, hhi]
  ext i hi
  simp only [BitVec.getElem_append, BitVec.getElem_extractLsb']
  split
  · rw [Nat.zero_add]
    exact BitVec.getLsbD_eq_getElem hi
  · rw [show 8 + (i - 8) = i by omega]
    exact BitVec.getLsbD_eq_getElem hi

theorem half_congr {mem mem' : Memory} (h : mem off = mem' off)
    (h' : mem (off + 1) = mem' (off + 1)) : mem.half off = mem'.half off := by
  rw [Memory.half, Memory.half, h, h']

theorem word_setWord (x : BitVec 32) : (mem.setWord off x).word off = x := by
  have hlo : (mem.setWord off x).half off = x.extractLsb' 0 16 := by
    rw [Memory.setWord, half_congr off (setHalf_of_ne _ _ (by omega) (by omega))
      (setHalf_of_ne _ _ (by omega) (by omega))]
    exact half_setHalf mem off _
  have hhi : (mem.setWord off x).half (off + 2) = x.extractLsb' 16 16 := half_setHalf _ _ _
  rw [Memory.word, hlo, hhi]
  ext i hi
  simp only [BitVec.getElem_append, BitVec.getElem_extractLsb']
  split
  · rw [Nat.zero_add]
    exact BitVec.getLsbD_eq_getElem hi
  · rw [show 16 + (i - 16) = i by omega]
    exact BitVec.getLsbD_eq_getElem hi

theorem word_congr {mem mem' : Memory} (h : ∀ i, off ≤ i → i < off + 4 → mem i = mem' i) :
    mem.word off = mem'.word off := by
  have hat : ∀ k, k < 4 → mem (off + k) = mem' (off + k) := fun k hk => h _ (by omega) (by omega)
  rw [Memory.word, Memory.word, half_congr off (hat 0 (by omega)) (hat 1 (by omega)),
    half_congr (off + 2) (hat 2 (by omega)) (hat 3 (by omega))]

theorem half_toNat : (mem.half off).toNat = (mem off).toNat + 256 * (mem (off + 1)).toNat :=
  halfword_eq (mem off) (mem (off + 1))

/-- The first word of a block. -/
theorem wordSum_two (n : Nat) :
    wordSum (mem.bytes off (2 + n)) = (mem.half off).toNat + wordSum (mem.bytes (off + 2) n) := by
  have hfirst : mem.bytes off 2 = [mem off, mem (off + 1)] := rfl
  rw [bytes_add, half_toNat, hfirst, wordSum_append [mem off, mem (off + 1)] _ (Nat.mod_self 2)]
  simp only [wordSum, Nat.add_zero]

theorem bytes_congr {mem mem' : Memory} {n : Nat} (h : ∀ i < n, mem (off + i) = mem' (off + i)) :
    mem.bytes off n = mem'.bytes off n :=
  List.map_congr_left fun i hi => h i (List.mem_range.mp hi)

end Stores

/-! ## The stores of a reply -/

section Reply

variable {mem : Memory} {icmp : Nat}

theorem echoStores_same {i : Nat} (hi : i < 12 ∨ 20 ≤ i) (htype : i ≠ icmp) (hlo : i ≠ icmp + 2)
    (hhi : i ≠ icmp + 3) : echoStores mem icmp i = mem i := by
  unfold echoStores
  rw [setWord_of_lt _ _ (by omega), setWord_of_lt _ _ (by omega), setHalf_of_ne _ _ hlo hhi,
    Memory.setByte, if_neg htype]

theorem echoStores_type (h : 20 ≤ icmp) : echoStores mem icmp icmp = icmpEchoreply := by
  unfold echoStores
  rw [setWord_of_lt _ _ (by omega), setWord_of_lt _ _ (by omega),
    setHalf_of_ne _ _ (by omega) (by omega), Memory.setByte, if_pos rfl]

theorem echoStores_chksum (h : 20 ≤ icmp) :
    (echoStores mem icmp).half (icmp + 2) = adjustChksum (mem.half (icmp + 2)) := by
  have hload : (mem.setByte icmp icmpEchoreply).half (icmp + 2) = mem.half (icmp + 2) :=
    half_congr _ (if_neg (by omega)) (if_neg (by omega))
  unfold echoStores
  rw [half_congr _ (setWord_of_lt _ _ (by omega)) (setWord_of_lt _ _ (by omega)),
    half_congr _ (setWord_of_lt _ _ (by omega)) (setWord_of_lt _ _ (by omega)), half_setHalf, hload]

/-- The stores to the message leave the addresses alone. -/
theorem word_message (h : 20 ≤ icmp) {x : UInt8} {c : BitVec 16} {off : Nat} (hoff : off ≤ 16) :
    ((mem.setByte icmp x).setHalf (icmp + 2) c).word off = mem.word off := by
  refine word_congr off fun i hlo hhi => ?_
  rw [setHalf_of_ne _ _ (by omega) (by omega), Memory.setByte, if_neg (by omega)]

theorem echoStores_saddr (h : 20 ≤ icmp) : ipSaddr (echoStores mem icmp) = ipDaddr mem := by
  unfold echoStores ipSaddr ipDaddr
  rw [word_setWord, word_message h le_rfl]

theorem echoStores_daddr (h : 20 ≤ icmp) : ipDaddr (echoStores mem icmp) = ipSaddr mem := by
  unfold echoStores ipSaddr ipDaddr
  rw [word_congr 16 fun i hlo hhi => setWord_of_lt _ 12 (by omega), word_setWord,
    word_message h (by decide)]

end Reply

/-! ## The checksum of the IP header -/

section IpHeader

variable (mem : Memory) (off : Nat)

theorem word_toNat :
    (mem.word off).toNat = (mem.half off).toNat + 65536 * (mem.half (off + 2)).toNat := by
  have hlo := (mem.half off).isLt
  rw [Memory.word, BitVec.toNat_append, ← Nat.shiftLeft_add_eq_or_of_lt hlo, Nat.shiftLeft_eq]
  omega

/-- The words of an address. -/
def addrSum (a : BitVec 32) : Nat := a.toNat % 65536 + a.toNat / 65536

theorem wordSum_addr (n : Nat) : wordSum (mem.bytes off (4 + n)) =
    addrSum (mem.word off) + wordSum (mem.bytes (off + 4) n) := by
  have hlo := (mem.half off).isLt
  have hdiv : ((mem.half off).toNat + 65536 * (mem.half (off + 2)).toNat) / 65536 =
      (mem.half (off + 2)).toNat := by omega
  have hmod : ((mem.half off).toNat + 65536 * (mem.half (off + 2)).toNat) % 65536 =
      (mem.half off).toNat := by omega
  rw [show 4 + n = 2 + (2 + n) by omega, wordSum_two, wordSum_two, addrSum, word_toNat, hdiv, hmod,
    Nat.add_assoc off, Nat.add_assoc]

/-- The sum over a header of at least 20 bytes. -/
theorem wordSum_header (n : Nat) : wordSum (mem.bytes 0 (20 + n)) =
    wordSum (mem.bytes 0 12) + addrSum (ipSaddr mem) + addrSum (ipDaddr mem) +
      wordSum (mem.bytes 20 n) := by
  rw [show 20 + n = 12 + (4 + (4 + n)) by omega, bytes_add,
    wordSum_append _ _ (by rw [bytes_length]), wordSum_addr, wordSum_addr, ipSaddr, ipDaddr]
  simp only [Nat.zero_add, Nat.reduceAdd, Nat.add_assoc]

end IpHeader

section IpChecksum

variable {mem : Memory} {icmp : Nat}

theorem hdrLen_le (mem : Memory) : hdrLen mem ≤ 60 := by
  have hand : (mem 0 &&& 0xf).toNat ≤ 15 := by
    rw [UInt8.toNat_and]
    exact Nat.and_le_right
  rw [hdrLen, Nat.shiftLeft_eq]
  omega

theorem echoStores_hdrLen (h : 20 ≤ icmp) : hdrLen (echoStores mem icmp) = hdrLen mem := by
  rw [hdrLen, hdrLen, echoStores_same (by omega) (by omega) (by omega) (by omega)]

/-- The reply has the header of the request with the addresses in the other order. -/
theorem echoStores_header (h : 20 ≤ hdrLen mem) :
    wordSum ((echoStores mem (hdrLen mem)).bytes 0 (hdrLen mem)) =
      wordSum (mem.bytes 0 (hdrLen mem)) := by
  obtain ⟨n, hn⟩ : ∃ n, hdrLen mem = 20 + n := ⟨hdrLen mem - 20, by omega⟩
  have hfirst : (echoStores mem (hdrLen mem)).bytes 0 12 = mem.bytes 0 12 :=
    bytes_congr 0 fun i hi =>
      echoStores_same (by omega) (by omega) (by omega) (by omega)
  have hlast : (echoStores mem (hdrLen mem)).bytes 20 n = mem.bytes 20 n :=
    bytes_congr 20 fun i hi =>
      echoStores_same (by omega) (by omega) (by omega) (by omega)
  have hsaddr := @echoStores_saddr mem _ h
  have hdaddr := @echoStores_daddr mem _ h
  generalize echoStores mem (hdrLen mem) = reply at hfirst hlast hsaddr hdaddr ⊢
  rw [hn, wordSum_header, wordSum_header, hfirst, hlast, hsaddr, hdaddr]
  omega

theorem echoStores_ipChksum {addr : Nat} (h : 20 ≤ hdrLen mem)
    (hsum : inChksum addr 0 (mem.bytes 0 (hdrLen mem)) = 0xffff) :
    inChksum addr 0 ((echoStores mem (hdrLen mem)).bytes 0 (hdrLen mem)) = 0xffff := by
  have hlen := hdrLen_le mem
  have hbound : ∀ m : Memory, 0 + wordSum (m.bytes 0 (hdrLen mem)) < 2 ^ 32 := fun m =>
    wordSum_bound (by decide) (by rw [bytes_length]; omega)
  rw [inChksum_eq _ _ _ (hbound _)] at hsum ⊢
  rw [echoStores_header h]
  exact hsum

end IpChecksum

/-! ## The checksum of the message -/

section Message

variable {mem : Memory} {icmp : Nat}

theorem adjustChksum_toNat (c : BitVec 16) : (adjustChksum c).toNat =
    if 65527 ≤ c.toNat then c.toNat + 9 - 65536 else c.toNat + 8 := by
  have hbound : ntohs (0xffff - icmpEchoWord) = 65527#16 := by decide
  have hword : ntohs icmpEchoWord = 8#16 := by decide
  have hc := c.isLt
  rw [adjustChksum, hword]
  by_cases h : 65527 ≤ c.toNat
  · have hle : ntohs (0xffff - icmpEchoWord) ≤ c := by
      rw [hbound]
      exact BitVec.le_def.mpr h
    rw [if_pos hle, if_pos h]
    show (c.toNat + 9) % 65536 = _
    omega
  · have hle : ¬ ntohs (0xffff - icmpEchoWord) ≤ c := by
      rw [hbound]
      exact fun h' => h (BitVec.le_def.mp h')
    rw [if_neg hle, if_neg h]
    show (c.toNat + 8) % 65536 = _
    omega

theorem byte_eq_zero (x : UInt8) : x.toNat = 0 ↔ x = 0 := by
  rw [← UInt8.toNat_inj]
  exact Iff.rfl

theorem wordSum_eq_zero (xs : List UInt8) : wordSum xs = 0 ↔ ∀ x ∈ xs, x = 0 := by
  induction xs using wordSum.induct with
  | case1 lo hi data ih =>
      rw [wordSum, List.forall_mem_cons, List.forall_mem_cons, ← byte_eq_zero lo,
        ← byte_eq_zero hi, ← ih]
      omega
  | case2 c => rw [wordSum, List.forall_mem_singleton, byte_eq_zero]
  | case3 => exact iff_of_true rfl fun _ h => absurd h List.not_mem_nil

/-- The sum of a message without its type and its checksum. -/
def restSum (mem : Memory) (icmp m : Nat) : Nat :=
  256 * (mem (icmp + 1)).toNat + wordSum (mem.bytes (icmp + 4) m)

theorem wordSum_message (mem : Memory) (icmp m : Nat) : wordSum (mem.bytes icmp (4 + m)) =
    (mem icmp).toNat + (mem.half (icmp + 2)).toNat + restSum mem icmp m := by
  rw [show 4 + m = 2 + (2 + m) by omega, wordSum_two, wordSum_two, half_toNat mem icmp, restSum,
    Nat.add_assoc icmp]
  omega

theorem restSum_pos_iff (mem : Memory) (icmp m : Nat) :
    0 < restSum mem icmp m ↔ NotBlank mem icmp ((4 + m : Nat) : Int) := by
  have hsplit : 0 < restSum mem icmp m ↔
      ¬ (mem (icmp + 1)).toNat = 0 ∨ ¬ wordSum (mem.bytes (icmp + 4) m) = 0 := by
    rw [restSum]
    omega
  rw [hsplit, byte_eq_zero, wordSum_eq_zero]
  constructor
  · rintro (hcode | hrest)
    · exact ⟨1, Or.inl rfl, by omega, hcode⟩
    · push Not at hrest
      obtain ⟨x, hx, hne⟩ := hrest
      obtain ⟨i, hi, rfl⟩ := List.mem_map.mp hx
      rw [List.mem_range] at hi
      refine ⟨4 + i, Or.inr (by omega), by omega, ?_⟩
      rwa [← Nat.add_assoc]
  · rintro ⟨i, rfl | hi, hlt, hne⟩
    · exact Or.inl hne
    · refine Or.inr fun hall => hne ?_
      refine hall _ (List.mem_map.mpr ⟨i - 4, List.mem_range.mpr (by omega), ?_⟩)
      exact congrArg mem (by omega)

theorem echoStores_restSum (h : 20 ≤ icmp) (m : Nat) :
    restSum (echoStores mem icmp) icmp m = restSum mem icmp m := by
  have hrest : (echoStores mem icmp).bytes (icmp + 4) m = mem.bytes (icmp + 4) m :=
    bytes_congr _ fun i hi =>
      echoStores_same (by omega) (by omega) (by omega) (by omega)
  rw [restSum, restSum, hrest, echoStores_same (by omega) (by omega) (by omega) (by omega)]

/-- The sum over the reply is that over the request, or less by one turn; what makes it right
is that it is not zero. -/
theorem echoStores_sum (h : 20 ≤ icmp) (htype : mem icmp = icmpEcho) (m : Nat)
    (hsum : foldCarry 65535 (wordSum (mem.bytes icmp (4 + m))) = 65535) :
    foldCarry 65535 (wordSum ((echoStores mem icmp).bytes icmp (4 + m))) = 65535 ↔
      0 < restSum mem icmp m := by
  have hecho : icmpEcho.toNat = 8 := rfl
  have hreply : icmpEchoreply.toNat = 0 := rfl
  have hc := (mem.half (icmp + 2)).isLt
  rw [foldCarry_eq_max_iff (by decide), wordSum_message, htype, hecho] at hsum
  rw [foldCarry_eq_max_iff (by decide), wordSum_message, echoStores_type h, hreply,
    echoStores_chksum h, echoStores_restSum h, adjustChksum_toNat]
  obtain ⟨-, k, hk⟩ := hsum
  generalize (mem.half (icmp + 2)).toNat = c at hc hk ⊢
  generalize restSum mem icmp m = r at hk ⊢
  constructor
  · rintro ⟨hpos, j, hj⟩
    split at hpos
    · next hge =>
      rw [if_pos hge] at hj
      omega
    · next hlt =>
      rw [if_neg hlt] at hj
      omega
  · intro hr
    split
    · next hge => exact ⟨by omega, k - 1, by omega⟩
    · next hlt => exact ⟨by omega, k, by omega⟩

end Message

/-! ## The reply -/

section Handed

variable {cfg : NetConfig} {ifn : Ifnet} {addr len icmp : Nat} {mem : Memory} {n : Int}

/-- The frames that are handed to `icmp_input`. -/
theorem input_icmp (h : ipInput cfg ifn addr mem len = .icmpInput icmp n) :
    Accepted ifn addr mem len ∧ icmp = hdrLen mem ∧ n = (totLen mem : Int) - hdrLen mem := by
  have hhanded : (ipInput cfg ifn addr mem len).Handed := by
    rw [h]
    exact trivial
  have hacc := handed_accepted hhanded
  rw [hacc.input] at h
  unfold ipSwitch at h
  split_ifs at h with hicmp
  rw [IpCall.icmpInput.injEq] at h
  exact ⟨hacc, h.1.symm, h.2.symm⟩

variable {ι : Type} {routeLen rt : Nat} {routes : List (Route ι)} {reply : Memory}

/-- What `ip_output` gets is the request after the stores. -/
theorem icmpInput_reply (h : icmpInput routeLen routes mem icmp = some (rt, reply)) :
    reply = echoStores mem icmp := by
  unfold icmpInput icmpEchoreplay at h
  split_ifs at h
  dsimp only at h
  split at h
  · exact (congrArg Prod.snd (Option.some.inj h)).symm
  · cases h

/-- The sums over the message are those of its words. -/
theorem inChksum_message (addr : Nat) (m : Memory) {off k : Nat} (hk : k ≤ 65535) :
    inChksum addr 0 (m.bytes off k) = foldCarry 65535 (wordSum (m.bytes off k)) := by
  rw [inChksum_eq _ _ _ (wordSum_bound (by decide) (by rw [bytes_length]; exact hk)), Nat.zero_add]

/-- An echo request is answered by a valid reply exactly if it was sent to the address of the
interface, not to a broadcast address, and is not blank: the checksum of a blank request is the
one that the adjustment takes to zero, where the sum over the reply is zero. -/
theorem echo_reply_valid_iff (hin : ipInput cfg ifn addr mem len = .icmpInput icmp n)
    (hreq : EchoRequest addr mem icmp n)
    (hout : icmpInput routeLen routes mem icmp = some (rt, reply)) :
    ValidReply ifn addr mem reply icmp n ↔
      ipDaddr mem = ifn.ipv4Addr ∧ NotBlank mem icmp n := by
  obtain ⟨hacc, hicmp, hn⟩ := input_icmp hin
  have htot : totLen mem < 2 ^ 16 := (ntohs (mem.half 2)).isLt
  have hmin : 20 ≤ icmp := by
    rw [hicmp]
    exact hacc.min_le
  have hreply := icmpInput_reply hout
  obtain ⟨m, hm⟩ : ∃ m : Nat, n = ((4 + m : Nat) : Int) :=
    ⟨(n - 4).toNat, by have := hreq.min_le; omega⟩
  have hbytes : n.toNat = 4 + m := by rw [hm, Int.toNat_natCast]
  have hshort : 4 + m ≤ 65535 := by omega
  have hsum : foldCarry 65535 (wordSum (mem.bytes icmp (4 + m))) = 65535 := by
    rw [← inChksum_message (addr + icmp) mem hshort, ← hbytes]
    exact hreq.chksum
  have hchksum : inChksum (addr + icmp) 0 (reply.bytes icmp n.toNat) = 0xffff ↔
      NotBlank mem icmp n := by
    rw [hbytes, inChksum_message _ _ hshort, hreply, echoStores_sum hmin hreq.type m hsum,
      restSum_pos_iff, hm]
  have hsaddr : ipSaddr reply = ipDaddr mem := by
    rw [hreply]
    exact echoStores_saddr hmin
  constructor
  · intro hvalid
    exact ⟨hsaddr.symm.trans hvalid.saddr, hchksum.mp hvalid.icmpChksum⟩
  · rintro ⟨hdest, hblank⟩
    refine ⟨fun i hi htype hlo hhi => ?_, ?_, hsaddr.trans hdest, ?_, ?_, hchksum.mpr hblank⟩
    · rw [hreply]
      exact echoStores_same hi htype hlo hhi
    · rw [hreply]
      exact echoStores_type hmin
    · rw [hreply]
      exact echoStores_daddr hmin
    · rw [hreply, echoStores_hdrLen hmin, hicmp]
      exact echoStores_ipChksum hacc.min_le hacc.chksum

end Handed

/-! ### Two requests -/

/-- An echo request with one byte of data from 10.0.0.1 to 10.0.0.2. -/
def echoRequest : Memory := fun i =>
  [0x45, 0, 0, 29, 0, 1, 0, 0, 64, 1, 0x66, 0xdd, 10, 0, 0, 1, 10, 0, 0, 2,
    8, 0, 0xb7, 0xfd, 0, 1, 0, 1, 0x40].getD i 0

/-- An echo request from 10.0.0.1 to 10.0.0.2 with identifier and sequence number 0 and without
data. -/
def blankRequest : Memory := fun i =>
  [0x45, 0, 0, 28, 0, 1, 0, 0, 64, 1, 0x66, 0xde, 10, 0, 0, 1, 10, 0, 0, 2,
    8, 0, 0xf7, 0xff, 0, 0, 0, 0].getD i 0

/-- The interface 10.0.0.2 in a network of 24 bits. -/
def echoIfn : Ifnet := ⟨0x0200000a, 0x00ffffff⟩

/-- A default route. -/
def echoRoutes : List (Route Unit) := [⟨0, 0, 0, some ()⟩]

/-- A block whose words add up to `0xffff`. -/
theorem inChksum_max {addr off n : Nat} {mem : Memory} (hn : n ≤ 65535)
    (h : wordSum (mem.bytes off n) = 65535) : inChksum addr 0 (mem.bytes off n) = 0xffff := by
  rw [inChksum_message addr mem hn, h]
  exact foldCarry_of_le le_rfl

theorem echoRequest_input : ipInput ⟨true, true, false, false⟩ echoIfn 0 echoRequest 29 =
    .icmpInput 20 9 := by
  have hacc : Accepted echoIfn 0 echoRequest 29 :=
    ⟨by decide, by decide, by decide, by decide, by decide,
      inChksum_max (by decide) (by decide), by decide⟩
  rw [hacc.input]
  rfl

theorem blankRequest_input : ipInput ⟨true, true, false, false⟩ echoIfn 0 blankRequest 28 =
    .icmpInput 20 8 := by
  have hacc : Accepted echoIfn 0 blankRequest 28 :=
    ⟨by decide, by decide, by decide, by decide, by decide,
      inChksum_max (by decide) (by decide), by decide⟩
  rw [hacc.input]
  rfl

theorem echo_reply_valid_iff_byte :
    ValidReply echoIfn 0 echoRequest (echoStores echoRequest 20) 20 9 ↔
      ipDaddr echoRequest = echoIfn.ipv4Addr ∧ NotBlank echoRequest 20 9 :=
  echo_reply_valid_iff echoRequest_input
    ⟨by decide, by decide, inChksum_max (by decide) (by decide)⟩
    (show icmpInput 1 echoRoutes echoRequest 20 = some (0, echoStores echoRequest 20) from rfl)

/-- The reply to a blank request has the checksum 0, which is not right. -/
theorem blank_reply_invalid :
    ¬ ∀ (cfg : NetConfig) (ifn : Ifnet) (addr len icmp : Nat) (mem : Memory) (n : Int)
      (routeLen rt : Nat) (routes : List (Route Unit)) (reply : Memory),
      ipInput cfg ifn addr mem len = .icmpInput icmp n → EchoRequest addr mem icmp n →
      icmpInput routeLen routes mem icmp = some (rt, reply) →
      ValidReply ifn addr mem reply icmp n := by
  intro hall
  have hvalid := hall ⟨true, true, false, false⟩ echoIfn 0 28 20 blankRequest 8 1 0 echoRoutes
    (echoStores blankRequest 20) blankRequest_input
    ⟨by decide, by decide, inChksum_max (by decide) (by decide)⟩ rfl
  have hsum := hvalid.icmpChksum
  rw [inChksum_message _ _ (by decide),
    show wordSum ((echoStores blankRequest 20).bytes 20 (8 : Int).toNat) = 0 by decide,
    foldCarry_of_le (Nat.zero_le _)] at hsum
  exact absurd hsum (by decide)

end YardIce.Net
