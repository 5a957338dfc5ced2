import YardIce.Gdb.Frames
import YardIce.Tftp.Request

/-!
# Binary writes

`rsp_memory_write_bin` of `gdb-rsp.c` behind `rsp_pkt_recv`, against the requests that a client
makes of an address and bytes. The function does not undo the escapes of the bytes.

## Implementation notes

`strtoul` is that of the C library of the repository; a call that reads past the packet buffer has
no value. The result of `target_mem_write` is an argument.
-/

namespace YardIce.Gdb

open Tftp (strtoul)

/-! ## The function -/

/-- The bytes of the packet buffer. -/
def contents (pkt : Buf) : List Byte := tcpSend pkt rspBufferLen

/-- A call of `target_mem_write`: the address, the buffer from the pointer on, and the length. -/
structure MemWrite where
  addr : Word
  ptr : List Byte
  len : Word

/-- `rsp_ok`: `$OK#9a`. -/
def rspOk : List Byte := [0x24, 0x4f, 0x4b, 0x23, 0x39, 0x61]

/-- `rsp_memory_write_bin`: the call of `target_mem_write` and the reply, with what the buffer
that an error is built in holds at first. -/
def rspMemoryWriteBin (targetMemWrite : MemWrite → Int) (junk pkt : Buf) :
    Option (MemWrite × List Byte) := do
  let (addr, cp) ← strtoul ((contents pkt).drop 1) 16
  let (size, cp) ← strtoul (cp.drop 1) 16
  let call : MemWrite := ⟨addr, cp.drop 1, size⟩
  return (call, if targetMemWrite call < 0 then rspError 1 junk else rspOk)

/-! ## Requests -/

/-- A number in hexadecimal digits. -/
def HexNumber (text : List Byte) (v : Nat) : Prop :=
  ∃ ds : List Nat, ds ≠ [] ∧ (∀ d ∈ ds, d < 16) ∧ text = ds.map hexDigit ∧
    v = ds.foldl (fun v d => 16 * v + d) 0

/-- `}`. -/
def brace : Byte := 0x7d

/-- The bytes that a client escapes: `#`, `$`, `}` and `*`. -/
def Special (c : Byte) : Prop := c = hash ∨ c = dollar ∨ c = brace ∨ c = 0x2a

instance (c : Byte) : Decidable (Special c) := inferInstanceAs (Decidable (_ ∨ _))

/-- The bytes of a request for `data`. -/
def escape (data : List Byte) : List Byte :=
  data.flatMap fun c => if Special c then [brace, c ^^^ 0x20] else [c]

/-- `X addr,len:data`. -/
def writeRequest (addrText lenText data : List Byte) : List Byte :=
  0x58 :: (addrText ++ 0x2c :: (lenText ++ 0x3a :: escape data))

/-- `rsp_pkt_recv` takes the request, and `rsp_memory_write_bin` passes on the address and the
bytes that it was made of. -/
def WrittenExactly (targetMemWrite : MemWrite → Int) (junk : Buf) (addr : Word)
    (data request : List Byte) (chunks : List (List Byte)) (pkt : Buf) : Prop :=
  ∃ pkt', rspPktRecv (chunks.map .data) pkt rspBufferLen = some ((request.length : Int), pkt') ∧
    ∃ call reply, rspMemoryWriteBin targetMemWrite junk pkt' = some (call, reply) ∧
      call.addr = addr ∧ call.len.toInt = data.length ∧ data <+: call.ptr

/-! ## Numbers -/

theorem hexDigit_value : ∀ d < 16, Tftp.hexDigit (hexDigit d) = some (BitVec.ofNat 32 d) := by
  decide

theorem hexDigit_text : ∀ d < 16, hexDigit d ≠ 0x20 ∧ hexDigit d &&& ~~~0x20 ≠ 0x58 := by decide

theorem digits_hex {ds : List Nat} (hlt : ∀ d ∈ ds, d < 16) {c : Byte}
    (hc : Tftp.hexDigit c = none) (v : Nat) (rest : List Byte) :
    Tftp.digits Tftp.hexDigit 16 (BitVec.ofNat 32 v) (ds.map hexDigit ++ c :: rest) =
      some (BitVec.ofNat 32 (ds.foldl (fun v d => 16 * v + d) v), c :: rest) := by
  induction ds generalizing v with
  | nil =>
      rw [List.map_nil, List.nil_append, Tftp.digits, hc]
      rfl
  | cons d ds ih =>
      have hval : BitVec.ofNat 32 v * 16 + BitVec.ofNat 32 d = BitVec.ofNat 32 (16 * v + d) := by
        rw [BitVec.ofNat_add, BitVec.ofNat_mul, BitVec.mul_comm]
        rfl
      rw [List.map_cons, List.cons_append, Tftp.digits, hexDigit_value d (hlt d List.mem_cons_self)]
      simp only [hval]
      exact ih (fun e he => hlt e (List.mem_cons_of_mem _ he)) (16 * v + d)

/-- A number is read up to a byte that is no digit. -/
theorem strtoul_hex {text : List Byte} {v : Nat} (h : HexNumber text v) {c : Byte}
    (hc : Tftp.hexDigit c = none) (hx : c &&& ~~~0x20 ≠ 0x58) (rest : List Byte) :
    strtoul (text ++ c :: rest) 16 = some (BitVec.ofNat 32 v, c :: rest) := by
  obtain ⟨ds, hne, hlt, rfl, rfl⟩ := h
  obtain ⟨d, ds, rfl⟩ := List.exists_cons_of_ne_nil hne
  have hd := hexDigit_text d (hlt d List.mem_cons_self)
  rw [List.map_cons, List.cons_append, strtoul, Tftp.skipBlanks, if_neg hd.1]
  by_cases hzero : hexDigit d = 0x30
  · have hlt' : ∀ e ∈ ds, e < 16 := fun e he => hlt e (List.mem_cons_of_mem _ he)
    have hd0 : d = 0 := by
      have hall : ∀ k < 16, hexDigit k = 0x30 → k = 0 := by decide
      exact hall d (hlt d List.mem_cons_self) hzero
    have hrest := digits_hex hlt' hc 0 rest
    subst hd0
    simp only [hzero, or_true, and_self, if_true]
    cases ds with
    | nil =>
        simp only [List.map_nil, List.nil_append, if_neg hx]
        exact hrest
    | cons e ds =>
        have he := (hexDigit_text e (hlt' e List.mem_cons_self)).2
        simp only [List.map_cons, List.cons_append, if_neg he]
        exact hrest
  · simp only [hzero, and_false, if_false]
    exact digits_hex hlt hc 0 rest

/-! ## Escapes -/

/-- No byte is escaped, or the first one that is, is a `}` with `]` behind it only. -/
def Unescaped : List Byte → Prop
  | [] => True
  | c :: data => if Special c then c = brace ∧ ∀ d ∈ data, d = 0x5d else Unescaped data

instance decidableUnescaped : (data : List Byte) → Decidable (Unescaped data)
  | [] => isTrue trivial
  | c :: data =>
    have := decidableUnescaped data
    inferInstanceAs (Decidable (if Special c then c = brace ∧ ∀ d ∈ data, d = 0x5d
      else Unescaped data))

theorem length_le_escape (data : List Byte) : data.length ≤ (escape data).length := by
  induction data with
  | nil => exact le_rfl
  | cons c data ih =>
      rw [escape, List.flatMap_cons, List.length_append, List.length_cons]
      have hlen : 1 ≤ (if Special c then [brace, c ^^^ 0x20] else [c]).length := by
        split <;> simp
      have htail : data.length ≤ (data.flatMap fun c =>
        if Special c then [brace, c ^^^ 0x20] else [c]).length := ih
      lia

theorem hash_not_mem_escape (data : List Byte) : hash ∉ escape data := by
  intro h
  obtain ⟨c, -, hc⟩ := List.mem_flatMap.mp h
  split at hc
  · next hs =>
    rcases hs with rfl | rfl | rfl | rfl <;> exact absurd hc (by decide)
  · next hs =>
    rw [List.mem_singleton] at hc
    exact hs (Or.inl hc.symm)

theorem escape_plain {c : Byte} (hc : ¬Special c) (data : List Byte) :
    escape (c :: data) = c :: escape data := by
  rw [escape, List.flatMap_cons, if_neg hc]
  rfl

theorem escape_special {c : Byte} (hc : Special c) (data : List Byte) :
    escape (c :: data) = brace :: (c ^^^ 0x20) :: escape data := by
  rw [escape, List.flatMap_cons, if_pos hc]
  rfl

/-- Behind a byte too many, the bytes are all the same. -/
theorem prefix_shifted_iff (data rest : List Byte) :
    data <+: 0x5d :: (escape data ++ rest) ↔ ∀ d ∈ data, d = 0x5d := by
  induction data with
  | nil => simp
  | cons d data ih =>
      rw [List.cons_prefix_cons, List.forall_mem_cons]
      apply and_congr_right
      rintro rfl
      rw [escape_plain (by decide)]
      exact ih

/-- The escaped bytes start with the bytes themselves. -/
theorem prefix_escape_iff (data rest : List Byte) :
    data <+: escape data ++ rest ↔ Unescaped data := by
  induction data with
  | nil => exact iff_of_true List.nil_prefix trivial
  | cons c data ih =>
      unfold Unescaped
      by_cases hc : Special c
      · rw [if_pos hc, escape_special hc, List.cons_append, List.cons_prefix_cons]
        apply and_congr_right
        rintro rfl
        exact prefix_shifted_iff data rest
      · rw [if_neg hc, escape_plain hc, List.cons_append, List.cons_prefix_cons]
        exact (and_iff_right rfl).trans ih

/-! ## The round trip -/

section RoundTrip

variable {addrText lenText data digits : List Byte} {addr : Word}

theorem hash_not_mem_hex {text : List Byte} {v : Nat} (h : HexNumber text v) : hash ∉ text := by
  obtain ⟨ds, -, hlt, rfl, -⟩ := h
  intro hmem
  obtain ⟨d, hd, heq⟩ := List.mem_map.mp hmem
  have hall : ∀ k < 16, hexDigit k ≠ hash := by decide
  exact hall d (hlt d hd) heq

theorem hash_not_mem_request (ha : HexNumber addrText addr.toNat)
    (hl : HexNumber lenText data.length) : hash ∉ writeRequest addrText lenText data := by
  have haddr := hash_not_mem_hex ha
  have hlen := hash_not_mem_hex hl
  have hdata := hash_not_mem_escape data
  have hletter : hash ≠ 0x58 ∧ hash ≠ 0x2c ∧ hash ≠ 0x3a := by decide
  simp only [writeRequest, List.mem_cons, List.mem_append, not_or]
  exact ⟨hletter.1, haddr, hletter.2.1, hlen, hletter.2.2, hdata⟩

/-- The buffer behind a text that fits. -/
theorem contents_store {text : List Byte} (pkt : Buf) (h : text.length ≤ rspBufferLen) :
    text <+: contents (store pkt 0 text) := by
  have hlen : (contents (store pkt 0 text)).length = rspBufferLen := by
    rw [contents, tcpSend, List.length_map, List.length_range]
  rw [List.prefix_iff_getElem]
  refine ⟨by rwa [hlen], fun i hi => ?_⟩
  have hstore := store_at pkt 0 text hi
  rw [Nat.zero_add] at hstore
  simp only [contents, tcpSend, List.getElem_map, List.getElem_range]
  exact hstore.symm

/-- The call for a request in the buffer. -/
theorem rspMemoryWriteBin_request (targetMemWrite : MemWrite → Int) (junk : Buf) {pkt : Buf}
    (ha : HexNumber addrText addr.toNat) (hl : HexNumber lenText data.length) {rest : List Byte}
    (hpkt : contents pkt = writeRequest addrText lenText data ++ rest) :
    ∃ reply, rspMemoryWriteBin targetMemWrite junk pkt =
      some (⟨addr, escape data ++ rest, BitVec.ofNat 32 data.length⟩, reply) := by
  have haddr := strtoul_hex ha (c := 0x2c) (by decide) (by decide)
    (lenText ++ 0x3a :: (escape data ++ rest))
  have hlen := strtoul_hex hl (c := 0x3a) (by decide) (by decide) (escape data ++ rest)
  have hdrop : (writeRequest addrText lenText data ++ rest).drop 1 =
      addrText ++ 0x2c :: (lenText ++ 0x3a :: (escape data ++ rest)) := by
    simp [writeRequest]
  rw [BitVec.ofNat_toNat, BitVec.setWidth_eq] at haddr
  unfold rspMemoryWriteBin
  rw [hpkt, hdrop, haddr]
  simp only [Option.bind_eq_bind, Option.bind_some, List.drop_one, List.tail_cons, hlen]
  exact ⟨_, rfl⟩

/-- The buffer behind a result that has the whole packet. -/
theorem contents_packet {payload tail : List Byte} {rest : List (List Byte)} (pkt : Buf)
    (h : Delivered payload digits ((payload ++ hash :: tail) :: rest)) :
    ∃ more, contents (store pkt 0 (payload ++ hash :: tail)) = payload ++ more := by
  have hfits := h.fits
  rw [List.flatten_cons, List.length_append] at hfits
  obtain ⟨more, hmore⟩ := contents_store pkt (Nat.le_trans (Nat.le_add_right _ _) hfits)
  exact ⟨hash :: tail ++ more, by rw [← hmore, List.append_assoc]⟩

section Exactly

variable {targetMemWrite : MemWrite → Int} {junk pkt : Buf} {chunks : List (List Byte)}

theorem WrittenExactly.received (ha : HexNumber addrText addr.toNat)
    (hl : HexNumber lenText data.length)
    (h : Delivered (writeRequest addrText lenText data) digits chunks)
    (hw : WrittenExactly targetMemWrite junk addr data (writeRequest addrText lenText data) chunks
      pkt) :
    (∃ first rest, chunks = first :: rest ∧
      (writeRequest addrText lenText data).length < first.length) ∧ Unescaped data := by
  obtain ⟨pkt', hrun, call, reply, hcall, -, -, hdata⟩ := hw
  obtain ⟨rest, tail, rfl, rfl⟩ := (rspPktRecv_length_iff (hash_not_mem_request ha hl) h).mp hrun
  obtain ⟨more, hmore⟩ := contents_packet pkt h
  obtain ⟨reply', hcall'⟩ := rspMemoryWriteBin_request targetMemWrite junk ha hl hmore
  rw [hcall', Option.some.injEq, Prod.mk.injEq] at hcall
  rw [← hcall.1] at hdata
  exact ⟨⟨_, rest, rfl, by simp⟩, (prefix_escape_iff data more).mp hdata⟩

/-- The length of the data of a request that fits is not negative as an `int`. -/
theorem length_toInt {first : List Byte} {rest : List (List Byte)}
    (h : Delivered (writeRequest addrText lenText data) digits (first :: rest))
    (hlt : (writeRequest addrText lenText data).length < first.length) :
    (BitVec.ofNat 32 data.length).toInt = data.length := by
  have hle := length_le_escape data
  have hfits := h.fits
  simp only [List.flatten_cons, List.length_append] at hfits
  simp only [writeRequest, List.length_cons, List.length_append] at hlt
  unfold rspBufferLen at hfits
  have hnat : (BitVec.ofNat 32 data.length).toNat = data.length := by
    rw [BitVec.toNat_ofNat, Nat.mod_eq_of_lt (by lia)]
  rw [BitVec.toInt_eq_toNat_of_lt (by lia), hnat]

/-- A client's bytes are written if the packet comes with one result of `tcp_recv` and none of
them had to be escaped, but for a `}` with `]` behind it only. -/
theorem rspMemoryWriteBin_roundtrip_iff (targetMemWrite : MemWrite → Int) (junk pkt : Buf)
    {chunks : List (List Byte)} (ha : HexNumber addrText addr.toNat)
    (hl : HexNumber lenText data.length)
    (h : Delivered (writeRequest addrText lenText data) digits chunks) :
    WrittenExactly targetMemWrite junk addr data (writeRequest addrText lenText data) chunks pkt ↔
      (∃ first rest, chunks = first :: rest ∧
        (writeRequest addrText lenText data).length < first.length) ∧ Unescaped data := by
  constructor
  · exact WrittenExactly.received ha hl h
  · rintro ⟨⟨first, rest, rfl, hlt⟩, hplain⟩
    have hlen := length_toInt h hlt
    obtain ⟨tail, rfl⟩ := chunk_of_hash h.stream hlt
    obtain ⟨more, hmore⟩ := contents_packet pkt h
    obtain ⟨reply, hcall⟩ := rspMemoryWriteBin_request targetMemWrite junk ha hl hmore
    refine ⟨_, ?_, _, reply, hcall, rfl, hlen, (prefix_escape_iff data more).mpr hplain⟩
    exact (rspPktRecv_length_iff (hash_not_mem_request ha hl) h).mpr ⟨rest, tail, rfl, rfl⟩

end Exactly

theorem hexNumber_zero : HexNumber [0x30] 0 := ⟨[0], by decide, by decide, by decide, by decide⟩

theorem hexNumber_one : HexNumber [0x31] 1 := ⟨[1], by decide, by decide, by decide, by decide⟩

/-- `X0,1:a` in one piece. -/
theorem rspMemoryWriteBin_roundtrip_letter :
    WrittenExactly (fun _ => 0) (fun _ => 0) 0 [0x61] (writeRequest [0x30] [0x31] [0x61])
      [writeRequest [0x30] [0x31] [0x61] ++ [hash, 0x31, 0x30]] (fun _ => 0) := by
  have hdelivered : Delivered (writeRequest [0x30] [0x31] [0x61]) [0x31, 0x30]
      [writeRequest [0x30] [0x31] [0x61] ++ [hash, 0x31, 0x30]] :=
    ⟨by decide, by decide, by decide, by decide⟩
  exact (rspMemoryWriteBin_roundtrip_iff _ _ _ hexNumber_zero hexNumber_one hdelivered).mpr
    ⟨⟨_, [], rfl, by decide⟩, by decide⟩

/-- A `#` for address 0 in one piece: what is written is the `}` of its escape. -/
theorem rspMemoryWriteBin_escaped :
    HexNumber [0x30] (0 : Word).toNat ∧ HexNumber [0x31] [hash].length ∧
      Delivered (writeRequest [0x30] [0x31] [hash]) [0x31, 0x30]
        [writeRequest [0x30] [0x31] [hash] ++ [hash, 0x31, 0x30]] ∧
      ¬WrittenExactly (fun _ => 0) (fun _ => 0) 0 [hash] (writeRequest [0x30] [0x31] [hash])
        [writeRequest [0x30] [0x31] [hash] ++ [hash, 0x31, 0x30]] (fun _ => 0) := by
  have hdelivered : Delivered (writeRequest [0x30] [0x31] [hash]) [0x31, 0x30]
      [writeRequest [0x30] [0x31] [hash] ++ [hash, 0x31, 0x30]] :=
    ⟨by decide, by decide, by decide, by decide⟩
  refine ⟨hexNumber_zero, hexNumber_one, hdelivered, fun hw => ?_⟩
  exact absurd (hw.received hexNumber_zero hexNumber_one hdelivered).2 (by decide)

end RoundTrip

end YardIce.Gdb
