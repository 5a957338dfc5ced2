import YardIce.Mbuf.Clients

/-!
# The data of a list of buffers

`mbuf_list_write` and `mbuf_list_read` copy between a block of memory and the buffers of a
chain, whole buffers first and then what is left.

## Implementation notes

The count `rem` of a write is the length of the data that is left, and `src` is that data.
-/

namespace YardIce.MbufPool

open Lib

variable {Q : Type}

/-- The loop of `mbuf_list_write`: `p`, what is left of the data, and the buffers. -/
def listWriteLoop (s : MbufSys Q) : Nat → (Mbuf → Nat → UInt8) → Option Mbuf → List UInt8 →
    Option Mbuf × List UInt8 × (Mbuf → Nat → UInt8)
  | fuel + 1, data, some m, src =>
      if mbufDataSize ≤ src.length then
        listWriteLoop s fuel (writeBytes data m 0 (src.take mbufDataSize)) (s.heap.next (.node m))
          (src.drop mbufDataSize)
      else (some m, src, data)
  | _, data, p, src => (p, src, data)

/-- The end of `mbuf_list_write`: the count of the bytes that were written, and the buffers. -/
def listWriteRest (len : Nat) : Option Mbuf × List UInt8 × (Mbuf → Nat → UInt8) →
    Nat × (Mbuf → Nat → UInt8)
  | (some m, src, data) =>
      if 0 < src.length then (len, writeBytes data m 0 src) else (len - src.length, data)
  | (none, src, data) => (len - src.length, data)

/-- `mbuf_list_write`. -/
def mbufListWrite (s : MbufSys Q) (q : Option Mbuf) (buf : List UInt8) : Nat × MbufSys Q :=
  let r := listWriteRest buf.length (listWriteLoop s buf.length s.data q buf)
  (r.1, { s with data := r.2 })

/-- The loop of `mbuf_list_read`: `p`, `rem` and the bytes that were copied. -/
def listReadLoop (s : MbufSys Q) : Nat → Option Mbuf → Nat → Option Mbuf × Nat × List UInt8
  | fuel + 1, some m, rem =>
      if mbufDataSize ≤ rem then
        let r := listReadLoop s fuel (s.heap.next (.node m)) (rem - mbufDataSize)
        (r.1, r.2.1, readBytes s.data m 0 mbufDataSize ++ r.2.2)
      else (some m, rem, [])
  | _, p, rem => (p, rem, [])

/-- The end of `mbuf_list_read`. -/
def listReadRest (s : MbufSys Q) (len : Nat) : Option Mbuf × Nat × List UInt8 → Nat × List UInt8
  | (some m, rem, out) =>
      if 0 < rem then (len, out ++ readBytes s.data m 0 rem) else (len - rem, out)
  | (none, rem, out) => (len - rem, out)

/-- `mbuf_list_read`: the count and the bytes. -/
def mbufListRead (s : MbufSys Q) (q : Option Mbuf) (len : Nat) : Nat × List UInt8 :=
  listReadRest s len (listReadLoop s len q len)

/-! ## Chains that are long enough -/

section Chains

variable {s : MbufSys Q} {data : Mbuf → Nat → UInt8} {m : Mbuf} {l : List Mbuf} {n : Nat}

theorem readBytes_write (data : Mbuf → Nat → UInt8) (m : Mbuf) (src : List UInt8) :
    readBytes (writeBytes data m 0 src) m 0 src.length = src := by
  refine List.ext_getElem (readBytes_length _ _ _ _) fun i hi hi' => ?_
  simp [readBytes, writeBytes, hi']

theorem writeBytes_other {b : Mbuf} (h : b ≠ m) (src : List UInt8) :
    writeBytes data m n src b = data b := by
  funext i
  simp [writeBytes, h]

/-- The bytes of a chain are those of its first buffer and then of the others. -/
theorem chainBytes_first (data : Mbuf → Nat → UInt8) (m : Mbuf) (l : List Mbuf) {len : Nat}
    (h : mbufDataSize ≤ len) : chainBytes data (m :: l) 0 len =
      readBytes data m 0 mbufDataSize ++ chainBytes data l 0 (len - mbufDataSize) := by
  obtain ⟨k, rfl⟩ := Nat.exists_eq_add_of_le h
  rw [chainBytes_add, chainBytes_head (by omega), Nat.zero_add, chainBytes_cons,
    Nat.add_sub_cancel_left]

theorem readBytes_congr {data' : Mbuf → Nat → UInt8} (h : data' m = data m) (offs n : Nat) :
    readBytes data' m offs n = readBytes data m offs n := by
  unfold readBytes
  rw [h]

theorem listWriteLoop_nil (fuel : Nat) (p : Option Mbuf) :
    listWriteLoop s fuel data p [] = (p, [], data) := by
  cases fuel with
  | zero => rfl
  | succ fuel =>
      cases p with
      | none => rfl
      | some m => rfl

/-- What a write does to a chain with room for the data. -/
theorem listWrite_chain (l : List Mbuf) (hnd : l.Nodup) (data : Mbuf → Nat → UInt8)
    (p : Option Mbuf) (hp : Linked s.heap.next p l) (src : List UInt8) (fuel len : Nat)
    (hroom : src.length ≤ mbufDataSize * l.length) (hfuel : src.length ≤ fuel) :
    ∃ data', listWriteRest len (listWriteLoop s fuel data p src) = (len, data') ∧
      (∀ b ∉ l, data' b = data b) ∧ chainBytes data' l 0 src.length = src := by
  by_cases hnil : src = []
  · subst hnil
    refine ⟨data, ?_, fun b _ => rfl, rfl⟩
    rw [listWriteLoop_nil]
    cases p with
    | none => rfl
    | some m => rfl
  have hpos : 0 < src.length := List.length_pos_iff.mpr hnil
  induction l generalizing data p src fuel with
  | nil =>
      rw [List.length_nil] at hroom
      omega
  | cons m l ih =>
      obtain ⟨rfl, hrest⟩ := hp
      obtain ⟨hm, hnd⟩ := List.nodup_cons.mp hnd
      obtain ⟨fuel, rfl⟩ : ∃ k, fuel = k + 1 := ⟨fuel - 1, by omega⟩
      rw [List.length_cons, Nat.mul_succ] at hroom
      have hother : ∀ b ∉ m :: l, b ≠ m := fun b hb h => hb (h ▸ List.mem_cons_self)
      by_cases hfull : mbufDataSize ≤ src.length
      · have htake : (src.take mbufDataSize).length = mbufDataSize := by
          rw [List.length_take]
          omega
        have hdrop : (src.drop mbufDataSize).length = src.length - mbufDataSize :=
          List.length_drop
        have hsize : 0 < mbufDataSize := by decide
        rw [listWriteLoop, if_pos hfull]
        obtain ⟨data', hrun, hframe, hbytes⟩ :
            ∃ data', listWriteRest len (listWriteLoop s fuel
                (writeBytes data m 0 (src.take mbufDataSize)) (s.heap.next (.node m))
                (src.drop mbufDataSize)) = (len, data') ∧
              (∀ b ∉ l, data' b = writeBytes data m 0 (src.take mbufDataSize) b) ∧
              chainBytes data' l 0 (src.drop mbufDataSize).length = src.drop mbufDataSize := by
          by_cases hend : src.drop mbufDataSize = []
          · rw [hend, listWriteLoop_nil]
            refine ⟨_, ?_, fun b _ => rfl, rfl⟩
            cases s.heap.next (.node m) with
            | none => rfl
            | some m' => rfl
          · exact ih hnd _ _ hrest _ _ (by omega) (by omega) hend (List.length_pos_iff.mpr hend)
        refine ⟨data', hrun, fun b hb => ?_, ?_⟩
        · rw [hframe b fun h => hb (List.mem_cons_of_mem _ h), writeBytes_other (hother b hb)]
        · have hread := readBytes_write data m (src.take mbufDataSize)
          rw [htake] at hread
          rw [chainBytes_first _ _ _ hfull, ← hdrop, hbytes, readBytes_congr (hframe m hm), hread]
          exact List.take_append_drop _ _
      · rw [listWriteLoop, if_neg hfull]
        refine ⟨writeBytes data m 0 src, if_pos hpos,
          fun b hb => writeBytes_other (hother b hb) src, ?_⟩
        rw [chainBytes_head (by omega), readBytes_write]

/-- `mbuf_list_write` into a chain with room stores all the data. -/
theorem mbufListWrite_spec {p : Option Mbuf} (hnd : l.Nodup) (hp : Linked s.heap.next p l)
    (src : List UInt8) (hroom : src.length ≤ mbufDataSize * l.length) :
    ∃ data', mbufListWrite s p src = (src.length, { s with data := data' }) ∧
      (∀ b ∉ l, data' b = s.data b) ∧ chainBytes data' l 0 src.length = src := by
  obtain ⟨data', hrun, hframe, hbytes⟩ :=
    listWrite_chain l hnd s.data p hp src src.length src.length hroom le_rfl
  refine ⟨data', ?_, hframe, hbytes⟩
  rw [mbufListWrite, hrun]

theorem listRead_chain (l : List Mbuf) (p : Option Mbuf) (hp : Linked s.heap.next p l)
    (rem fuel : Nat) (hroom : rem ≤ mbufDataSize * l.length) (hfuel : rem ≤ fuel) :
    ∃ r : Option Mbuf × Nat × List UInt8, listReadLoop s fuel p rem = r ∧
      ∀ len out, listReadRest s len (r.1, r.2.1, out ++ r.2.2) =
        (len, out ++ chainBytes s.data l 0 rem) := by
  induction l generalizing p rem fuel with
  | nil =>
      obtain rfl : p = none := hp
      obtain rfl : rem = 0 := by
        rw [List.length_nil] at hroom
        omega
      refine ⟨(none, 0, []), by cases fuel <;> rfl, fun len out => ?_⟩
      rfl
  | cons m l ih =>
      obtain ⟨rfl, hrest⟩ := hp
      rw [List.length_cons, Nat.mul_succ] at hroom
      have hsize : 0 < mbufDataSize := by decide
      by_cases hfull : mbufDataSize ≤ rem
      · obtain ⟨fuel, rfl⟩ : ∃ k, fuel = k + 1 := ⟨fuel - 1, by omega⟩
        obtain ⟨r, hr, hout⟩ := ih _ hrest (rem - mbufDataSize) fuel (by omega) (by omega)
        refine ⟨(r.1, r.2.1, readBytes s.data m 0 mbufDataSize ++ r.2.2), ?_, fun len out => ?_⟩
        · rw [listReadLoop, if_pos hfull, hr]
        · rw [← List.append_assoc, hout, chainBytes_first _ _ _ hfull, List.append_assoc]
      · refine ⟨(some m, rem, []), ?_, fun len out => ?_⟩
        · cases fuel with
          | zero => rfl
          | succ fuel => rw [listReadLoop, if_neg hfull]
        · rw [chainBytes_head (show 0 + rem ≤ mbufDataSize by omega), List.append_nil, listReadRest]
          rcases Nat.eq_zero_or_pos rem with rfl | hpos
          · exact congrArg (Prod.mk len) (List.append_nil out).symm
          · exact if_pos hpos

/-- `mbuf_list_read` from a chain gives its first bytes. -/
theorem mbufListRead_spec {p : Option Mbuf} (hp : Linked s.heap.next p l) (len : Nat)
    (hroom : len ≤ mbufDataSize * l.length) :
    mbufListRead s p len = (len, chainBytes s.data l 0 len) := by
  obtain ⟨r, hr, hout⟩ := listRead_chain l p hp len len hroom le_rfl
  have hrest := hout len []
  rw [List.nil_append, List.nil_append] at hrest
  rw [mbufListRead, hr, hrest]

end Chains

end YardIce.MbufPool
