import YardIce.Lib.OnesComplement

/-!
# The Internet checksum

`in_chksum` adds the 16-bit words of a block of memory to a 32-bit sum and folds the
carries. Its loop takes eight words a turn; what is left is added in blocks of four,
two and one words and a last byte.

## Implementation notes

Memory is little-endian. At an even address the words are loaded, at an odd one they
are put together from two bytes. The additions wrap at 32 bits; the specification
`inChksum_eq` says when they do not.
-/

namespace YardIce.Net

open YardIce.Lib

/-- The load of a halfword. -/
def halfword (lo hi : UInt8) : Nat := (hi.toBitVec ++ lo.toBitVec).toNat

/-- `cp[0] + (cp[1] << 8)`. -/
def bytePair (lo hi : UInt8) : Nat := lo.toNat + (hi.toNat <<< 8)

/-- Add the first `k` words. -/
def addWords (word : UInt8 → UInt8 → Nat) : Nat → Nat × List UInt8 → Nat × List UInt8
  | k + 1, (sum, lo :: hi :: data) => addWords word k ((sum + word lo hi) % 2 ^ 32, data)
  | _, r => r

/-- A block of `k` words, where the length allows it. -/
def addBlock (word : UInt8 → UInt8 → Nat) (k : Nat) (r : Nat × List UInt8) : Nat × List UInt8 :=
  if r.2.length ≥ 2 * k then addWords word k r else r

/-- The loop over blocks of eight words; the first argument bounds its turns. -/
def addLoop (word : UInt8 → UInt8 → Nat) : Nat → Nat × List UInt8 → Nat × List UInt8
  | 0, r => r
  | fuel + 1, r => if r.2.length ≥ 16 then addLoop word fuel (addWords word 8 r) else r

/-- `in_chksum` of the bytes at an address. -/
def inChksum (addr sum : Nat) (data : List UInt8) : Nat :=
  let word := if addr % 2 = 0 then halfword else bytePair
  let r := addLoop word data.length (sum, data)
  let r := addBlock word 1 (addBlock word 2 (addBlock word 4 r))
  foldCarry 0xffff <|
    match r.2 with
    | [] => r.1
    | c :: _ => (r.1 + c.toNat) % 2 ^ 32

/-- The sum of the 16-bit words of a block, a last odd byte counting as a word. -/
def wordSum : List UInt8 → Nat
  | lo :: hi :: data => lo.toNat + 256 * hi.toNat + wordSum data
  | [c] => c.toNat
  | [] => 0

theorem halfword_eq (lo hi : UInt8) : halfword lo hi = lo.toNat + 256 * hi.toNat := by
  have hlo := lo.toNat_lt
  simp only [halfword, BitVec.toNat_append, UInt8.toNat_toBitVec]
  rw [← Nat.shiftLeft_add_eq_or_of_lt hlo, Nat.shiftLeft_eq]
  lia

theorem bytePair_eq (lo hi : UInt8) : bytePair lo hi = lo.toNat + 256 * hi.toNat := by
  rw [bytePair, Nat.shiftLeft_eq]
  lia

theorem wordSum_append (xs ys : List UInt8) (h : xs.length % 2 = 0) :
    wordSum (xs ++ ys) = wordSum xs + wordSum ys := by
  induction xs using wordSum.induct with
  | case1 lo hi data ih =>
      have hdata : data.length % 2 = 0 := by
        simp only [List.length_cons] at h
        lia
      simp only [List.cons_append, wordSum, ih hdata, Nat.add_assoc]
  | case2 c => simp at h
  | case3 => simp [wordSum]

theorem wordSum_le (xs : List UInt8) : wordSum xs ≤ 65535 * ((xs.length + 1) / 2) := by
  induction xs using wordSum.induct with
  | case1 lo hi data ih =>
      have hlo := lo.toNat_lt
      have hhi := hi.toNat_lt
      simp only [wordSum, List.length_cons]
      lia
  | case2 c =>
      have hc := c.toNat_lt
      simp only [wordSum, List.length_cons, List.length_nil]
      lia
  | case3 => simp [wordSum]

section Words

variable {word : UInt8 → UInt8 → Nat}

/-- While the sum does not wrap, words move from the block into the sum. -/
theorem addWords_sum (hword : ∀ lo hi, word lo hi = lo.toNat + 256 * hi.toNat) (k : Nat)
    (r : Nat × List UInt8) (h : r.1 + wordSum r.2 < 2 ^ 32) :
    (addWords word k r).1 + wordSum (addWords word k r).2 = r.1 + wordSum r.2 := by
  fun_induction addWords word k r with
  | case1 k sum lo hi data ih =>
      simp only [wordSum] at h ⊢
      have hsum : (sum + word lo hi) % 2 ^ 32 = sum + (lo.toNat + 256 * hi.toNat) := by
        rw [hword]
        exact Nat.mod_eq_of_lt (by lia)
      simp only [hsum] at ih ⊢
      rw [ih (by lia)]
      lia
  | case2 => rfl

theorem addWords_length (word : UInt8 → UInt8 → Nat) (k : Nat) (r : Nat × List UInt8)
    (h : 2 * k ≤ r.2.length) : (addWords word k r).2.length = r.2.length - 2 * k := by
  fun_induction addWords word k r with
  | case1 k sum lo hi data ih =>
      simp only [List.length_cons] at h ih ⊢
      rw [ih (by lia)]
      lia
  | case2 k r hr =>
      rcases k with - | k
      · rfl
      · obtain ⟨sum, data⟩ := r
        rcases data with - | ⟨lo, - | ⟨hi, data⟩⟩
        · simp at h
        · simp at h
          lia
        · exact absurd rfl (hr k sum lo hi data rfl)

theorem addBlock_sum (hword : ∀ lo hi, word lo hi = lo.toNat + 256 * hi.toNat) (k : Nat)
    (r : Nat × List UInt8) (h : r.1 + wordSum r.2 < 2 ^ 32) :
    (addBlock word k r).1 + wordSum (addBlock word k r).2 = r.1 + wordSum r.2 := by
  simp only [addBlock]
  split
  · exact addWords_sum hword k r h
  · rfl

/-- A block leaves less than its own length, if there was not room for two. -/
theorem addBlock_length (word : UInt8 → UInt8 → Nat) (k : Nat) (r : Nat × List UInt8)
    (h : r.2.length < 4 * k) : (addBlock word k r).2.length < 2 * k := by
  simp only [addBlock]
  split
  · next hk =>
    rw [addWords_length word k r hk]
    lia
  · lia

theorem addLoop_sum (hword : ∀ lo hi, word lo hi = lo.toNat + 256 * hi.toNat) (fuel : Nat)
    (r : Nat × List UInt8) (h : r.1 + wordSum r.2 < 2 ^ 32) :
    (addLoop word fuel r).1 + wordSum (addLoop word fuel r).2 = r.1 + wordSum r.2 := by
  induction fuel generalizing r with
  | zero => rfl
  | succ fuel ih =>
      simp only [addLoop]
      split
      · have hblock := addWords_sum hword 8 r h
        rw [ih _ (by lia), hblock]
      · rfl

theorem addLoop_length (word : UInt8 → UInt8 → Nat) (fuel : Nat) (r : Nat × List UInt8)
    (h : r.2.length ≤ fuel) : (addLoop word fuel r).2.length < 16 := by
  induction fuel generalizing r with
  | zero =>
      simp only [addLoop]
      lia
  | succ fuel ih =>
      simp only [addLoop]
      split
      · next hlen =>
        apply ih
        rw [addWords_length word 8 r hlen]
        lia
      · lia

end Words

/-- Without an overflow the checksum is the folded sum of the words. -/
theorem inChksum_eq (addr sum : Nat) (data : List UInt8) (h : sum + wordSum data < 2 ^ 32) :
    inChksum addr sum data = foldCarry 0xffff (sum + wordSum data) := by
  have hword : ∀ lo hi, (if addr % 2 = 0 then halfword else bytePair) lo hi =
      lo.toNat + 256 * hi.toNat := by
    intro lo hi
    split
    · exact halfword_eq lo hi
    · exact bytePair_eq lo hi
  simp only [inChksum]
  generalize (if addr % 2 = 0 then halfword else bytePair) = word at hword ⊢
  have hloop : _ = sum + wordSum data := addLoop_sum hword data.length (sum, data) h
  have hlen := addLoop_length word data.length (sum, data) le_rfl
  generalize addLoop word data.length (sum, data) = r₈ at hloop hlen ⊢
  have h4 := addBlock_sum hword 4 r₈ (by lia)
  have hlen4 := addBlock_length word 4 r₈ hlen
  generalize addBlock word 4 r₈ = r₄ at h4 hlen4 ⊢
  have h2 := addBlock_sum hword 2 r₄ (by lia)
  have hlen2 := addBlock_length word 2 r₄ hlen4
  generalize addBlock word 2 r₄ = r₂ at h2 hlen2 ⊢
  have h1 := addBlock_sum hword 1 r₂ (by lia)
  have hlen1 := addBlock_length word 1 r₂ hlen2
  generalize addBlock word 1 r₂ = r₁ at h1 hlen1 ⊢
  have hsum : r₁.1 + wordSum r₁.2 = sum + wordSum data := by lia
  obtain ⟨acc, rest⟩ := r₁
  simp only at hsum hlen1
  rw [← hsum]
  rcases rest with - | ⟨c, - | ⟨d, rest⟩⟩
  · rfl
  · simp only [wordSum] at hsum ⊢
    rw [Nat.mod_eq_of_lt (by lia)]
  · simp only [List.length_cons] at hlen1
    lia

/-! ## The sum of RFC 1071

`in_chksum` adds the words of the block one after the other, whatever the turns of its
loop, and its last byte as a word of its own. -/

/-- `__sum += word`, in 32 bits. -/
def addWrap (sum w : Nat) : Nat := (sum + w) % 2 ^ 32

/-- What is added for a block, in the order of the additions. -/
def addends (word : UInt8 → UInt8 → Nat) : List UInt8 → List Nat
  | lo :: hi :: data => word lo hi :: addends word data
  | [c] => [c.toNat]
  | [] => []

/-- The way a word is read at an address. -/
def wordAt (addr : Nat) : UInt8 → UInt8 → Nat := if addr % 2 = 0 then halfword else bytePair

theorem wordAt_eq (addr : Nat) (lo hi : UInt8) : wordAt addr lo hi = lo.toNat + 256 * hi.toNat := by
  simp only [wordAt]
  split
  · exact halfword_eq lo hi
  · exact bytePair_eq lo hi

section Additions

variable (word : UInt8 → UInt8 → Nat)

/-- The sum that the additions still to come end with. -/
def finalSum (r : Nat × List UInt8) : Nat := (addends word r.2).foldl addWrap r.1

theorem finalSum_addWords (k : Nat) (r : Nat × List UInt8) :
    finalSum word (addWords word k r) = finalSum word r := by
  fun_induction addWords word k r with
  | case1 k sum lo hi data ih => exact ih
  | case2 => rfl

theorem finalSum_addBlock (k : Nat) (r : Nat × List UInt8) :
    finalSum word (addBlock word k r) = finalSum word r := by
  simp only [addBlock]
  split
  · exact finalSum_addWords word k r
  · rfl

theorem finalSum_addLoop (fuel : Nat) (r : Nat × List UInt8) :
    finalSum word (addLoop word fuel r) = finalSum word r := by
  induction fuel generalizing r with
  | zero => rfl
  | succ fuel ih =>
      simp only [addLoop]
      split
      · rw [ih, finalSum_addWords]
      · rfl

/-- With at most one byte left its addition is the last one. -/
theorem finalSum_tail (r : Nat × List UInt8) (h : r.2.length < 2) :
    finalSum word r = match r.2 with
      | [] => r.1
      | c :: _ => (r.1 + c.toNat) % 2 ^ 32 := by
  obtain ⟨sum, rest⟩ := r
  rcases rest with - | ⟨c, - | ⟨d, rest⟩⟩
  · rfl
  · rfl
  · simp only [List.length_cons] at h
    lia

end Additions

/-- The loop and the blocks after it add every word of the block once, in its order, and the
last byte of an odd block. -/
theorem inChksum_foldl (addr sum : Nat) (data : List UInt8) :
    inChksum addr sum data =
      foldCarry 0xffff ((addends (wordAt addr) data).foldl addWrap sum) := by
  have hlen := addLoop_length (wordAt addr) data.length (sum, data) le_rfl
  have hlen4 := addBlock_length (wordAt addr) 4 _ hlen
  have hlen2 := addBlock_length (wordAt addr) 2 _ hlen4
  have hlen1 := addBlock_length (wordAt addr) 1 _ hlen2
  have hsum := finalSum_tail (wordAt addr) _ hlen1
  rw [finalSum_addBlock, finalSum_addBlock, finalSum_addBlock, finalSum_addLoop] at hsum
  exact congrArg (foldCarry 0xffff) hsum.symm

/-- A part of the additions adds no more than the whole block. -/
theorem sum_take_addends_le (addr k : Nat) (data : List UInt8) :
    ((addends (wordAt addr) data).take k).sum ≤ wordSum data := by
  induction data using wordSum.induct generalizing k with
  | case1 lo hi data ih =>
      cases k with
      | zero => simp
      | succ k =>
          have hrest := ih k
          simp only [addends, List.take_succ_cons, List.sum_cons, wordAt_eq, wordSum]
          lia
  | case2 c =>
      cases k with
      | zero => simp
      | succ k => simp [addends, wordSum]
  | case3 => simp [addends]

/-- A start sum of 17 bits and a block of up to 65535 bytes stay below 32 bits. -/
theorem wordSum_bound {s : Nat} {data : List UInt8} (hs : s < 2 ^ 17) (hlen : data.length ≤ 65535) :
    s + wordSum data < 2 ^ 32 := by
  have hle := wordSum_le data
  have hwords : (data.length + 1) / 2 ≤ 32768 := by lia
  calc s + wordSum data ≤ s + 65535 * ((data.length + 1) / 2) := Nat.add_le_add_left hle s
    _ ≤ s + 65535 * 32768 := Nat.add_le_add_left (Nat.mul_le_mul_left _ hwords) s
    _ < 2 ^ 32 := by lia

/-- A sum may be carried from one block to the next, where the first has an even length. -/
theorem inChksum_append {s : Nat} {a b : List UInt8} (addr addrA addrB : Nat) (ha : a.length % 2 = 0)
    (h : s + wordSum (a ++ b) < 2 ^ 32) :
    inChksum addrB (inChksum addrA s a) b = inChksum addr s (a ++ b) := by
  have hsplit := wordSum_append a b ha
  have hfirst : inChksum addrA s a = foldCarry 0xffff (s + wordSum a) :=
    inChksum_eq addrA s a (by lia)
  have hfold := foldCarry_le_self 0xffff (s + wordSum a)
  rw [hfirst, inChksum_eq addrB _ b (by lia), inChksum_eq addr s (a ++ b) h, hsplit,
    foldCarry_add_left (by decide), Nat.add_assoc]

/-- `in_chksum` is the sum of RFC 1071 at either parity of the address: congruent to the sum
of the words, of 16 bits, reached by additions none of which overflows, and the same in one
call or in two. -/
theorem inChksum_rfc1071 (addr s : Nat) (data : List UInt8) (hs : s < 2 ^ 17)
    (hlen : data.length ≤ 65535) :
    inChksum addr s data ≡ s + wordSum data [MOD 65535] ∧
    inChksum addr s data ≤ 0xffff ∧
    (inChksum addr s data =
        foldCarry 0xffff ((addends (wordAt addr) data).foldl addWrap s) ∧
      ∀ k, s + ((addends (wordAt addr) data).take k).sum < 2 ^ 32) ∧
    ∀ (a b : List UInt8) (addrA addrB : Nat), data = a ++ b → a.length % 2 = 0 →
      inChksum addrB (inChksum addrA s a) b = inChksum addr s data := by
  have hbound := wordSum_bound hs hlen
  have heq := inChksum_eq addr s data hbound
  refine ⟨?_, ?_, ⟨inChksum_foldl addr s data, ?_⟩, ?_⟩
  · rw [heq]
    exact foldCarry_modEq 0xffff _
  · rw [heq]
    exact foldCarry_le (by decide) _
  · intro k
    have hpart := sum_take_addends_le addr k data
    lia
  · rintro a b addrA addrB rfl ha
    exact inChksum_append addr addrA addrB ha hbound

/-- Five bytes at an odd address, carried on from a sum of 17 bits. -/
theorem inChksum_rfc1071_odd :
    inChksum 0x1001 0x1fffe [1, 2, 3, 4, 5] ≡ 0x1fffe + wordSum [1, 2, 3, 4, 5] [MOD 65535] :=
  (inChksum_rfc1071 0x1001 0x1fffe [1, 2, 3, 4, 5] (by decide) (by decide)).1


end YardIce.Net
