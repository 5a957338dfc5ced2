import YardIce.Jtag.TapSetup
import Mathlib.Tactic.IntervalCases

/-!
# Which TAP an IR scan addresses

The tables that the setup leaves, read back as the controller reads them. The scans are
right for a TAP with none before it, an instruction register of at most 32 bits and at
most 24 bits behind it; the tables are apart for every TAP.
-/

namespace YardIce.Jtag

/-! ## Fields -/

theorem descTxAddr_fields (ra ta n : Word) :
    ((((ra &&& 0x7fe) <<< 19) ||| ((ta &&& 0x7fe) <<< 9) ||| (n &&& 0x3ff)) >>> 9) &&& 0x7fe =
      ta &&& 0x7fe := by
  apply BitVec.eq_of_getLsbD_eq
  intro i hi
  interval_cases i <;> simp

theorem descLen_fields (ra ta n : Word) :
    (((ra &&& 0x7fe) <<< 19) ||| ((ta &&& 0x7fe) <<< 9) ||| (n &&& 0x3ff)) &&& 0x3ff =
      n &&& 0x3ff := by
  apply BitVec.eq_of_getLsbD_eq
  intro i hi
  interval_cases i <;> simp

theorem ptrDescAddr_fields (a n : BitVec 16) :
    (((a &&& 0xff) <<< 8) ||| (n &&& 0xff)) >>> 8 = a &&& 0xff := by
  apply BitVec.eq_of_getLsbD_eq
  intro i hi
  interval_cases i <;> simp

theorem ptrDescLen_fields (a n : BitVec 16) :
    (((a &&& 0xff) <<< 8) ||| (n &&& 0xff)) &&& 0xff = n &&& 0xff := by
  apply BitVec.eq_of_getLsbD_eq
  intro i hi
  interval_cases i <;> simp

/-- Addresses of half words keep all their bits in the field. -/
theorem and_0x7fe (k : Nat) : 2 * k &&& 0x7fe = 2 * (k % 1024) := by
  apply Nat.eq_of_testBit_eq
  intro i
  cases i with
  | zero => simp [Nat.testBit_zero]
  | succ i =>
      rw [Nat.testBit_and, Nat.testBit_succ, Nat.testBit_succ, Nat.testBit_succ]
      have h₁ : 2 * k / 2 = k := by omega
      have h₂ : 2 * (k % 1024) / 2 = k % 2 ^ 10 := by omega
      have h₃ : 0x7fe / 2 = 2 ^ 10 - 1 := by decide
      rw [h₁, h₂, h₃, ← Nat.testBit_and, Nat.and_two_pow_sub_one_eq_mod]

theorem descTxAddr_jtagDesc (ra n : Nat) {ta : Nat} (heven : ta % 2 = 0) (hta : ta < 2048) :
    descTxAddr (jtagDesc ra ta n) = ta := by
  rw [descTxAddr, jtagDesc, descTxAddr_fields, BitVec.toNat_and, BitVec.toNat_ofNat,
    Nat.mod_eq_of_lt (by omega)]
  obtain ⟨k, rfl⟩ : ∃ k, ta = 2 * k := ⟨ta / 2, by omega⟩
  exact (and_0x7fe k).trans (by omega)

theorem descLen_jtagDesc (ra ta : Nat) {n : Nat} (hpos : 0 < n) (hn : n ≤ 1024) :
    descLen (jtagDesc ra ta n) = n := by
  have h3ff : (0x3ff : Word).toNat = 2 ^ 10 - 1 := rfl
  have h1 : (1 : Word).toNat = 1 := rfl
  rw [descLen, jtagDesc, descLen_fields, BitVec.toNat_and, h3ff, Nat.and_two_pow_sub_one_eq_mod,
    BitVec.toNat_sub, BitVec.toNat_ofNat, h1]
  omega

theorem ptrDescAddr_jtagPtr {a : Nat} (ha : a < 256) (n : Nat) :
    ptrDescAddr (jtagPtr a n) = a := by
  have hff : (0xff : BitVec 16).toNat = 2 ^ 8 - 1 := rfl
  rw [ptrDescAddr, jtagPtr, ptrDescAddr_fields, BitVec.toNat_and, hff,
    Nat.and_two_pow_sub_one_eq_mod, BitVec.toNat_ofNat]
  omega

theorem ptrDescLen_jtagPtr (a : Nat) {n : Nat} (hpos : 0 < n) (hn : n ≤ 256) :
    ptrDescLen (jtagPtr a n) = n := by
  have hff : (0xff : BitVec 16).toNat = 2 ^ 8 - 1 := rfl
  have h1 : (1 : BitVec 16).toNat = 1 := rfl
  rw [ptrDescLen, jtagPtr, ptrDescLen_fields, BitVec.toNat_and, hff,
    Nat.and_two_pow_sub_one_eq_mod, BitVec.toNat_sub, BitVec.toNat_ofNat, h1]
  omega

/-! ## Memories -/

theorem halves (w : Word) : (w >>> 16).setWidth 16 ++ w.setWidth 16 = w := by
  apply BitVec.eq_of_getLsbD_eq
  intro i hi
  rw [BitVec.getLsbD_append]
  split_ifs with h
  · simp [h]
  · have h' : i - 16 < 16 := by omega
    simp [h', Nat.add_sub_cancel' (Nat.not_lt.mp h)]

theorem descAt_descWr (d : Driver) (pos i : Nat) (w : Word) :
    (d.descWr pos w).descAt i = if i = pos then w else d.descAt i := by
  simp only [Driver.descAt, Driver.descWr]
  split_ifs with h
  · subst h
    rw [Function.update_self, Function.update_of_ne (by omega), Function.update_self]
    exact halves w
  · rw [Function.update_of_ne (by omega), Function.update_of_ne (by omega),
      Function.update_of_ne (by omega), Function.update_of_ne (by omega)]

theorem descAt_vecWr32 (d : Driver) (offs i : Nat) (w : Word) :
    (d.vecWr32 offs w).descAt i = d.descAt i := rfl

theorem descAt_ptrWr (d : Driver) (id i : Nat) (p : BitVec 16) :
    (d.ptrWr id p).descAt i = d.descAt i := rfl

theorem descAt_cursors (d : Driver) (a b i : Nat) :
    Driver.descAt { d with irVecAddr := a, vecDescAddr := b } i = d.descAt i := rfl

/-- A table stays as it is when its pointer and its descriptors do. -/
theorem table_congr {d d' : Driver} {q : Nat} (hptr : d'.ptr q = d.ptr q)
    (hdesc : ∀ i < ptrDescAddr (d.ptr q) + ptrDescLen (d.ptr q), d'.descAt i = d.descAt i) :
    d'.table q = d.table q := by
  rw [Driver.table, Driver.table, hptr]
  apply List.map_congr_left
  intro i hi
  exact hdesc _ (Nat.add_lt_add_left (List.mem_range.mp hi) _)

/-- The first `n` bits of the vector at `addr` are those of `f`. -/
def Driver.Shows (d : Driver) (addr n : Nat) (f : Nat → Bool) : Prop :=
  ∀ k < n, (d.vec (addr / 2 + k / 16)).getLsbD (k % 16) = f k

theorem Driver.Shows.bits {d : Driver} {addr n : Nat} {f : Nat → Bool} (h : d.Shows addr n f) :
    d.bits addr n = (List.range n).map f :=
  List.map_congr_left fun k hk => h k (List.mem_range.mp hk)

theorem vecWr32_shows (d : Driver) (addr : Nat) (v : Word) {n : Nat} (hn : n ≤ 32) :
    (d.vecWr32 addr v).Shows addr n v.getLsbD := by
  intro k hk
  simp only [Driver.vecWr32]
  rcases Nat.lt_or_ge k 16 with hlow | hhigh
  · have hhw : addr / 2 + k / 16 = addr / 2 := by omega
    have hbit : k % 16 = k := Nat.mod_eq_of_lt hlow
    rw [hhw, hbit, Function.update_of_ne (by omega), Function.update_self]
    simp [hlow]
  · have hhw : addr / 2 + k / 16 = addr / 2 + 1 := by omega
    have hbit : k % 16 < 16 := Nat.mod_lt k (by decide)
    have hk' : 16 + k % 16 = k := by omega
    rw [hhw, Function.update_self]
    simp [hbit, hk']

theorem vecWr32_vec_lt (d : Driver) (addr : Nat) (v : Word) {j : Nat} (hj : j < addr / 2) :
    (d.vecWr32 addr v).vec j = d.vec j := by
  simp only [Driver.vecWr32]
  rw [Function.update_of_ne (by omega), Function.update_of_ne (by omega)]

theorem vecWr32_vec_gt (d : Driver) (addr : Nat) (v : Word) {j : Nat} (hj : addr / 2 + 1 < j) :
    (d.vecWr32 addr v).vec j = d.vec j := by
  simp only [Driver.vecWr32]
  rw [Function.update_of_ne (by omega), Function.update_of_ne (by omega)]

theorem Driver.Shows.congr {d d' : Driver} {addr n : Nat} {f : Nat → Bool}
    (h : d.Shows addr n f)
    (hvec : ∀ j < addr / 2 + (n + 15) / 16, d'.vec j = d.vec j) : d'.Shows addr n f :=
  fun k hk => by rw [hvec _ (by omega), h k hk]

theorem vecFill_vec_lt (v : Word) (n : Nat) : ∀ (d : Driver) (addr : Nat) {j : Nat},
    j < addr / 2 → (d.vecFill addr v n).vec j = d.vec j := by
  induction n with
  | zero => exact fun _ _ _ _ => rfl
  | succ n ih =>
      intro d addr j hj
      rw [Driver.vecFill, ih _ _ (by omega), vecWr32_vec_lt _ _ _ hj]

theorem vecFill_vec_ge (v : Word) (n : Nat) : ∀ (d : Driver) (addr : Nat) {j : Nat},
    addr / 2 + 2 * n ≤ j → (d.vecFill addr v n).vec j = d.vec j := by
  induction n with
  | zero => exact fun _ _ _ _ => rfl
  | succ n ih =>
      intro d addr j hj
      rw [Driver.vecFill, ih _ _ (by omega), vecWr32_vec_gt _ _ _ (by omega)]

theorem vecFill_desc (v : Word) (n : Nat) : ∀ (d : Driver) (addr : Nat),
    (d.vecFill addr v n).desc = d.desc ∧ (d.vecFill addr v n).ptr = d.ptr ∧
      (d.vecFill addr v n).irVecAddr = d.irVecAddr ∧
        (d.vecFill addr v n).vecDescAddr = d.vecDescAddr := by
  induction n with
  | zero => exact fun _ _ => ⟨rfl, rfl, rfl, rfl⟩
  | succ n ih => exact fun d addr => ih (d.vecWr32 addr v) (addr + 4)

/-! ## The tables of the instructions -/

section IrVecAdd

variable (d : Driver) (tap : Tap) (p : Nat) (v : Word)

theorem irVecAdd_vec : (d.irVecAdd tap p v).vec = (d.vecWr32 d.irVecAddr v).vec := by
  simp only [Driver.irVecAdd]
  split_ifs <;> rfl

theorem irVecAdd_irVecAddr :
    (d.irVecAdd tap p v).irVecAddr = d.irVecAddr + (tap.irlen.toNat + 7) / 8 * 2 := rfl

/-- The number of descriptors in the table of an instruction. -/
def Tap.irTabLen (tap : Tap) : Nat :=
  1 + (if 0 < tap.preirlen.toNat then 1 else 0) + (if 0 < tap.posirlen.toNat then 1 else 0)

theorem irTabLen_bounds : 0 < tap.irTabLen ∧ tap.irTabLen ≤ 3 := by
  unfold Tap.irTabLen
  split_ifs <;> omega

theorem irVecAdd_ptr : (d.irVecAdd tap p v).ptr =
    Function.update d.ptr p (jtagPtr d.vecDescAddr tap.irTabLen) := by
  simp only [Driver.irVecAdd]
  split_ifs <;> simp [Driver.ptrWr, Driver.descWr, Driver.vecWr32, Tap.irTabLen, *]

/-- The cursor passes the table, and one descriptor more if bits follow. -/
theorem irVecAdd_vecDescAddr : (d.irVecAdd tap p v).vecDescAddr =
    d.vecDescAddr + tap.irTabLen + (if 0 < tap.posirlen.toNat then 1 else 0) := by
  simp only [Driver.irVecAdd, Tap.irTabLen]
  split_ifs <;> omega

/-- Descriptors below both cursors are kept. -/
theorem irVecAdd_descAt {i : Nat} (hi : i < d.vecDescAddr) (hv : i < d.irVecAddr) :
    (d.irVecAdd tap p v).descAt i = d.descAt i := by
  simp only [Driver.irVecAdd, descAt_cursors, descAt_ptrWr]
  split_ifs <;>
    simp (disch := omega) only [descAt_descWr, descAt_vecWr32, if_neg]

/-- The table of an instruction, when there is nothing before the TAP. -/
theorem irVecAdd_table (hpre : tap.preirlen = 0) (hd : d.vecDescAddr < 256) :
    (d.irVecAdd tap p v).table p =
      jtagDesc vecIrResult d.irVecAddr tap.irlen.toNat ::
        (if 0 < tap.posirlen.toNat then [jtagDesc vecDiscard vecOnes tap.posirlen.toNat]
          else []) := by
  have hlen := irTabLen_bounds tap
  have hpre' : tap.preirlen.toNat = 0 := by rw [hpre]; rfl
  rw [Driver.table, irVecAdd_ptr, Function.update_self, ptrDescAddr_jtagPtr hd,
    ptrDescLen_jtagPtr _ hlen.1 (by omega)]
  simp only [Driver.irVecAdd, descAt_cursors, descAt_ptrWr, Tap.irTabLen, hpre', Nat.lt_irrefl,
    if_false, Nat.add_zero]
  split_ifs with hpos
  · simp [List.range_succ, descAt_descWr]
  · simp [descAt_descWr]

end IrVecAdd

/-! ## Adding tables -/

/-- `d'` has one table more than `d`, of `n` descriptors from the cursor, which `p` designates. -/
structure Adds (d d' : Driver) (p n : Nat) : Prop where
  ptr : d'.ptr = Function.update d.ptr p (jtagPtr d.vecDescAddr n)
  nonempty : 0 < n
  fits : d.vecDescAddr + n ≤ d'.vecDescAddr
  near : d'.vecDescAddr ≤ d.vecDescAddr + 4
  kept : ∀ i < d.vecDescAddr, d'.descAt i = d.descAt i

/-- The tables of the pointers `1` to `m` come one after the other below the cursor. -/
structure Laid (d : Driver) (m : Nat) : Prop where
  below : ∀ p, 1 ≤ p → p ≤ m → ptrDescAddr (d.ptr p) + ptrDescLen (d.ptr p) ≤ d.vecDescAddr
  sorted : ∀ p q, 1 ≤ p → p < q → q ≤ m →
    ptrDescAddr (d.ptr p) + ptrDescLen (d.ptr p) ≤ ptrDescAddr (d.ptr q)

namespace Adds

variable {d d' : Driver} {p q m n : Nat}

theorem addr (h : Adds d d' p n) (hd : d.vecDescAddr < 252) :
    ptrDescAddr (d'.ptr p) = d.vecDescAddr := by
  rw [h.ptr, Function.update_self, ptrDescAddr_jtagPtr (by omega)]

theorem len (h : Adds d d' p n) : ptrDescLen (d'.ptr p) = n := by
  have hfits := h.fits
  have hnear := h.near
  rw [h.ptr, Function.update_self, ptrDescLen_jtagPtr _ h.nonempty (by omega)]

theorem ptr_other (h : Adds d d' p n) (hq : q ≠ p) : d'.ptr q = d.ptr q := by
  rw [h.ptr, Function.update_of_ne hq]

theorem laid (h : Adds d d' (m + 1) n) (hd : d.vecDescAddr < 252) (hl : Laid d m) :
    Laid d' (m + 1) := by
  have hfits := h.fits
  have haddr := h.addr hd
  have hlen := h.len
  refine ⟨fun q hq hqm => ?_, fun q r hq hqr hrm => ?_⟩
  · rcases Nat.lt_or_ge m q with hlast | hold
    · obtain rfl : q = m + 1 := by omega
      omega
    · have hbelow := hl.below q hq hold
      rw [h.ptr_other (by omega)]
      omega
  · rcases Nat.lt_or_ge m r with hlast | hold
    · obtain rfl : r = m + 1 := by omega
      have hbelow := hl.below q hq (by omega)
      rw [haddr, h.ptr_other (q := q) (by omega)]
      exact hbelow
    · rw [h.ptr_other (q := q) (by omega), h.ptr_other (q := r) (by omega)]
      exact hl.sorted q r hq hqr hold

/-- The tables that are there stay. -/
theorem table_kept (h : Adds d d' (m + 1) n) (hl : Laid d m) (hq : 1 ≤ q) (hqm : q ≤ m) :
    d'.table q = d.table q := by
  have hbelow := hl.below q hq hqm
  exact table_congr (h.ptr_other (by omega)) fun i hi => h.kept i (by omega)

end Adds

theorem irVecAdd_adds (d : Driver) (tap : Tap) (p : Nat) (v : Word)
    (h : d.vecDescAddr ≤ d.irVecAddr) : Adds d (d.irVecAdd tap p v) p tap.irTabLen where
  ptr := irVecAdd_ptr d tap p v
  nonempty := (irTabLen_bounds tap).1
  fits := by rw [irVecAdd_vecDescAddr]; omega
  near := by
    have hlen := irTabLen_bounds tap
    rw [irVecAdd_vecDescAddr]
    split_ifs <;> omega
  kept i hi := irVecAdd_descAt d tap p v hi (by omega)

theorem descWrAll_spec (ws : List Word) : ∀ (d : Driver) (pos : Nat),
    (d.descWrAll pos ws).ptr = d.ptr ∧ (d.descWrAll pos ws).vec = d.vec ∧
      ∀ i < pos, (d.descWrAll pos ws).descAt i = d.descAt i := by
  induction ws with
  | nil => exact fun _ _ => ⟨rfl, rfl, fun _ _ => rfl⟩
  | cons w ws ih =>
      intro d pos
      obtain ⟨hptr, hvec, hdesc⟩ := ih (d.descWr pos w) (pos + 1)
      refine ⟨hptr, hvec, fun i hi => ?_⟩
      rw [Driver.descWrAll, hdesc i (by omega), descAt_descWr, if_neg (by omega)]

theorem descTabInsert_adds (d : Driver) (p : Nat) (ws : List Word) (hpos : 0 < ws.length)
    (hlen : ws.length ≤ 4) :
    Adds d (d.descTabInsert ⟨p, d.vecDescAddr, ws⟩) p ws.length := by
  obtain ⟨hptr, -, hdesc⟩ := descWrAll_spec ws d d.vecDescAddr
  refine ⟨?_, hpos, Nat.le_refl _, Nat.add_le_add_left hlen _, hdesc⟩
  simp only [Driver.descTabInsert, Driver.ptrWr]
  rw [hptr]

theorem descAdd_length (tab : DescTab) (ra ta n : Nat) : ∃ ws : List Word, ws.length ≤ 1 ∧
    descAdd tab ra ta n = ⟨tab.ptrAddr, tab.tabAddr, tab.desc ++ ws⟩ := by
  unfold descAdd
  split_ifs
  · exact ⟨[jtagDesc ra ta n], Nat.le_refl 1, rfl⟩
  · exact ⟨[], Nat.zero_le 1, by rw [List.append_nil]⟩

theorem descAdd_foldl (scan : List (Nat × Nat × Nat)) : ∀ tab : DescTab,
    (∀ v ∈ scan, 0 < v.2.2) →
      scan.foldl (fun tab v => descAdd tab v.1 v.2.1 v.2.2) tab =
        ⟨tab.ptrAddr, tab.tabAddr, tab.desc ++ scan.map fun v => jtagDesc v.1 v.2.1 v.2.2⟩ := by
  induction scan with
  | nil => exact fun tab _ => by rw [List.map_nil, List.append_nil]; rfl
  | cons v scan ih =>
      intro tab hlen
      rw [List.foldl_cons, ih _ fun w hw => hlen w (List.mem_cons_of_mem v hw), descAdd,
        if_pos (hlen v List.mem_cons_self), List.map_cons, List.append_assoc]
      rfl

theorem drTable_adds (d : Driver) (tap : Tap) (p : Nat) (scan : List (Nat × Nat × Nat))
    (hscan : ∀ v ∈ scan, 0 < v.2.2) (hpos : 0 < scan.length) (hlen : scan.length ≤ 2) :
    (∃ n, Adds d (d.drTable tap p scan) p n) ∧ (d.drTable tap p scan).vec = d.vec := by
  obtain ⟨pre, hpre, heq⟩ :=
    descAdd_length (d.descTabNew p) vecDiscard vecZeros tap.precnt.toNat
  simp only [Driver.drTable]
  rw [heq, descAdd_foldl scan _ hscan]
  obtain ⟨post, hpost, heq'⟩ := descAdd_length
    ⟨p, d.vecDescAddr, pre ++ scan.map fun v => jtagDesc v.1 v.2.1 v.2.2⟩
    vecDiscard vecZeros tap.poscnt.toNat
  have htab : (d.descTabNew p).desc ++ pre = pre := rfl
  rw [htab]
  simp only [Driver.descTabNew]
  rw [heq']
  refine ⟨⟨_, descTabInsert_adds d p _ ?_ ?_⟩, ?_⟩
  · simp only [List.length_append, List.length_map]
    omega
  · simp only [List.length_append, List.length_map]
    omega
  · exact (descWrAll_spec _ d d.vecDescAddr).2.1

/-! ## The setup -/

/-- The controller before the tables are written. -/
def Driver.filled (d : Driver) : Driver :=
  (Driver.vecFill { d with irVecAddr := irVectorsBaseAddr, vecDescAddr := 1 }
    vecOnes 0xffffff (vecOnesLen / 4)).vecFill vecZeros 0 (vecZerosLen / 4)

section Setup

variable (d : Driver) (tap : Tap)

/-- The distance of the vectors of two instructions. -/
def Tap.irVecLen (tap : Tap) : Nat := (tap.irlen.toNat + 7) / 8 * 2

theorem filled_desc (i : Nat) : d.filled.descAt i = d.descAt i := by
  have h₁ := vecFill_desc 0xffffff (vecOnesLen / 4)
    { d with irVecAddr := irVectorsBaseAddr, vecDescAddr := 1 } vecOnes
  have h₂ := vecFill_desc 0 (vecZerosLen / 4) (Driver.vecFill
    { d with irVecAddr := irVectorsBaseAddr, vecDescAddr := 1 } vecOnes 0xffffff
      (vecOnesLen / 4)) vecZeros
  rw [Driver.descAt, Driver.descAt, Driver.filled, h₂.1, h₁.1]

theorem filled_cursors : d.filled.irVecAddr = 768 ∧ d.filled.vecDescAddr = 1 := by
  have h₁ := vecFill_desc 0xffffff (vecOnesLen / 4)
    { d with irVecAddr := irVectorsBaseAddr, vecDescAddr := 1 } vecOnes
  have h₂ := vecFill_desc 0 (vecZerosLen / 4) (Driver.vecFill
    { d with irVecAddr := irVectorsBaseAddr, vecDescAddr := 1 } vecOnes 0xffffff
      (vecOnesLen / 4)) vecZeros
  exact ⟨h₂.2.2.1.trans h₁.2.2.1, h₂.2.2.2.trans h₁.2.2.2⟩

theorem filled_vec {j : Nat} (hj : j < 128 ∨ 384 ≤ j) : d.filled.vec j = d.vec j := by
  rw [Driver.filled]
  rcases hj with hlow | hhigh
  · rw [vecFill_vec_lt _ _ _ _ (Nat.lt_of_lt_of_le hlow (by decide)),
      vecFill_vec_lt _ _ _ _ (Nat.lt_of_lt_of_le hlow (by decide))]
  · rw [vecFill_vec_ge _ _ _ _ (Nat.le_trans (by decide) hhigh),
      vecFill_vec_ge _ _ _ _ (Nat.le_trans (by decide) hhigh)]

/-- The word of the vector of ones. -/
theorem filled_ones {n : Nat} (hn : n ≤ 32) :
    d.filled.Shows vecOnes n (0xffffff : Word).getLsbD := by
  have hfirst := vecWr32_shows { d with irVecAddr := irVectorsBaseAddr, vecDescAddr := 1 }
    vecOnes 0xffffff hn
  refine hfirst.congr fun j hj => ?_
  have hlt : j < 130 := Nat.lt_of_lt_of_le hj (by unfold vecOnes; omega)
  rw [Driver.filled, vecFill_vec_lt _ _ _ _ (Nat.lt_of_lt_of_le hlt (by decide))]
  exact vecFill_vec_lt _ 63 _ _ hlt

/-- The controller with the table of the first instruction, of the first two, and of all. -/
def Driver.abortAdded : Driver := d.filled.irVecAdd tap adiIrAbort jtagAdiIrAbort

/-- The controller with the tables of two instructions. -/
def Driver.dpaccAdded : Driver :=
  (d.abortAdded tap).irVecAdd tap adiIrDpacc jtagAdiIrDpacc

/-- The controller with the tables of the three instructions. -/
def Driver.apaccAdded : Driver :=
  (d.dpaccAdded tap).irVecAdd tap adiIrApacc jtagAdiIrApacc

theorem abortAdded_irVecAddr : (d.abortAdded tap).irVecAddr = 768 + tap.irVecLen := by
  rw [Driver.abortAdded, irVecAdd_irVecAddr, (filled_cursors d).1]
  rfl

theorem dpaccAdded_irVecAddr : (d.dpaccAdded tap).irVecAddr = 768 + 2 * tap.irVecLen := by
  rw [Driver.dpaccAdded, irVecAdd_irVecAddr, abortAdded_irVecAddr, Tap.irVecLen]
  omega

/-- The tables of the instructions, one by one. -/
theorem ir_adds :
    Adds d.filled (d.abortAdded tap) 1 tap.irTabLen ∧
      Adds (d.abortAdded tap) (d.dpaccAdded tap) 2 tap.irTabLen ∧
        Adds (d.dpaccAdded tap) (d.apaccAdded tap) 3 tap.irTabLen := by
  obtain ⟨hir₀, hcur₀⟩ := filled_cursors d
  have h₁ := irVecAdd_adds d.filled tap adiIrAbort jtagAdiIrAbort (by omega)
  have hcur₁ : (d.abortAdded tap).vecDescAddr ≤ d.filled.vecDescAddr + 4 := h₁.near
  have hir₁ := abortAdded_irVecAddr d tap
  have h₂ := irVecAdd_adds (d.abortAdded tap) tap adiIrDpacc jtagAdiIrDpacc (by omega)
  have hcur₂ : (d.dpaccAdded tap).vecDescAddr ≤ (d.abortAdded tap).vecDescAddr + 4 := h₂.near
  have hir₂ := dpaccAdded_irVecAddr d tap
  exact ⟨h₁, h₂, irVecAdd_adds (d.dpaccAdded tap) tap adiIrApacc jtagAdiIrApacc (by omega)⟩

end Setup

/-- What one table of the DR scans leaves as it is. -/
structure DrKeeps (e e' : Driver) (m : Nat) : Prop where
  laid : Laid e' (m + 1)
  near : e'.vecDescAddr ≤ e.vecDescAddr + 4
  table : ∀ q, 1 ≤ q → q ≤ m → e'.table q = e.table q
  vec : e'.vec = e.vec

theorem drTable_keeps (e : Driver) (tap : Tap) {m : Nat} (hl : Laid e m)
    (hcur : e.vecDescAddr < 252) (scan : List (Nat × Nat × Nat))
    (hscan : ∀ v ∈ scan, 0 < v.2.2) (hpos : 0 < scan.length) (hlen : scan.length ≤ 2) :
    DrKeeps e (e.drTable tap (m + 1) scan) m := by
  obtain ⟨⟨n, h⟩, hvec⟩ := drTable_adds e tap (m + 1) scan hscan hpos hlen
  exact ⟨h.laid hcur hl, h.near, fun q hq hqm => h.table_kept hl hq hqm, hvec⟩

/-- What the tables of the DR scans leave as it is. -/
theorem drSetup_spec (tap : Tap) (e : Driver) (hl : Laid e 3) (hcur : e.vecDescAddr < 200) :
    Laid (e.drSetup tap) 6 ∧ (∀ q, 1 ≤ q → q ≤ 3 → (e.drSetup tap).table q = e.table q) ∧
      ∀ j < 400, (e.drSetup tap).vec j = e.vec j := by
  have h₁ : DrKeeps e (e.drTable tap adiDrDpacc _) 3 := drTable_keeps e tap hl (by omega)
    [(vecApaccAddr, vecDpaccAddr, 3), (vecDpaccData, vecDpaccData, 32)]
    (by decide) (by decide) (by decide)
  have hnear₁ := h₁.near
  have h₂ : DrKeeps _ (Driver.drTable _ tap adiDrApacc _) 4 :=
    drTable_keeps _ tap h₁.laid (by omega)
    [(vecApaccAddr, vecApaccAddr, 3), (vecApaccData, vecApaccData, 32)]
    (by decide) (by decide) (by decide)
  have hnear₂ := h₂.near
  have h₃ : DrKeeps _ (Driver.drTable _ tap adiDrAbort _) 5 :=
    drTable_keeps _ tap h₂.laid (by omega)
    [(vecAbort, vecAbort, 35)] (by decide) (by decide) (by decide)
  refine ⟨⟨h₃.laid.below, h₃.laid.sorted⟩, fun q hq hqm => ?_, fun j hj => ?_⟩
  · exact (h₃.table q hq (by omega)).trans
      ((h₂.table q hq (by omega)).trans (h₁.table q hq hqm))
  · have hvec := h₃.vec.trans (h₂.vec.trans h₁.vec)
    rw [← hvec]
    exact (vecWr32_vec_lt _ (vecAbort + 4) 0 (Nat.lt_trans hj (by decide))).trans
      (vecWr32_vec_lt _ vecAbort 8 hj)

/-! ## The whole setup -/

section Whole

variable (d : Driver) (tap : Tap)

theorem ir_laid : Laid (d.abortAdded tap) 1 ∧ Laid (d.dpaccAdded tap) 2 ∧
    Laid (d.apaccAdded tap) 3 ∧ (d.apaccAdded tap).vecDescAddr < 200 := by
  obtain ⟨h₁, h₂, h₃⟩ := ir_adds d tap
  have hcur := (filled_cursors d).2
  have hnear₁ := h₁.near
  have hnear₂ := h₂.near
  have hnear₃ := h₃.near
  have hl₀ : Laid d.filled 0 := ⟨fun p hp hp0 => by omega, fun p q hp hpq hq => by omega⟩
  have hl₁ := h₁.laid (m := 0) (by omega) hl₀
  have hl₂ := h₂.laid (m := 1) (by omega) hl₁
  exact ⟨hl₁, hl₂, h₃.laid (m := 2) (by omega) hl₂, by omega⟩

/-- The tables of the six pointers are apart, whatever the TAP. -/
theorem setup_laid : Laid (d.jtagAdiTapSetup tap) 6 := by
  obtain ⟨-, -, hl, hcur⟩ := ir_laid d tap
  exact (drSetup_spec tap _ hl hcur).1

theorem setup_vec {j : Nat} (hj : j < 400) :
    (d.jtagAdiTapSetup tap).vec j = (d.apaccAdded tap).vec j := by
  obtain ⟨-, -, hl, hcur⟩ := ir_laid d tap
  exact (drSetup_spec tap _ hl hcur).2.2 j hj

theorem setup_table :
    (d.jtagAdiTapSetup tap).table adiIrAbort = (d.abortAdded tap).table adiIrAbort ∧
      (d.jtagAdiTapSetup tap).table adiIrDpacc = (d.dpaccAdded tap).table adiIrDpacc ∧
      (d.jtagAdiTapSetup tap).table adiIrApacc = (d.apaccAdded tap).table adiIrApacc := by
  obtain ⟨-, h₂, h₃⟩ := ir_adds d tap
  obtain ⟨hl₁, hl₂, hl₃, hcur⟩ := ir_laid d tap
  have hdr := (drSetup_spec tap _ hl₃ hcur).2.1
  refine ⟨?_, ?_, hdr 3 (by decide) (by decide)⟩
  · exact (hdr 1 (by decide) (by decide)).trans
      ((h₃.table_kept (m := 2) hl₂ (by decide) (by decide)).trans
        (h₂.table_kept (m := 1) hl₁ (by decide) (by decide)))
  · exact (hdr 2 (by decide) (by decide)).trans
      (h₃.table_kept (m := 2) hl₂ (by decide) (by decide))

/-- Half words of the vectors that no instruction is written to. -/
theorem apaccAdded_vec {j : Nat} (hj : j < 384) :
    (d.apaccAdded tap).vec j = d.filled.vec j := by
  have hir₀ := (filled_cursors d).1
  have hir₁ := abortAdded_irVecAddr d tap
  have hir₂ := dpaccAdded_irVecAddr d tap
  rw [Driver.apaccAdded, irVecAdd_vec, vecWr32_vec_lt _ _ _ (by omega), Driver.dpaccAdded,
    irVecAdd_vec, vecWr32_vec_lt _ _ _ (by omega), Driver.abortAdded, irVecAdd_vec,
    vecWr32_vec_lt _ _ _ (by omega)]

/-- The vector of ones has 24 of them. -/
theorem setup_ones {n : Nat} (hn : n ≤ 32) :
    (d.jtagAdiTapSetup tap).Shows vecOnes n (0xffffff : Word).getLsbD := by
  refine (filled_ones d hn).congr fun j hj => ?_
  have hlt : j < 130 := Nat.lt_of_lt_of_le hj (by unfold vecOnes; omega)
  rw [setup_vec d tap (by omega), apaccAdded_vec d tap (by omega)]

theorem irVecLen_bounds : tap.irVecLen % 2 = 0 ∧ tap.irVecLen ≤ 64 ∧
    2 * ((tap.irlen.toNat + 15) / 16) ≤ tap.irVecLen + 1 := by
  have hir := tap.irlen.isLt
  unfold Tap.irVecLen
  omega

/-- The scan of a table that begins with the instruction. -/
theorem scan_of_table {e : Driver} {p a : Nat} (hir : 0 < tap.irlen.toNat) (ha : a % 2 = 0)
    (ha' : a < 2048)
    (h : e.table p = jtagDesc vecIrResult a tap.irlen.toNat ::
      (if 0 < tap.posirlen.toNat then [jtagDesc vecDiscard vecOnes tap.posirlen.toNat]
        else [])) :
    e.scan p = e.bits a tap.irlen.toNat ++ e.bits vecOnes tap.posirlen.toNat := by
  have hir' := tap.irlen.isLt
  have hpos' := tap.posirlen.isLt
  rw [Driver.scan, h, List.flatMap_cons, Driver.shift, descTxAddr_jtagDesc _ _ ha ha',
    descLen_jtagDesc _ _ hir (by omega)]
  congr 1
  split_ifs with hpos
  · rw [List.flatMap_singleton, Driver.shift, descTxAddr_jtagDesc _ _ (by decide) (by decide),
      descLen_jtagDesc _ _ hpos (by omega)]
  · have h0 : tap.posirlen.toNat = 0 := by omega
    rw [h0]
    rfl

/-- The scans of a TAP with none before it. -/
theorem setup_scan (hpre : tap.preirlen = 0) (hir : 0 < tap.irlen.toNat) :
    let e := d.jtagAdiTapSetup tap
    e.scan adiIrAbort = e.bits 768 tap.irlen.toNat ++ e.bits vecOnes tap.posirlen.toNat ∧
      e.scan adiIrDpacc =
        e.bits (768 + tap.irVecLen) tap.irlen.toNat ++ e.bits vecOnes tap.posirlen.toNat ∧
      e.scan adiIrApacc =
        e.bits (768 + 2 * tap.irVecLen) tap.irlen.toNat ++
          e.bits vecOnes tap.posirlen.toNat := by
  obtain ⟨htab₁, htab₂, htab₃⟩ := setup_table d tap
  obtain ⟨h₁, h₂, h₃⟩ := ir_adds d tap
  have hcur := (filled_cursors d).2
  have hlen := irVecLen_bounds tap
  have hnear₁ := h₁.near
  have hnear₂ := h₂.near
  refine ⟨scan_of_table tap hir (by decide) (by decide) ?_,
    scan_of_table tap hir (by omega) (by omega) ?_,
    scan_of_table tap hir (by omega) (by omega) ?_⟩
  · rw [htab₁, Driver.abortAdded, irVecAdd_table _ _ _ _ hpre (by omega), (filled_cursors d).1]
  · rw [htab₂, Driver.dpaccAdded, irVecAdd_table _ _ _ _ hpre (by omega),
      abortAdded_irVecAddr]
  · rw [htab₃, Driver.apaccAdded, irVecAdd_table _ _ _ _ hpre (by omega),
      dpaccAdded_irVecAddr]

/-- The vectors of the instructions hold them. -/
theorem setup_insns (hir : 0 < tap.irlen.toNat) (hir' : tap.irlen.toNat ≤ 32) :
    let e := d.jtagAdiTapSetup tap
    e.Shows 768 tap.irlen.toNat jtagAdiIrAbort.getLsbD ∧
      e.Shows (768 + tap.irVecLen) tap.irlen.toNat jtagAdiIrDpacc.getLsbD ∧
      e.Shows (768 + 2 * tap.irVecLen) tap.irlen.toNat jtagAdiIrApacc.getLsbD := by
  have hlen := irVecLen_bounds tap
  have hir₀ := (filled_cursors d).1
  have hir₁ := abortAdded_irVecAddr d tap
  have hir₂ := dpaccAdded_irVecAddr d tap
  have hpos : 2 ≤ tap.irVecLen := by unfold Tap.irVecLen; omega
  have hshort : tap.irVecLen ≤ 8 := by unfold Tap.irVecLen; omega
  have hlast : ∀ j < 400, (d.jtagAdiTapSetup tap).vec j = (d.apaccAdded tap).vec j :=
    fun j hj => setup_vec d tap hj
  -- what comes after an instruction is written past the bits of it that are shifted
  have hkeep₃ : ∀ j < 384 + tap.irVecLen, (d.apaccAdded tap).vec j = (d.dpaccAdded tap).vec j :=
    fun j hj => by
      rw [Driver.apaccAdded, irVecAdd_vec, vecWr32_vec_lt _ _ _ (by omega)]
  have hkeep₂ : ∀ j < 384 + tap.irVecLen / 2,
      (d.dpaccAdded tap).vec j = (d.abortAdded tap).vec j := fun j hj => by
    rw [Driver.dpaccAdded, irVecAdd_vec, vecWr32_vec_lt _ _ _ (by omega)]
  refine ⟨?_, ?_, ?_⟩
  · have h := vecWr32_shows d.filled 768 jtagAdiIrAbort hir'
    refine h.congr fun j hj => ?_
    rw [hlast j (by omega), hkeep₃ j (by omega), hkeep₂ j (by omega), Driver.abortAdded,
      irVecAdd_vec, hir₀]
  · have h := vecWr32_shows (d.abortAdded tap) (768 + tap.irVecLen) jtagAdiIrDpacc hir'
    refine h.congr fun j hj => ?_
    rw [hlast j (by omega), hkeep₃ j (by omega), Driver.dpaccAdded, irVecAdd_vec, hir₁]
  · have h := vecWr32_shows (d.dpaccAdded tap) (768 + 2 * tap.irVecLen) jtagAdiIrApacc hir'
    refine h.congr fun j hj => ?_
    rw [hlast j (by omega), Driver.apaccAdded, irVecAdd_vec, hir₂]

/-- The descriptor before that of the instruction is what the memory held. -/
theorem setup_scan_behind (hpre : 0 < tap.preirlen.toNat) :
    ∃ l, (d.jtagAdiTapSetup tap).scan adiIrAbort =
      (d.jtagAdiTapSetup tap).shift (d.descAt 1) ++ l := by
  obtain ⟨h₁, -, -⟩ := ir_adds d tap
  have hcur := (filled_cursors d).2
  have hir := (filled_cursors d).1
  obtain ⟨m, hm⟩ : ∃ m, tap.irTabLen = m + 1 := ⟨tap.irTabLen - 1, by
    have hlen := irTabLen_bounds tap
    omega⟩
  have haddr : ptrDescAddr ((d.abortAdded tap).ptr adiIrAbort) = 1 :=
    (h₁.addr (by omega)).trans hcur
  have hlen : ptrDescLen ((d.abortAdded tap).ptr adiIrAbort) = m + 1 := h₁.len.trans hm
  have hdesc : (d.abortAdded tap).descAt 1 = d.descAt 1 := by
    rw [Driver.abortAdded]
    simp only [Driver.irVecAdd, descAt_cursors, descAt_ptrWr, hcur, hir, hpre, if_true]
    split_ifs <;>
      simp (disch := omega) only [descAt_descWr, descAt_vecWr32, if_neg, filled_desc]
  refine ⟨?_, ?_⟩
  rotate_left
  · rw [Driver.scan, (setup_table d tap).1, Driver.table, haddr, hlen, List.range_succ_eq_map,
      List.map_cons, List.flatMap_cons, Nat.add_zero, hdesc]

end Whole

/-! ## Which TAPs are addressed -/

/-- A controller whose memories hold the same half word everywhere. -/
def Driver.blank (w : BitVec 16) : Driver :=
  ⟨fun _ => w, fun _ => w, fun _ => w, 0, 0⟩

/-- A TAP with others before it is not addressed by a controller that was cleared. -/
theorem behind_not_addressed (tap : Tap) (hpre : 0 < tap.preirlen.toNat) :
    ((Driver.blank 0).jtagAdiTapSetup tap).scan adiIrAbort ≠ tap.irBits jtagAdiIrAbort := by
  obtain ⟨l, hl⟩ := setup_scan_behind (Driver.blank 0) tap hpre
  obtain ⟨n, hn⟩ : ∃ n, tap.preirlen.toNat = n + 1 := ⟨tap.preirlen.toNat - 1, by omega⟩
  have hdesc : (Driver.blank 0).descAt 1 = 0 := rfl
  have hvec : ((Driver.blank 0).jtagAdiTapSetup tap).vec 0 = 0 := by
    rw [setup_vec _ _ (by decide), apaccAdded_vec _ _ (by decide),
      filled_vec _ (Or.inl (by decide))]
    rfl
  have hshift : ((Driver.blank 0).jtagAdiTapSetup tap).shift 0 = [false] := by
    have hlen : descLen 0 = 1 := rfl
    have haddr : descTxAddr 0 = 0 := rfl
    rw [Driver.shift, hlen, haddr, Driver.bits, List.range_one, List.map_singleton, Nat.zero_div,
      Nat.zero_add, hvec]
    rfl
  rw [hl, hdesc, hshift, Tap.irBits, hn, List.replicate_succ]
  simp

/-- Without an instruction register the scan shifts 1024 bits. -/
theorem empty_not_addressed (d : Driver) (tap : Tap) (hpre : tap.preirlen = 0)
    (hir : tap.irlen.toNat = 0) :
    (d.jtagAdiTapSetup tap).scan adiIrAbort ≠ tap.irBits jtagAdiIrAbort := by
  intro h
  have hcur := (filled_cursors d).2
  have hpos := tap.posirlen.isLt
  have htab := (setup_table d tap).1
  rw [Driver.abortAdded, irVecAdd_table _ _ _ _ hpre (by omega), hir] at htab
  have hlen : descLen (jtagDesc vecIrResult d.filled.irVecAddr 0) = 1024 := by
    rw [descLen, jtagDesc, descLen_fields]
    rfl
  have hlength := congrArg List.length h
  rw [Driver.scan, htab, List.flatMap_cons, Driver.shift, hlen, Tap.irBits, hpre, hir] at hlength
  simp only [List.length_append, Driver.bits, insnBits, List.length_map, List.length_range,
    List.length_replicate] at hlength
  have h0 : (0 : BitVec 8).toNat = 0 := rfl
  omega

/-- What the scan of a TAP with none before it has to shift, in two parts. -/
theorem abort_scan_iff (d : Driver) (tap : Tap) (hpre : tap.preirlen = 0)
    (hir : 0 < tap.irlen.toNat) :
    (d.jtagAdiTapSetup tap).scan adiIrAbort = tap.irBits jtagAdiIrAbort ↔
      (d.jtagAdiTapSetup tap).bits 768 tap.irlen.toNat =
          insnBits jtagAdiIrAbort tap.irlen.toNat ∧
        (d.jtagAdiTapSetup tap).bits vecOnes tap.posirlen.toNat =
          List.replicate tap.posirlen.toNat true := by
  have hnone : List.replicate (0 : BitVec 8).toNat true = [] := rfl
  rw [(setup_scan d tap hpre hir).1, Tap.irBits, hpre, hnone, List.nil_append]
  constructor
  · intro h
    refine List.append_inj h ?_
    simp only [Driver.bits, insnBits, List.length_map, List.length_range]
  · rintro ⟨hinsn, hones⟩
    rw [hinsn, hones]

/-- An instruction register of more than 32 bits gets what the memory held. -/
theorem long_not_addressed (tap : Tap) (hpre : tap.preirlen = 0) (hir : 32 < tap.irlen.toNat) :
    ((Driver.blank (-1)).jtagAdiTapSetup tap).scan adiIrAbort ≠
      tap.irBits jtagAdiIrAbort := by
  intro h
  rw [abort_scan_iff _ _ hpre (by omega)] at h
  have hbit := congrArg (fun l => l[32]?) h.1
  have hir₁ := abortAdded_irVecAddr (Driver.blank (-1)) tap
  have hir₂ := dpaccAdded_irVecAddr (Driver.blank (-1)) tap
  have hlen : 8 < tap.irVecLen := by unfold Tap.irVecLen; omega
  have hvec : ((Driver.blank (-1)).jtagAdiTapSetup tap).vec 386 = -1 := by
    rw [setup_vec _ _ (by decide), Driver.apaccAdded, irVecAdd_vec,
      vecWr32_vec_lt _ _ _ (by omega), Driver.dpaccAdded, irVecAdd_vec,
      vecWr32_vec_lt _ _ _ (by omega), Driver.abortAdded, irVecAdd_vec,
      (filled_cursors _).1, vecWr32_vec_gt _ _ _ (by decide), filled_vec _ (Or.inr (by decide))]
    rfl
  simp only [Driver.bits, insnBits, List.getElem?_map, List.getElem?_range hir,
    Option.map_some, Option.some.injEq] at hbit
  have hhw : 768 / 2 + 32 / 16 = 386 := rfl
  rw [hhw, hvec] at hbit
  exact absurd hbit (by decide)

/-- The vector of ones has zeros in every fourth byte. -/
theorem ones_iff (d : Driver) (tap : Tap) (hpos : tap.posirlen.toNat ≤ 255) :
    (d.jtagAdiTapSetup tap).bits vecOnes tap.posirlen.toNat =
        List.replicate tap.posirlen.toNat true ↔ tap.posirlen.toNat ≤ 24 := by
  constructor
  · intro h
    by_contra hlong
    have hbit := congrArg (fun l => l[24]?) h
    have hones := setup_ones d tap (n := 32) (by decide) 24 (by decide)
    simp only [Driver.bits, List.getElem?_map,
      List.getElem?_range (by omega : 24 < tap.posirlen.toNat), Option.map_some,
      List.getElem?_replicate, (by omega : 24 < tap.posirlen.toNat), if_true,
      Option.some.injEq, hones] at hbit
    exact absurd hbit (by decide)
  · intro h
    have hones := setup_ones d tap (n := tap.posirlen.toNat) (by omega)
    rw [hones.bits, List.eq_replicate_iff]
    refine ⟨by rw [List.length_map, List.length_range], fun b hb => ?_⟩
    obtain ⟨k, hk, rfl⟩ := List.mem_map.mp hb
    have hlt := List.mem_range.mp hk
    have hall : ∀ k < 24, (0xffffff : Word).getLsbD k = true := by decide
    exact hall k (by omega)

/-- A TAP is addressed, whatever the memories held, exactly if it has none before it, an
instruction register of 1 to 32 bits, and at most 24 bits behind it. -/
theorem setup_addresses_iff (tap : Tap) :
    (∀ d : Driver, (d.jtagAdiTapSetup tap).Addresses tap) ↔
      tap.preirlen.toNat = 0 ∧ 1 ≤ tap.irlen.toNat ∧ tap.irlen.toNat ≤ 32 ∧
        tap.posirlen.toNat ≤ 24 := by
  have hpos' := tap.posirlen.isLt
  constructor
  · intro h
    have hpre : tap.preirlen.toNat = 0 := by
      by_contra hne
      exact behind_not_addressed tap (Nat.pos_of_ne_zero hne) (h (Driver.blank 0)).abort
    have hpre' : tap.preirlen = 0 := BitVec.eq_of_toNat_eq hpre
    have hir : 1 ≤ tap.irlen.toNat := by
      by_contra hne
      exact empty_not_addressed (Driver.blank 0) tap hpre' (by omega) (h _).abort
    have hlong : tap.irlen.toNat ≤ 32 := by
      by_contra hne
      exact long_not_addressed tap hpre' (by omega) (h _).abort
    have hones := ((abort_scan_iff (Driver.blank 0) tap hpre' hir).mp (h _).abort).2
    exact ⟨hpre, hir, hlong, (ones_iff _ tap (by omega)).mp hones⟩
  · rintro ⟨hpre, hir, hlong, hpos⟩ d
    have hpre' : tap.preirlen = 0 := BitVec.eq_of_toNat_eq hpre
    have hones := (ones_iff d tap (by omega)).mpr hpos
    obtain ⟨hs₁, hs₂, hs₃⟩ := setup_scan d tap hpre' hir
    obtain ⟨hi₁, hi₂, hi₃⟩ := setup_insns d tap hir hlong
    have hnone : List.replicate (0 : BitVec 8).toNat true = [] := rfl
    have hlaid := setup_laid d tap
    refine ⟨?_, ?_, ?_, fun p q hp hpq hq => Or.inl (hlaid.sorted p q hp hpq hq)⟩
    · rw [hs₁, hones, hi₁.bits, Tap.irBits, hpre', hnone, List.nil_append]
      rfl
    · rw [hs₂, hones, hi₂.bits, Tap.irBits, hpre', hnone, List.nil_append]
      rfl
    · rw [hs₃, hones, hi₃.bits, Tap.irBits, hpre', hnone, List.nil_append]
      rfl

/-- The second of two TAPs with four bits each is not addressed. -/
theorem second_tap_not_addressed :
    ¬ ((Driver.blank 0).jtagAdiTapSetup ⟨4, 4, 0, 1, 0⟩).Addresses ⟨4, 4, 0, 1, 0⟩ :=
  fun h => behind_not_addressed ⟨4, 4, 0, 1, 0⟩ (by decide) h.abort

end YardIce.Jtag
