import YardIce.Lib.Bits
import YardIce.Lib.Slots
import YardIce.Debugger.Breakpoints
import Mathlib.Data.Fintype.Card
import Mathlib.Data.Fintype.List

/-!
# The book of hardware breakpoints

Allocated comparators and active list entries, and what each function of the
breakpoint list does to their correspondence.

## Implementation notes

Three changes touch the book: an inactive entry takes a comparator, an active
one gives its comparator back, and an active one leaves the list as its
comparator is cleared. Every function is a sequence of these and of writes that
the book does not read.
-/

namespace YardIce.Breakpoints

open Lib

/-- The comparator `i` is allocated in `code_bmp`. -/
def Fpb.Allocated (f : Fpb) (i : Int) : Prop := ∃ n : Nat, i = n ∧ f.codeBmp.getLsbD n = true

/-- The comparator number of an active entry of the list. -/
def Debugger.owner (d : Debugger) (b : BpId) : Option Int :=
  if b ∈ d.lst ∧ (d.bp b).active = true then some (d.bp b).hwId else none

/-- Allocated comparators correspond one to one to active list entries through
`hw_id`, and each holds the value for the address and size of its entry. -/
structure Accounted (d : Debugger) : Prop where
  assigned : Assigned d.fpb.Allocated d.owner
  programmed : ∀ b i, d.owner b = some i →
    some (d.fpb.comp i.toNat) = compValue (d.bp b).addr (d.bp b).size

/-- The invariant between two calls. -/
structure Inv (d : Debugger) : Prop extends Accounted d where
  below : ∀ n, d.fpb.codeBmp.getLsbD n = true → n < d.fpb.codeMax
  nodup : (d.bpCtrl.lst ++ d.bpCtrl.free).Nodup

variable {d d' : Debugger} {b : BpId}

section Owner

theorem owner_eq_some {i : Int} :
    d.owner b = some i ↔ b ∈ d.lst ∧ (d.bp b).active = true ∧ (d.bp b).hwId = i := by
  unfold Debugger.owner
  split
  · next h => simp [h]
  · next h =>
      simp only [reduceCtorEq, false_iff]
      intro h'
      exact h ⟨h'.1, h'.2.1⟩

theorem owner_eq_none : d.owner b = none ↔ ¬(b ∈ d.lst ∧ (d.bp b).active = true) := by
  unfold Debugger.owner
  split
  · next h => simp [h]
  · next h => simp [h]

theorem owner_congr (hmem : b ∈ d'.lst ↔ b ∈ d.lst) (hbp : d'.bp b = d.bp b) :
    d'.owner b = d.owner b := by
  simp only [Debugger.owner, hmem, hbp]

@[simp] theorem setBp_bp_self (d : Debugger) (b : BpId) (x : DbgBp) : (d.setBp b x).bp b = x := by
  simp [Debugger.setBp, Debugger.bp]

theorem setBp_bp_of_ne {x : BpId} (h : x ≠ b) (d : Debugger) (y : DbgBp) :
    (d.setBp b y).bp x = d.bp x := by
  simp [Debugger.setBp, Debugger.bp, Function.update_of_ne h]

@[simp] theorem setBp_lst (d : Debugger) (b : BpId) (x : DbgBp) : (d.setBp b x).lst = d.lst := rfl

@[simp] theorem setBp_fpb (d : Debugger) (b : BpId) (x : DbgBp) : (d.setBp b x).fpb = d.fpb := rfl

/-- States with the same comparators and owners have the same book. -/
theorem Accounted.of_owner (h : Accounted d) (hfpb : d'.fpb = d.fpb)
    (hown : ∀ x, d'.owner x = d.owner x)
    (hbp : ∀ x i, d.owner x = some i →
      (d'.bp x).addr = (d.bp x).addr ∧ (d'.bp x).size = (d.bp x).size) : Accounted d' := by
  constructor
  · apply h.assigned.congr _ hown
    intro i
    rw [hfpb]
  · intro x i hx
    rw [hown] at hx
    obtain ⟨haddr, hsize⟩ := hbp x i hx
    rw [hfpb, haddr, hsize]
    exact h.programmed x i hx

/-- The book reads the members of the list, which of them are active, and the
number, address and size of those. -/
theorem Accounted.congr (h : Accounted d) (hfpb : d'.fpb = d.fpb)
    (hlst : ∀ x, x ∈ d'.lst ↔ x ∈ d.lst)
    (hact : ∀ x, (d'.bp x).active = (d.bp x).active)
    (hbp : ∀ x, (d.bp x).active = true → (d'.bp x).hwId = (d.bp x).hwId ∧
      (d'.bp x).addr = (d.bp x).addr ∧ (d'.bp x).size = (d.bp x).size) : Accounted d' := by
  apply h.of_owner hfpb
  · intro x
    by_cases hx : (d.bp x).active = true
    · simp [Debugger.owner, hlst, hact, (hbp x hx).1]
    · simp [Debugger.owner, hact, hx]
  · intro x i hx
    exact (hbp x (owner_eq_some.mp hx).2.1).2

end Owner

section Bits

theorem ffs_not {x : BitVec 32} {k : Nat} (h : ffs (~~~x) = k + 1) :
    k < 32 ∧ x.getLsbD k = false := by
  unfold ffs at h
  cases hf : (List.range 32).find? fun i => (~~~x).getLsbD i with
  | none =>
      rw [hf] at h
      cases h
  | some i =>
      rw [hf] at h
      obtain rfl : i = k := Nat.succ.inj h
      have hlt : i < 32 := List.mem_range.mp (List.mem_of_find?_eq_some hf)
      have hbit := List.find?_some hf
      simp only [BitVec.getLsbD_not, hlt, decide_true, Bool.true_and, Bool.not_eq_true'] at hbit
      exact ⟨hlt, hbit⟩

/-- A clear bit is found, at or before its place. -/
theorem ffs_not_le {x : BitVec 32} {n : Nat} (hn : n < 32) (hx : x.getLsbD n = false) :
    ∃ k ≤ n, ffs (~~~x) = k + 1 := by
  have hbit : (~~~x).getLsbD n = true := by
    rw [BitVec.getLsbD_not, hx]
    simp [hn]
  unfold ffs
  cases hf : (List.range 32).find? fun i => (~~~x).getLsbD i with
  | none =>
      have := List.find?_eq_none.mp hf n (List.mem_range.mpr hn)
      exact absurd hbit this
  | some i =>
      refine ⟨i, ?_, rfl⟩
      by_contra hlt
      have := (List.find?_range_eq_some.mp hf).2.2 n (by omega)
      simp [hbit] at this

end Bits

section Changes

/-- The comparator `n` holds `v` and is allocated. -/
def Fpb.take (f : Fpb) (n : Nat) (v : BitVec 32) : Fpb :=
  { f with comp := Function.update f.comp n v, codeBmp := f.codeBmp ||| (1#32 <<< n) }

/-- The comparator `n` is cleared and free. -/
def Fpb.release (f : Fpb) (n : Nat) : Fpb :=
  { f with codeBmp := f.codeBmp &&& ~~~(1#32 <<< n), comp := Function.update f.comp n 0 }

theorem allocated_take (f : Fpb) {n : Nat} (hn : n < 32) (v : BitVec 32) (j : Int) :
    (f.take n v).Allocated j ↔ j = n ∨ f.Allocated j := by
  constructor
  · rintro ⟨k, rfl, hk⟩
    obtain rfl | hk := (getLsbD_set f.codeBmp hn k).mp hk
    · exact Or.inl rfl
    · exact Or.inr ⟨k, rfl, hk⟩
  · rintro (rfl | ⟨k, rfl, hk⟩)
    · exact ⟨n, rfl, (getLsbD_set f.codeBmp hn n).mpr (Or.inl rfl)⟩
    · exact ⟨k, rfl, (getLsbD_set f.codeBmp hn k).mpr (Or.inr hk)⟩

theorem allocated_release (f : Fpb) {n : Nat} (hn : n < 32) (j : Int) :
    (f.release n).Allocated j ↔ f.Allocated j ∧ j ≠ n := by
  constructor
  · rintro ⟨k, rfl, hk⟩
    obtain ⟨hk, hne⟩ := (getLsbD_clr f.codeBmp hn k).mp hk
    exact ⟨⟨k, rfl, hk⟩, by omega⟩
  · rintro ⟨⟨k, rfl, hk⟩, hne⟩
    exact ⟨k, rfl, (getLsbD_clr f.codeBmp hn k).mpr ⟨hk, by omega⟩⟩

theorem fpbCodeCompSet_eq_some {f f' : Fpb} {v : BitVec 32} {n : Nat}
    (h : fpbCodeCompSet f v = some (n, f')) :
    n < 32 ∧ n < f.codeMax ∧ f.codeBmp.getLsbD n = false ∧ f' = f.take n v := by
  unfold fpbCodeCompSet at h
  simp only at h
  split at h
  · cases h
  · next hid =>
      simp only [Option.some.injEq, Prod.mk.injEq] at h
      obtain ⟨rfl, rfl⟩ := h
      obtain ⟨k, hk⟩ : ∃ k, ffs (~~~f.codeBmp) = k + 1 := ⟨ffs (~~~f.codeBmp) - 1, by omega⟩
      have hto : ((ffs (~~~f.codeBmp) : Int) - 1).toNat = k := by omega
      obtain ⟨hlt, hbit⟩ := ffs_not hk
      rw [hto]
      exact ⟨hlt, by omega, hbit, rfl⟩

/-- With a free comparator the allocation succeeds. -/
theorem fpbCodeCompSet_isSome {f : Fpb} {n : Nat} (hn : n < 32) (hmax : n < f.codeMax)
    (hbit : f.codeBmp.getLsbD n = false) (v : BitVec 32) : (fpbCodeCompSet f v).isSome := by
  obtain ⟨k, hk, hffs⟩ := ffs_not_le hn hbit
  have hcond : ¬(((ffs (~~~f.codeBmp) : Int) - 1) < 0 ∨
      ((ffs (~~~f.codeBmp) : Int) - 1) ≥ f.codeMax) := by omega
  simp only [fpbCodeCompSet, if_neg hcond, Option.isSome_some]

/-- An inactive entry of the list took a comparator. -/
theorem bpSet_eq_some (h : d.bpSet b = some d') :
    ∃ n v, compValue (d.bp b).addr (d.bp b).size = some v ∧ n < 32 ∧ n < d.fpb.codeMax ∧
      d.fpb.codeBmp.getLsbD n = false ∧
      d' = ({ d with fpb := d.fpb.take n v } : Debugger).markActive b n := by
  unfold Debugger.bpSet cm3iceBpSet at h
  cases hv : compValue (d.bp b).addr (d.bp b).size with
  | none => simp [hv] at h
  | some v =>
      cases hs : fpbCodeCompSet d.fpb v with
      | none => simp [hv, hs] at h
      | some r =>
          obtain ⟨n, f'⟩ := r
          obtain ⟨hn, hmax, hbit, rfl⟩ := fpbCodeCompSet_eq_some hs
          simp only [hv, hs, Option.bind_some, Option.some.injEq] at h
          exact ⟨n, v, rfl, hn, hmax, hbit, h.symm⟩

@[simp] theorem markActive_lst (d : Debugger) (b : BpId) (id : Int) :
    (d.markActive b id).lst = d.lst := rfl

theorem bpSet_inv (hinv : Inv d) (hmem : b ∈ d.lst) (hact : (d.bp b).active = false)
    (h : d.bpSet b = some d') : Inv d' := by
  obtain ⟨n, v, hv, hn, hmax, hbit, rfl⟩ := bpSet_eq_some h
  have hself : ((({ d with fpb := d.fpb.take n v } : Debugger).markActive b n).owner b) =
      some (n : Int) :=
    owner_eq_some.mpr ⟨hmem, by simp [Debugger.markActive], by simp [Debugger.markActive]⟩
  have hother : ∀ x, x ≠ b →
      (({ d with fpb := d.fpb.take n v } : Debugger).markActive b n).owner x = d.owner x := by
    intro x hx
    apply owner_congr
    · rfl
    · simp only [Debugger.markActive, setBp_bp_of_ne hx]
      rfl
  have hfree : ¬d.fpb.Allocated n := by
    rintro ⟨k, hk, hk'⟩
    obtain rfl : n = k := by exact_mod_cast hk
    rw [hbit] at hk'
    cases hk'
  refine ⟨⟨?_, ?_⟩, ?_, hinv.nodup⟩
  · exact hinv.assigned.assign (owner_eq_none.mpr (by simp [hact])) hfree
      (allocated_take d.fpb hn v) hself hother
  · intro x i hx
    by_cases hxb : x = b
    · subst hxb
      obtain rfl : (n : Int) = i := Option.some.inj (hself.symm.trans hx)
      simp only [Debugger.markActive, setBp_bp_self, setBp_fpb, Fpb.take, Int.toNat_natCast,
        Function.update_self]
      exact hv.symm
    · rw [hother x hxb] at hx
      have hne : i.toNat ≠ n := by
        obtain ⟨k, rfl, hk⟩ := hinv.assigned.used_of_owner x i hx
        rintro rfl
        exact hfree ⟨k, rfl, hk⟩
      have hprog := hinv.programmed x i hx
      simp only [Debugger.markActive, setBp_bp_of_ne hxb, setBp_fpb, Fpb.take,
        Function.update_of_ne hne]
      exact hprog
  · intro k hk
    obtain rfl | hk := (getLsbD_set d.fpb.codeBmp hn k).mp hk
    · exact hmax
    · exact hinv.below k hk

/-- The comparator of an active entry. -/
theorem Inv.comparator (hinv : Inv d) (hmem : b ∈ d.lst) (hact : (d.bp b).active = true) :
    ∃ n : Nat, (d.bp b).hwId = n ∧ n < 32 ∧ n < d.fpb.codeMax ∧
      cm3iceBpClr d.fpb (d.bp b).hwId = some (d.fpb.release n) := by
  have hown : d.owner b = some (d.bp b).hwId := owner_eq_some.mpr ⟨hmem, hact, rfl⟩
  obtain ⟨n, hid, hbit⟩ := hinv.assigned.used_of_owner b _ hown
  have hn : n < 32 := BitVec.lt_of_getLsbD hbit
  have hmax := hinv.below n hbit
  refine ⟨n, hid, hn, hmax, ?_⟩
  have hle : ¬n ≥ d.fpb.codeMax := by omega
  rw [hid]
  change fpbCodeCompClr d.fpb (Int.ofNat n) = _
  simp only [fpbCodeCompClr, if_neg hle, if_neg (and_bit_ne_zero hn hbit)]
  rfl

/-- An active entry gave its comparator back, or left the list as it was cleared. -/
theorem Inv.released (hinv : Inv d) (hmem : b ∈ d.lst) (hact : (d.bp b).active = true) {n : Nat}
    (hid : (d.bp b).hwId = n) (hfpb : d'.fpb = d.fpb.release n) (hself : d'.owner b = none)
    (hlst : ∀ x, x ≠ b → (x ∈ d'.lst ↔ x ∈ d.lst)) (hbp : ∀ x, x ≠ b → d'.bp x = d.bp x)
    (hnd : (d'.bpCtrl.lst ++ d'.bpCtrl.free).Nodup) : Inv d' := by
  have hown : d.owner b = some (n : Int) := owner_eq_some.mpr ⟨hmem, hact, hid⟩
  obtain ⟨k, hk, hbit⟩ := hinv.assigned.used_of_owner b _ hown
  obtain rfl : n = k := by exact_mod_cast hk
  have hn : n < 32 := BitVec.lt_of_getLsbD hbit
  have hother : ∀ x, x ≠ b → d'.owner x = d.owner x := by
    intro x hx
    exact owner_congr (hlst x hx) (hbp x hx)
  refine ⟨⟨?_, ?_⟩, ?_, hnd⟩
  · apply hinv.assigned.unassign hown _ hself hother
    intro j
    rw [hfpb]
    exact allocated_release d.fpb hn j
  · intro x i hx
    have hxb : x ≠ b := by
      rintro rfl
      rw [hself] at hx
      cases hx
    rw [hother x hxb] at hx
    have hne : i.toNat ≠ n := by
      rintro he
      obtain ⟨j, rfl, -⟩ := hinv.assigned.used_of_owner x i hx
      obtain rfl : j = n := by simpa using he
      exact hxb (hinv.assigned.unique x b _ hx hown)
    rw [hfpb, hbp x hxb]
    simp only [Fpb.release, Function.update_of_ne hne]
    exact hinv.programmed x i hx
  · intro j hj
    rw [hfpb] at hj ⊢
    exact hinv.below j ((getLsbD_clr d.fpb.codeBmp hn j).mp hj).1

end Changes

section Functions

theorem Inv.setState (hinv : Inv d) (st : DbgState) : Inv { d with state := st } :=
  ⟨⟨hinv.assigned, hinv.programmed⟩, hinv.below, hinv.nodup⟩

/-- Writes to an entry that keep its part of the book. -/
theorem Inv.setBp (hinv : Inv d) {x : DbgBp} (hact : x.active = (d.bp b).active)
    (hx : (d.bp b).active = true →
      x.hwId = (d.bp b).hwId ∧ x.addr = (d.bp b).addr ∧ x.size = (d.bp b).size) :
    Inv (d.setBp b x) := by
  refine ⟨hinv.toAccounted.congr rfl (fun _ => Iff.rfl) ?_ ?_, hinv.below, hinv.nodup⟩
  · intro y
    by_cases hy : y = b
    · subst hy
      rw [setBp_bp_self, hact]
    · rw [setBp_bp_of_ne hy]
  · intro y hya
    by_cases hy : y = b
    · subst hy
      rw [setBp_bp_self]
      exact hx hya
    · rw [setBp_bp_of_ne hy]
      exact ⟨rfl, rfl, rfl⟩

theorem Inv.enabled (hinv : Inv d) (b : BpId) (e : Bool) :
    Inv (d.setBp b { d.bp b with enabled := e }) :=
  hinv.setBp rfl fun _ => ⟨rfl, rfl, rfl⟩

theorem Inv.drop (hinv : Inv d) (hmem : b ∈ d.lst) (hact : (d.bp b).active = true) :
    Inv (d.drop b) := by
  obtain ⟨n, hid, -, -, hclr⟩ := hinv.comparator hmem hact
  apply hinv.released hmem hact hid
  · simp [Debugger.drop, Debugger.bpClr, hclr]
  · apply owner_eq_none.mpr
    rintro ⟨-, h⟩
    have : ((d.drop b).bp b).active = false := by
      simp [Debugger.drop, Debugger.bpClr, Debugger.setBp, Debugger.bp]
    rw [this] at h
    cases h
  · intro x _
    rfl
  · intro x hx
    exact setBp_bp_of_ne hx d _
  · exact hinv.nodup

theorem Inv.bpRelease (hinv : Inv d) (hmem : b ∈ d.lst) (hact : (d.bp b).active = true) :
    ∃ d', d.bpRelease b = some d' ∧ Inv d' ∧ d'.lst = d.lst := by
  obtain ⟨n, hid, -, -, hclr⟩ := hinv.comparator hmem hact
  refine ⟨({ d with fpb := d.fpb.release n } : Debugger).setBp b
    { d.bp b with active := false, hwId := -1 }, ?_, ?_, rfl⟩
  · simp only [Debugger.bpRelease, hclr]
  · apply hinv.released hmem hact hid rfl
    · apply owner_eq_none.mpr
      simp
    · intro x _
      rfl
    · intro x hx
      exact setBp_bp_of_ne hx _ _
    · exact hinv.nodup

theorem bpSet_lst (h : d.bpSet b = some d') : d'.lst = d.lst := by
  obtain ⟨n, v, -, -, -, -, rfl⟩ := bpSet_eq_some h
  rfl

/-- `dbg_bp_activate` drops the entry that no longer fits before it sets one. -/
theorem dbgBpActivate_inv (hinv : Inv d) (hmem : b ∈ d.lst) : Inv (dbgBpActivate d b) := by
  unfold dbgBpActivate
  split
  · exact hinv
  · next hact =>
      rw [Bool.not_eq_true] at hact
      have key : ∀ e : Debugger, Inv e → b ∈ e.lst → (e.bp b).active = false →
          Inv ((e.bpSet b).getD (e.setBp b { e.bp b with active := false, hwId := -1 })) := by
        intro e he hb hba
        cases hset : e.bpSet b with
        | none => exact he.setBp hba.symm fun h => by rw [hba] at h; cases h
        | some e' => exact bpSet_inv he hb hba hset
      simp only
      split
      · next nxt hnxt =>
          split
          · next hnact =>
              have hne : b ≠ nxt := by
                rintro rfl
                rw [hact] at hnact
                cases hnact
              apply key _ (hinv.drop (List.mem_of_getElem? hnxt) hnact) hmem
              rw [show (d.drop nxt).bp b = d.bp b from setBp_bp_of_ne hne d _]
              exact hact
          · exact key d hinv hmem hact
      · exact key d hinv hmem hact

theorem dbgBpDeactivate_inv (hinv : Inv d) (hmem : b ∈ d.lst) : Inv (dbgBpDeactivate d b) := by
  unfold dbgBpDeactivate
  split
  · next hact => exact hinv.drop hmem hact
  · exact hinv

theorem activateLoop_inv {bs : List BpId} (hinv : Inv d) (hbs : ∀ x ∈ bs, x ∈ d.lst) :
    Inv (activateLoop d bs).2 := by
  induction bs generalizing d with
  | nil => exact hinv
  | cons x bs ih =>
      have hx : x ∈ d.lst := hbs x (by simp)
      have hrest : ∀ y ∈ bs, y ∈ d.lst := fun y hy => hbs y (by simp [hy])
      unfold activateLoop
      split
      · next hcond =>
          simp only [Bool.and_eq_true, Bool.not_eq_true'] at hcond
          split
          · exact hinv
          · next d' hset =>
              apply ih (bpSet_inv hinv hx hcond.2 hset)
              rwa [bpSet_lst hset]
      · exact ih hinv hrest

theorem deactivateLoop_inv {bs : List BpId} (hinv : Inv d) (hbs : ∀ x ∈ bs, x ∈ d.lst) :
    Inv (deactivateLoop d bs) := by
  induction bs generalizing d with
  | nil => exact hinv
  | cons x bs ih =>
      have hx : x ∈ d.lst := hbs x (by simp)
      have hrest : ∀ y ∈ bs, y ∈ d.lst := fun y hy => hbs y (by simp [hy])
      unfold deactivateLoop
      split
      · next hact =>
          obtain ⟨d', hrel, hinv', hlst⟩ := hinv.bpRelease hx hact
          rw [hrel]
          apply ih hinv'
          rwa [hlst]
      · exact ih hinv hrest

theorem disableLoop_inv {bs : List BpId} (hinv : Inv d) (hbs : ∀ x ∈ bs, x ∈ d.lst) :
    Inv (disableLoop d bs) := by
  induction bs generalizing d with
  | nil => exact hinv
  | cons x bs ih =>
      have hx : x ∈ d.lst := hbs x (by simp)
      have hrest : ∀ y ∈ bs, y ∈ d.lst := fun y hy => hbs y (by simp [hy])
      unfold disableLoop
      split
      · next hact =>
          obtain ⟨d', hrel, hinv', hlst⟩ := hinv.bpRelease hx hact
          rw [hrel]
          apply ih (hinv'.enabled x false)
          simpa [hlst] using hrest
      · exact ih (hinv.enabled x false) hrest

theorem enableLoop_inv {bs : List BpId} (hinv : Inv d) (hbs : ∀ x ∈ bs, x ∈ d.lst) :
    Inv (enableLoop d bs).2 := by
  induction bs generalizing d with
  | nil => exact hinv
  | cons x bs ih =>
      have hx : x ∈ d.lst := hbs x (by simp)
      have hrest : ∀ y ∈ bs, y ∈ d.lst := fun y hy => hbs y (by simp [hy])
      unfold enableLoop
      split
      · exact ih (hinv.enabled x true) hrest
      · next hact =>
          rw [Bool.not_eq_true] at hact
          split
          · exact hinv
          · next d' hset =>
              apply ih ((bpSet_inv hinv hx hact hset).enabled x true)
              simpa [bpSet_lst hset] using hrest

theorem setEnabled_inv (hinv : Inv d) (e : Bool) (bs : List BpId) : Inv (setEnabled d e bs) := by
  unfold setEnabled
  induction bs generalizing d with
  | nil => exact hinv
  | cons x bs ih => exact ih (hinv.enabled x e)

theorem mem_of_mem_top {x : BpId} (h : x ∈ d.top) : x ∈ d.lst := List.mem_of_mem_take h

theorem dbgBpEnableAll_inv (hinv : Inv d) : Inv (dbgBpEnableAll d) := by
  have hloop := enableLoop_inv hinv fun x (hx : x ∈ d.top) => mem_of_mem_top hx
  unfold dbgBpEnableAll
  split
  · next d' he =>
      rw [he] at hloop
      exact setEnabled_inv hloop _ _
  · next d' he =>
      rw [he] at hloop
      exact hloop

theorem dbgStatus_inv (hinv : Inv d) (st : IceStatus) : Inv (dbgStatus d st) := by
  have hdeact : Inv (dbgBpDeactivateAll d) := deactivateLoop_inv hinv fun _ => mem_of_mem_top
  unfold dbgStatus
  split
  · split
    · exact hinv
    · split
      · exact hdeact.setState .halted
      · exact hinv
    · exact hinv.setState .running
  · exact hinv

end Functions

section Lists

theorem shiftTo_perm {prev : BpId} {l : List BpId} (h : b ∈ l) :
    (shiftTo b prev l).Perm (prev :: l.erase b) := by
  induction l generalizing prev with
  | nil => simp at h
  | cons x l ih =>
      by_cases hx : x = b
      · subst hx
        simp [shiftTo]
      · have hb : b ∈ l := by
          obtain rfl | hb := List.mem_cons.mp h
          · exact absurd rfl hx
          · exact hb
        have herase : (x :: l).erase b = x :: l.erase b := by simp [hx]
        rw [herase]
        simp only [shiftTo, if_neg hx]
        exact (ih hb).cons prev

theorem dbgBpMoveToHead_perm (hmem : b ∈ d.lst) : (dbgBpMoveToHead d b).lst.Perm d.lst :=
  (shiftTo_perm hmem).trans (List.perm_cons_erase hmem).symm

theorem dbgBpMoveToHead_inv (hinv : Inv d) (hmem : b ∈ d.lst) : Inv (dbgBpMoveToHead d b) := by
  have hperm := dbgBpMoveToHead_perm hmem
  refine ⟨?_, hinv.below, ?_⟩
  · exact hinv.toAccounted.congr rfl (fun _ => hperm.mem_iff) (fun _ => rfl)
      fun _ _ => ⟨rfl, rfl, rfl⟩
  · exact (hperm.append_right d.bpCtrl.free).nodup_iff.mpr hinv.nodup

theorem useBp_inv (hinv : Inv d) (hmem : b ∈ d.lst) : Inv (useBp d b) := by
  have hmem' : b ∈ (dbgBpMoveToHead d b).lst := (dbgBpMoveToHead_perm hmem).mem_iff.mpr hmem
  have hinv' := (dbgBpMoveToHead_inv hinv hmem).enabled b true
  unfold useBp
  simp only
  split
  · exact hinv'
  · exact dbgBpActivate_inv hinv' hmem'

/-- A new entry comes from the free list, so it was not in the list, and it is
inactive. -/
theorem dbgBpNew_inv {addr size : BitVec 32} (hinv : Inv d)
    (h : dbgBpNew d addr size = some (b, d')) : Inv d' ∧ b ∈ d'.lst := by
  unfold dbgBpNew at h
  split at h
  · cases h
  · next x free hfree =>
      simp only [Option.some.injEq, Prod.mk.injEq] at h
      obtain ⟨rfl, rfl⟩ := h
      have hnd := hinv.nodup
      rw [hfree] at hnd
      have hlen : d.lst.length < dbgBreakpointMax := by
        have hcard := hnd.length_le_card
        simp only [List.length_append, List.length_cons, Fintype.card_fin] at hcard
        simp only [Debugger.lst]
        omega
      have hx : x ∉ d.lst := fun hm => (List.nodup_append'.mp hnd).2.2 hm (by simp)
      simp only [if_pos hlen]
      refine ⟨⟨?_, hinv.below, ?_⟩, ?_⟩
      · refine hinv.toAccounted.of_owner ?_ ?_ ?_
        · rfl
        · intro y
          by_cases hy : y = x
          · subst hy
            rw [owner_eq_none.mpr (fun h => hx h.1), owner_eq_none]
            simp
          · apply owner_congr
            · simp [Debugger.setBp, Debugger.lst, hy]
            · rw [setBp_bp_of_ne hy]
              rfl
        · intro y i hy
          have hyx : y ≠ x := by
            rintro rfl
            exact hx (owner_eq_some.mp hy).1
          rw [setBp_bp_of_ne hyx]
          exact ⟨rfl, rfl⟩
      · simpa [Debugger.setBp, Debugger.lst] using hnd
      · simp [Debugger.setBp, Debugger.lst]

/-- The entry that `dbg_bp_delete` promotes when `b` goes: it is disabled, or it has
no comparator and can be given one. -/
def DeleteOk (d : Debugger) (b : BpId) : Prop :=
  b ∈ d.lst → (d.bp b).active = true → d.bpMax ≤ (d.lst.erase b).length →
    ∀ nxt ∈ (d.lst.erase b)[d.bpMax - 1]?,
      (d.bp nxt).enabled = false ∨
        ((d.bp nxt).active = false ∧ ((d.bp nxt).size = 2 ∨ (d.bp nxt).size = 4))

instance (d : Debugger) (b : BpId) : Decidable (DeleteOk d b) :=
  inferInstanceAs (Decidable (_ → _ → _ → _))

theorem compValue_isSome (addr : BitVec 32) {size : BitVec 32} (h : size = 2 ∨ size = 4) :
    (compValue addr size).isSome := by
  unfold compValue
  obtain rfl | rfl := h
  · by_cases hlow : addr &&& 2#32 ≠ 0
    · simp only [if_true, if_pos hlow, Option.isSome_some]
    · simp only [if_true, if_neg hlow, Option.isSome_some]
  · rfl

theorem bpSet_isSome {n : Nat} (hn : n < 32) (hmax : n < d.fpb.codeMax)
    (hbit : d.fpb.codeBmp.getLsbD n = false) (hsize : (d.bp b).size = 2 ∨ (d.bp b).size = 4) :
    ∃ d', d.bpSet b = some d' := by
  obtain ⟨v, hv⟩ := Option.isSome_iff_exists.mp (compValue_isSome (d.bp b).addr hsize)
  obtain ⟨⟨i, f⟩, hf⟩ := Option.isSome_iff_exists.mp (fpbCodeCompSet_isSome hn hmax hbit v)
  refine ⟨({ d with fpb := f } : Debugger).markActive b i, ?_⟩
  simp only [Debugger.bpSet, cm3iceBpSet, hv, Option.bind_some, hf]

/-- With a free comparator, and an entry to promote that needs and can have one, the
promotion keeps the book. -/
theorem promote_inv (hinv : Inv d) {n : Nat} (hn : n < 32) (hmax : n < d.fpb.codeMax)
    (hbit : d.fpb.codeBmp.getLsbD n = false)
    (hok : d.bpMax ≤ d.lst.length → ∀ nxt ∈ d.lst[d.bpMax - 1]?, (d.bp nxt).enabled = false ∨
      ((d.bp nxt).active = false ∧ ((d.bp nxt).size = 2 ∨ (d.bp nxt).size = 4)))
    {stale : Int} (h : promote d stale = some d') : Inv d' ∧ d'.bpCtrl.lst = d.bpCtrl.lst ∧
      d'.bpCtrl.free = d.bpCtrl.free := by
  unfold promote at h
  split at h
  · next hlen =>
      have hpos : d.bpMax = (d.bpMax - 1) + 1 := by
        simp only [Debugger.bpMax]
        omega
      rw [hpos] at h
      simp only at h
      split at h
      · cases h
      · next nxt hnxt =>
          have hmem : nxt ∈ d.lst := List.mem_of_getElem? hnxt
          split at h
          · next hen =>
              obtain hdis | ⟨hact, hsize⟩ := hok hlen nxt hnxt
              · rw [hdis] at hen
                cases hen
              · obtain ⟨e, he⟩ := bpSet_isSome hn hmax hbit hsize
                rw [he] at h
                obtain rfl : e = d' := by simpa using h
                obtain ⟨i, v, -, -, -, -, rfl⟩ := bpSet_eq_some he
                exact ⟨bpSet_inv hinv hmem hact he, rfl, rfl⟩
          · obtain rfl : d = d' := by simpa using h
            exact ⟨hinv, rfl, rfl⟩
  · obtain rfl : d = d' := by simpa using h
    exact ⟨hinv, rfl, rfl⟩

/-- The entry `b` leaves the list and, if it was active, its comparator is cleared. -/
def removed (d : Debugger) (b : BpId) : Debugger :=
  let e := d.setLst (d.lst.erase b)
  if (d.bp b).active then e.bpClr (d.bp b).hwId else e

theorem nodup_erase_free (hinv : Inv d) : (d.lst.erase b ++ d.bpCtrl.free).Nodup := by
  have hsub : (d.lst.erase b ++ d.bpCtrl.free).Sublist (d.bpCtrl.lst ++ d.bpCtrl.free) :=
    (List.erase_sublist).append_right _
  exact hsub.nodup hinv.nodup

theorem mem_erase_of_ne (hinv : Inv d) (x : BpId) : x ∈ d.lst.erase b ↔ x ≠ b ∧ x ∈ d.lst := by
  have hnd : d.lst.Nodup := (List.nodup_append'.mp hinv.nodup).1
  exact hnd.mem_erase_iff

theorem removed_inv (hinv : Inv d) (hmem : b ∈ d.lst) : Inv (removed d b) := by
  have hmem' (x : BpId) : x ∈ d.lst.erase b ↔ x ≠ b ∧ x ∈ d.lst := mem_erase_of_ne hinv x
  have hgone : (removed d b).owner b = none := by
    apply owner_eq_none.mpr
    rintro ⟨hb, -⟩
    have hb' : b ∈ d.lst.erase b := by
      unfold removed at hb
      split at hb <;> exact hb
    exact ((hmem' b).mp hb').1 rfl
  by_cases hact : (d.bp b).active = true
  · obtain ⟨n, hid, -, -, hclr⟩ := hinv.comparator hmem hact
    have hremoved : removed d b = (d.setLst (d.lst.erase b)).bpClr (d.bp b).hwId := by
      simp [removed, hact]
    apply hinv.released hmem hact hid
    · rw [hremoved]
      change (cm3iceBpClr d.fpb (d.bp b).hwId).getD d.fpb = _
      rw [hclr]
      rfl
    · exact hgone
    · intro x hx
      rw [hremoved]
      exact (hmem' x).trans (and_iff_right hx)
    · intro x _
      rw [hremoved]
      rfl
    · rw [hremoved]
      exact nodup_erase_free hinv
  · have hremoved : removed d b = d.setLst (d.lst.erase b) := by simp [removed, hact]
    rw [hremoved]
    refine ⟨?_, hinv.below, nodup_erase_free hinv⟩
    refine hinv.toAccounted.of_owner ?_ ?_ ?_
    · rfl
    · intro x
      by_cases hx : x = b
      · subst hx
        rw [hremoved] at hgone
        rw [hgone, owner_eq_none.mpr (fun h => hact h.2)]
      · exact owner_congr ((hmem' x).trans (and_iff_right hx)) rfl
    · intro x i _
      exact ⟨rfl, rfl⟩

theorem dbgBpDelete_inv (hinv : Inv d) (hok : DeleteOk d b) {stale : Int}
    (h : dbgBpDelete d b stale = some d') : Inv d' := by
  unfold dbgBpDelete at h
  split at h
  · next hmem =>
      have hinv' := removed_inv hinv hmem
      have hfinal : ∀ e : Debugger, Inv e → e.bpCtrl.lst = d.lst.erase b →
          e.bpCtrl.free = d.bpCtrl.free →
          Inv { e with bpCtrl := { e.bpCtrl with free := b :: e.bpCtrl.free } } := by
        intro e he hlst hfree
        refine ⟨⟨he.assigned, he.programmed⟩, he.below, ?_⟩
        simp only [hlst, hfree]
        have hperm : (d.lst.erase b ++ b :: d.bpCtrl.free).Perm (d.lst ++ d.bpCtrl.free) := by
          apply (List.perm_middle).trans
          exact ((List.perm_cons_erase hmem).symm.append_right d.bpCtrl.free)
        exact hperm.nodup_iff.mpr hinv.nodup
      by_cases hact : (d.bp b).active = true
      · obtain ⟨n, hid, hn, hmax, hclr⟩ := hinv.comparator hmem hact
        have hremoved : removed d b = (d.setLst (d.lst.erase b)).bpClr (d.bp b).hwId := by
          simp [removed, hact]
        have hfpb : (removed d b).fpb = d.fpb.release n := by
          rw [hremoved]
          change (cm3iceBpClr d.fpb (d.bp b).hwId).getD d.fpb = _
          rw [hclr]
          rfl
        have hbit : (removed d b).fpb.codeBmp.getLsbD n = false := by
          rw [hfpb, ← Bool.not_eq_true]
          intro hset
          exact ((getLsbD_clr d.fpb.codeBmp hn n).mp hset).2 rfl
        have hbp : (d.setLst (d.lst.erase b)).bp b = d.bp b := rfl
        simp only [hbp, hact, if_true, ← hremoved] at h
        cases hp : promote (removed d b) stale with
        | none => simp [hp] at h
        | some e =>
            have hmax' : n < (removed d b).fpb.codeMax := by
              rw [hfpb]
              exact hmax
            have hbpMax : (removed d b).bpMax = d.bpMax := by
              simp only [Debugger.bpMax, hfpb]
              rfl
            have hok' := hok hmem hact
            have hlst : (removed d b).lst = d.lst.erase b := by
              rw [hremoved]
              rfl
            have hentry : ∀ x, (removed d b).bp x = d.bp x := by
              intro x
              rw [hremoved]
              rfl
            obtain ⟨he, hel, hef⟩ := promote_inv hinv' hn hmax' hbit (by
              rw [hbpMax, hlst]
              simpa only [hentry] using hok') hp
            simp only [hp, Option.bind_eq_bind, Option.bind_some, Option.pure_def,
              Option.some.injEq] at h
            subst h
            have hfree : (removed d b).bpCtrl.free = d.bpCtrl.free := by
              rw [hremoved]
              rfl
            exact hfinal e he (hel.trans hlst) (hef.trans hfree)
      · have hbp : (d.setLst (d.lst.erase b)).bp b = d.bp b := rfl
        have hremoved : removed d b = d.setLst (d.lst.erase b) := by simp [removed, hact]
        simp only [hbp, hact, Bool.false_eq_true, if_false, Option.bind_eq_bind,
          Option.bind_some, Option.pure_def, Option.some.injEq] at h
        subst h
        rw [hremoved] at hinv'
        exact hfinal _ hinv' rfl rfl
  · cases h

end Lists

end YardIce.Breakpoints
