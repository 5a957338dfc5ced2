import YardIce.Jtag.ChainProbe
import YardIce.Lib.Runs
import Mathlib.Algebra.BigOperators.Intervals
import Mathlib.Algebra.Order.BigOperators.Group.Finset

/-!
# The table of the TAPs

`jtag_tap_purge` and `jtag_tap_insert` keep a table of the TAPs of the chain. An insertion moves the
TAPs behind it by one place and counts again, but the place that a TAP has in its own record is the
one at which it was inserted.

## Implementation notes

`JTAG_TAP_MAX` is 8, as the configuration of the firmware has it. The pointer that the caller gets
is the index of the record.
-/

namespace YardIce.Jtag

/-- `JTAG_ERR_INVALID_TAP`. -/
def jtagErrInvalidTap : Int := -204

/-- `JTAG_TAP_MAX`. -/
def jtagTapMax : Nat := 8

/-- `struct jtag_tap`. -/
structure JtagTap where
  pos : Byte
  irlen : Byte
  preirlen : Byte
  precnt : Byte
  posirlen : Byte
  poscnt : Byte
  irmask : Word
  idcode : Word
  idmask : Word
  idcomp : Word

/-- The static variable `jtag`. -/
structure TapTable where
  tapCnt : Nat
  tapSel : Int
  tap : Nat → JtagTap

/-! ## The loops of an insertion -/

/-- `tap[i] = tap[i - 1]`, down to `chain_pos`. -/
def moveTaps (chainPos : Nat) : Nat → (Nat → JtagTap) → Nat → JtagTap
  | 0, tap => tap
  | i + 1, tap =>
    if chainPos < i + 1 then moveTaps chainPos i (Function.update tap (i + 1) (tap i)) else tap

/-- The counts and lengths before, from `i` on, with `n` turns left. -/
def countPre : Nat → Nat → Nat → (Nat → JtagTap) → Nat → JtagTap
  | 0, _, _, tap => tap
  | n + 1, i, preirlen, tap =>
    countPre n (i + 1) (preirlen + (tap i).irlen.toNat) (Function.update tap i
      { tap i with precnt := BitVec.ofNat 8 i, preirlen := BitVec.ofNat 8 preirlen })

/-- The counts and lengths after, of the TAPs below `i`. -/
def countPos (cnt : Nat) : Nat → Nat → (Nat → JtagTap) → Nat → JtagTap
  | 0, _, tap => tap
  | i + 1, posirlen, tap =>
    countPos cnt i (posirlen + (tap i).irlen.toNat) (Function.update tap i
      { tap i with poscnt := BitVec.ofNat 8 (cnt - 1 - i), posirlen := BitVec.ofNat 8 posirlen })

/-- The counts and lengths of all the TAPs, when the one at `chainPos` is new. -/
def recount (cnt chainPos : Nat) (tap : Nat → JtagTap) : Nat → JtagTap :=
  let tap := countPre cnt 0 0 tap
  let tap := Function.update tap chainPos
    { tap chainPos with
      precnt := (tap chainPos).pos
      poscnt := BitVec.ofNat 8 (cnt - ((tap chainPos).pos.toNat + 1)) }
  countPos cnt cnt 0 tap

/-! ## The calls -/

/-- The arguments of an insertion. -/
structure Insertion where
  chainPos : Nat
  irLen : Nat
  idCode : Word
  deriving DecidableEq

namespace TapTable

variable (s : TapTable)

/-- `jtag_tap_purge`. -/
def jtagTapPurge : Int × TapTable := (jtagOk, { s with tapCnt := 0, tapSel := 0 })

/-- The records when the new one is filled in. -/
def inserted (e : Insertion) : Nat → JtagTap :=
  let tap := if e.chainPos < s.tapCnt then moveTaps e.chainPos s.tapCnt s.tap else s.tap
  Function.update tap e.chainPos
    { tap e.chainPos with
      pos := BitVec.ofNat 8 e.chainPos
      irlen := BitVec.ofNat 8 e.irLen
      irmask := ~~~((0xffffffff : Word) <<< e.irLen)
      idcode := e.idCode
      idmask := 0
      idcomp := 0 }

/-- `jtag_tap_insert`, with the index for `*tap_ptr`. -/
def jtagTapInsert (e : Insertion) : Int × Option Nat × TapTable :=
  if s.tapCnt = jtagTapMax then (jtagErrTooManyTaps, none, s)
  else if s.tapCnt < e.chainPos then (jtagErrInvalidTap, none, s)
  else
    let cnt := s.tapCnt + 1
    (jtagOk, some e.chainPos,
      { s with tapCnt := cnt, tap := recount cnt e.chainPos (s.inserted e) })

end TapTable

/-! ## What the loops leave -/

section Loops

variable {chainPos cnt n i acc k : Nat} {tap : Nat → JtagTap}

theorem moveTaps_apply : moveTaps chainPos n tap k =
    if chainPos < k ∧ k ≤ n then tap (k - 1) else tap k := by
  induction n generalizing tap with
  | zero =>
      rw [moveTaps, if_neg (by omega)]
  | succ n ih =>
      rw [moveTaps]
      by_cases hlt : chainPos < n + 1
      · rw [if_pos hlt, ih]
        rcases Nat.lt_trichotomy k (n + 1) with hk | rfl | hk
        · rw [Function.update_of_ne hk.ne, Function.update_of_ne (by omega)]
          exact if_congr (by omega) rfl rfl
        · rw [if_neg (by omega), if_pos ⟨hlt, le_refl _⟩, Function.update_self, Nat.add_sub_cancel]
        · rw [if_neg (by omega), if_neg (by omega), Function.update_of_ne hk.ne']
      · rw [if_neg hlt, if_neg (by omega)]

/-- The lengths of the TAPs from `i` on, below `k`. -/
def lengths (tap : Nat → JtagTap) (i k : Nat) : Nat := ∑ j ∈ Finset.Ico i k, (tap j).irlen.toNat

theorem lengths_congr {tap' : Nat → JtagTap} (h : ∀ j, i ≤ j → j < k → (tap' j).irlen = (tap j).irlen) :
    lengths tap' i k = lengths tap i k :=
  Finset.sum_congr rfl fun j hj => by
    rw [h j (Finset.mem_Ico.mp hj).1 (Finset.mem_Ico.mp hj).2]

theorem lengths_le {b : Nat} (h : ∀ j, i ≤ j → j < k → (tap j).irlen.toNat ≤ b) :
    lengths tap i k ≤ (k - i) * b := by
  have hsum := Finset.sum_le_card_nsmul (Finset.Ico i k) (fun j => (tap j).irlen.toNat) b
    fun j hj => h j (Finset.mem_Ico.mp hj).1 (Finset.mem_Ico.mp hj).2
  rw [Nat.card_Ico] at hsum
  exact hsum

theorem countPre_apply : countPre n i acc tap k =
    if i ≤ k ∧ k < i + n then
      { tap k with
        precnt := BitVec.ofNat 8 k
        preirlen := BitVec.ofNat 8 (acc + lengths tap i k) }
    else tap k := by
  induction n generalizing i acc tap with
  | zero => rw [countPre, if_neg (by omega)]
  | succ n ih =>
      rw [countPre, ih]
      rcases Nat.lt_trichotomy k i with hlt | rfl | hgt
      · rw [if_neg (by omega), if_neg (by omega), Function.update_of_ne hlt.ne]
      · rw [if_neg (by omega), if_pos (by omega), Function.update_self, lengths, Finset.Ico_self,
          Finset.sum_empty, Nat.add_zero]
      · have hsum : (tap i).irlen.toNat + lengths tap (i + 1) k = lengths tap i k :=
          (Finset.sum_eq_sum_Ico_succ_bot hgt fun j => (tap j).irlen.toNat).symm
        rw [Function.update_of_ne hgt.ne', lengths_congr fun j hj _ => by
          rw [Function.update_of_ne (by omega)], Nat.add_assoc acc, hsum]
        exact if_congr (by omega) rfl rfl

theorem countPos_apply : countPos cnt n acc tap k =
    if k < n then
      { tap k with
        poscnt := BitVec.ofNat 8 (cnt - 1 - k)
        posirlen := BitVec.ofNat 8 (acc + lengths tap (k + 1) n) }
    else tap k := by
  induction n generalizing acc tap with
  | zero => rw [countPos, if_neg (Nat.not_lt_zero k)]
  | succ n ih =>
      rw [countPos, ih]
      rcases Nat.lt_trichotomy k n with hlt | rfl | hgt
      · have hsum : lengths tap (k + 1) n + (tap n).irlen.toNat = lengths tap (k + 1) (n + 1) :=
          (Finset.sum_Ico_succ_top hlt fun j => (tap j).irlen.toNat).symm
        rw [if_pos hlt, if_pos (by omega), Function.update_of_ne hlt.ne,
          lengths_congr fun j _ hj => by rw [Function.update_of_ne hj.ne], Nat.add_assoc acc,
          Nat.add_comm (tap n).irlen.toNat, hsum]
      · rw [if_neg (Nat.lt_irrefl k), if_pos (Nat.lt_succ_self k), Function.update_self, lengths,
          Finset.Ico_self, Finset.sum_empty, Nat.add_zero]
      · rw [if_neg (by omega), if_neg (by omega), Function.update_of_ne hgt.ne']

end Loops
/-- A recount, where the place of the new TAP is its index. -/
theorem recount_apply {cnt chainPos k : Nat} {tap : Nat → JtagTap}
    (hpos : (tap chainPos).pos = BitVec.ofNat 8 chainPos) (hmax : cnt ≤ jtagTapMax)
    (hlt : chainPos < cnt) (hk : k < cnt) :
    recount cnt chainPos tap k =
      { tap k with
        precnt := BitVec.ofNat 8 k
        preirlen := BitVec.ofNat 8 (lengths tap 0 k)
        poscnt := BitVec.ofNat 8 (cnt - 1 - k)
        posirlen := BitVec.ofNat 8 (lengths tap (k + 1) cnt) } := by
  have hpre : ∀ j < cnt, countPre cnt 0 0 tap j =
      { tap j with
        precnt := BitVec.ofNat 8 j
        preirlen := BitVec.ofNat 8 (lengths tap 0 j) } := by
    intro j hj
    rw [countPre_apply, if_pos (by omega), Nat.zero_add]
  unfold recount
  dsimp only
  generalize hmid : Function.update (countPre cnt 0 0 tap) chainPos _ = mid
  have hirlen : ∀ j < cnt, (mid j).irlen = (tap j).irlen := by
    intro j hj
    rw [← hmid]
    by_cases hne : j = chainPos
    · rw [hne, Function.update_self, hpre _ hlt]
    · rw [Function.update_of_ne hne, hpre _ hj]
  rw [countPos_apply, if_pos hk, Nat.zero_add, lengths_congr fun j _ hj => hirlen j hj, ← hmid]
  by_cases hne : k = chainPos
  · subst hne
    rw [Function.update_self, hpre _ hk, hpos]
  · rw [Function.update_of_ne hne, hpre _ hk]

/-! ## An insertion -/

/-- The record is that of an insertion. -/
structure JtagTap.MadeBy (t : JtagTap) (e : Insertion) : Prop where
  irlen : t.irlen = BitVec.ofNat 8 e.irLen
  irmask : t.irmask = ~~~((0xffffffff : Word) <<< e.irLen)
  idcode : t.idcode = e.idCode

namespace TapTable

variable {s t : TapTable} {e : Insertion} {k : Nat}

theorem inserted_self : s.inserted e e.chainPos =
    { s.inserted e e.chainPos with
      pos := BitVec.ofNat 8 e.chainPos
      irlen := BitVec.ofNat 8 e.irLen
      irmask := ~~~((0xffffffff : Word) <<< e.irLen)
      idcode := e.idCode } := by
  simp only [inserted, Function.update_self]

theorem inserted_of_ne (hk : k ≤ s.tapCnt) (hne : k ≠ e.chainPos) :
    s.inserted e k = if e.chainPos < k then s.tap (k - 1) else s.tap k := by
  unfold inserted
  simp only [Function.update_of_ne hne]
  by_cases hlt : e.chainPos < s.tapCnt
  · rw [if_pos hlt, moveTaps_apply]
    exact if_congr (by omega) rfl rfl
  · rw [if_neg hlt, if_neg (by omega)]

/-- What an insertion that succeeds has done. -/
theorem jtagTapInsert_ok (h : (s.jtagTapInsert e).1 = jtagOk) :
    s.tapCnt ≠ jtagTapMax ∧ e.chainPos ≤ s.tapCnt ∧ (s.jtagTapInsert e).2.2 =
      { s with
        tapCnt := s.tapCnt + 1
        tap := recount (s.tapCnt + 1) e.chainPos (s.inserted e) } := by
  unfold jtagTapInsert at h ⊢
  split at h
  · exact absurd (show jtagErrTooManyTaps = jtagOk from h) (by decide)
  · next hmax =>
    split at h
    · exact absurd (show jtagErrInvalidTap = jtagOk from h) (by decide)
    · next hle =>
      rw [if_neg hmax, if_neg hle]
      exact ⟨hmax, Nat.not_lt.mp hle, rfl⟩

/-! ## Runs -/

inductive Call
  | purge
  | insert (e : Insertion)
  deriving DecidableEq

/-- A call that returns `JTAG_OK`. -/
def step (s : TapTable) : Call → Option TapTable
  | .purge => some s.jtagTapPurge.2
  | .insert e =>
    if (s.jtagTapInsert e).1 = jtagOk then some (s.jtagTapInsert e).2.2 else none

/-- The chain as it is meant: the insertions in the order of their TAPs. -/
def chainStep (chain : List Insertion) : Call → List Insertion
  | .purge => []
  | .insert e => chain.insertIdx e.chainPos e

/-- The counts and the lengths before and after each TAP. -/
structure Counted (s : TapTable) : Prop where
  precnt : ∀ i < s.tapCnt, (s.tap i).precnt.toNat = i
  poscnt : ∀ i < s.tapCnt, (s.tap i).poscnt.toNat = s.tapCnt - 1 - i
  preirlen : ∀ i < s.tapCnt, (s.tap i).preirlen.toNat = lengths s.tap 0 i
  posirlen : ∀ i < s.tapCnt, (s.tap i).posirlen.toNat = lengths s.tap (i + 1) s.tapCnt

/-- A recount is right: no sum of lengths is cut off. -/
theorem recount_counted {tap : Nat → JtagTap} {cnt chainPos : Nat} {sel : Int}
    (hpos : (tap chainPos).pos = BitVec.ofNat 8 chainPos) (hmax : cnt ≤ jtagTapMax)
    (hlt : chainPos < cnt) (hirlen : ∀ k < cnt, (tap k).irlen.toNat ≤ 31) :
    Counted ⟨cnt, sel, recount cnt chainPos tap⟩ := by
  have htap := fun k => @recount_apply _ _ k _ hpos hmax hlt
  have hsame : ∀ i k, k ≤ cnt → lengths (recount cnt chainPos tap) i k = lengths tap i k :=
    fun i k hk => lengths_congr fun j _ hj => by rw [htap j (by omega)]
  have hsum : ∀ i k, k ≤ cnt → k - i ≤ 7 →
      (BitVec.ofNat 8 (lengths tap i k)).toNat = lengths tap i k := by
    intro i k hk hki
    have hle : lengths tap i k ≤ (k - i) * 31 :=
      lengths_le fun j _ hj => hirlen j (Nat.lt_of_lt_of_le hj hk)
    rw [BitVec.toNat_ofNat, Nat.mod_eq_of_lt]
    exact Nat.lt_of_le_of_lt (hle.trans (Nat.mul_le_mul_right 31 hki)) (by decide)
  have hbyte : ∀ k ≤ jtagTapMax, (BitVec.ofNat 8 k).toNat = k := fun k hk => by
    rw [BitVec.toNat_ofNat, Nat.mod_eq_of_lt (Nat.lt_of_le_of_lt hk (by decide))]
  unfold jtagTapMax at hmax hbyte
  refine ⟨fun i (hi : i < cnt) => ?_, fun i (hi : i < cnt) => ?_, fun i (hi : i < cnt) => ?_,
    fun i (hi : i < cnt) => ?_⟩
  · show (recount cnt chainPos tap i).precnt.toNat = i
    rw [htap i hi]
    exact hbyte i (by omega)
  · show (recount cnt chainPos tap i).poscnt.toNat = cnt - 1 - i
    rw [htap i hi]
    exact hbyte _ (by omega)
  · show (recount cnt chainPos tap i).preirlen.toNat = lengths (recount cnt chainPos tap) 0 i
    rw [hsame 0 i hi.le, htap i hi]
    exact hsum 0 i hi.le (by omega)
  · show (recount cnt chainPos tap i).posirlen.toNat =
      lengths (recount cnt chainPos tap) (i + 1) cnt
    rw [hsame (i + 1) cnt (le_refl _), htap i hi]
    exact hsum (i + 1) cnt (le_refl _) (by omega)

/-- What the table keeps of the chain, wherever the TAPs were inserted. -/
structure Kept (s : TapTable) (chain : List Insertion) : Prop extends Counted s where
  cnt : s.tapCnt = chain.length
  max : chain.length ≤ jtagTapMax
  small : ∀ e ∈ chain, e.irLen ≤ 31
  made : ∀ i e, chain[i]? = some e →
    (s.tap i).MadeBy e ∧ (s.tap i).pos = BitVec.ofNat 8 e.chainPos ∧ e.chainPos ≤ i

/-- The records that an insertion leaves are those of the chain. -/
theorem Kept.inserted {chain : List Insertion} (h : s.Kept chain) (hle : e.chainPos ≤ s.tapCnt)
    {e' : Insertion} (hk : (chain.insertIdx e.chainPos e)[k]? = some e') :
    (s.inserted e k).MadeBy e' ∧ (s.inserted e k).pos = BitVec.ofNat 8 e'.chainPos ∧
      e'.chainPos ≤ k := by
  have hlen := (List.getElem?_eq_some_iff.mp hk).1
  rw [List.length_insertIdx, if_pos (h.cnt ▸ hle), ← h.cnt] at hlen
  rw [List.getElem?_insertIdx] at hk
  rcases Nat.lt_trichotomy k e.chainPos with hlt | rfl | hgt
  · rw [if_pos hlt] at hk
    rw [inserted_of_ne (by omega) hlt.ne, if_neg (by omega)]
    exact h.made k e' hk
  · rw [if_neg (Nat.lt_irrefl _), if_pos rfl, if_pos (h.cnt ▸ hle), Option.some.injEq] at hk
    rw [inserted_self, ← hk]
    exact ⟨⟨rfl, rfl, rfl⟩, rfl, le_refl _⟩
  · rw [if_neg (by omega), if_neg hgt.ne'] at hk
    rw [inserted_of_ne (by omega) hgt.ne', if_pos hgt]
    obtain ⟨hmade, hpos, hle'⟩ := h.made (k - 1) e' hk
    exact ⟨hmade, hpos, hle'.trans (Nat.sub_le k 1)⟩

theorem Kept.insert {chain : List Insertion} (h : s.Kept chain)
    (hok : (s.jtagTapInsert e).1 = jtagOk) (hsmall : e.irLen ≤ 31) :
    (s.jtagTapInsert e).2.2.Kept (chain.insertIdx e.chainPos e) ∧ e.chainPos ≤ chain.length := by
  obtain ⟨hmax, hle, heq⟩ := jtagTapInsert_ok hok
  have hlen : (chain.insertIdx e.chainPos e).length = s.tapCnt + 1 := by
    rw [List.length_insertIdx, if_pos (h.cnt ▸ hle), h.cnt]
  have hcnt : s.tapCnt + 1 ≤ jtagTapMax := by
    have hold := h.max
    rw [← h.cnt] at hold
    omega
  have hsmalls : ∀ e' ∈ chain.insertIdx e.chainPos e, e'.irLen ≤ 31 := by
    intro e' he'
    rcases List.eq_or_mem_of_mem_insertIdx he' with rfl | hmem
    · exact hsmall
    · exact h.small e' hmem
  have hpos : (s.inserted e e.chainPos).pos = BitVec.ofNat 8 e.chainPos :=
    congrArg JtagTap.pos inserted_self
  have hirlen : ∀ k < s.tapCnt + 1, (s.inserted e k).irlen.toNat ≤ 31 := by
    intro k hk
    have he' := List.getElem?_eq_getElem (hlen.symm ▸ hk)
    rw [(h.inserted hle he').1.irlen, BitVec.toNat_ofNat]
    exact (Nat.mod_le _ _).trans (hsmalls _ (List.mem_of_getElem? he'))
  rw [heq]
  refine ⟨⟨recount_counted hpos hcnt (Nat.lt_succ_of_le hle) hirlen, hlen.symm,
    hlen.trans_le hcnt, hsmalls, fun i e' he' => ?_⟩, h.cnt ▸ hle⟩
  have hi : i < s.tapCnt + 1 := hlen ▸ (List.getElem?_eq_some_iff.mp he').1
  show (recount (s.tapCnt + 1) e.chainPos (s.inserted e) i).MadeBy e' ∧
    (recount (s.tapCnt + 1) e.chainPos (s.inserted e) i).pos = BitVec.ofNat 8 e'.chainPos ∧
      e'.chainPos ≤ i
  rw [recount_apply hpos hcnt (Nat.lt_succ_of_le hle) hi]
  obtain ⟨hmade, hplace⟩ := h.inserted hle he'
  exact ⟨⟨hmade.irlen, hmade.irmask, hmade.idcode⟩, hplace⟩

/-- The table is never out of step with the chain, but for the places. -/
theorem Kept.next {chain : List Insertion} (h : s.Kept chain) {c : Call}
    (hsmall : ∀ e, c = .insert e → e.irLen ≤ 31) (hs : s.step c = some t) :
    t.Kept (chainStep chain c) ∧ ∀ e, c = .insert e → e.chainPos ≤ chain.length := by
  cases c with
  | purge =>
      obtain rfl := Option.some.inj hs
      refine ⟨⟨⟨?_, ?_, ?_, ?_⟩, rfl, Nat.zero_le _, ?_, ?_⟩, nofun⟩ <;>
        simp [jtagTapPurge, chainStep]
  | insert e =>
      by_cases hok : (s.jtagTapInsert e).1 = jtagOk
      · obtain rfl := Option.some.inj ((if_pos hok).symm.trans hs)
        obtain ⟨hkept, hle⟩ := h.insert hok (hsmall e rfl)
        exact ⟨hkept, fun e' he' => Call.insert.inj he' ▸ hle⟩
      · exact absurd ((if_neg hok).symm.trans hs) nofun

theorem Kept.calls {chain : List Insertion} (h : s.Kept chain) {cs : List Call}
    (hsmall : ∀ e, .insert e ∈ cs → e.irLen ≤ 31) (hrun : Lib.exec step s cs = some t) :
    t.Kept (cs.foldl chainStep chain) := by
  induction cs generalizing s chain with
  | nil => exact Option.some.inj hrun ▸ h
  | cons c cs ih =>
      obtain ⟨u, hu, hrest⟩ := Lib.exec_cons hrun
      exact ih (h.next (fun e he => hsmall e (he ▸ List.mem_cons_self)) hu).1
        (fun e he => hsmall e (List.mem_cons_of_mem c he)) hrest

/-! ## The places -/

/-- Every insertion behind which no purge comes is made at the end of the chain. -/
def AtEnds : List Insertion → List Call → Prop
  | _, [] => True
  | chain, c :: cs =>
    (.purge ∈ cs ∨ ∀ e, c = .insert e → e.chainPos = chain.length) ∧ AtEnds (chainStep chain c) cs

/-- The TAPs are at the places at which they were inserted. -/
def InPlace (chain : List Insertion) : Prop :=
  ∀ i (e : Insertion), chain[i]? = some e → e.chainPos = i

/-- A TAP that is inserted before another one moves that away from its place. -/
theorem inPlace_insertIdx {chain : List Insertion} (hle : e.chainPos ≤ chain.length)
    (hplaces : ∀ i (e' : Insertion), chain[i]? = some e' → e'.chainPos ≤ i) :
    InPlace (chain.insertIdx e.chainPos e) ↔ InPlace chain ∧ e.chainPos = chain.length := by
  constructor
  · intro h
    have hend : e.chainPos = chain.length := by
      by_contra hne
      have hlast : (chain.insertIdx e.chainPos e)[chain.length]? = chain[chain.length - 1]? :=
        List.getElem?_insertIdx_of_gt (by omega)
      have hold := List.getElem?_eq_getElem (show chain.length - 1 < chain.length by omega)
      have hplace := hplaces _ _ hold
      have hmoved := h _ _ (hlast.trans hold)
      omega
    refine ⟨fun i e' he' => h i e' ?_, hend⟩
    rwa [List.getElem?_insertIdx_of_lt (hend ▸ (List.getElem?_eq_some_iff.mp he').1)]
  · rintro ⟨h, hend⟩ i e' he'
    rw [hend, List.insertIdx_length_self, List.getElem?_append] at he'
    split at he'
    · exact h i e' he'
    · next hi =>
      obtain ⟨hone, heq⟩ := List.getElem?_eq_some_iff.mp he'
      rw [List.length_singleton, Nat.lt_one_iff] at hone
      simp only [hone, List.getElem_cons_zero] at heq
      rw [← heq]
      omega

theorem inPlace_iff {chain : List Insertion} (h : s.Kept chain) {cs : List Call}
    (hsmall : ∀ e, .insert e ∈ cs → e.irLen ≤ 31) (hrun : Lib.exec step s cs = some t) :
    InPlace (cs.foldl chainStep chain) ↔ (.purge ∈ cs ∨ InPlace chain) ∧ AtEnds chain cs := by
  induction cs generalizing s chain with
  | nil => simp [AtEnds]
  | cons c cs ih =>
      obtain ⟨u, hu, hrest⟩ := Lib.exec_cons hrun
      obtain ⟨hkept, hle⟩ := h.next (fun e he => hsmall e (he ▸ List.mem_cons_self)) hu
      rw [List.foldl_cons, ih hkept (fun e he => hsmall e (List.mem_cons_of_mem c he)) hrest, AtEnds]
      cases c with
      | purge => simp [chainStep, InPlace]
      | insert e =>
          have hstep : InPlace (chainStep chain (.insert e)) ↔
              InPlace chain ∧ e.chainPos = chain.length :=
            inPlace_insertIdx (hle e rfl) fun i e' he' => (h.made i e' he').2.2
          rw [hstep]
          simp only [List.mem_cons, reduceCtorEq, false_or, Call.insert.injEq, forall_eq']
          tauto

/-! ## The bookkeeping -/

/-- The table is that of the chain: the places, counts and lengths of the TAPs are right, and their
instruction lengths, masks and codes are those with which they were inserted. -/
structure Bookkept (s : TapTable) (chain : List Insertion) : Prop extends Counted s where
  cnt : s.tapCnt = chain.length
  pos : ∀ i < s.tapCnt, (s.tap i).pos.toNat = i
  made : ∀ i e, chain[i]? = some e → (s.tap i).MadeBy e

/-- The table before the first call. -/
def start (tap : Nat → JtagTap) : TapTable := ⟨0, 0, tap⟩

theorem start_kept (tap : Nat → JtagTap) : (start tap).Kept [] := by
  refine ⟨⟨?_, ?_, ?_, ?_⟩, rfl, Nat.zero_le _, ?_, ?_⟩ <;> simp [start]

/-- The bookkeeping is right where TAPs were only added at the end of the chain. -/
theorem insertions_bookkept_iff (tap : Nat → JtagTap) (cs : List Call)
    (hlen : ∀ e, .insert e ∈ cs → 1 ≤ e.irLen ∧ e.irLen ≤ 31)
    (hrun : Lib.exec step (start tap) cs = some s) :
    s.Bookkept (cs.foldl chainStep []) ↔ AtEnds [] cs := by
  have hsmall : ∀ e, .insert e ∈ cs → e.irLen ≤ 31 := fun e he => (hlen e he).2
  have hkept := (start_kept tap).calls hsmall hrun
  have hplaces := inPlace_iff (start_kept tap) hsmall hrun
  have hnil : InPlace [] := fun i e he => by simp at he
  rw [eq_true (Or.inr hnil), true_and] at hplaces
  rw [← hplaces]
  have hbyte : ∀ i e, (cs.foldl chainStep [])[i]? = some e → (s.tap i).pos.toNat = e.chainPos := by
    intro i e he
    obtain ⟨-, hpos, hle⟩ := hkept.made i e he
    have hi := Nat.lt_of_lt_of_le (List.getElem?_eq_some_iff.mp he).1 hkept.max
    rw [hpos, BitVec.toNat_ofNat, Nat.mod_eq_of_lt]
    exact Nat.lt_of_le_of_lt hle (hi.trans (by decide))
  constructor
  · intro h i e he
    rw [← hbyte i e he]
    exact h.pos i (h.cnt ▸ (List.getElem?_eq_some_iff.mp he).1)
  · intro h
    refine ⟨hkept.toCounted, hkept.cnt, fun i hi => ?_, fun i e he => (hkept.made i e he).1⟩
    have he := List.getElem?_eq_getElem (hkept.cnt ▸ hi)
    rw [hbyte i _ he]
    exact h i _ he

/-- The records before any TAP is inserted. -/
def blank (_ : Nat) : JtagTap := ⟨0, 0, 0, 0, 0, 0, 0, 0, 0, 0⟩

/-- The route controller and the core behind it, in their order. -/
theorem insertions_bookkept_iff_in_order :
    ∃ s, Lib.exec step (start blank)
        [.insert ⟨0, 6, 0x0b83e02f⟩, .insert ⟨1, 4, 0x07926001⟩] = some s ∧
      s.Bookkept [⟨0, 6, 0x0b83e02f⟩, ⟨1, 4, 0x07926001⟩] := by
  refine ⟨_, rfl, ?_⟩
  apply (insertions_bookkept_iff blank [.insert ⟨0, 6, 0x0b83e02f⟩, .insert ⟨1, 4, 0x07926001⟩]
    (by simp) rfl).mpr
  simp [AtEnds, chainStep]

/-- The core, and the route controller before it: the core has place 0 in its record. -/
theorem inserted_before_not_bookkept :
    ¬ ∀ (tap : Nat → JtagTap) (cs : List Call) (s : TapTable),
      (∀ e, .insert e ∈ cs → 1 ≤ e.irLen ∧ e.irLen ≤ 31) →
        Lib.exec step (start tap) cs = some s → s.Bookkept (cs.foldl chainStep []) := by
  intro h
  have hpos := (h blank [.insert ⟨0, 4, 0x07926001⟩, .insert ⟨0, 6, 0x0b83e02f⟩] _ (by simp)
    rfl).pos 1 (by decide)
  exact absurd hpos (by decide)

end TapTable

end YardIce.Jtag
