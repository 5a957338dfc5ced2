import YardIce.Lib.Runs
import Mathlib.Data.BitVec
import Mathlib.Data.Fintype.Basic
import Mathlib.Data.List.FinRange
import Mathlib.Data.List.Infix
import Mathlib.Logic.Function.Basic
import Mathlib.Tactic.SplitIfs

/-!
# The ARP table

`etharp_add` stores an address in the slot that has its IP address or its hardware address,
or else in a slot that was used least often. `etharp_lookup` answers from the slot found last
if it can.

## Implementation notes

The table has any number of slots; a slot whose IP address is zero is empty. The cache
pointer is an index, and `none` while it points to the constant `bcast`, whose count nothing
reads.
-/

namespace YardIce.Net

open Lib

/-- The six bytes of a hardware address. -/
abbrev HwAddr := Fin 6 → BitVec 8

/-- `struct etharp_entry`. -/
structure EthArpEntry where
  count : BitVec 16
  hwaddr : HwAddr
  ipaddr : BitVec 32
deriving DecidableEq

/-- `struct etharp_system`. -/
structure EthArp (len : Nat) where
  cache : Option (Fin len)
  pending : BitVec 32
  tab : Fin len → EthArpEntry

/-- `INADDR_BROADCAST`. -/
def inaddrBroadcast : BitVec 32 := 0xffffffff

/-- The constant `bcast`. -/
def bcast : EthArpEntry := ⟨0, fun _ => 0xff, inaddrBroadcast⟩

/-- `__etharp__` at the start. -/
def EthArp.start (len : Nat) : EthArp len := ⟨none, 0, fun _ => ⟨0, fun _ => 0, 0⟩⟩

section Source

variable {len : Nat}

/-- The test of `etharp_add`: the slot has the IP address or the hardware address. -/
def SlotMatches (tab : Fin len → EthArpEntry) (ipaddr : BitVec 32) (hwaddr : HwAddr)
    (p : Fin len) : Prop := (tab p).ipaddr = ipaddr ∨ (tab p).hwaddr = hwaddr

instance (tab : Fin len → EthArpEntry) (ipaddr : BitVec 32) (hwaddr : HwAddr) :
    DecidablePred (SlotMatches tab ipaddr hwaddr) := fun _ => inferInstanceAs (Decidable (_ ∨ _))

/-- The loop of `etharp_add` over the remaining slots. -/
def etharpAddLoop (tab : Fin len → EthArpEntry) (ipaddr : BitVec 32) (hwaddr : HwAddr) :
    List (Fin len) → Nat → Option (Fin len) → Option (Fin len)
  | [], _, new => new
  | p :: ps, min, new =>
      if SlotMatches tab ipaddr hwaddr p then etharpAddLoop tab ipaddr hwaddr ps 0 (some p)
      else if (tab p).count.toNat < min then
        etharpAddLoop tab ipaddr hwaddr ps (tab p).count.toNat (some p)
      else etharpAddLoop tab ipaddr hwaddr ps min new

/-- The stores of `etharp_add`. -/
def EthArp.store (s : EthArp len) (new : Fin len) (ipaddr : BitVec 32) (hwaddr : HwAddr) :
    EthArp len :=
  { s with tab := Function.update s.tab new ⟨0, hwaddr, ipaddr⟩ }

/-- `etharp_add`; `none` where it would write through a null pointer. -/
def etharpAdd (s : EthArp len) (ipaddr : BitVec 32) (hwaddr : HwAddr) : Option (EthArp len) :=
  (etharpAddLoop s.tab ipaddr hwaddr (List.finRange len) 100000 none).map fun new =>
    s.store new ipaddr hwaddr

/-- `p->count++`. -/
def EthArp.bump (s : EthArp len) (p : Fin len) : EthArp len :=
  { s with tab := Function.update s.tab p { s.tab p with count := (s.tab p).count + 1 } }

/-- The slots of `etharp_lookup` behind a miss of the cache. -/
def lookupTab (s : EthArp len) (ipaddr : BitVec 32) : Option HwAddr × EthArp len :=
  if ipaddr = inaddrBroadcast then (some bcast.hwaddr, s)
  else
    match (List.finRange len).find? fun p => (s.tab p).ipaddr = ipaddr with
    | some p => (some (s.tab p).hwaddr, { s with cache := some p }.bump p)
    | none => (none, { s with pending := ipaddr })

/-- `etharp_lookup`: the hardware address that the result points to. -/
def etharpLookup (s : EthArp len) (ipaddr : BitVec 32) : Option HwAddr × EthArp len :=
  match s.cache with
  | none => if bcast.ipaddr = ipaddr then (some bcast.hwaddr, s) else lookupTab s ipaddr
  | some p =>
      if (s.tab p).ipaddr = ipaddr then (some (s.tab p).hwaddr, s.bump p)
      else lookupTab s ipaddr

/-- The calls of a run. -/
inductive ArpCall where
  | add (ipaddr : BitVec 32) (hwaddr : HwAddr)
  | lookup (ipaddr : BitVec 32)

/-- The table after a call. -/
def arpStep (s : EthArp len) : ArpCall → Option (EthArp len)
  | .add ipaddr hwaddr => etharpAdd s ipaddr hwaddr
  | .lookup ipaddr => some (etharpLookup s ipaddr).2

end Source

section Store

variable {len : Nat} (s : EthArp len) (k : Fin len) (ipaddr : BitVec 32) (hwaddr : HwAddr)

@[simp] theorem EthArp.store_self : (s.store k ipaddr hwaddr).tab k = ⟨0, hwaddr, ipaddr⟩ :=
  Function.update_self _ _ _

theorem EthArp.store_of_ne {i : Fin len} (h : i ≠ k) :
    (s.store k ipaddr hwaddr).tab i = s.tab i :=
  Function.update_of_ne h _ _

theorem EthArp.bump_tab : (s.bump k).tab =
    Function.update s.tab k ⟨(s.tab k).count + 1, (s.tab k).hwaddr, (s.tab k).ipaddr⟩ :=
  rfl

@[simp] theorem EthArp.bump_hwaddr (i : Fin len) :
    ((s.bump k).tab i).hwaddr = (s.tab i).hwaddr := by
  rw [EthArp.bump_tab]
  by_cases h : i = k
  · rw [h, Function.update_self]
  · rw [Function.update_of_ne h]

@[simp] theorem EthArp.bump_ipaddr (i : Fin len) :
    ((s.bump k).tab i).ipaddr = (s.tab i).ipaddr := by
  rw [EthArp.bump_tab]
  by_cases h : i = k
  · rw [h, Function.update_self]
  · rw [Function.update_of_ne h]

end Store

/-! ## What the table is for -/

/-- The hardware address that was added last for each IP address. -/
abbrev Latest := BitVec 32 → Option HwAddr

def Latest.note (m : Latest) : ArpCall → Latest
  | .add ipaddr hwaddr => Function.update m ipaddr (some hwaddr)
  | .lookup _ => m

/-- Addresses that are not zero are added. -/
def ArpCall.Nonzero : ArpCall → Prop
  | .add ipaddr hwaddr => ipaddr ≠ 0 ∧ hwaddr ≠ 0
  | .lookup _ => True

instance : DecidablePred ArpCall.Nonzero
  | .add _ _ => inferInstanceAs (Decidable (_ ∧ _))
  | .lookup _ => isTrue trivial

variable {len : Nat}

/-- No two entries have one IP address. -/
def DistinctIps (tab : Fin len → EthArpEntry) : Prop :=
  ∀ i j, (tab i).ipaddr ≠ 0 → (tab i).ipaddr = (tab j).ipaddr → i = j

/-- A lookup gives nothing or the latest address. -/
def NotStale (s : EthArp len) (m : Latest) (ipaddr : BitVec 32) : Prop :=
  (etharpLookup s ipaddr).1 = none ∨ (etharpLookup s ipaddr).1 = m ipaddr

/-- A run from a state never has a duplicate address, and no lookup of another address than
that of the broadcast gives a stale answer. -/
def NeverStale (s : EthArp len) (m : Latest) (calls : List ArpCall) : Prop :=
  (∀ pre, pre <+: calls → ∃ t, exec arpStep s pre = some t ∧ DistinctIps t.tab) ∧
    ∀ pre ipaddr, pre ++ [.lookup ipaddr] <+: calls → ipaddr ≠ inaddrBroadcast →
      ∃ t, exec arpStep s pre = some t ∧ NotStale t (pre.foldl Latest.note m) ipaddr

/-- The steps that do no harm: an address is not added whose slot comes before a slot with the
same hardware address, and zero is not looked up while a slot is empty. -/
def Harmless (s : EthArp len) : ArpCall → Prop
  | .add ipaddr hwaddr =>
      ∀ i j, i < j → (s.tab i).ipaddr = ipaddr → (s.tab j).hwaddr ≠ hwaddr
  | .lookup ipaddr => ipaddr = 0 → ∀ i, (s.tab i).ipaddr ≠ 0

instance (s : EthArp len) : DecidablePred (Harmless s)
  | .add ipaddr hwaddr => inferInstanceAs (Decidable (∀ i j, i < j →
      (s.tab i).ipaddr = ipaddr → (s.tab j).hwaddr ≠ hwaddr))
  | .lookup ipaddr => inferInstanceAs (Decidable (ipaddr = 0 → ∀ i, (s.tab i).ipaddr ≠ 0))

/-! ## The scan -/

section Scan

variable {tab : Fin len → EthArpEntry} {ipaddr : BitVec 32} {hwaddr : HwAddr}

/-- A slot found stays found. -/
theorem etharpAddLoop_isSome {ps : List (Fin len)} : ∀ {min : Nat} {new : Option (Fin len)},
    new.isSome → (etharpAddLoop tab ipaddr hwaddr ps min new).isSome := by
  induction ps with
  | nil => exact fun h => h
  | cons p ps ih =>
      intro min new h
      rw [etharpAddLoop]
      split_ifs
      · exact ih rfl
      · exact ih rfl
      · exact ih h

/-- The last match is kept to the end. -/
theorem etharpAddLoop_kept {ps : List (Fin len)} {new : Option (Fin len)}
    (h : ∀ p ∈ ps, ¬ SlotMatches tab ipaddr hwaddr p) :
    etharpAddLoop tab ipaddr hwaddr ps 0 new = new := by
  induction ps with
  | nil => rfl
  | cons p ps ih =>
      rw [etharpAddLoop, if_neg (h p List.mem_cons_self), if_neg (Nat.not_lt_zero _)]
      exact ih fun q hq => h q (List.mem_cons_of_mem _ hq)

/-- A scan with a match finds the last one. -/
theorem etharpAddLoop_matches {ps : List (Fin len)} (hsorted : ps.Pairwise (· < ·)) :
    ∀ {min : Nat} {new : Option (Fin len)}, (∃ p ∈ ps, SlotMatches tab ipaddr hwaddr p) →
      ∃ k, etharpAddLoop tab ipaddr hwaddr ps min new = some k ∧ SlotMatches tab ipaddr hwaddr k ∧
        ∀ p ∈ ps, SlotMatches tab ipaddr hwaddr p → p ≤ k := by
  induction ps with
  | nil =>
      rintro min new ⟨p, hp, -⟩
      exact absurd hp List.not_mem_nil
  | cons p ps ih =>
      intro min new hmatch
      obtain ⟨hp, hps⟩ := List.pairwise_cons.mp hsorted
      by_cases hrest : ∃ q ∈ ps, SlotMatches tab ipaddr hwaddr q
      · -- the remaining slots decide
        have hstep : ∃ min' new', etharpAddLoop tab ipaddr hwaddr (p :: ps) min new =
            etharpAddLoop tab ipaddr hwaddr ps min' new' := by
          rw [etharpAddLoop]
          split_ifs
          · exact ⟨_, _, rfl⟩
          · exact ⟨_, _, rfl⟩
          · exact ⟨_, _, rfl⟩
        obtain ⟨min', new', hstep⟩ := hstep
        obtain ⟨k, hrun, hk, hlast⟩ := @ih hps min' new' hrest
        obtain ⟨q, hq, hqm⟩ := hrest
        refine ⟨k, hstep.trans hrun, hk, fun r hr hrm => ?_⟩
        rcases List.mem_cons.mp hr with rfl | hr
        · exact (hp q hq).le.trans (hlast q hq hqm)
        · exact hlast r hr hrm
      · have hnone : ∀ q ∈ ps, ¬ SlotMatches tab ipaddr hwaddr q :=
          fun q hq hqm => hrest ⟨q, hq, hqm⟩
        have hpm : SlotMatches tab ipaddr hwaddr p := by
          obtain ⟨q, hq, hqm⟩ := hmatch
          rcases List.mem_cons.mp hq with rfl | hq
          · exact hqm
          · exact absurd hqm (hnone q hq)
        refine ⟨p, ?_, hpm, fun r hr hrm => ?_⟩
        · rw [etharpAddLoop, if_pos hpm, etharpAddLoop_kept hnone]
        · rcases List.mem_cons.mp hr with rfl | hr
          · exact le_refl _
          · exact absurd hrm (hnone r hr)

/-- The scan of a whole table finds a slot. -/
theorem etharpAddLoop_finds (hlen : 0 < len) :
    ∃ k, etharpAddLoop tab ipaddr hwaddr (List.finRange len) 100000 none = some k := by
  obtain ⟨n, rfl⟩ := Nat.exists_eq_succ_of_ne_zero hlen.ne'
  have hcount : (tab 0).count.toNat < 100000 := lt_of_lt_of_le (tab 0).count.isLt (by decide)
  rw [List.finRange_succ, etharpAddLoop, if_pos hcount]
  split_ifs
  · exact Option.isSome_iff_exists.mp (etharpAddLoop_isSome rfl)
  · exact Option.isSome_iff_exists.mp (etharpAddLoop_isSome rfl)

end Scan

/-! ## One call -/

/-- The entries are distinct and up to date, and zero was never added. -/
structure UpToDate (s : EthArp len) (m : Latest) : Prop where
  distinct : DistinctIps s.tab
  latest : ∀ i, (s.tab i).ipaddr ≠ 0 → m (s.tab i).ipaddr = some (s.tab i).hwaddr
  zero : m 0 = none

theorem UpToDate.start : UpToDate (EthArp.start len) fun _ => none where
  distinct _ _ hi := absurd rfl hi
  latest _ hi := absurd rfl hi
  zero := rfl

/-- An addition writes one slot: the last that matches, if there is one. -/
theorem etharpAdd_slot (hlen : 0 < len) (s : EthArp len) (ipaddr : BitVec 32) (hwaddr : HwAddr) :
    ∃ k, etharpAdd s ipaddr hwaddr = some (s.store k ipaddr hwaddr) ∧
      ((∃ p, SlotMatches s.tab ipaddr hwaddr p) → SlotMatches s.tab ipaddr hwaddr k) ∧
      ∀ p, SlotMatches s.tab ipaddr hwaddr p → p ≤ k := by
  unfold etharpAdd
  by_cases hmatch : ∃ p, SlotMatches s.tab ipaddr hwaddr p
  · obtain ⟨p, hp⟩ := hmatch
    obtain ⟨k, hrun, hk, hlast⟩ := @etharpAddLoop_matches _ s.tab ipaddr hwaddr _
      (List.pairwise_lt_finRange len) 100000 none ⟨p, List.mem_finRange p, hp⟩
    rw [hrun]
    exact ⟨k, rfl, fun _ => hk, fun q => hlast q (List.mem_finRange q)⟩
  · obtain ⟨k, hrun⟩ := @etharpAddLoop_finds _ s.tab ipaddr hwaddr hlen
    rw [hrun]
    exact ⟨k, rfl, fun h => absurd h hmatch, fun q hq => absurd ⟨q, hq⟩ hmatch⟩

/-- A harmless addition keeps the table up to date. -/
theorem UpToDate.add (hlen : 0 < len) {s : EthArp len} {m : Latest} (h : UpToDate s m)
    {ipaddr : BitVec 32} {hwaddr : HwAddr} (hip : ipaddr ≠ 0)
    (hok : Harmless s (.add ipaddr hwaddr)) :
    ∃ t, etharpAdd s ipaddr hwaddr = some t ∧ UpToDate t (m.note (.add ipaddr hwaddr)) := by
  obtain ⟨k, hrun, hk, hlast⟩ := etharpAdd_slot hlen s ipaddr hwaddr
  -- no other slot has the address
  have hother : ∀ i, i ≠ k → (s.tab i).ipaddr ≠ ipaddr := by
    intro i hik hi
    have hlt : i < k := lt_of_le_of_ne (hlast i (Or.inl hi)) hik
    rcases hk ⟨i, Or.inl hi⟩ with hkip | hkhw
    · exact hik (h.distinct i k (hi ▸ hip) (hi.trans hkip.symm))
    · exact hok i k hlt hi hkhw
  refine ⟨_, hrun, fun i j hi hij => ?_, fun i hi => ?_, ?_⟩
  · by_cases hik : i = k
    · by_cases hjk : j = k
      · exact hik.trans hjk.symm
      · rw [hik, s.store_self, s.store_of_ne k _ _ hjk] at hij
        exact absurd hij.symm (hother j hjk)
    · rw [s.store_of_ne k _ _ hik] at hi hij
      by_cases hjk : j = k
      · rw [hjk, s.store_self] at hij
        exact absurd hij (hother i hik)
      · rw [s.store_of_ne k _ _ hjk] at hij
        exact h.distinct i j hi hij
  · by_cases hik : i = k
    · rw [hik, s.store_self]
      exact Function.update_self _ _ _
    · rw [s.store_of_ne k _ _ hik] at hi ⊢
      exact (Function.update_of_ne (hother i hik) _ _).trans (h.latest i hi)
  · exact (Function.update_of_ne hip.symm _ _).trans h.zero

/-- An addition that is not harmless makes a duplicate. -/
theorem add_duplicates (hlen : 0 < len) {s : EthArp len} {ipaddr : BitVec 32} {hwaddr : HwAddr}
    (hip : ipaddr ≠ 0) (hbad : ¬ Harmless s (.add ipaddr hwaddr)) :
    ∃ t, etharpAdd s ipaddr hwaddr = some t ∧ ¬ DistinctIps t.tab := by
  obtain ⟨k, hrun, -, hlast⟩ := etharpAdd_slot hlen s ipaddr hwaddr
  unfold Harmless at hbad
  push Not at hbad
  obtain ⟨i, j, hij, hi, hj⟩ := hbad
  have hik : i ≠ k := (hij.trans_le (hlast j (Or.inr hj))).ne
  refine ⟨_, hrun, fun hd => hik (hd i k ?_ ?_)⟩
  · rw [s.store_of_ne k _ _ hik, hi]
    exact hip
  · rw [s.store_of_ne k _ _ hik, s.store_self, hi]

/-- A lookup answers for the broadcast address, from a slot with the address, or finds that
there is none; no address in the table changes. -/
theorem etharpLookup_cases (s : EthArp len) (ipaddr : BitVec 32) :
    (ipaddr = inaddrBroadcast ∨
      (∃ p, (s.tab p).ipaddr = ipaddr ∧ (etharpLookup s ipaddr).1 = some (s.tab p).hwaddr) ∨
      (∀ p, (s.tab p).ipaddr ≠ ipaddr) ∧ (etharpLookup s ipaddr).1 = none) ∧
    ∀ i, ((etharpLookup s ipaddr).2.tab i).ipaddr = (s.tab i).ipaddr ∧
      ((etharpLookup s ipaddr).2.tab i).hwaddr = (s.tab i).hwaddr := by
  have htab : (ipaddr = inaddrBroadcast ∨
      (∃ p, (s.tab p).ipaddr = ipaddr ∧ (lookupTab s ipaddr).1 = some (s.tab p).hwaddr) ∨
      (∀ p, (s.tab p).ipaddr ≠ ipaddr) ∧ (lookupTab s ipaddr).1 = none) ∧
      ∀ i, ((lookupTab s ipaddr).2.tab i).ipaddr = (s.tab i).ipaddr ∧
        ((lookupTab s ipaddr).2.tab i).hwaddr = (s.tab i).hwaddr := by
    unfold lookupTab
    by_cases hb : ipaddr = inaddrBroadcast
    · rw [if_pos hb]
      exact ⟨Or.inl hb, fun i => ⟨rfl, rfl⟩⟩
    · rw [if_neg hb]
      cases hfind : (List.finRange len).find? fun p => decide ((s.tab p).ipaddr = ipaddr) with
      | none =>
          refine ⟨Or.inr (Or.inr ⟨fun p hp => ?_, rfl⟩), fun i => ⟨rfl, rfl⟩⟩
          exact absurd (decide_eq_true hp) (List.find?_eq_none.mp hfind p (List.mem_finRange p))
      | some p =>
          have hp : (s.tab p).ipaddr = ipaddr := by simpa using List.find?_some hfind
          exact ⟨Or.inr (Or.inl ⟨p, hp, rfl⟩),
            fun i => ⟨EthArp.bump_ipaddr _ p i, EthArp.bump_hwaddr _ p i⟩⟩
  unfold etharpLookup
  cases s.cache with
  | none =>
      dsimp only
      split_ifs with hip
      · exact ⟨Or.inl hip.symm, fun i => ⟨rfl, rfl⟩⟩
      · exact htab
  | some p =>
      dsimp only
      split_ifs with hip
      · exact ⟨Or.inr (Or.inl ⟨p, hip, rfl⟩),
          fun i => ⟨EthArp.bump_ipaddr _ p i, EthArp.bump_hwaddr _ p i⟩⟩
      · exact htab

theorem UpToDate.lookup {s : EthArp len} {m : Latest} (h : UpToDate s m) (ipaddr : BitVec 32) :
    UpToDate (etharpLookup s ipaddr).2 m := by
  have hsame := (etharpLookup_cases s ipaddr).2
  refine ⟨fun i j hi hij => ?_, fun i hi => ?_, h.zero⟩
  · rw [(hsame i).1] at hi hij
    rw [(hsame j).1] at hij
    exact h.distinct i j hi hij
  · rw [(hsame i).1] at hi ⊢
    rw [(hsame i).2]
    exact h.latest i hi

/-- A lookup in an up-to-date table is right exactly if it is harmless. -/
theorem UpToDate.notStale_iff {s : EthArp len} {m : Latest} (h : UpToDate s m)
    {ipaddr : BitVec 32} (hip : ipaddr ≠ inaddrBroadcast) :
    NotStale s m ipaddr ↔ Harmless s (.lookup ipaddr) := by
  unfold NotStale Harmless
  rcases (etharpLookup_cases s ipaddr).1 with hb | ⟨p, hp, hans⟩ | ⟨hnone, hans⟩
  · exact absurd hb hip
  · rw [hans]
    by_cases hzero : ipaddr = 0
    · refine iff_of_false ?_ fun hok => hok hzero p (hp.trans hzero)
      rw [hzero, h.zero]
      rintro (heq | heq)
      · cases heq
      · cases heq
    · refine iff_of_true (Or.inr ?_) fun hz => absurd hz hzero
      rw [← hp, h.latest p (hp ▸ hzero)]
  · exact iff_of_true (Or.inl hans) fun hz i hi => hnone i (hi.trans hz.symm)

/-! ## Runs -/

theorem neverStale_nil {s : EthArp len} {m : Latest} : NeverStale s m [] ↔ DistinctIps s.tab := by
  unfold NeverStale
  constructor
  · rintro ⟨hd, -⟩
    obtain ⟨t, hrun, ht⟩ := hd [] List.nil_prefix
    obtain rfl := Option.some.inj hrun
    exact ht
  · intro hd
    refine ⟨fun pre hpre => ?_, fun pre ipaddr hpre => ?_⟩
    · obtain rfl := List.prefix_nil.mp hpre
      exact ⟨s, rfl, hd⟩
    · exact absurd (List.prefix_nil.mp hpre) (List.append_ne_nil_of_right_ne_nil _ (List.cons_ne_nil _ _))

/-- A run is right if its first call is and the rest is. -/
theorem neverStale_cons {s : EthArp len} {m : Latest} {call : ArpCall} {calls : List ArpCall} :
    NeverStale s m (call :: calls) ↔ DistinctIps s.tab ∧
      (∀ ipaddr, call = .lookup ipaddr → ipaddr ≠ inaddrBroadcast → NotStale s m ipaddr) ∧
      ∃ t, arpStep s call = some t ∧ NeverStale t (m.note call) calls := by
  have hexec : ∀ pre, exec arpStep s (call :: pre) =
      (arpStep s call).bind fun t => exec arpStep t pre := fun _ => rfl
  constructor
  · rintro ⟨hd, hans⟩
    obtain ⟨t₀, hrun, ht₀⟩ := hd [] List.nil_prefix
    obtain rfl := Option.some.inj hrun
    obtain ⟨t, hrun, -⟩ := hd [call] (List.cons_prefix_cons.mpr ⟨rfl, List.nil_prefix⟩)
    obtain ⟨t', hstep, hrest⟩ := exec_cons hrun
    obtain rfl := Option.some.inj hrest
    refine ⟨ht₀, ?_, t', hstep, fun pre hpre => ?_, fun pre ipaddr hpre hip => ?_⟩
    · rintro ipaddr rfl hip
      obtain ⟨u, hu, hnot⟩ := hans [] ipaddr (List.cons_prefix_cons.mpr ⟨rfl, List.nil_prefix⟩) hip
      obtain rfl := Option.some.inj hu
      exact hnot
    · obtain ⟨u, hu, hdu⟩ := hd (call :: pre) (List.cons_prefix_cons.mpr ⟨rfl, hpre⟩)
      rw [hexec, hstep, Option.bind_some] at hu
      exact ⟨u, hu, hdu⟩
    · obtain ⟨u, hu, hnot⟩ := hans (call :: pre) ipaddr
        (List.cons_prefix_cons.mpr ⟨rfl, hpre⟩) hip
      rw [hexec, hstep, Option.bind_some] at hu
      exact ⟨u, hu, hnot⟩
  · rintro ⟨hd, hcall, t, hstep, hdt, hanst⟩
    refine ⟨fun pre hpre => ?_, fun pre ipaddr hpre hip => ?_⟩
    · cases pre with
      | nil => exact ⟨s, rfl, hd⟩
      | cons c pre =>
          obtain ⟨rfl, hrest⟩ := List.cons_prefix_cons.mp hpre
          rw [hexec, hstep]
          exact hdt pre hrest
    · cases pre with
      | nil =>
          obtain ⟨heq, -⟩ := List.cons_prefix_cons.mp hpre
          exact ⟨s, rfl, hcall ipaddr heq.symm hip⟩
      | cons c pre =>
          obtain ⟨rfl, hrest⟩ := List.cons_prefix_cons.mp hpre
          rw [hexec, hstep]
          exact hanst pre ipaddr hrest hip

theorem NeverStale.distinct {s : EthArp len} {m : Latest} {calls : List ArpCall}
    (h : NeverStale s m calls) : DistinctIps s.tab := by
  obtain ⟨t, hrun, ht⟩ := h.1 [] List.nil_prefix
  obtain rfl := Option.some.inj hrun
  exact ht

/-- A run from a table that is up to date is right exactly if all its calls are harmless. -/
theorem neverStale_from (hlen : 0 < len) {calls : List ArpCall}
    (hnz : ∀ call ∈ calls, call.Nonzero) : ∀ {s : EthArp len} {m : Latest}, UpToDate s m →
      (NeverStale s m calls ↔ Along arpStep Harmless s calls) := by
  induction calls with
  | nil => exact fun h => iff_of_true (neverStale_nil.mpr h.distinct) trivial
  | cons call calls ih =>
      intro s m h
      have hrest := @ih fun c hc => hnz c (List.mem_cons_of_mem _ hc)
      rw [neverStale_cons]
      cases call with
      | add ipaddr hwaddr =>
          have hip := (hnz _ List.mem_cons_self).1
          by_cases hok : Harmless s (.add ipaddr hwaddr)
          · obtain ⟨t, hstep, ht⟩ := h.add hlen hip hok
            constructor
            · rintro ⟨-, -, t', hstep', hrun⟩
              refine ⟨hok, fun u hu => ?_⟩
              obtain rfl := Option.some.inj (hstep'.symm.trans hu)
              obtain rfl := Option.some.inj (hstep.symm.trans hu)
              exact (hrest ht).mp hrun
            · rintro ⟨-, hrun⟩
              refine ⟨h.distinct, fun _ heq => ?_, t, hstep, (hrest ht).mpr (hrun t hstep)⟩
              cases heq
          · obtain ⟨t, hstep, ht⟩ := add_duplicates hlen hip hok
            refine iff_of_false ?_ fun hall => hok hall.1
            rintro ⟨-, -, t', hstep', hrun⟩
            obtain rfl := Option.some.inj (hstep'.symm.trans hstep)
            exact ht hrun.distinct
      | lookup ipaddr =>
          have hnext := hrest (h.lookup ipaddr)
          constructor
          · rintro ⟨-, hans, t, hstep, hrun⟩
            obtain rfl := Option.some.inj hstep
            refine ⟨?_, fun u hu => ?_⟩
            · by_cases hip : ipaddr = inaddrBroadcast
              · rintro rfl
                exact absurd hip (by decide)
              · exact (h.notStale_iff hip).mp (hans ipaddr rfl hip)
            · obtain rfl := Option.some.inj hu
              exact hnext.mp hrun
          · rintro ⟨hok, hrun⟩
            refine ⟨h.distinct, fun a heq hip => ?_, _, rfl, hnext.mpr (hrun _ rfl)⟩
            obtain rfl := ArpCall.lookup.inj heq
            exact (h.notStale_iff hip).mpr hok

/-- In a run from the empty table no two entries have one IP address and no lookup is stale,
exactly if every call of the run is harmless. -/
theorem etharp_neverStale (hlen : 0 < len) {calls : List ArpCall}
    (hnz : ∀ call ∈ calls, call.Nonzero) :
    NeverStale (EthArp.start len) (fun _ => none) calls ↔
      Along arpStep Harmless (EthArp.start len) calls :=
  neverStale_from hlen hnz UpToDate.start

/-- An address that is added and looked up. -/
theorem etharp_neverStale_answer :
    NeverStale (EthArp.start 2) (fun _ => none) [.add 1 fun _ => 2, .lookup 1] :=
  (etharp_neverStale (by decide) (by decide)).mpr (by decide)

/-- Two hosts, the second with the address of the first at the end. -/
def takenAddress : List ArpCall :=
  [.add 1 fun _ => 2, .lookup 1, .add 3 fun _ => 4, .add 1 fun _ => 4]

/-- Two slots are enough for a duplicate. -/
theorem takenAddress_stale :
    ¬ ∀ len : Nat, 0 < len → ∀ calls : List ArpCall, (∀ call ∈ calls, call.Nonzero) →
      NeverStale (EthArp.start len) (fun _ => none) calls := by
  intro hall
  have hrun := hall 2 (by decide) takenAddress (by decide)
  obtain ⟨t, ht, hd⟩ := hrun.1 takenAddress (List.prefix_refl _)
  have hips : (exec arpStep (EthArp.start 2) takenAddress).map
      (fun t => ((t.tab 0).ipaddr, (t.tab 1).ipaddr)) = some (1, 1) := by decide
  rw [ht, Option.map_some, Option.some.injEq, Prod.mk.injEq] at hips
  have hsame : (0 : Fin 2) = 1 := hd 0 1 (by rw [hips.1]; decide) (hips.1.trans hips.2.symm)
  exact absurd hsame (by decide)

end YardIce.Net
