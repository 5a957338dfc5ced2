import Mathlib.Data.BitVec
import Mathlib.Data.List.Sort
import Mathlib.Tactic.SplitIfs

/-!
# The routing table

`__route_add`, `__route_del` and `__route_lookup` work on an array of `IP_ROUTE_TABLE_LEN`
slots. The used ones come first, in the order of their masks.

## Implementation notes

A pointer into the array is an index, and a function gives `none` where it would access
memory outside of the array. The loops count down as in the source. Addresses and masks are
in network byte order on a little-endian host.
-/

namespace YardIce.Net

/-! ## The table -/

/-- `struct route`; the interface of a free slot is `none`. -/
structure Route (ι : Type) where
  dst : BitVec 32
  gateway : BitVec 32
  genmask : BitVec 32
  ifn : Option ι
deriving DecidableEq

/-- A cleared slot. -/
def Route.free {ι : Type} : Route ι := ⟨0, 0, 0, none⟩

section Source

variable {ι : Type} (len : Nat) (tab : List (Route ι))

/-- The loop of `__route_lookup`. -/
def lookupLoop (target : BitVec 32) : Nat → Nat → Option (Option Nat)
  | 0, _ => some none
  | i + 1, p =>
      (tab[p]?).bind fun r =>
        if r.ifn.isNone then some none
        else if target &&& r.genmask = r.dst then some (some p)
        else lookupLoop target i (p + 1)

/-- `__route_lookup`: the index of an entry. -/
def routeLookup (target : BitVec 32) : Option (Option Nat) := lookupLoop tab target len 0

/-- The first loop of `__route_del`: the counter and the pointer behind it, unless it has
returned. -/
def findLoop (dst : BitVec 32) : Nat → Nat → Option (Option (Nat × Nat))
  | 0, p => some (some (0, p))
  | i + 1, p =>
      (tab[p]?).bind fun r =>
        if r.ifn.isNone then some none
        else if dst = r.dst then some (some (i, p))
        else findLoop dst i (p + 1)

/-- The second loop of `__route_del`, which closes the gap. -/
def shiftLoop : Nat → Nat → List (Route ι) → Option (Nat × List (Route ι))
  | 0, p, tab => some (p, tab)
  | i + 1, p, tab =>
      (tab[p + 1]?).bind fun next =>
        if next.ifn.isNone then some (p, tab) else shiftLoop i (p + 1) (tab.set p next)

/-- `__route_del`: the result and the table. -/
def routeDel (dst : BitVec 32) : Option (Int × List (Route ι)) :=
  (findLoop tab dst len 0).bind fun
    | none => some (-1, tab)
    | some (i, p) =>
        if i = 0 then some (-1, tab)
        else (shiftLoop i p tab).map fun r => (0, r.2.set r.1 Route.free)

/-- The loop of `__route_add` that finds the position by the mask. -/
def placeLoop (mask : BitVec 32) : Nat → Nat → Option (Nat × Nat)
  | 0, p => some (0, p)
  | i + 1, p =>
      (tab[p]?).bind fun r => if r.genmask ≤ mask then some (i + 1, p) else placeLoop mask i (p + 1)

/-- The loop of `__route_add` that counts the entries behind the position. -/
def countLoop : Nat → Nat → Nat → Option (Option Nat)
  | i, p, n =>
      (tab[p]?).bind fun r =>
        if r.ifn.isNone then some (some n)
        else
          match i with
          | 0 => some none
          | 1 => some none
          | i + 2 => countLoop (i + 1) (p + 1) (n + 1)

/-- The loop of `__route_add` that moves entries by one slot, and the last store. -/
def rotateLoop : Nat → Nat → Route ι → List (Route ι) → Option (List (Route ι))
  | 0, p, new, tab => if p < tab.length then some (tab.set p new) else none
  | n + 1, p, new, tab => (tab[p]?).bind fun r => rotateLoop n (p + 1) r (tab.set p new)

/-- What `__route_add` does after the deletion. -/
def routeInsert (new : Route ι) : Option (Int × List (Route ι)) :=
  (placeLoop tab new.genmask len 0).bind fun (i, p) =>
    if i = 0 then some (-1, tab)
    else
      (countLoop tab i p 0).bind fun
        | none => some (-1, tab)
        | some n => (rotateLoop n p new tab).map fun tab => (0, tab)

/-- `__route_add`. -/
def routeAdd (dst mask gw : BitVec 32) (ifn : ι) : Option (Int × List (Route ι)) :=
  (routeDel len tab dst).bind fun (_, tab) => routeInsert len tab ⟨dst, gw, mask, some ifn⟩

/-- The loop of `ipv4_route_enum` with a callback that returns zero: the entries that it
visits. -/
def enumLoop : Nat → Nat → Option (List (Route ι))
  | 0, _ => some []
  | i + 1, p =>
      (tab[p]?).bind fun r =>
        if r.ifn.isNone then some [] else (enumLoop i (p + 1)).map (r :: ·)

/-- `ipv4_route_enum`. -/
def ipv4RouteEnum : Option (List (Route ι)) := enumLoop tab (len - 1) 0

end Source

/-! ## Masks -/

/-- The bytes in the other order. -/
def byteSwap (x : BitVec 32) : BitVec 32 :=
  (x.extractLsb' 0 8 ++ x.extractLsb' 8 8 ++ x.extractLsb' 16 8 ++ x.extractLsb' 24 8).cast rfl

/-- The mask of a prefix, in network byte order. -/
def netmask (k : Nat) : BitVec 32 := byteSwap (BitVec.allOnes 32 <<< (32 - k))

/-- The number of ones of a mask. -/
def prefixLen (mask : BitVec 32) : Nat := (List.range 32).countP mask.getLsbD

/-- The mask is that of a prefix. -/
def Contiguous (mask : BitVec 32) : Prop := ∃ k ≤ 32, mask = netmask k

theorem prefixLen_netmask : ∀ k < 33, prefixLen (netmask k) = k := by decide

theorem netmask_mono : ∀ k < 33, ∀ k' < 33, netmask k ≤ netmask k' → k ≤ k' := by
  decide

/-- On contiguous masks the order of the integers is that of the prefixes. -/
theorem prefixLen_le {mask mask' : BitVec 32} (h : Contiguous mask) (h' : Contiguous mask')
    (hle : mask ≤ mask') : prefixLen mask ≤ prefixLen mask' := by
  obtain ⟨k, hk, rfl⟩ := h
  obtain ⟨k', hk', rfl⟩ := h'
  rw [prefixLen_netmask k (by lia), prefixLen_netmask k' (by lia)]
  exact netmask_mono k (by lia) k' (by lia) hle

/-! ## What a table holds -/

/-- An entry of the table. -/
structure Entry (ι : Type) where
  dst : BitVec 32
  gateway : BitVec 32
  genmask : BitVec 32
  ifn : ι

variable {ι : Type}

def Entry.route (e : Entry ι) : Route ι := ⟨e.dst, e.gateway, e.genmask, some e.ifn⟩

/-- What the callers of `__route_add` give. -/
structure Entry.Sane (e : Entry ι) : Prop where
  mask : Contiguous e.genmask
  dst : e.dst &&& e.genmask = e.dst

/-- The entry routes the address. -/
def Entry.Matches (e : Entry ι) (target : BitVec 32) : Prop := target &&& e.genmask = e.dst

instance (e : Entry ι) (target : BitVec 32) : Decidable (e.Matches target) :=
  inferInstanceAs (Decidable (_ = _))

/-- The slots hold the entries and then nothing. -/
structure Slots (len : Nat) (tab : List (Route ι)) (es : List (Entry ι)) : Prop where
  slots : tab = es.map Entry.route ++ List.replicate (len - es.length) Route.free
  le : es.length ≤ len

/-- The used slots are sorted by their masks and have distinct destinations. -/
structure PrefixTable (len : Nat) (tab : List (Route ι)) (es : List (Entry ι)) : Prop
    extends Slots len tab es where
  sane : ∀ e ∈ es, e.Sane
  sorted : es.Pairwise fun a b => b.genmask ≤ a.genmask
  distinct : es.Pairwise fun a b => a.dst ≠ b.dst

theorem Slots.used {len : Nat} {tab : List (Route ι)} {es : List (Entry ι)}
    (h : Slots len tab es) {p : Nat} (hp : p < es.length) : tab[p]? = some es[p].route := by
  rw [h.slots, List.getElem?_append_left (by rw [List.length_map]; exact hp),
    List.getElem?_map, List.getElem?_eq_getElem hp]
  rfl

theorem Slots.unused {len : Nat} {tab : List (Route ι)} {es : List (Entry ι)}
    (h : Slots len tab es) {p : Nat} (hp : es.length ≤ p) (hlen : p < len) :
    tab[p]? = some Route.free := by
  rw [h.slots, List.getElem?_append_right (by rw [List.length_map]; exact hp),
    List.getElem?_replicate, if_pos (by rw [List.length_map]; lia)]

/-! ## Lookups -/

theorem lookupLoop_eq {len : Nat} {tab : List (Route ι)} {es : List (Entry ι)}
    (h : Slots len tab es) (target : BitVec 32) : ∀ {i p : Nat}, p + i = len →
      lookupLoop tab target i p =
        some (((es.drop p).findIdx? fun e => target &&& e.genmask = e.dst).map (· + p)) := by
  intro i
  induction i with
  | zero =>
      intro p hp
      have hle := h.le
      rw [List.drop_eq_nil_of_le (by lia)]
      rfl
  | succ i ih =>
      intro p hp
      rw [lookupLoop]
      by_cases hused : p < es.length
      · rw [h.used hused, Option.bind_some, List.drop_eq_getElem_cons hused, List.findIdx?_cons]
        by_cases hmatch : target &&& es[p].genmask = es[p].dst
        · simp [Entry.route, hmatch]
        · have hrest := ih (p := p + 1) (by lia)
          simp only [Entry.route, Option.isNone_some, Bool.false_eq_true, if_false, hmatch,
            decide_false, hrest, Option.map_map]
          congr 2
          funext k
          simp only [Function.comp_apply]
          lia
      · rw [h.unused (by lia) (by lia), List.drop_eq_nil_of_le (by lia)]
        rfl

/-- The lookup gives an entry with the longest prefix that matches, if there is one. -/
def LookupRight (len : Nat) (tab : List (Route ι)) (es : List (Entry ι)) : Prop :=
  ∀ target, (routeLookup len tab target = some none ∧ ∀ e ∈ es, ¬ e.Matches target) ∨
    ∃ k e, routeLookup len tab target = some (some k) ∧ es[k]? = some e ∧ e.Matches target ∧
      ∀ e' ∈ es, e'.Matches target → prefixLen e'.genmask ≤ prefixLen e.genmask

theorem lookup_right {len : Nat} {tab : List (Route ι)} {es : List (Entry ι)}
    (h : PrefixTable len tab es) : LookupRight len tab es := by
  intro target
  have hrun := lookupLoop_eq h.toSlots target (i := len) (p := 0) (Nat.zero_add len)
  rw [List.drop_zero] at hrun
  cases hfind : es.findIdx? fun e => decide (target &&& e.genmask = e.dst) with
  | none =>
      left
      rw [hfind] at hrun
      refine ⟨hrun, fun e he hmatch => ?_⟩
      have hnone := List.findIdx?_eq_none_iff.mp hfind e he
      exact absurd hmatch (of_decide_eq_false hnone)
  | some k =>
      right
      rw [hfind] at hrun
      obtain ⟨hk, hmatch, hbefore⟩ := List.findIdx?_eq_some_iff_getElem.mp hfind
      refine ⟨k, es[k], hrun, List.getElem?_eq_getElem hk, of_decide_eq_true hmatch,
        fun e' he' hmatch' => ?_⟩
      obtain ⟨j, hj, rfl⟩ := List.getElem_of_mem he'
      rcases Nat.lt_trichotomy j k with hlt | rfl | hgt
      · exact absurd (decide_eq_true hmatch') (hbefore j hlt)
      · exact Nat.le_refl _
      · exact prefixLen_le (h.sane _ (List.getElem_mem hj)).mask
          (h.sane _ (List.getElem_mem hk)).mask (List.pairwise_iff_getElem.mp h.sorted k j hk hj hgt)

/-! ## Deletions -/

theorem findLoop_eq {len : Nat} {tab : List (Route ι)} {es : List (Entry ι)}
    (h : Slots len tab es) (dst : BitVec 32) : ∀ {i p : Nat}, p + i = len → p ≤ es.length →
      findLoop tab dst i p =
        some (match (es.drop p).findIdx? fun e => decide (dst = e.dst) with
          | some k => some (len - (p + k) - 1, p + k)
          | none => if es.length = len then some (0, len) else none) := by
  intro i
  induction i with
  | zero =>
      intro p hp hle
      have hle' := h.le
      rw [List.drop_eq_nil_of_le (by lia), findLoop, List.findIdx?_nil]
      dsimp only
      rw [if_pos (by lia), show p = len by lia]
  | succ i ih =>
      intro p hp hle
      rw [findLoop]
      by_cases hused : p < es.length
      · rw [h.used hused, Option.bind_some, List.drop_eq_getElem_cons hused, List.findIdx?_cons]
        by_cases hmatch : dst = es[p].dst
        · simp only [Entry.route, Option.isNone_some, Bool.false_eq_true, if_false, hmatch,
            if_true, decide_true, Nat.add_zero, Option.some.injEq, Prod.mk.injEq, and_true]
          lia
        · have hrest := ih (p := p + 1) (by lia) hused
          simp only [Entry.route, Option.isNone_some, Bool.false_eq_true, if_false, hmatch,
            decide_false, hrest]
          cases (es.drop (p + 1)).findIdx? fun e => decide (dst = e.dst) with
          | none => rfl
          | some k =>
              simp only [Option.map_some, Option.some.injEq, Prod.mk.injEq]
              lia
      · rw [h.unused (by lia) (by lia), List.drop_eq_nil_of_le (by lia)]
        simp only [Option.bind_some, Route.free, Option.isNone_none, if_true, List.findIdx?_nil]
        rw [if_neg (by lia)]

/-- The gap at `x` is closed by the used slots `us` behind it. -/
theorem shiftLoop_eq {us vs : List (Route ι)} (hus : ∀ r ∈ us, r.ifn.isNone = false)
    (hvs : ∀ r ∈ vs.head?, r.ifn.isNone = true) : ∀ (pre : List (Route ι)) (x : Route ι),
      ∃ tab', shiftLoop (us.length + vs.length) pre.length (pre ++ x :: (us ++ vs)) =
          some (pre.length + us.length, tab') ∧
        tab'.set (pre.length + us.length) Route.free = pre ++ us ++ Route.free :: vs := by
  induction us with
  | nil =>
      intro pre x
      have hset : (pre ++ x :: vs).set pre.length Route.free = pre ++ Route.free :: vs := by
        rw [List.set_append_right _ _ (Nat.le_refl _), Nat.sub_self, List.set_cons_zero]
      refine ⟨pre ++ x :: vs, ?_, by rw [List.append_nil]; exact hset⟩
      cases vs with
      | nil => rfl
      | cons v vs =>
          have hv := hvs v rfl
          have hget : (pre ++ x :: v :: vs)[pre.length + 1]? = some v := by
            rw [List.getElem?_append_right (by lia), Nat.add_sub_cancel_left]
            rfl
          simp only [List.length_nil, Nat.zero_add, List.length_cons, List.nil_append, shiftLoop,
            hget, Option.bind_some, hv, if_true, Nat.add_zero]
  | cons u us ih =>
      intro pre x
      have hu := hus u List.mem_cons_self
      have hget : (pre ++ x :: u :: (us ++ vs))[pre.length + 1]? = some u := by
        rw [List.getElem?_append_right (by lia), Nat.add_sub_cancel_left]
        rfl
      have hset : (pre ++ x :: u :: (us ++ vs)).set pre.length u =
          pre ++ [u] ++ u :: (us ++ vs) := by
        rw [List.set_append_right _ _ (Nat.le_refl _), Nat.sub_self, List.set_cons_zero,
          List.append_assoc, List.singleton_append]
      obtain ⟨tab', hrun, hfree⟩ :=
        ih (fun r hr => hus r (List.mem_cons_of_mem _ hr)) (pre ++ [u]) u
      have hlen : (pre ++ [u]).length = pre.length + 1 := by
        rw [List.length_append, List.length_singleton]
      rw [hlen] at hrun hfree
      refine ⟨tab', ?_, ?_⟩
      · have hcount : (u :: us).length + vs.length = us.length + vs.length + 1 := by
          rw [List.length_cons]
          lia
        rw [hcount, List.cons_append, shiftLoop, hget, Option.bind_some, hu, if_neg
          Bool.false_ne_true, hset, hrun, List.length_cons]
        congr 2
        lia
      · rw [List.length_cons, show pre.length + (us.length + 1) = pre.length + 1 + us.length by
          lia, hfree, List.append_assoc pre, List.singleton_append]

/-- The slots behind the entries are free. -/
theorem free_head {n : Nat} :
    ∀ r ∈ (List.replicate n (Route.free : Route ι)).head?, r.ifn.isNone = true := by
  intro r hr
  cases n with
  | zero => cases hr
  | succ n =>
      obtain rfl := Option.some.inj hr
      rfl

/-- The entry of the last slot of a full table. -/
def LastOfFull (len : Nat) (es : List (Entry ι)) (dst : BitVec 32) : Prop :=
  es.length = len ∧ es.getLast?.map Entry.dst = some dst

/-- A deletion takes the entry with the destination out, or changes nothing. -/
theorem routeDel_eq {len : Nat} {tab : List (Route ι)} {es : List (Entry ι)}
    (h : Slots len tab es) (dst : BitVec 32) :
    match es.findIdx? fun e => decide (dst = e.dst) with
      | none => routeDel len tab dst = some (-1, tab)
      | some k => if k + 1 = len then routeDel len tab dst = some (-1, tab)
          else ∃ tab', routeDel len tab dst = some (0, tab') ∧ Slots len tab' (es.eraseIdx k) := by
  have hle := h.le
  have hrun := findLoop_eq h dst (i := len) (p := 0) (Nat.zero_add len) (Nat.zero_le _)
  rw [List.drop_zero] at hrun
  unfold routeDel
  rw [hrun, Option.bind_some]
  cases hfind : es.findIdx? fun e => decide (dst = e.dst) with
  | none =>
      dsimp only
      split_ifs with hfull
      · rfl
      · rfl
  | some k =>
      obtain ⟨hk, -, -⟩ := List.findIdx?_eq_some_iff_getElem.mp hfind
      dsimp only
      rw [Nat.zero_add]
      by_cases hlast : k + 1 = len
      · rw [if_pos hlast, if_pos (by lia)]
      · rw [if_neg hlast, if_neg (by lia)]
        have hsplit : tab = (es.take k).map Entry.route ++ es[k].route ::
            ((es.drop (k + 1)).map Entry.route ++
              List.replicate (len - es.length) Route.free) := by
          have hes : es = es.take k ++ es[k] :: es.drop (k + 1) := by
            rw [← List.drop_eq_getElem_cons hk, List.take_append_drop]
          rw [h.slots]
          conv_lhs => rw [hes]
          rw [List.map_append, List.map_cons, List.append_assoc, List.cons_append]
          congr 4
          rw [← hes]
        have hus : ∀ r ∈ (es.drop (k + 1)).map Entry.route, r.ifn.isNone = false := by
          intro r hr
          obtain ⟨e, -, rfl⟩ := List.mem_map.mp hr
          rfl
        obtain ⟨tab', hshift, hfree⟩ := shiftLoop_eq hus (free_head (n := len - es.length))
          ((es.take k).map Entry.route) es[k].route
        have hpre : ((es.take k).map Entry.route).length = k := by
          rw [List.length_map, List.length_take]
          lia
        have hcount : ((es.drop (k + 1)).map Entry.route).length +
            (List.replicate (len - es.length) (Route.free : Route ι)).length = len - k - 1 := by
          rw [List.length_map, List.length_drop, List.length_replicate]
          lia
        rw [hpre, hcount, ← hsplit] at hshift
        rw [hpre] at hfree
        refine ⟨_, by rw [hshift]; rfl, ?_, ?_⟩
        · dsimp only
          have hlen : (es.eraseIdx k).length = es.length - 1 := List.length_eraseIdx_of_lt hk
          have hfreed : len - (es.length - 1) = len - es.length + 1 := by lia
          rw [hfree, hlen, hfreed, List.replicate_succ, List.eraseIdx_eq_take_drop_succ,
            List.map_append]
        · rw [List.length_eraseIdx_of_lt hk]
          lia

/-! ## Insertions -/

/-- The new entry comes before the entries whose masks are not larger. -/
def Before (a b : Entry ι) : Prop := b.genmask ≤ a.genmask

instance : DecidableRel (Before (ι := ι)) :=
  fun a b => inferInstanceAs (Decidable (b.genmask ≤ a.genmask))

instance : Std.Total (Before (ι := ι)) := ⟨fun a b => BitVec.le_total b.genmask a.genmask⟩

instance : IsTrans (Entry ι) Before := ⟨fun _ _ _ hab hbc => BitVec.le_trans hbc hab⟩

/-- The entries before the position of a new one. -/
def above (mask : BitVec 32) (es : List (Entry ι)) : List (Entry ι) :=
  es.takeWhile fun e => decide ¬ e.genmask ≤ mask

theorem drop_above (mask : BitVec 32) (es : List (Entry ι)) :
    es.drop (above mask es).length = es.dropWhile fun e => decide ¬ e.genmask ≤ mask :=
  calc es.drop (above mask es).length
    _ = (above mask es ++ es.dropWhile fun e => decide ¬ e.genmask ≤ mask).drop
          (above mask es).length := by rw [above, List.takeWhile_append_dropWhile]
    _ = _ := List.drop_left

theorem placeLoop_eq {len : Nat} {tab : List (Route ι)} {es : List (Entry ι)}
    (h : Slots len tab es) (mask : BitVec 32) : ∀ {i p : Nat}, p + i = len → p ≤ es.length →
      placeLoop tab mask i p =
        some (len - (p + (above mask (es.drop p)).length), p + (above mask (es.drop p)).length) := by
  intro i
  induction i with
  | zero =>
      intro p hp hle
      have hle' := h.le
      have hnil : above mask (es.drop p) = [] := by
        rw [List.drop_eq_nil_of_le (by lia)]
        rfl
      have hend : len - (p + 0) = 0 := by lia
      rw [hnil, List.length_nil, hend]
      rfl
  | succ i ih =>
      intro p hp hle
      rw [placeLoop]
      by_cases hused : p < es.length
      · rw [h.used hused, Option.bind_some, List.drop_eq_getElem_cons hused]
        by_cases hmask : es[p].genmask ≤ mask
        · have hnil : above mask (es[p] :: es.drop (p + 1)) = [] :=
            List.takeWhile_cons_of_neg (by simpa using hmask)
          have hcount : i + 1 = len - (p + 0) := by lia
          rw [if_pos (show es[p].route.genmask ≤ mask from hmask), hnil, List.length_nil, hcount,
            Nat.add_zero]
        · have hcons : above mask (es[p] :: es.drop (p + 1)) =
              es[p] :: above mask (es.drop (p + 1)) :=
            List.takeWhile_cons_of_pos (by simpa using hmask)
          have hpos : p + (above mask (es.drop (p + 1))).length.succ =
              p + 1 + (above mask (es.drop (p + 1))).length := by lia
          rw [if_neg (show ¬ es[p].route.genmask ≤ mask from hmask), hcons, List.length_cons,
            hpos]
          exact ih (by lia) hused
      · have hnil : above mask (es.drop p) = [] := by
          rw [List.drop_eq_nil_of_le (by lia)]
          rfl
        have hcount : i + 1 = len - (p + 0) := by lia
        rw [h.unused (by lia) (by lia), Option.bind_some, hnil, List.length_nil, hcount]
        exact if_pos (Nat.zero_le _)

theorem countLoop_eq {len : Nat} {tab : List (Route ι)} {es : List (Entry ι)}
    (h : Slots len tab es) : ∀ {i p n : Nat}, p + (i + 1) = len → p ≤ es.length →
      countLoop tab (i + 1) p n =
        some (if es.length = len then none else some (n + (es.length - p))) := by
  intro i
  induction i with
  | zero =>
      intro p n hp hle
      have hle' := h.le
      rw [countLoop]
      by_cases hused : p < es.length
      · rw [h.used hused, if_pos (by lia)]
        rfl
      · have hend : n + (es.length - p) = n := by lia
        rw [h.unused (by lia) (by lia), if_neg (by lia), hend]
        rfl
  | succ i ih =>
      intro p n hp hle
      rw [countLoop]
      by_cases hused : p < es.length
      · have hrest := ih (p := p + 1) (n := n + 1) (by lia) hused
        have hsum : n + 1 + (es.length - (p + 1)) = n + (es.length - p) := by lia
        rw [hsum] at hrest
        rw [h.used hused, Option.bind_some, if_neg (by exact Bool.false_ne_true)]
        exact hrest
      · have hend : n + (es.length - p) = n := by lia
        rw [h.unused (by lia) (by lia), if_neg (by lia), hend]
        rfl

/-- The entries `us` move by one slot into the free one. -/
theorem rotateLoop_eq {us vs : List (Route ι)} {old : Route ι} : ∀ (pre : List (Route ι))
    (new : Route ι), rotateLoop us.length pre.length new (pre ++ (us ++ old :: vs)) =
      some (pre ++ new :: (us ++ vs)) := by
  induction us with
  | nil =>
      intro pre new
      have hlt : pre.length < (pre ++ ([] ++ old :: vs)).length := by
        rw [List.length_append, List.nil_append, List.length_cons]
        lia
      rw [List.length_nil, rotateLoop, if_pos hlt, List.set_append_right _ _ (Nat.le_refl _),
        Nat.sub_self, List.nil_append, List.set_cons_zero, List.nil_append]
  | cons u us ih =>
      intro pre new
      have hget : (pre ++ (u :: us ++ old :: vs))[pre.length]? = some u := by
        rw [List.getElem?_append_right (Nat.le_refl _), Nat.sub_self]
        rfl
      have hset : (pre ++ (u :: us ++ old :: vs)).set pre.length new =
          pre ++ [new] ++ (us ++ old :: vs) := by
        rw [List.set_append_right _ _ (Nat.le_refl _), Nat.sub_self, List.cons_append,
          List.set_cons_zero, List.append_assoc, List.singleton_append]
      have hlen : (pre ++ [new]).length = pre.length + 1 := by
        rw [List.length_append, List.length_singleton]
      have hrest := ih (pre ++ [new]) u
      rw [hlen, List.append_assoc pre [new], List.singleton_append] at hrest
      rw [List.length_cons, rotateLoop, hget, Option.bind_some, hset, List.append_assoc pre [new],
        List.singleton_append, hrest, List.append_assoc, List.singleton_append, List.cons_append]

/-- The entries with a new one at its position, unless the table is full. -/
theorem routeInsert_eq {len : Nat} {tab : List (Route ι)} {es : List (Entry ι)}
    (h : Slots len tab es) (e : Entry ι) :
    (es.length = len → routeInsert len tab e.route = some (-1, tab)) ∧
      (es.length ≠ len → ∃ tab', routeInsert len tab e.route = some (0, tab') ∧
        Slots len tab' (es.orderedInsert Before e)) := by
  have hle := h.le
  have hplace := placeLoop_eq h e.genmask (i := len) (p := 0) (Nat.zero_add len) (Nat.zero_le _)
  rw [List.drop_zero, Nat.zero_add] at hplace
  have habove : (above e.genmask es).length ≤ es.length := (List.takeWhile_prefix _).length_le
  have hrun : routeInsert len tab e.route =
      if len - (above e.genmask es).length = 0 then some (-1, tab)
      else
        (countLoop tab (len - (above e.genmask es).length) (above e.genmask es).length 0).bind fun
          | none => some (-1, tab)
          | some n => (rotateLoop n (above e.genmask es).length e.route tab).map
              fun tab => (0, tab) := by
    unfold routeInsert
    rw [show e.route.genmask = e.genmask from rfl, hplace]
    rfl
  rw [hrun]
  constructor
  · intro hfull
    split_ifs with hzero
    · rfl
    · obtain ⟨i, hi⟩ := Nat.exists_eq_succ_of_ne_zero hzero
      rw [hi, countLoop_eq h (by lia) habove, if_pos hfull]
      rfl
  · intro hfree
    obtain ⟨i, hi⟩ := Nat.exists_eq_succ_of_ne_zero
      (show len - (above e.genmask es).length ≠ 0 by lia)
    have hdrop : es.drop (above e.genmask es).length =
        es.dropWhile fun e' => decide ¬ e'.genmask ≤ e.genmask :=
      drop_above e.genmask es
    have hsplit : tab = (above e.genmask es).map Entry.route ++
        ((es.drop (above e.genmask es).length).map Entry.route ++
          Route.free :: List.replicate (len - es.length - 1) Route.free) := by
      have hfreed : len - es.length = len - es.length - 1 + 1 := by lia
      rw [← List.append_assoc, ← List.map_append, hdrop, above, List.takeWhile_append_dropWhile,
        ← List.replicate_succ, ← hfreed]
      exact h.slots
    have hpre : ((above e.genmask es).map Entry.route).length = (above e.genmask es).length :=
      List.length_map _
    have hrotate := @rotateLoop_eq _ ((es.drop (above e.genmask es).length).map Entry.route)
      (List.replicate (len - es.length - 1) Route.free) Route.free
      ((above e.genmask es).map Entry.route) e.route
    rw [hpre, ← hsplit, List.length_map, List.length_drop] at hrotate
    refine ⟨(above e.genmask es).map Entry.route ++ e.route ::
        ((es.drop (above e.genmask es).length).map Entry.route ++
          List.replicate (len - es.length - 1) Route.free), ?_, ?_, ?_⟩
    · rw [if_neg (by lia), hi, countLoop_eq h (by lia) habove, if_neg hfree]
      simp only [Option.bind_some, Nat.zero_add, hrotate, Option.map_some]
    · have hins : es.orderedInsert Before e = above e.genmask es ++
          e :: es.drop (above e.genmask es).length := by
        rw [List.orderedInsert_eq_take_drop, hdrop]
        rfl
      have hlen : (es.orderedInsert Before e).length = es.length + 1 :=
        List.orderedInsert_length Before es e
      have hfreed : len - (es.length + 1) = len - es.length - 1 := by lia
      rw [hlen, hfreed, hins, List.map_append, List.map_cons, List.append_assoc, List.cons_append]
    · have hlen : (es.orderedInsert Before e).length = es.length + 1 :=
        List.orderedInsert_length Before es e
      lia

/-! ## Enumerations -/

theorem enumLoop_eq {len : Nat} {tab : List (Route ι)} {es : List (Entry ι)}
    (h : Slots len tab es) : ∀ {i p : Nat}, p + i ≤ len →
      enumLoop tab i p = some (((es.drop p).take i).map Entry.route) := by
  intro i
  induction i with
  | zero =>
      intro p hp
      rfl
  | succ i ih =>
      intro p hp
      rw [enumLoop]
      by_cases hused : p < es.length
      · have hrest := ih (p := p + 1) (by lia)
        rw [h.used hused, Option.bind_some, List.drop_eq_getElem_cons hused, List.take_succ_cons,
          List.map_cons, hrest]
        rfl
      · rw [h.unused (by lia) (by lia), List.drop_eq_nil_of_le (by lia)]
        rfl

/-! ## What is right -/

section Right

variable (len : Nat) (tab : List (Route ι)) (es : List (Entry ι))

/-- A deletion removes exactly the entry with the destination, and fails without one. -/
def DelRight (dst : BitVec 32) : Prop :=
  ((∀ e ∈ es, e.dst ≠ dst) → routeDel len tab dst = some (-1, tab)) ∧
    ((∃ e ∈ es, e.dst = dst) → ∃ tab' es', routeDel len tab dst = some (0, tab') ∧
      PrefixTable len tab' es' ∧ ∀ x, x ∈ es' ↔ x ∈ es ∧ x.dst ≠ dst)

/-- An insertion replaces the entry with its destination; it fails exactly if the table is full
and has no such entry, and then changes nothing. -/
def AddRight (e : Entry ι) : Prop :=
  ((es.length = len ∧ ∀ x ∈ es, x.dst ≠ e.dst) →
      routeAdd len tab e.dst e.genmask e.gateway e.ifn = some (-1, tab)) ∧
    (¬ (es.length = len ∧ ∀ x ∈ es, x.dst ≠ e.dst) →
      ∃ tab' es', routeAdd len tab e.dst e.genmask e.gateway e.ifn = some (0, tab') ∧
        PrefixTable len tab' es' ∧ ∀ x, x ∈ es' ↔ x = e ∨ x ∈ es ∧ x.dst ≠ e.dst)

/-- The enumeration visits every entry. -/
def EnumRight : Prop := ipv4RouteEnum len tab = some (es.map Entry.route)

end Right

section Table

variable {len : Nat} {tab : List (Route ι)} {es : List (Entry ι)}

theorem PrefixTable.sublist (h : PrefixTable len tab es) {tab' : List (Route ι)}
    {es' : List (Entry ι)} (hslots : Slots len tab' es') (hsub : es'.Sublist es) :
    PrefixTable len tab' es' where
  toSlots := hslots
  sane e he := h.sane e (hsub.subset he)
  sorted := h.sorted.sublist hsub
  distinct := h.distinct.sublist hsub

/-- Two entries with one destination are in one slot. -/
theorem PrefixTable.same_slot (h : PrefixTable len tab es) {j k : Nat} (hj : j < es.length)
    (hk : k < es.length) (hdst : es[j].dst = es[k].dst) : j = k := by
  rcases Nat.lt_trichotomy j k with hlt | heq | hgt
  · exact absurd hdst (List.pairwise_iff_getElem.mp h.distinct j k hj hk hlt)
  · exact heq
  · exact absurd hdst.symm (List.pairwise_iff_getElem.mp h.distinct k j hk hj hgt)

theorem LastOfFull.mem {dst : BitVec 32} (h : LastOfFull len es dst) :
    ∃ e ∈ es, e.dst = dst := by
  obtain ⟨e, he, hdst⟩ := Option.map_eq_some_iff.mp h.2
  exact ⟨e, List.mem_of_getLast? he, hdst⟩

/-- The entry of slot `k` is the last of a full table exactly if `k` is the last slot. -/
theorem PrefixTable.lastOfFull_iff (h : PrefixTable len tab es) {k : Nat} (hk : k < es.length) :
    LastOfFull len es es[k].dst ↔ k + 1 = len := by
  have hle := h.le
  have hpos : es.length - 1 < es.length := by lia
  have hlast : es.getLast?.map Entry.dst = some es[es.length - 1].dst := by
    rw [List.getLast?_eq_getElem?, List.getElem?_eq_getElem hpos]
    rfl
  constructor
  · rintro ⟨hfull, hdst⟩
    rw [hlast, Option.some.injEq] at hdst
    have hsame := h.same_slot hpos hk hdst
    lia
  · intro hk'
    refine ⟨by lia, ?_⟩
    rw [hlast]
    congr 3
    lia

/-- What a deletion does to a table. -/
theorem routeDel_cases (h : PrefixTable len tab es) (dst : BitVec 32) :
    ((∀ e ∈ es, e.dst ≠ dst) ∧ routeDel len tab dst = some (-1, tab)) ∨
      (LastOfFull len es dst ∧ routeDel len tab dst = some (-1, tab)) ∨
      ¬ LastOfFull len es dst ∧ (∃ e ∈ es, e.dst = dst) ∧
        ∃ tab' es', routeDel len tab dst = some (0, tab') ∧ PrefixTable len tab' es' ∧
          es'.length < es.length ∧ ∀ x, x ∈ es' ↔ x ∈ es ∧ x.dst ≠ dst := by
  have hrun := routeDel_eq h.toSlots dst
  cases hfind : es.findIdx? fun e => decide (dst = e.dst) with
  | none =>
      rw [hfind] at hrun
      left
      refine ⟨fun e he hdst => ?_, hrun⟩
      have hnone := List.findIdx?_eq_none_iff.mp hfind e he
      exact absurd hdst.symm (of_decide_eq_false hnone)
  | some k =>
      obtain ⟨hk, hdst, -⟩ := List.findIdx?_eq_some_iff_getElem.mp hfind
      obtain rfl := of_decide_eq_true hdst
      rw [hfind] at hrun
      have hlast := h.lastOfFull_iff hk
      right
      by_cases hend : k + 1 = len
      · left
        simp only [hend, if_true] at hrun
        exact ⟨hlast.mpr hend, hrun⟩
      · right
        simp only [hend, if_false] at hrun
        obtain ⟨tab', hdel, hslots⟩ := hrun
        refine ⟨fun hl => hend (hlast.mp hl), ⟨es[k], List.getElem_mem hk, rfl⟩, tab',
          es.eraseIdx k, hdel, h.sublist hslots (List.eraseIdx_sublist _ _), ?_, fun x => ?_⟩
        · rw [List.length_eraseIdx_of_lt hk]
          lia
        · rw [List.mem_eraseIdx_iff_getElem]
          constructor
          · rintro ⟨j, hj, hne, rfl⟩
            exact ⟨List.getElem_mem hj, fun hsame => hne (h.same_slot hj hk hsame)⟩
          · rintro ⟨hx, hne⟩
            obtain ⟨j, hj, rfl⟩ := List.getElem_of_mem hx
            exact ⟨j, hj, fun hjk => hne (by subst hjk; rfl), rfl⟩

/-- A new destination is inserted unless the table is full. -/
theorem routeInsert_cases (h : PrefixTable len tab es) {e : Entry ι} (hsane : e.Sane)
    (hnew : ∀ x ∈ es, x.dst ≠ e.dst) :
    (es.length = len ∧ routeInsert len tab e.route = some (-1, tab)) ∨
      es.length ≠ len ∧ ∃ tab' es', routeInsert len tab e.route = some (0, tab') ∧
        PrefixTable len tab' es' ∧ ∀ x, x ∈ es' ↔ x = e ∨ x ∈ es := by
  obtain ⟨hfull, hfree⟩ := routeInsert_eq h.toSlots e
  by_cases hlen : es.length = len
  · exact .inl ⟨hlen, hfull hlen⟩
  · obtain ⟨tab', hrun, hslots⟩ := hfree hlen
    have hmem : ∀ x, x ∈ es.orderedInsert Before e ↔ x = e ∨ x ∈ es :=
      fun x => List.mem_orderedInsert Before
    refine .inr ⟨hlen, tab', _, hrun, ⟨hslots, fun x hx => ?_, ?_, ?_⟩, hmem⟩
    · rcases (hmem x).mp hx with rfl | hx
      · exact hsane
      · exact h.sane x hx
    · exact List.Pairwise.orderedInsert e es h.sorted
    · refine ((List.perm_orderedInsert Before e es).pairwise_iff fun hab => hab.symm).mpr ?_
      exact List.pairwise_cons.mpr ⟨fun x hx => (hnew x hx).symm, h.distinct⟩

theorem delRight_iff (h : PrefixTable len tab es) (dst : BitVec 32) :
    DelRight len tab es dst ↔ ¬ LastOfFull len es dst := by
  rcases routeDel_cases h dst with ⟨hnone, hrun⟩ | ⟨hlast, hrun⟩ |
    ⟨hlast, ⟨e, he, hdst⟩, tab', es', hrun, htab, -, hmem⟩
  · refine iff_of_true ⟨fun _ => hrun, fun ⟨e, he, hdst⟩ => absurd hdst (hnone e he)⟩ fun hl => ?_
    obtain ⟨e, he, hdst⟩ := hl.mem
    exact hnone e he hdst
  · refine iff_of_false (fun hright => ?_) (not_not_intro hlast)
    obtain ⟨tab', es', hrun', -⟩ := hright.2 hlast.mem
    rw [hrun] at hrun'
    cases hrun'
  · exact iff_of_true ⟨fun hnone => absurd hdst (hnone e he), fun _ => ⟨tab', es', hrun, htab, hmem⟩⟩
      hlast

theorem routeAdd_eq_insert {e : Entry ι} {r : Int} {tab' : List (Route ι)}
    (hdel : routeDel len tab e.dst = some (r, tab')) :
    routeAdd len tab e.dst e.genmask e.gateway e.ifn = routeInsert len tab' e.route := by
  unfold routeAdd
  rw [hdel]
  rfl

theorem addRight_iff (h : PrefixTable len tab es) {e : Entry ι} (hsane : e.Sane) :
    AddRight len tab es e ↔ ¬ LastOfFull len es e.dst := by
  rcases routeDel_cases h e.dst with ⟨hnone, hdel⟩ | ⟨hlast, hdel⟩ |
    ⟨hlast, ⟨x, hx, hdst⟩, tab', es', hdel, htab, hlen, hmem⟩
  · have hnot : ¬ LastOfFull len es e.dst := by
      intro hl
      obtain ⟨x, hx, hdst⟩ := hl.mem
      exact hnone x hx hdst
    refine iff_of_true ?_ hnot
    unfold AddRight
    rw [routeAdd_eq_insert hdel]
    rcases routeInsert_cases h hsane hnone with ⟨hfull, hrun⟩ | ⟨hfree, tab', es', hrun, htab, hmem⟩
    · exact ⟨fun _ => hrun, fun hn => absurd ⟨hfull, hnone⟩ hn⟩
    · refine ⟨fun hn => absurd hn.1 hfree, fun _ => ⟨tab', es', hrun, htab, fun x => ?_⟩⟩
      rw [hmem]
      exact or_congr_right ⟨fun hx => ⟨hx, hnone x hx⟩, fun hx => hx.1⟩
  · refine iff_of_false (fun hright => ?_) (not_not_intro hlast)
    obtain ⟨x, hx, hdst⟩ := hlast.mem
    obtain ⟨tab', es', hrun, -⟩ := hright.2 fun hn => hn.2 x hx hdst
    rw [routeAdd_eq_insert hdel, (routeInsert_eq h.toSlots e).1 hlast.1] at hrun
    cases hrun
  · refine iff_of_true ?_ hlast
    unfold AddRight
    rw [routeAdd_eq_insert hdel]
    have hle := h.le
    have hnew : ∀ y ∈ es', y.dst ≠ e.dst := fun y hy => ((hmem y).mp hy).2
    rcases routeInsert_cases htab hsane hnew with ⟨hfull, -⟩ | ⟨-, tab'', es'', hrun, htab', hmem'⟩
    · lia
    · refine ⟨fun hn => absurd hdst (hn.2 x hx), fun _ => ⟨tab'', es'', hrun, htab', fun y => ?_⟩⟩
      rw [hmem', hmem]

theorem enumRight_iff (h : PrefixTable len tab es) (hlen : 0 < len) :
    EnumRight len tab es ↔ es.length < len := by
  have hrun := enumLoop_eq h.toSlots (i := len - 1) (p := 0) (by lia)
  rw [List.drop_zero] at hrun
  unfold EnumRight ipv4RouteEnum
  rw [hrun, Option.some.injEq]
  constructor
  · intro hall
    have hcount := congrArg List.length hall
    rw [List.length_map, List.length_map, List.length_take] at hcount
    lia
  · intro hless
    rw [List.take_of_length_le (by lia)]

end Table

/-! ## Runs -/

/-- The tables that calls of `__route_add` and `__route_del` build from the cleared one. -/
inductive Reachable (ι : Type) (len : Nat) : List (Route ι) → Prop
  | start : Reachable ι len (List.replicate len Route.free)
  | del {tab tab' : List (Route ι)} {r : Int} (dst : BitVec 32) (h : Reachable ι len tab)
      (hrun : routeDel len tab dst = some (r, tab')) : Reachable ι len tab'
  | add {tab tab' : List (Route ι)} {r : Int} (e : Entry ι) (hsane : e.Sane)
      (h : Reachable ι len tab)
      (hrun : routeAdd len tab e.dst e.genmask e.gateway e.ifn = some (r, tab')) :
      Reachable ι len tab'

variable {len : Nat}

theorem PrefixTable.start : PrefixTable len (List.replicate len (Route.free : Route ι)) [] where
  slots := rfl
  le := Nat.zero_le _
  sane _ he := absurd he List.not_mem_nil
  sorted := List.Pairwise.nil
  distinct := List.Pairwise.nil

theorem PrefixTable.del {tab tab' : List (Route ι)} {es : List (Entry ι)} {r : Int}
    (h : PrefixTable len tab es) {dst : BitVec 32}
    (hrun : routeDel len tab dst = some (r, tab')) : ∃ es', PrefixTable len tab' es' := by
  rcases routeDel_cases h dst with ⟨-, hdel⟩ | ⟨-, hdel⟩ | ⟨-, -, tab'', es', hdel, htab, -⟩
  · obtain ⟨rfl, rfl⟩ := Prod.mk.inj (Option.some.inj (hdel.symm.trans hrun))
    exact ⟨es, h⟩
  · obtain ⟨rfl, rfl⟩ := Prod.mk.inj (Option.some.inj (hdel.symm.trans hrun))
    exact ⟨es, h⟩
  · obtain ⟨rfl, rfl⟩ := Prod.mk.inj (Option.some.inj (hdel.symm.trans hrun))
    exact ⟨es', htab⟩

/-- The last entry of a full table cannot be replaced. -/
theorem routeAdd_last {tab : List (Route ι)} {es : List (Entry ι)} (h : PrefixTable len tab es)
    {e : Entry ι} (hlast : LastOfFull len es e.dst) :
    routeAdd len tab e.dst e.genmask e.gateway e.ifn = some (-1, tab) := by
  rcases routeDel_cases h e.dst with ⟨-, hdel⟩ | ⟨-, hdel⟩ | ⟨hnot, -⟩
  · rw [routeAdd_eq_insert hdel, (routeInsert_eq h.toSlots e).1 hlast.1]
  · rw [routeAdd_eq_insert hdel, (routeInsert_eq h.toSlots e).1 hlast.1]
  · exact absurd hlast hnot

theorem PrefixTable.add {tab tab' : List (Route ι)} {es : List (Entry ι)} {r : Int}
    (h : PrefixTable len tab es) {e : Entry ι} (hsane : e.Sane)
    (hrun : routeAdd len tab e.dst e.genmask e.gateway e.ifn = some (r, tab')) :
    ∃ es', PrefixTable len tab' es' := by
  by_cases hlast : LastOfFull len es e.dst
  · obtain ⟨rfl, rfl⟩ := Prod.mk.inj (Option.some.inj ((routeAdd_last h hlast).symm.trans hrun))
    exact ⟨es, h⟩
  · have hright := (addRight_iff h hsane).mpr hlast
    by_cases hno : es.length = len ∧ ∀ x ∈ es, x.dst ≠ e.dst
    · obtain ⟨rfl, rfl⟩ := Prod.mk.inj (Option.some.inj ((hright.1 hno).symm.trans hrun))
      exact ⟨es, h⟩
    · obtain ⟨tab'', es', hadd, htab, -⟩ := hright.2 hno
      obtain ⟨rfl, rfl⟩ := Prod.mk.inj (Option.some.inj (hadd.symm.trans hrun))
      exact ⟨es', htab⟩

/-- In every run the used slots are a sorted prefix of the table. -/
theorem Reachable.prefixTable {tab : List (Route ι)} (h : Reachable ι len tab) :
    ∃ es, PrefixTable len tab es := by
  induction h with
  | start => exact ⟨[], PrefixTable.start⟩
  | del dst h hrun ih =>
      obtain ⟨es, hes⟩ := ih
      exact hes.del hrun
  | add e hsane h hrun ih =>
      obtain ⟨es, hes⟩ := ih
      exact hes.add hsane hrun

/-- No function leaves the array. -/
structure InBounds (len : Nat) (tab : List (Route ι)) : Prop where
  lookup : ∀ target, (routeLookup len tab target).isSome
  del : ∀ dst, (routeDel len tab dst).isSome
  add : ∀ e : Entry ι, e.Sane → (routeAdd len tab e.dst e.genmask e.gateway e.ifn).isSome
  enum : (ipv4RouteEnum len tab).isSome

theorem PrefixTable.inBounds {tab : List (Route ι)} {es : List (Entry ι)}
    (h : PrefixTable len tab es) : InBounds len tab where
  lookup target := by
    rcases lookup_right h target with ⟨hrun, -⟩ | ⟨k, e, hrun, -⟩
    · exact Option.isSome_of_eq_some hrun
    · exact Option.isSome_of_eq_some hrun
  del dst := by
    rcases routeDel_cases h dst with ⟨-, hrun⟩ | ⟨-, hrun⟩ | ⟨-, -, tab', es', hrun, -⟩
    · exact Option.isSome_of_eq_some hrun
    · exact Option.isSome_of_eq_some hrun
    · exact Option.isSome_of_eq_some hrun
  add e hsane := by
    by_cases hlast : LastOfFull len es e.dst
    · exact Option.isSome_of_eq_some (routeAdd_last h hlast)
    · have hright := (addRight_iff h hsane).mpr hlast
      by_cases hno : es.length = len ∧ ∀ x ∈ es, x.dst ≠ e.dst
      · exact Option.isSome_of_eq_some (hright.1 hno)
      · obtain ⟨tab', es', hrun, -⟩ := hright.2 hno
        exact Option.isSome_of_eq_some hrun
  enum := by
    have hrun := enumLoop_eq h.toSlots (i := len - 1) (p := 0) (by lia)
    exact Option.isSome_of_eq_some hrun

/-- The default route. -/
def defaultRoute : Entry Unit := ⟨0, 0x0100000a, 0, ()⟩

theorem defaultRoute_sane : defaultRoute.Sane := ⟨⟨0, by decide, by decide⟩, by decide⟩

end YardIce.Net
