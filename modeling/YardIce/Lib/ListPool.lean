import YardIce.Lib.LinkedLists
import YardIce.Lib.Partition

/-!
# A pool of nodes distributed over linked lists

Some of the places that share a pool are linked lists of one heap. The
operations below take a node out of one list and append it to another, hand it
to a place that is no list, or take it back from there.
-/

namespace YardIce.Lib

open ListHeap

variable {H P I : Type*}

/-- The nodes are partitioned over the places and the list of each head `h`
holds the nodes of its place, in order. -/
structure ListPool (place : H → P) (heap : ListHeap H I) (contents : P → List I) : Prop where
  part : Partition contents
  holds : ∀ h, heap.Holds h (contents (place h))

namespace ListPool

variable {place : H → P} {heap : ListHeap H I} {contents : P → List I}

theorem disjoint (hp : ListPool place heap contents) {p q : P} (hpq : p ≠ q) :
    List.Disjoint (contents p) (contents q) := hp.part.disjoint hpq

theorem nodup_target (hp : ListPool place heap contents) {h : H} {q : P}
    (hq : place h ≠ q) : (contents (place h) ++ contents q).Nodup :=
  List.nodup_append'.mpr ⟨hp.part.nodup _, hp.part.nodup _, hp.disjoint hq⟩

section Moved

variable [DecidableEq P]

/-- Contents after the node `i` left the place `p` for the end of the place `q`. -/
def moved (contents : P → List I) (p q : P) (rest : List I) (i : I) : P → List I :=
  Function.update (Function.update contents p rest) q (contents q ++ [i])

theorem moved_source {contents : P → List I} {p q : P} (hpq : p ≠ q) (rest : List I) (i : I) :
    moved contents p q rest i p = rest := by
  simp [moved, Function.update_of_ne hpq]

@[simp] theorem moved_target (contents : P → List I) (p q : P) (rest : List I) (i : I) :
    moved contents p q rest i q = contents q ++ [i] := by
  simp [moved]

theorem moved_other {contents : P → List I} {p q r : P} (hp : r ≠ p) (hq : r ≠ q)
    (rest : List I) (i : I) : moved contents p q rest i r = contents r := by
  simp [moved, Function.update_of_ne hq, Function.update_of_ne hp]

/-- Contents after everything in the place `p` went to the end of the place `q`. -/
def drained (contents : P → List I) (p q : P) : P → List I :=
  Function.update (Function.update contents p []) q (contents q ++ contents p)

theorem drained_source {contents : P → List I} {p q : P} (hpq : p ≠ q) :
    drained contents p q p = [] := by
  simp [drained, Function.update_of_ne hpq]

@[simp] theorem drained_target (contents : P → List I) (p q : P) :
    drained contents p q q = contents q ++ contents p := by
  simp [drained]

theorem drained_other {contents : P → List I} {p q r : P} (hp : r ≠ p) (hq : r ≠ q) :
    drained contents p q r = contents r := by
  simp [drained, Function.update_of_ne hq, Function.update_of_ne hp]

theorem drained_partition (h : Partition contents) {p q : P} (hpq : p ≠ q) :
    Partition (drained contents p q) := by
  apply h.of_perm hpq
  · rw [drained_source hpq, drained_target, List.nil_append]
    exact List.perm_append_comm
  · intro r hr₁ hr₂
    exact drained_other hr₁ hr₂

/-- Contents after the nodes `u` at the front of the place `p` went to the empty
place `q` and left `v` behind. -/
def splitOff (contents : P → List I) (p q : P) (u v : List I) : P → List I :=
  Function.update (Function.update contents p v) q u

theorem splitOff_source {contents : P → List I} {p q : P} (hpq : p ≠ q) (u v : List I) :
    splitOff contents p q u v p = v := by
  simp [splitOff, Function.update_of_ne hpq]

@[simp] theorem splitOff_target (contents : P → List I) (p q : P) (u v : List I) :
    splitOff contents p q u v q = u := by
  simp [splitOff]

theorem splitOff_other {contents : P → List I} {p q r : P} (hp : r ≠ p) (hq : r ≠ q)
    (u v : List I) : splitOff contents p q u v r = contents r := by
  simp [splitOff, Function.update_of_ne hq, Function.update_of_ne hp]

theorem splitOff_partition (h : Partition contents) {p q : P} (hpq : p ≠ q) {u v : List I}
    (hp : contents p = u ++ v) (hq : contents q = []) :
    Partition (splitOff contents p q u v) := by
  apply h.of_perm hpq
  · rw [splitOff_source hpq, splitOff_target, hp, hq, List.append_nil]
    exact List.perm_append_comm
  · intro r hr₁ hr₂
    exact splitOff_other hr₁ hr₂ _ _

theorem moved_partition (h : Partition contents) {p q : P} (hpq : p ≠ q) {u v : List I} {i : I}
    (hc : contents p = u ++ i :: v) : Partition (moved contents p q (u ++ v) i) := by
  apply h.of_perm hpq
  · rw [moved_source hpq, moved_target, hc]
    have h₁ : (u ++ v ++ (contents q ++ [i])).Perm (i :: (u ++ v ++ contents q)) := by
      rw [← List.append_assoc]
      exact List.perm_append_singleton i _
    have h₂ : (u ++ i :: v ++ contents q).Perm (i :: (u ++ v ++ contents q)) := by
      simpa only [List.append_assoc, List.cons_append] using
        List.perm_middle (a := i)
    exact h₁.trans h₂.symm
  · intro r hr₁ hr₂
    exact moved_other hr₁ hr₂ _ _

end Moved

section Operations

variable [DecidableEq H] [DecidableEq P] [DecidableEq I]

/-- A node of one list goes to the end of another list. -/
theorem move (hp : ListPool place heap contents) (hinj : Function.Injective place) {h h' : H}
    (hne : h ≠ h') {u v : List I} {i : I} (hc : contents (place h) = u ++ i :: v) :
    ListPool place ((heap.unlinkAfter h (lastLink (.head h) u) i).insertTail h' i)
      (moved contents (place h) (place h') (u ++ v) i) := by
  have hplace : place h ≠ place h' := hinj.ne hne
  have hnd := hp.part.nodup (place h)
  have hi : i ∈ contents (place h) := by simp [hc]
  have hfrom := hp.holds h
  rw [hc] at hfrom hnd
  have hsub {r : P} (hr : r ≠ place h) : List.Disjoint (contents r) u := by
    have := hp.disjoint hr
    rw [hc] at this
    exact (List.disjoint_append_right.mp this).1
  have htgt := unlinkAfter_holds_other (i := i) (hp.holds h') hne.symm (hsub hplace.symm)
  refine ⟨moved_partition hp.part hplace hc, fun k => ?_⟩
  by_cases hk' : k = h'
  · subst hk'
    rw [moved_target]
    exact insertTail_holds htgt (hp.part.nodup _) fun hm => hp.disjoint hplace hi hm
  · by_cases hk : k = h
    · subst hk
      rw [moved_source hplace]
      refine insertTail_holds_other htgt (unlinkAfter_holds hfrom hnd) hne ?_ ?_
      · intro j hj hj'
        refine hp.disjoint hplace ?_ hj'
        rw [hc]
        simp only [List.mem_append, List.mem_cons] at hj ⊢
        exact hj.elim Or.inl fun h => Or.inr (Or.inr h)
      · have := (List.nodup_middle.mp hnd)
        exact (List.nodup_cons.mp this).1
    · have hkp : place k ≠ place h := hinj.ne hk
      have hkp' : place k ≠ place h' := hinj.ne hk'
      rw [moved_other hkp hkp']
      exact insertTail_holds_other htgt (unlinkAfter_holds_other (hp.holds k) hk (hsub hkp)) hk'
        (hp.disjoint hkp') fun hm => hp.disjoint hkp hm hi

/-- The first node of a list goes to a place that is no list. -/
theorem take (hp : ListPool place heap contents) (hinj : Function.Injective place) {h : H} {q : P}
    (hq : ∀ k, place k ≠ q) {l : List I} {i : I} (hc : contents (place h) = i :: l) :
    ListPool place (heap.unlinkAfter h (.head h) i) (moved contents (place h) q l i) := by
  have hnd := hp.part.nodup (place h)
  have hfrom := hp.holds h
  rw [hc] at hfrom hnd
  refine ⟨moved_partition (u := []) hp.part (hq h) hc, fun k => ?_⟩
  by_cases hk : k = h
  · subst hk
    rw [moved_source (hq k)]
    exact unlinkAfter_holds (u := []) hfrom hnd
  · rw [moved_other (hinj.ne hk) (hq k)]
    exact unlinkAfter_holds_other (u := []) (hp.holds k) hk (by simp)

/-- The first node of a place that is no list goes to the end of a list. -/
theorem put (hp : ListPool place heap contents) (hinj : Function.Injective place) {h : H} {q : P}
    (hq : ∀ k, place k ≠ q) {l : List I} {i : I} (hc : contents q = i :: l) :
    ListPool place (heap.insertTail h i) (moved contents q (place h) l i) := by
  have hi : i ∈ contents q := by simp [hc]
  refine ⟨moved_partition (u := []) hp.part (hq h).symm hc, fun k => ?_⟩
  have hik (k : H) : i ∉ contents (place k) := fun hm => hp.disjoint (hq k) hm hi
  by_cases hk : k = h
  · subst hk
    rw [moved_target]
    exact insertTail_holds (hp.holds k) (hp.part.nodup _) (hik k)
  · rw [moved_other (hq k) (hinj.ne hk)]
    exact insertTail_holds_other (hp.holds h) (hp.holds k) hk (hp.disjoint (hinj.ne hk)) (hik k)

/-- Every list but the drained one is well formed after all nodes of `q` were
appended to the list `h`. -/
theorem drain_holds (hp : ListPool place heap contents) (hinj : Function.Injective place) {h : H}
    {q : P} (hq : place h ≠ q) {k : H} (hk : place k ≠ q) :
    (heap.insertAll h (contents q)).Holds k (drained contents q (place h) (place k)) := by
  have hnd := hp.nodup_target hq
  by_cases hkh : k = h
  · subst hkh
    rw [drained_target]
    exact insertAll_holds (hp.holds k) hnd
  · have hkp : place k ≠ place h := hinj.ne hkh
    rw [drained_other hk hkp]
    exact insertAll_holds_other (hp.holds h) hnd (hp.holds k) hkh
      (List.disjoint_append_right.mpr ⟨hp.disjoint hkp, hp.disjoint hk⟩)

/-- All nodes of a place that is no list go to the end of a list. -/
theorem drain (hp : ListPool place heap contents) (hinj : Function.Injective place) {h : H}
    {q : P} (hq : ∀ k, place k ≠ q) :
    ListPool place (heap.insertAll h (contents q)) (drained contents q (place h)) :=
  ⟨drained_partition hp.part (hq h).symm, fun k => hp.drain_holds hinj (hq h) (hq k)⟩

/-- All nodes of the list `h'` go to the end of the list `h`, and `h'` is made
empty again. -/
theorem drainList (hp : ListPool place heap contents) (hinj : Function.Injective place)
    {h h' : H} (hne : h ≠ h') :
    ListPool place ((heap.insertAll h (contents (place h'))).initList h')
      (drained contents (place h') (place h)) := by
  have hplace : place h ≠ place h' := hinj.ne hne
  refine ⟨drained_partition hp.part hplace.symm, fun k => ?_⟩
  by_cases hk : k = h'
  · subst hk
    rw [drained_source hplace.symm]
    exact initList_holds _ k
  · exact initList_holds_other (hp.drain_holds hinj hplace (hinj.ne hk)) hk

omit [DecidableEq P] in
/-- Appending the nodes of `q` to a list keeps the chains of third places. -/
theorem drain_linked (hp : ListPool place heap contents) {h : H} {q r : P} (hq : place h ≠ q)
    (hr : r ≠ place h) (hrq : r ≠ q) {p : Option I} (hl : Linked heap.next p (contents r)) :
    Linked (heap.insertAll h (contents q)).next p (contents r) :=
  insertAll_linked (hp.holds h) (hp.nodup_target hq) hl
    (List.disjoint_append_right.mpr ⟨hp.disjoint hr, hp.disjoint hrq⟩)

/-- The front of a list goes to an empty place that is no list. -/
theorem cut (hp : ListPool place heap contents) (hinj : Function.Injective place) {h : H} {q : P}
    (hq : ∀ k, place k ≠ q) {u v : List I} {i : I} (hc : contents (place h) = u ++ i :: v)
    (hempty : contents q = []) :
    ListPool place (heap.cutAfter h i v.head?)
      (splitOff contents (place h) q (u ++ [i]) v) := by
  have hnd := hp.part.nodup (place h)
  have hi : i ∈ contents (place h) := by simp [hc]
  have hfrom := hp.holds h
  rw [hc] at hfrom hnd
  have hc' : contents (place h) = (u ++ [i]) ++ v := by simpa using hc
  refine ⟨splitOff_partition hp.part (hq h) hc' hempty, fun k => ?_⟩
  by_cases hk : k = h
  · subst hk
    rw [splitOff_source (hq k)]
    exact cutAfter_holds hfrom hnd
  · rw [splitOff_other (hinj.ne hk) (hq k)]
    exact cutAfter_holds_other (hp.holds k) hk fun hm => hp.disjoint (hinj.ne hk) hm hi

end Operations

/-- Removing a node from a list keeps every chain over the nodes of another place. -/
theorem unlink_linked [DecidableEq H] [DecidableEq I] (hp : ListPool place heap contents) {h : H} {u v : List I} {i : I}
    (hc : contents (place h) = u ++ i :: v) {q : P} (hq : q ≠ place h) {p : Option I}
    (hl : Linked heap.next p (contents q)) :
    Linked (heap.unlinkAfter h (lastLink (.head h) u) i).next p (contents q) := by
  apply unlinkAfter_linked hl
  intro j hj he
  rcases lastLink_eq_or (.head h : Link H I) u with h' | ⟨k, hk, h'⟩
  · rw [h'] at he; cases he
  · rw [h'] at he
    refine hp.disjoint hq hj ?_
    rw [hc, ← Link.node.inj he]
    simp [hk]

/-- A move between two lists keeps every chain over the nodes of a third place. -/
theorem move_linked [DecidableEq H] [DecidableEq I] (hp : ListPool place heap contents)
    {h h' : H} (hne : h ≠ h') (hinj : Function.Injective place) {u v : List I} {i : I}
    (hc : contents (place h) = u ++ i :: v) {q : P} (hq : q ≠ place h) (hq' : q ≠ place h')
    {p : Option I} (hl : Linked heap.next p (contents q)) :
    Linked ((heap.unlinkAfter h (lastLink (.head h) u) i).insertTail h' i).next p
      (contents q) := by
  have hdisj : List.Disjoint (contents (place h')) u := by
    have := hp.disjoint (hinj.ne hne).symm
    rw [hc] at this
    exact (List.disjoint_append_right.mp this).1
  have hi : i ∉ contents q := fun hm => hq (hp.part.eq_of_mem hm (by simp [hc]))
  exact insertTail_linked (unlinkAfter_holds_other (hp.holds h') hne.symm hdisj)
    (hp.unlink_linked hc hq hl) (hp.disjoint hq') hi

end ListPool

end YardIce.Lib
