import Mathlib.Data.List.Basic
import Mathlib.Data.List.Nodup
import Mathlib.Logic.Function.Basic

/-!
# Singly linked lists with a head word and a tail pointer

Nodes of a pool are chained through one link word each. A list head owns a
link word of the same shape, so the tail pointer of an empty list addresses the
head itself and insertion at the tail needs no case for the empty list.

## Implementation notes

The link words of heads and nodes are one function. A tail pointer is a link,
not a node: it may address the head. Null is `none`.
-/

namespace YardIce.Lib

variable {H I : Type*}

/-- A link word: the first-node word of a list head, or the next word of a node. -/
inductive Link (H I : Type*)
  | head (h : H)
  | node (i : I)
  deriving DecidableEq

/-- The null-terminated chain that starts at the pointer `p` visits exactly `l`. -/
def Linked (next : Link H I → Option I) : Option I → List I → Prop
  | p, [] => p = none
  | p, i :: l => p = some i ∧ Linked next (next (.node i)) l

/-- The link word that ends a chain hanging from `x`: its last node, or `x` itself. -/
def lastLink (x : Link H I) (l : List I) : Link H I :=
  (l.getLast?).elim x .node

@[simp] theorem lastLink_nil (x : Link H I) : lastLink x [] = x := rfl

@[simp] theorem lastLink_cons (x : Link H I) (i : I) (l : List I) :
    lastLink x (i :: l) = lastLink (.node i) l := by
  cases l with
  | nil => rfl
  | cons j l => simp [lastLink, List.getLast?_eq_some_getLast]

@[simp] theorem lastLink_append_singleton (x : Link H I) (l : List I) (i : I) :
    lastLink x (l ++ [i]) = .node i := by
  simp [lastLink]

theorem lastLink_eq_or (x : Link H I) (l : List I) :
    lastLink x l = x ∨ ∃ i ∈ l, lastLink x l = .node i := by
  induction l generalizing x with
  | nil => exact Or.inl rfl
  | cons i l ih =>
      rcases ih (.node i) with h | ⟨j, hj, h⟩
      · exact Or.inr ⟨i, by simp, by rw [lastLink_cons, h]⟩
      · exact Or.inr ⟨j, by simp [hj], by rw [lastLink_cons, h]⟩

theorem lastLink_split (x : Link H I) (u v : List I) (i : I) :
    lastLink x (u ++ i :: v) = lastLink (.node i) v := by
  induction u generalizing x with
  | nil => simp
  | cons j u ih => rw [List.cons_append, lastLink_cons, ih]

theorem lastLink_append (x : Link H I) (u v : List I) :
    lastLink x (u ++ v) = lastLink (lastLink x u) v := by
  induction u generalizing x with
  | nil => rfl
  | cons j u ih => rw [List.cons_append, lastLink_cons, ih, lastLink_cons]

theorem lastLink_eq_node_iff {h : H} {i : I} {l : List I} (hi : i ∉ l) :
    lastLink (.head h : Link H I) (i :: l) = .node i ↔ l = [] := by
  rw [lastLink_cons]
  constructor
  · intro he
    cases l with
    | nil => rfl
    | cons j l =>
        rw [lastLink_cons] at he
        rcases lastLink_eq_or (.node j : Link H I) l with h' | ⟨k, hk, h'⟩
        · simp only [h', Link.node.injEq] at he
          exact absurd (by simp [he]) hi
        · simp only [h', Link.node.injEq] at he
          exact absurd (by simp [← he, hk]) hi
  · rintro rfl
    rfl

theorem Linked.unique {next : Link H I → Option I} {p : Option I} {l l' : List I}
    (h : Linked next p l) (h' : Linked next p l') : l = l' := by
  induction l generalizing p l' with
  | nil =>
      cases l' with
      | nil => rfl
      | cons j l' => exact absurd (h.symm.trans h'.1) (by simp)
  | cons i l ih =>
      cases l' with
      | nil => exact absurd (h'.symm.trans h.1) (by simp)
      | cons j l' =>
          have hij : i = j := Option.some.inj (h.1.symm.trans h'.1)
          subst hij
          rw [ih h.2 h'.2]

theorem Linked.eq_head? {next : Link H I → Option I} {p : Option I} {l : List I}
    (h : Linked next p l) : p = l.head? := by
  cases l with
  | nil => exact h
  | cons i l => exact h.1

/-- The rest of a chain after one of its nodes. -/
theorem Linked.after {next : Link H I → Option I} {p : Option I} {u v : List I} {i : I}
    (h : Linked next p (u ++ i :: v)) : Linked next (next (.node i)) v := by
  induction u generalizing p with
  | nil => exact h.2
  | cons j u ih => exact ih h.2

/-- The nodes that a walk of at most `n` steps from the link word `x` visits. -/
def walk (next : Link H I → Option I) : Nat → Link H I → List I
  | 0, _ => []
  | n + 1, x =>
    match next x with
    | none => []
    | some i => i :: walk next n (.node i)

theorem walk_eq_take {next : Link H I → Option I} {x : Link H I} {l : List I}
    (h : Linked next (next x) l) (n : Nat) : walk next n x = l.take n := by
  induction l generalizing n x with
  | nil =>
      cases n with
      | zero => rfl
      | succ n => simp only [walk, show next x = none from h, List.take_nil]
  | cons i l ih =>
      cases n with
      | zero => rfl
      | succ n =>
          simp only [walk, h.1, List.take_succ_cons]
          rw [ih h.2]

theorem walk_linked {next : Link H I → Option I} {x : Link H I} {l : List I} {n : Nat}
    (h : Linked next (next x) l) (hn : l.length ≤ n) : walk next n x = l := by
  rw [walk_eq_take h, List.take_of_length_le hn]

/-- The link word in front of the node `i`, for a walk of at most `n` steps from `x`. -/
def seek [DecidableEq I] (next : Link H I → Option I) (i : I) : Nat → Link H I → Option (Link H I)
  | 0, _ => none
  | n + 1, x =>
    match next x with
    | none => none
    | some j => if j = i then some x else seek next i n (.node j)

theorem seek_linked [DecidableEq I] {next : Link H I → Option I} {x : Link H I} {u v : List I}
    {i : I} {n : Nat} (h : Linked next (next x) (u ++ i :: v)) (hi : i ∉ u) (hn : u.length < n) :
    seek next i n x = some (lastLink x u) := by
  induction u generalizing n x with
  | nil =>
      cases n with
      | zero => simp at hn
      | succ n => simp [seek, h.1]
  | cons j u ih =>
      cases n with
      | zero => simp at hn
      | succ n =>
          have hne : j ≠ i := fun he => hi (by simp [he])
          simp only [seek, h.1, if_neg hne, lastLink_cons]
          exact ih h.2 (fun hm => hi (by simp [hm])) (by simpa using hn)

section LinkAll

variable [DecidableEq H] [DecidableEq I]

/-- Chain the nodes of `l` after the link word `x`, in order, and end the chain. -/
def linkAll (next : Link H I → Option I) : Link H I → List I → Link H I → Option I
  | x, [] => Function.update next x none
  | x, i :: l => linkAll (Function.update next x (some i)) (.node i) l

theorem linkAll_of_ne {next : Link H I → Option I} {x y : Link H I} {l : List I} (hx : y ≠ x)
    (hl : ∀ i ∈ l, y ≠ .node i) : linkAll next x l y = next y := by
  induction l generalizing next x with
  | nil => exact Function.update_of_ne hx _ _
  | cons i l ih =>
      rw [linkAll, ih (hl i (by simp)) fun j hj => hl j (by simp [hj])]
      exact Function.update_of_ne hx _ _

theorem linkAll_linked (next : Link H I → Option I) {x : Link H I} {l : List I} (hnd : l.Nodup)
    (hx : ∀ i ∈ l, x ≠ .node i) : Linked (linkAll next x l) (linkAll next x l x) l := by
  induction l generalizing next x with
  | nil => simp [linkAll, Linked]
  | cons i l ih =>
      have hi : i ∉ l := (List.nodup_cons.mp hnd).1
      have hxi : x ≠ .node i := hx i (by simp)
      refine ⟨?_, ih _ (List.nodup_cons.mp hnd).2 fun j hj he => hi (Link.node.inj he ▸ hj)⟩
      rw [linkAll, linkAll_of_ne hxi fun j hj => hx j (by simp [hj])]
      exact Function.update_self _ _ _

end LinkAll

/-- The link words of all list heads and nodes, and the tail pointer of each list. -/
structure ListHeap (H I : Type*) where
  next : Link H I → Option I
  last : H → Link H I

namespace ListHeap

/-- The list `h` of the heap holds exactly `l` and its tail pointer ends it. -/
structure Holds (s : ListHeap H I) (h : H) (l : List I) : Prop where
  linked : Linked s.next (s.next (.head h)) l
  last_eq : s.last h = lastLink (.head h) l

theorem Holds.unique {s : ListHeap H I} {h : H} {l l' : List I} (hl : s.Holds h l) (hl' : s.Holds h l') : l = l' :=
  hl.linked.unique hl'.linked

end ListHeap

section Heap

variable [DecidableEq H] [DecidableEq I]

/-- Writing a link word outside the chain leaves the chain as it was. -/
theorem Linked.update {next : Link H I → Option I} {p : Option I} {l : List I}
    (h : Linked next p l) {x : Link H I} (v : Option I) (hx : ∀ i ∈ l, x ≠ .node i) :
    Linked (Function.update next x v) p l := by
  induction l generalizing p with
  | nil => exact h
  | cons i l ih =>
      refine ⟨h.1, ?_⟩
      rw [Function.update_of_ne (hx i (by simp)).symm]
      exact ih h.2 fun j hj => hx j (by simp [hj])

/-- Ending a chain at one of its nodes keeps the nodes before it. -/
theorem Linked.cut {next : Link H I → Option I} {p : Option I} {u v : List I} {i : I}
    (h : Linked next p (u ++ i :: v)) (hi : i ∉ u) :
    Linked (Function.update next (.node i) none) p (u ++ [i]) := by
  induction u generalizing p with
  | nil => exact ⟨h.1, by simp [Linked]⟩
  | cons j u ih =>
      have hne : (Link.node j : Link H I) ≠ .node i := by
        intro he
        exact hi (by simp [Link.node.inj he])
      refine ⟨h.1, ?_⟩
      rw [Function.update_of_ne hne]
      exact ih h.2 fun hm => hi (by simp [hm])

namespace ListHeap

/-- An empty list: the first pointer is null and the tail pointer is the head. -/
def initList (s : ListHeap H I) (h : H) : ListHeap H I where
  next := Function.update s.next (.head h) none
  last := Function.update s.last h (.head h)

/-- Append the node `i`: the old tail word points at it and it ends the chain. -/
def insertTail (s : ListHeap H I) (h : H) (i : I) : ListHeap H I where
  next := Function.update (Function.update s.next (s.last h) (some i)) (.node i) none
  last := Function.update s.last h (.node i)

/-- Take the node `i` out after the link word `x`. The tail pointer falls back
to `x` when `i` was the last node. -/
def unlinkAfter (s : ListHeap H I) (h : H) (x : Link H I) (i : I) : ListHeap H I where
  next := Function.update s.next x (s.next (.node i))
  last := if s.last h = .node i then Function.update s.last h x else s.last

/-- Take the first node `i` out. The tail pointer falls back to the head when
the chain after `i` is empty. -/
def popHead (s : ListHeap H I) (h : H) (i : I) : ListHeap H I where
  next := Function.update s.next (.head h) (s.next (.node i))
  last := if s.next (.node i) = none then Function.update s.last h (.head h) else s.last

variable {s : ListHeap H I}

theorem initList_holds (s : ListHeap H I) (h : H) : (s.initList h).Holds h [] :=
  ⟨by simp [initList, Linked], by simp [initList]⟩

theorem initList_holds_other {h h' : H} {l : List I} (hl : s.Holds h' l) (hne : h' ≠ h) :
    (s.initList h).Holds h' l := by
  refine ⟨?_, ?_⟩
  · have hne' : (Link.head h' : Link H I) ≠ .head h := by simpa using hne
    simp only [initList, Function.update_of_ne hne']
    exact hl.linked.update none (by simp)
  · simpa [initList, Function.update_of_ne hne] using hl.last_eq

private theorem linked_snoc {next : Link H I → Option I} {x : Link H I} {l : List I} {i : I}
    (h : Linked next (next x) l) (hnd : l.Nodup) (hx : ∀ j ∈ l, x ≠ .node j)
    (hi : i ∉ l) (hxi : x ≠ .node i) :
    Linked (Function.update (Function.update next (lastLink x l) (some i)) (.node i) none)
      (Function.update (Function.update next (lastLink x l) (some i)) (.node i) none x)
      (l ++ [i]) := by
  induction l generalizing x with
  | nil =>
      refine ⟨?_, by simp [Linked]⟩
      rw [Function.update_of_ne hxi]
      simp
  | cons j l ih =>
      have hjl : j ∉ l := (List.nodup_cons.mp hnd).1
      have hji : j ≠ i := fun he => hi (by simp [he])
      have hlast : x ≠ lastLink (.node j) l := by
        rcases lastLink_eq_or (.node j : Link H I) l with he | ⟨k, hk, he⟩
        · rw [he]; exact hx j (by simp)
        · rw [he]; exact hx k (by simp [hk])
      rw [lastLink_cons]
      refine ⟨?_, ?_⟩
      · rw [Function.update_of_ne hxi, Function.update_of_ne hlast]
        exact h.1
      · exact ih h.2 (List.nodup_cons.mp hnd).2
          (fun k hk he => hjl (Link.node.inj he ▸ hk)) (fun hk => hi (by simp [hk]))
          (by simpa using hji)

theorem insertTail_holds {h : H} {l : List I} {i : I} (hl : s.Holds h l) (hnd : l.Nodup)
    (hi : i ∉ l) : (s.insertTail h i).Holds h (l ++ [i]) := by
  refine ⟨?_, by simp [insertTail]⟩
  simp only [insertTail, hl.last_eq]
  exact linked_snoc hl.linked hnd (by simp) hi (by simp)

/-- A chain that shares no node with the list `h` survives an insertion into it. -/
theorem insertTail_linked {h : H} {l l' : List I} {i : I} {p : Option I}
    (hl : s.Holds h l) (hp : Linked s.next p l') (hdisj : List.Disjoint l' l) (hi : i ∉ l') :
    Linked (s.insertTail h i).next p l' := by
  have htail : ∀ j ∈ l', s.last h ≠ .node j := by
    intro j hj he
    rw [hl.last_eq] at he
    rcases lastLink_eq_or (.head h : Link H I) l with h' | ⟨k, hk, h'⟩
    · rw [h'] at he; cases he
    · rw [h'] at he
      exact hdisj hj (Link.node.inj he ▸ hk)
  exact (hp.update (some i) htail).update none fun j hj he => hi (Link.node.inj he ▸ hj)

theorem insertTail_holds_other {h h' : H} {l l' : List I} {i : I} (hl : s.Holds h l)
    (hl' : s.Holds h' l') (hne : h' ≠ h) (hdisj : List.Disjoint l' l) (hi : i ∉ l') :
    (s.insertTail h i).Holds h' l' := by
  refine ⟨?_, ?_⟩
  · have hhead : (s.insertTail h i).next (.head h') = s.next (.head h') := by
      have hlast : (Link.head h' : Link H I) ≠ s.last h := by
        rw [hl.last_eq]
        rcases lastLink_eq_or (.head h : Link H I) l with he | ⟨k, -, he⟩
        · rw [he]; simpa using hne
        · rw [he]; simp
      simp only [insertTail]
      rw [Function.update_of_ne (by simp), Function.update_of_ne hlast]
    rw [hhead]
    exact insertTail_linked hl hl'.linked hdisj hi
  · simpa [insertTail, Function.update_of_ne hne] using hl'.last_eq

private theorem linked_unlink {next : Link H I → Option I} {x : Link H I} {u v : List I} {i : I}
    (h : Linked next (next x) (u ++ i :: v)) (hnd : (u ++ i :: v).Nodup)
    (hx : ∀ j ∈ u ++ i :: v, x ≠ .node j) :
    Linked (Function.update next (lastLink x u) (next (.node i)))
      (Function.update next (lastLink x u) (next (.node i)) x) (u ++ v) := by
  induction u generalizing x with
  | nil =>
      simp only [List.nil_append, lastLink_nil, Function.update_self] at h hx ⊢
      exact h.2.update _ fun j hj => hx j (by simp [hj])
  | cons j u ih =>
      have hj : j ∉ u ++ i :: v := (List.nodup_cons.mp hnd).1
      have hlast : x ≠ lastLink (.node j) u := by
        rcases lastLink_eq_or (.node j : Link H I) u with he | ⟨k, hk, he⟩
        · rw [he]; exact hx j (by simp)
        · rw [he]; exact hx k (by simp [hk])
      rw [lastLink_cons]
      refine ⟨?_, ?_⟩
      · rw [Function.update_of_ne hlast]
        exact h.1
      · exact ih h.2 (List.nodup_cons.mp hnd).2 fun k hk he => hj (Link.node.inj he ▸ hk)

theorem unlinkAfter_holds {h : H} {u v : List I} {i : I} (hl : s.Holds h (u ++ i :: v))
    (hnd : (u ++ i :: v).Nodup) :
    (s.unlinkAfter h (lastLink (.head h) u) i).Holds h (u ++ v) := by
  refine ⟨linked_unlink hl.linked hnd (by simp), ?_⟩
  have hi : i ∉ v := fun hm =>
    (List.nodup_cons.mp ((List.nodup_append'.mp hnd).2.1)).1 hm
  have hlast : s.last h = lastLink (.node i) v := by rw [hl.last_eq, lastLink_split]
  simp only [unlinkAfter, hlast]
  cases v with
  | nil => simp
  | cons j v =>
      have hne : lastLink (.node i : Link H I) (j :: v) ≠ .node i := by
        intro he
        have := (lastLink_eq_node_iff (h := h) hi).mp (by rw [lastLink_cons]; exact he)
        exact absurd this (by simp)
      rw [if_neg hne, hlast, lastLink_append]
      simp

/-- On a well-formed list both ways to find out that the list becomes empty agree. -/
theorem popHead_eq {h : H} {l : List I} {i : I} (hl : s.Holds h (i :: l)) (hi : i ∉ l) :
    s.popHead h i = s.unlinkAfter h (.head h) i := by
  have hlast : s.last h = .node i ↔ l = [] := by
    rw [hl.last_eq]
    exact lastLink_eq_node_iff hi
  have hnext : s.next (.node i) = none ↔ l = [] := by
    have hl' := hl.linked.2
    cases l with
    | nil => simpa [Linked] using hl'
    | cons j l => simp [hl'.1]
  simp only [popHead, unlinkAfter, hlast, hnext]

/-- A chain that avoids the predecessor word survives the removal. -/
theorem unlinkAfter_linked {h : H} {l : List I} {x : Link H I} {i : I} {p : Option I}
    (hp : Linked s.next p l) (hx : ∀ j ∈ l, x ≠ .node j) :
    Linked (s.unlinkAfter h x i).next p l :=
  hp.update _ hx

theorem unlinkAfter_holds_other {h h' : H} {u l' : List I} {i : I}
    (hl' : s.Holds h' l') (hne : h' ≠ h) (hdisj : List.Disjoint l' u) :
    (s.unlinkAfter h (lastLink (.head h) u) i).Holds h' l' := by
  have havoid : ∀ j ∈ l', lastLink (.head h : Link H I) u ≠ .node j := by
    intro j hj he
    rcases lastLink_eq_or (.head h : Link H I) u with h' | ⟨k, hk, h'⟩
    · rw [h'] at he; cases he
    · rw [h'] at he
      exact hdisj hj (Link.node.inj he ▸ hk)
  refine ⟨?_, ?_⟩
  · have hhead : (Link.head h' : Link H I) ≠ lastLink (.head h) u := by
      rcases lastLink_eq_or (.head h : Link H I) u with he | ⟨k, -, he⟩
      · rw [he]; simpa using hne
      · rw [he]; simp
    simp only [unlinkAfter]
    rw [Function.update_of_ne hhead]
    exact hl'.linked.update _ havoid
  · simp only [unlinkAfter]
    split
    · simpa [Function.update_of_ne hne] using hl'.last_eq
    · exact hl'.last_eq

/-- Append the nodes of `l` one after the other. -/
def insertAll (s : ListHeap H I) (h : H) (l : List I) : ListHeap H I :=
  l.foldl (fun t i => t.insertTail h i) s

@[simp] theorem insertAll_cons (s : ListHeap H I) (h : H) (i : I) (l : List I) :
    s.insertAll h (i :: l) = (s.insertTail h i).insertAll h l := rfl

theorem insertAll_holds {h : H} {l v : List I} (hl : s.Holds h l) (hnd : (l ++ v).Nodup) :
    (s.insertAll h v).Holds h (l ++ v) := by
  induction v generalizing s l with
  | nil => simpa [insertAll] using hl
  | cons i v ih =>
      obtain ⟨hnl, -, hdisj⟩ := List.nodup_append'.mp hnd
      have hi : i ∉ l := fun hm => hdisj hm (by simp)
      have hstep := ih (insertTail_holds hl hnl hi) (by simpa using hnd)
      simpa using hstep

theorem insertAll_linked {h : H} {l v l' : List I} {p : Option I} (hl : s.Holds h l)
    (hnd : (l ++ v).Nodup) (hp : Linked s.next p l') (hdisj : List.Disjoint l' (l ++ v)) :
    Linked (s.insertAll h v).next p l' := by
  induction v generalizing s l with
  | nil => exact hp
  | cons i v ih =>
      obtain ⟨hnl, -, hlv⟩ := List.nodup_append'.mp hnd
      have hi : i ∉ l := fun hm => hlv hm (by simp)
      have hi' : i ∉ l' := fun hm => hdisj hm (by simp)
      have hdl : List.Disjoint l' l := (List.disjoint_append_right.mp hdisj).1
      exact ih (insertTail_holds hl hnl hi) (by simpa using hnd)
        (insertTail_linked hl hp hdl hi') (by simpa using hdisj)

theorem insertAll_holds_other {h h' : H} {l v l' : List I} (hl : s.Holds h l)
    (hnd : (l ++ v).Nodup) (hl' : s.Holds h' l') (hne : h' ≠ h)
    (hdisj : List.Disjoint l' (l ++ v)) : (s.insertAll h v).Holds h' l' := by
  induction v generalizing s l with
  | nil => exact hl'
  | cons i v ih =>
      obtain ⟨hnl, -, hlv⟩ := List.nodup_append'.mp hnd
      have hi : i ∉ l := fun hm => hlv hm (by simp)
      have hi' : i ∉ l' := fun hm => hdisj hm (by simp)
      have hdl : List.Disjoint l' l := (List.disjoint_append_right.mp hdisj).1
      exact ih (insertTail_holds hl hnl hi) (by simpa using hnd)
        (insertTail_holds_other hl hl' hne hdl hi') (by simpa using hdisj)

/-- Cut a list after the node `i`: the chain up to `i` is ended there and the
rest, which starts at `p`, stays in the list. -/
def cutAfter (s : ListHeap H I) (h : H) (i : I) (p : Option I) : ListHeap H I where
  next := Function.update (Function.update s.next (.node i) none) (.head h) p
  last := if p = none then Function.update s.last h (.head h) else s.last

theorem cutAfter_linked_other {h : H} {l : List I} {i : I} {p q : Option I}
    (hl : Linked s.next q l) (hi : i ∉ l) : Linked (s.cutAfter h i p).next q l :=
  (hl.update (x := .node i) none fun _ hj he => hi (Link.node.inj he ▸ hj)).update p (by simp)

theorem cutAfter_holds {h : H} {u v : List I} {i : I} (hl : s.Holds h (u ++ i :: v))
    (hnd : (u ++ i :: v).Nodup) : (s.cutAfter h i v.head?).Holds h v := by
  have hrest : Linked s.next (s.next (.node i)) v := hl.linked.after
  have hi : i ∉ v := (List.nodup_cons.mp (List.nodup_append'.mp hnd).2.1).1
  refine ⟨?_, ?_⟩
  · simp only [cutAfter, Function.update_self]
    rw [← hrest.eq_head?]
    exact cutAfter_linked_other hrest hi
  · cases v with
    | nil => simp [cutAfter]
    | cons j v =>
        simp only [cutAfter, List.head?_cons, reduceCtorEq, if_false]
        rw [hl.last_eq, lastLink_split, lastLink_cons, lastLink_cons]

theorem cutAfter_linked {h : H} {u v : List I} {i : I} (hl : s.Holds h (u ++ i :: v))
    (hnd : (u ++ i :: v).Nodup) (p : Option I) :
    Linked (s.cutAfter h i p).next (u ++ [i]).head? (u ++ [i]) := by
  have hi : i ∉ u := fun hm => (List.nodup_append'.mp hnd).2.2 hm (by simp)
  have hcut : Linked (s.cutAfter h i p).next (s.next (.head h)) (u ++ [i]) :=
    (hl.linked.cut hi).update p (by simp)
  rwa [hcut.eq_head?] at hcut

theorem cutAfter_holds_other {h h' : H} {l' : List I} {i : I} {p : Option I}
    (hl' : s.Holds h' l') (hne : h' ≠ h) (hi : i ∉ l') : (s.cutAfter h i p).Holds h' l' := by
  have hhead : (Link.head h' : Link H I) ≠ .head h := by simpa using hne
  refine ⟨?_, ?_⟩
  · simp only [cutAfter, Function.update_of_ne hhead]
    rw [Function.update_of_ne (by simp)]
    exact cutAfter_linked_other hl'.linked hi
  · simp only [cutAfter]
    split
    · simpa [Function.update_of_ne hne] using hl'.last_eq
    · exact hl'.last_eq

end ListHeap

end Heap

end YardIce.Lib
