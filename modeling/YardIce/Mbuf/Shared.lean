import YardIce.Mbuf.Clients

/-!
# A pool with other holders

The pool serves clients and hands out chains to others as well. A call of a client moves
buffers between the free list and one place of the client; every chain of the others stays
as it is, with its bytes.
-/

namespace YardIce.MbufPool

open Lib ListPool

variable {Q V W : Type} [DecidableEq Q] [DecidableEq V] [DecidableEq W]

/-- The invariant of a pool with the clients `s` and further holders `W`. -/
structure SharedInv (s : Clients Q V) (c : Place Q (V ⊕ W) → List Mbuf) : Prop where
  inv : Inv s.sys c
  held : ∀ v, HeldOk s.sys (s.vars v) (c (.inr (.inl v)))

/-- The place that a call is about. -/
def Call.place : Call Q V → Place Q (V ⊕ W)
  | .alloc v => .inr (.inl v)
  | .tryAlloc v => .inr (.inl v)
  | .free v => .inr (.inl v)
  | .listAlloc v _ => .inr (.inl v)
  | .listFree v => .inr (.inl v)
  | .queueAdd q _ => queuePlace q
  | .queueGet q _ _ => queuePlace q
  | .queueTrim q _ => queuePlace q
  | .queueRemove q _ => queuePlace q
  | .queueFree q => queuePlace q

variable {s t : Clients Q V} {c c' : Place Q (V ⊕ W) → List Mbuf} {sys : MbufSys Q}

/-- The state behind a call, with the invariant and what the call left alone. -/
def Kept (p : Place Q (V ⊕ W)) (s : Clients Q V) (c : Place Q (V ⊕ W) → List Mbuf)
    (t : Clients Q V) : Prop :=
  ∃ c', SharedInv t c' ∧ Frame p s.sys c t.sys c'

omit [DecidableEq Q] [DecidableEq V] [DecidableEq W] in
theorem SharedInv.kept_self (h : SharedInv s c) (p : Place Q (V ⊕ W)) : Kept p s c s :=
  ⟨c, h, Frame.refl _ _ _⟩

omit [DecidableEq Q] [DecidableEq V] [DecidableEq W] in
theorem SharedInv.kept_queue (h : SharedInv s c) {q : Q} (hinv : Inv sys c')
    (hf : Frame (queuePlace q) s.sys c sys c') : Kept (queuePlace q) s c { s with sys := sys } :=
  ⟨c', ⟨hinv, fun v => (h.held v).frame hf (by simp)⟩, hf⟩

omit [DecidableEq Q] [DecidableEq W] in
theorem SharedInv.kept_set (h : SharedInv s c) {v : V} (hinv : Inv sys c')
    (hf : Frame (.inr (.inl v)) s.sys c sys c') {x : Held} (hx : HeldOk sys x (c' (.inr (.inl v)))) :
    Kept (.inr (.inl v)) s c (s.set sys v x) := by
  refine ⟨c', ⟨hinv, fun w => ?_⟩, hf⟩
  by_cases hw : w = v
  · subst hw
    simpa only [Clients.set, Function.update_self] using hx
  · simp only [Clients.set, Function.update_of_ne hw]
    exact (h.held w).frame hf (by simpa using hw)

omit [DecidableEq Q] [DecidableEq V] [DecidableEq W] in
theorem SharedInv.contents (h : SharedInv s c) {v : V} {x : Held} (hv : s.vars v = x) :
    HeldOk s.sys x (c (.inr (.inl v))) := by
  have hheld := h.held v
  rwa [hv] at hheld

theorem SharedInv.kept_taken (h : SharedInv s c) {v : V} (hv : s.vars v = .empty) {m : Mbuf}
    {l : List Mbuf} (hc : c freePlace = m :: l) :
    Kept (.inr (.inl v)) s c (s.set (takeFirst s.sys m) v (.buf m)) := by
  have hempty : c (.inr (.inl v)) = [] := h.contents hv
  refine h.kept_set (takeFirst_inv h.inv hc _) (takeFirst_frame h.inv hc _) ?_
  simp only [HeldOk, moved_target, hempty, List.nil_append]

omit [DecidableEq Q] [DecidableEq V] [DecidableEq W] in
/-- The calls that do nothing. -/
theorem kept_of_pure (h : SharedInv s c) {p : Place Q (V ⊕ W)} {r r' : Reply}
    (hcall : (pure (r', s) : Except Stop (Reply × Clients Q V)) = .ok (r, t)) : Kept p s c t := by
  cases hcall
  exact h.kept_self p

theorem SharedInv.alloc (h : SharedInv s c) {v : V} {r : Reply}
    (hcall : s.call (.alloc v) = .ok (r, t)) : Kept (.inr (.inl v)) s c t := by
  simp only [Clients.call] at hcall
  split at hcall
  · next hv =>
    cases hc : c freePlace with
    | nil =>
        rw [mbufAlloc_nil h.inv hc] at hcall
        cases hcall
    | cons m l =>
        rw [mbufAlloc_cons h.inv hc] at hcall
        cases hcall
        exact h.kept_taken hv hc
  · exact kept_of_pure h hcall

theorem SharedInv.tryAlloc (h : SharedInv s c) {v : V} {r : Reply}
    (hcall : s.call (.tryAlloc v) = .ok (r, t)) : Kept (.inr (.inl v)) s c t := by
  simp only [Clients.call] at hcall
  split at hcall
  · next hv =>
    cases hc : c freePlace with
    | nil =>
        rw [mbufTryAlloc_nil h.inv hc] at hcall
        cases hcall
        exact h.kept_set h.inv (Frame.refl _ _ _) (h.contents hv)
    | cons m l =>
        rw [mbufTryAlloc_cons h.inv hc] at hcall
        cases hcall
        exact h.kept_taken hv hc
  · exact kept_of_pure h hcall

theorem SharedInv.free (h : SharedInv s c) {v : V} {r : Reply}
    (hcall : s.call (.free v) = .ok (r, t)) : Kept (.inr (.inl v)) s c t := by
  simp only [Clients.call] at hcall
  cases hv : s.vars v with
  | empty =>
      rw [hv] at hcall
      exact kept_of_pure h hcall
  | chain p =>
      rw [hv] at hcall
      exact kept_of_pure h hcall
  | buf m =>
      rw [hv] at hcall
      dsimp only at hcall
      rw [mbufFree_unlocked h.inv.unlocked] at hcall
      cases hcall
      have hc : c (.inr (.inl v)) = [m] := h.contents hv
      refine h.kept_set (mbufRelease_inv h.inv hc) (mbufRelease_frame h.inv hc) ?_
      exact moved_source (by simp) _ _

theorem SharedInv.listAlloc (h : SharedInv s c) {v : V} {len : Nat} {r : Reply}
    (hfit : ListAllocFits s.sys len) (hcall : s.call (.listAlloc v len) = .ok (r, t)) :
    Kept (.inr (.inl v)) s c t := by
  simp only [Clients.call] at hcall
  split at hcall
  · next hv =>
    have hempty : c (.inr (.inl v)) = [] := h.contents hv
    obtain ⟨u, b, w, hc, hn⟩ := hfit.split h.inv
    obtain ⟨x, hx⟩ : ∃ x, (u ++ [b]).head? = some x := by
      cases u with
      | nil => exact ⟨b, rfl⟩
      | cons x u => exact ⟨x, rfl⟩
    have hlinked := listTaken_linked h.inv hc (u.length + 1)
    rw [mbufListAlloc_eq h.inv hc hn, hx] at hcall
    cases hcall
    rw [hx] at hlinked
    have hx : HeldOk (listTaken s.sys b w (u.length + 1)) (.chain (some x))
        (splitOff c freePlace (.inr (.inl v)) (u ++ [b]) w (.inr (.inl v))) := by
      rw [splitOff_target]
      exact hlinked
    exact h.kept_set (listTaken_inv h.inv hc hempty) (listTaken_frame h.inv _ hc _) hx
  · exact kept_of_pure h hcall

theorem SharedInv.listFree (h : SharedInv s c) {v : V} {r : Reply}
    (hcall : s.call (.listFree v) = .ok (r, t)) : Kept (.inr (.inl v)) s c t := by
  simp only [Clients.call] at hcall
  cases hv : s.vars v with
  | empty =>
      rw [hv] at hcall
      exact kept_of_pure h hcall
  | buf m =>
      rw [hv] at hcall
      exact kept_of_pure h hcall
  | chain p =>
      rw [hv] at hcall
      dsimp only at hcall
      have hlinked : Linked s.sys.heap.next p (c (.inr (.inl v))) := h.contents hv
      rw [mbufListFree_eq h.inv hlinked] at hcall
      cases hcall
      refine h.kept_set (listFreed_inv h.inv _) (listFreed_frame h.inv (by simp)) ?_
      exact drained_source (by simp)

theorem SharedInv.queueAdd (h : SharedInv s c) {q : Q} {buf : List UInt8} {r : Reply}
    (hcall : s.call (.queueAdd q buf) = .ok (r, t)) : Kept (queuePlace q) s c t := by
  obtain ⟨k, sys, c', hrun, hadd, -⟩ := mbufQueueAdd_spec h.inv q buf
  simp only [Clients.call, hrun] at hcall
  cases hcall
  exact h.kept_queue hadd.inv hadd.frame

theorem SharedInv.queueTrim (h : SharedInv s c) {q : Q} {len : Nat} {r : Reply}
    (hcall : s.call (.queueTrim q len) = .ok (r, t)) : Kept (queuePlace q) s c t := by
  obtain ⟨out, sys, c', hrun, hcons⟩ := consume_spec h.inv false q len
  simp only [Clients.call, mbufQueueTrim, hrun] at hcall
  cases hcall
  exact h.kept_queue hcons.inv hcons.frame

theorem SharedInv.queueRemove (h : SharedInv s c) {q : Q} {len : Nat} {r : Reply}
    (hcall : s.call (.queueRemove q len) = .ok (r, t)) : Kept (queuePlace q) s c t := by
  obtain ⟨out, sys, c', hrun, hcons⟩ := consume_spec h.inv true q len
  simp only [Clients.call, mbufQueueRemove, hrun] at hcall
  cases hcall
  exact h.kept_queue hcons.inv hcons.frame

/-- Every call of a client that fits leaves the chains of all others alone. -/
theorem SharedInv.call (h : SharedInv s c) {a : Call Q V} {r : Reply} (hfit : Fits s a)
    (hcall : s.call a = .ok (r, t)) : Kept a.place s c t := by
  cases a with
  | alloc v => exact h.alloc hcall
  | tryAlloc v => exact h.tryAlloc hcall
  | free v => exact h.free hcall
  | listAlloc v len => exact h.listAlloc hfit hcall
  | listFree v => exact h.listFree hcall
  | queueAdd q buf => exact h.queueAdd hcall
  | queueTrim q len => exact h.queueTrim hcall
  | queueRemove q len => exact h.queueRemove hcall
  | queueGet q offs len =>
      simp only [Clients.call, mbufQueueGet_spec h.inv] at hcall
      cases hcall
      exact h.kept_self _
  | queueFree q =>
      simp only [Clients.call, mbufQueueFree_eq h.inv] at hcall
      cases hcall
      exact h.kept_queue (queueFreed_inv h.inv q) (queueFreed_frame h.inv q)

end YardIce.MbufPool
