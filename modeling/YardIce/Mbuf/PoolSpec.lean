import YardIce.Mbuf.Invariant

/-!
# What the pool functions do

One specification for each function of the pool that allocates or releases
buffers: on a state with the invariant it returns, and the result has the
invariant for the contents it names.
-/

namespace YardIce.MbufPool

open Lib ListPool ListHeap

variable {Q V : Type} [DecidableEq Q]
variable {s : MbufSys Q} {c : Place Q V → List Mbuf} {m : Mbuf} {l : List Mbuf}

omit [DecidableEq Q] in
theorem mutexLock_unlocked (h : s.locked = false) : mutexLock s = .ok { s with locked := true } := by
  simp [mutexLock, h]

omit [DecidableEq Q] in
theorem next_free (hinv : Inv s c) : s.heap.next (.head .free) = (c freePlace).head? :=
  hinv.holds_free.linked.eq_head?

section Take

theorem takeFirst_heap (hinv : Inv s c) (hc : c freePlace = m :: l) :
    (takeFirst s m).heap = s.heap.unlinkAfter .free (.head .free) m := by
  have hholds := hinv.holds_free
  have hnd := hinv.pool.part.nodup freePlace
  rw [hc] at hholds hnd
  exact popHead_eq hholds (List.nodup_cons.mp hnd).1

theorem takeFirst_used (hinv : Inv s c) (hc : c freePlace = m :: l) :
    (takeFirst s m).used = s.used + 1 := by
  have hused := hinv.used_eq
  rw [hc, List.length_cons] at hused
  simp only [takeFirst, mbufPoolSize] at hused ⊢
  omega

theorem takeFirst_unlock (h : s.locked = false) (m : Mbuf) :
    mutexUnlock (takeFirst { s with locked := true } m) = takeFirst s m := by
  simp [mutexUnlock, takeFirst, ← h]

/-- With a free buffer `mbuf_try_alloc` takes the first one. -/
theorem mbufTryAlloc_cons (hinv : Inv s c) (hc : c freePlace = m :: l) :
    mbufTryAlloc s = .ok (some m, takeFirst s m) := by
  have hnext := next_free hinv
  rw [hc] at hnext
  simp only [mbufTryAlloc, mutexLock_unlocked hinv.unlocked]
  simp only [bind, Except.bind, hnext, List.head?_cons, takeFirst_unlock hinv.unlocked]
  rfl

/-- Without one it fails and changes nothing. -/
theorem mbufTryAlloc_nil (hinv : Inv s c) (hc : c freePlace = []) :
    mbufTryAlloc s = .ok (none, s) := by
  have hnext := next_free hinv
  rw [hc] at hnext
  have hstate : mutexUnlock { s with locked := true } = s := by
    simp [mutexUnlock, ← hinv.unlocked]
  simp only [mbufTryAlloc, mutexLock_unlocked hinv.unlocked]
  simp only [bind, Except.bind, hnext, List.head?_nil, hstate]
  rfl

/-- With a free buffer `mbuf_alloc` takes the first one too. -/
theorem mbufAlloc_cons (hinv : Inv s c) (hc : c freePlace = m :: l) :
    mbufAlloc s = .ok (m, takeFirst s m) := by
  have hnext := next_free hinv
  rw [hc] at hnext
  simp only [mbufAlloc, mutexLock_unlocked hinv.unlocked]
  simp only [bind, Except.bind, hnext, List.head?_cons, takeFirst_unlock hinv.unlocked]
  rfl

/-- Without one it waits. -/
theorem mbufAlloc_nil (hinv : Inv s c) (hc : c freePlace = []) :
    mbufAlloc s = .error .blocked := by
  have hnext := next_free hinv
  rw [hc] at hnext
  simp only [mbufAlloc, mutexLock_unlocked hinv.unlocked]
  simp only [bind, Except.bind, hnext, List.head?_nil]

/-- The buffer taken goes to the variable `v` of a client. -/
theorem takeFirst_inv [DecidableEq V] (hinv : Inv s c) (hc : c freePlace = m :: l) (v : V) :
    Inv (takeFirst s m) (moved c freePlace (.inr v) l m) := by
  have hne : (freePlace : Place Q V) ≠ .inr v := by simp
  refine ⟨⟨?_, hinv.max_eq, ?_, hinv.unlocked⟩, ?_⟩
  · rw [takeFirst_heap hinv hc]
    exact hinv.pool.take Sum.inl_injective (by simp) hc
  · have hused := hinv.used_eq
    rw [takeFirst_used hinv hc, moved_source hne]
    rw [hc, List.length_cons] at hused
    omega
  · intro q
    rw [moved_other (by simp) (by simp)]
    exact hinv.fill q

theorem takeFirst_frame [DecidableEq V] (hinv : Inv s c) (hc : c freePlace = m :: l) (v : V) :
    Frame (.inr v) s c (takeFirst s m) (moved c freePlace (.inr v) l m) := by
  constructor
  · intro r hf hv
    exact moved_other hf hv _ _
  · intro r _ _ b _
    rfl
  · intro r hf _ x hx
    rw [takeFirst_heap hinv hc]
    exact hinv.pool.unlink_linked (u := []) hc hf hx
  · intro q _
    rfl

end Take

section Release

theorem mbufFree_unlocked (h : s.locked = false) (m : Mbuf) :
    mbufFree s m = .ok (mbufRelease s m) := by
  have hstate : mutexUnlock (mbufRelease { s with locked := true } m) = mbufRelease s m := by
    simp [mutexUnlock, mbufRelease, ← h]
  simp only [mbufFree, mutexLock_unlocked h]
  simp only [bind, Except.bind, hstate]
  rfl

/-- The counter after one release, on values it can have. -/
theorem used_release {n : Nat} (hpos : 0 < n) (hle : n ≤ mbufPoolSize) :
    (n + 255) % 256 = n - 1 := by
  simp only [mbufPoolSize] at hle
  omega

theorem mbufRelease_inv [DecidableEq V] (hinv : Inv s c) {v : V} (hc : c (.inr v) = [m]) :
    Inv (mbufRelease s m) (moved c (.inr v) freePlace [] m) := by
  have hne : (.inr v : Place Q V) ≠ freePlace := by simp
  have hpos : 0 < s.used := hinv.used_pos hne (b := m) (by simp [hc])
  refine ⟨⟨?_, hinv.max_eq, ?_, hinv.unlocked⟩, ?_⟩
  · exact hinv.pool.put Sum.inl_injective (by simp) hc
  · have hused := hinv.used_eq
    rw [moved_target, List.length_append, List.length_singleton]
    simp only [mbufRelease, used_release hpos hinv.used_le]
    omega
  · intro q
    rw [moved_other (by simp) (by simp)]
    exact hinv.fill q

theorem mbufRelease_frame [DecidableEq V] (hinv : Inv s c) {v : V} (hc : c (.inr v) = [m]) :
    Frame (.inr v) s c (mbufRelease s m) (moved c (.inr v) freePlace [] m) := by
  constructor
  · intro r hf hv
    exact moved_other hv hf _ _
  · intro r _ _ b _
    rfl
  · intro r hf hv x hx
    have hm : m ∉ c r := fun hr => hv (hinv.pool.part.eq_of_mem hr (by simp [hc]))
    exact insertTail_linked hinv.holds_free hx (hinv.pool.disjoint hf) hm
  · intro q _
    rfl

end Release

section ReleaseLoop

/-- The release loop walks a chain to its end and appends all of it. -/
theorem releaseLoop_eq {fuel : Nat} {x : Option Mbuf} {ch : List Mbuf}
    (hfree : s.heap.Holds .free l) (hx : Linked s.heap.next x ch) (hnd : (l ++ ch).Nodup)
    (hused : s.used < 256) (hfuel : ch.length ≤ fuel) :
    releaseLoop fuel s x = .ok { s with
      heap := s.heap.insertAll .free ch
      used := (s.used + 255 * ch.length) % 256 } := by
  induction ch generalizing s fuel x l with
  | nil =>
      obtain rfl : x = none := hx
      have : s.used % 256 = s.used := Nat.mod_eq_of_lt hused
      cases fuel <;> simp [releaseLoop, insertAll, this]
  | cons b ch ih =>
      obtain ⟨rfl, hrest⟩ := hx
      obtain ⟨hnl, hnc, hdisj⟩ := List.nodup_append'.mp hnd
      have hb : b ∉ l := fun hm => hdisj hm (by simp)
      have hch : b ∉ ch := (List.nodup_cons.mp hnc).1
      cases fuel with
      | zero => simp at hfuel
      | succ fuel =>
          have hfree' : (mbufRelease s b).heap.Holds .free (l ++ [b]) :=
            insertTail_holds hfree hnl hb
          have hrest' : Linked (mbufRelease s b).heap.next (s.heap.next (.node b)) ch :=
            insertTail_linked hfree hrest (fun i hi hl => hdisj hl (by simp [hi])) hch
          have hmod : (mbufRelease s b).used < 256 := Nat.mod_lt _ (by decide)
          rw [releaseLoop, ih hfree' hrest' (by simpa using hnd) hmod (by simpa using hfuel)]
          simp only [mbufRelease, insertAll_cons, List.length_cons]
          congr 2
          omega

theorem used_releaseLoop {n k : Nat} (hle : n ≤ mbufPoolSize) (hk : k ≤ n) :
    (n + 255 * k) % 256 = n - k := by
  simp only [mbufPoolSize] at hle
  omega

omit [DecidableEq Q] in
/-- What is outside the free list is counted as used. -/
theorem PoolInv.length_le_used (hinv : PoolInv s c) {r : Place Q V} (hr : r ≠ freePlace) :
    (c r).length ≤ s.used := by
  have hnd : (c r ++ c freePlace).Nodup :=
    List.nodup_append'.mpr ⟨hinv.pool.part.nodup _, hinv.pool.part.nodup _, hinv.pool.disjoint hr⟩
  have hcard := hnd.length_le_card
  have := hinv.used_eq
  simp only [List.length_append, Fintype.card_fin] at hcard
  omega

/-- The state after the chain `ch` went back to the free list. -/
def listFreed (s : MbufSys Q) (ch : List Mbuf) : MbufSys Q :=
  { s with heap := s.heap.insertAll .free ch, used := s.used - ch.length }

/-- The release loop runs with the mutex held, over the chain of any place. -/
theorem releaseLoop_place (hinv : Inv s c) {r : Place Q V} (hr : r ≠ freePlace)
    {x : Option Mbuf} (hx : Linked s.heap.next x (c r)) :
    releaseLoop mbufPoolSize { s with locked := true } x =
      .ok { listFreed s (c r) with locked := true } := by
  have hused := hinv.used_le
  have hlt : s.used < 256 := by
    simp only [mbufPoolSize] at hused
    omega
  have hloop := releaseLoop_eq (s := { s with locked := true }) hinv.holds_free hx
    (hinv.pool.nodup_target hr.symm) hlt (hinv.length_le r)
  rw [hloop, used_releaseLoop hused (hinv.length_le_used hr)]
  rfl

/-- `mbuf_list_free` returns every buffer of the chain. -/
theorem mbufListFree_eq (hinv : Inv s c) {v : V} {x : Option Mbuf}
    (hx : Linked s.heap.next x (c (.inr v))) :
    mbufListFree s x = .ok (listFreed s (c (.inr v))) := by
  simp only [mbufListFree, mutexLock_unlocked hinv.unlocked]
  simp only [bind, Except.bind, releaseLoop_place hinv (by simp) hx, pure, Except.pure,
    mutexUnlock, listFreed]
  simp [← hinv.unlocked]

/-- What every release of a whole place does to the free list and its counter. -/
theorem listFreed_used [DecidableEq V] (hinv : Inv s c) {r : Place Q V} (hr : r ≠ freePlace) :
    s.used - (c r).length + (drained c r freePlace freePlace).length = mbufPoolSize := by
  have hused := hinv.used_eq
  have hle := hinv.length_le_used hr
  rw [drained_target, List.length_append]
  omega

theorem listFreed_inv [DecidableEq V] (hinv : Inv s c) (v : V) :
    Inv (listFreed s (c (.inr v))) (drained c (.inr v) freePlace) := by
  refine ⟨⟨?_, hinv.max_eq, ?_, hinv.unlocked⟩, ?_⟩
  · exact hinv.pool.drain Sum.inl_injective (by simp)
  · exact listFreed_used hinv (by simp)
  · intro q
    rw [drained_other (by simp) (by simp)]
    exact hinv.fill q

theorem listFreed_frame [DecidableEq V] (hinv : Inv s c) {r : Place Q V} (hr : r ≠ freePlace) :
    Frame r s c (listFreed s (c r)) (drained c r freePlace) := by
  constructor
  · intro p hf hp
    exact drained_other hp hf
  · intro p _ _ b _
    rfl
  · intro p hf hp x hx
    exact hinv.pool.drain_linked hr.symm hf hp hx
  · intro q _
    rfl

end ReleaseLoop

section ListAlloc

omit [DecidableEq Q] in
theorem listWalk_eq {x y : Option Mbuf} {u v : List Mbuf} {b : Mbuf}
    (hx : Linked s.heap.next x (u ++ b :: v)) :
    listWalk s (u.length + 1) x y = .ok (v.head?, some b) := by
  induction u generalizing x y with
  | nil =>
      obtain ⟨rfl, hrest⟩ := hx
      simp [listWalk, hrest.eq_head?]
  | cons a u ih =>
      obtain ⟨rfl, hrest⟩ := hx
      exact ih hrest

/-- The state after the chain that ends in `b` was cut off the free list. -/
def listTaken (s : MbufSys Q) (b : Mbuf) (v : List Mbuf) (n : Nat) : MbufSys Q :=
  { s with heap := s.heap.cutAfter .free b v.head?, used := s.used + n }

/-- With enough free buffers `mbuf_list_alloc` cuts off the first ones. -/
theorem mbufListAlloc_eq (hinv : Inv s c) {len : Nat} {u v : List Mbuf} {b : Mbuf}
    (hc : c freePlace = u ++ b :: v)
    (hn : (len + (mbufDataSize - 1)) / mbufDataSize = u.length + 1) :
    mbufListAlloc s len =
      .ok ((u ++ [b]).head?, listTaken s b v (u.length + 1)) := by
  have hused := hinv.used_eq
  have hmax := hinv.max_eq
  have hholds := hinv.holds_free
  rw [hc] at hused hholds
  have hfirst : s.heap.next (.head .free) = (u ++ [b]).head? := by
    rw [hholds.linked.eq_head?]
    cases u <;> rfl
  simp only [List.length_append, List.length_cons, mbufPoolSize] at hused hmax
  have hroom : ¬((u.length + 1 : Nat) : Int) > (s.max : Int) - s.used := by omega
  have hmod : (s.used + (u.length + 1)) % 256 = s.used + (u.length + 1) := by omega
  have hwalk := listWalk_eq (s := { s with locked := true }) (y := s.heap.next (.head .free))
    hholds.linked
  simp only [hfirst] at hwalk
  simp only [mbufListAlloc, mutexLock_unlocked hinv.unlocked, hn]
  simp only [bind, Except.bind, if_neg hroom, hfirst, hwalk, pure, Except.pure, mutexUnlock,
    listTaken, hmod, hinv.unlocked]

/-- The calls of `mbuf_list_alloc` that ask for at least one byte and for no more
buffers than are free. -/
def ListAllocFits (s : MbufSys Q) (len : Nat) : Prop :=
  0 < len ∧ len ≤ mbufDataSize * (s.max - s.used)

instance (s : MbufSys Q) (len : Nat) : Decidable (ListAllocFits s len) :=
  inferInstanceAs (Decidable (_ ∧ _))

omit [DecidableEq Q] in
theorem ListAllocFits.split (hinv : Inv s c) {len : Nat} (hfit : ListAllocFits s len) :
    ∃ u b v, c freePlace = u ++ b :: v ∧
      (len + (mbufDataSize - 1)) / mbufDataSize = u.length + 1 := by
  obtain ⟨hpos, hle⟩ := hfit
  have hused := hinv.used_eq
  have hmax := hinv.max_eq
  simp only [mbufDataSize, mbufPoolSize] at hle hused hmax ⊢
  generalize hk : (len + (124 - 1)) / 124 = k
  obtain ⟨n, rfl⟩ : ∃ n, k = n + 1 := ⟨k - 1, by omega⟩
  have hlt : n < (c freePlace).length := by omega
  refine ⟨(c freePlace).take n, (c freePlace)[n], (c freePlace).drop (n + 1), ?_, ?_⟩
  · simp
  · simp only [List.length_take]
    omega

theorem listTaken_inv [DecidableEq V] (hinv : Inv s c) {u w : List Mbuf} {b : Mbuf} {v : V}
    (hc : c freePlace = u ++ b :: w) (hv : c (.inr v) = []) :
    Inv (listTaken s b w (u.length + 1)) (splitOff c freePlace (.inr v) (u ++ [b]) w) := by
  have hne : (freePlace : Place Q V) ≠ .inr v := by simp
  refine ⟨⟨?_, hinv.max_eq, ?_, hinv.unlocked⟩, ?_⟩
  · exact hinv.pool.cut Sum.inl_injective (by simp) hc hv
  · have hused := hinv.used_eq
    rw [hc] at hused
    rw [splitOff_source hne]
    simp only [listTaken, List.length_append, List.length_cons] at hused ⊢
    omega
  · intro q
    rw [splitOff_other (by simp) (by simp)]
    exact hinv.fill q

theorem listTaken_linked (hinv : Inv s c) {u w : List Mbuf} {b : Mbuf}
    (hc : c freePlace = u ++ b :: w) (n : Nat) :
    Linked (listTaken s b w n).heap.next (u ++ [b]).head? (u ++ [b]) := by
  have hholds := hinv.holds_free
  have hnd := hinv.pool.part.nodup freePlace
  rw [hc] at hholds hnd
  exact cutAfter_linked hholds hnd _

theorem listTaken_frame [DecidableEq V] (hinv : Inv s c) {u w : List Mbuf} {b : Mbuf} (v : V)
    (hc : c freePlace = u ++ b :: w) (n : Nat) :
    Frame (.inr v) s c (listTaken s b w n) (splitOff c freePlace (.inr v) (u ++ [b]) w) := by
  constructor
  · intro r hf hv
    exact splitOff_other hf hv _ _
  · intro r _ _ i _
    rfl
  · intro r hf _ x hx
    have hb : b ∉ c r := fun hr => hf (hinv.pool.part.eq_of_mem hr (by simp [hc]))
    exact cutAfter_linked_other hx hb
  · intro q _
    rfl

end ListAlloc

end YardIce.MbufPool
