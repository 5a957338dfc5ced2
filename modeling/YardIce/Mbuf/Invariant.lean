import YardIce.Mbuf.Bytes
import Mathlib.Data.Fintype.Card
import Mathlib.Data.Fintype.List

/-!
# The invariant of the mbuf pool

Every buffer is in the free list, in one queue or with one client. The ghost
function `c` names the buffers of each place; the lists of the heap agree with
it, the counter `used` counts what is not free, and each queue has the buffers
its offset and length need.

## Implementation notes

Each operation moves buffers between the free list and one other place. A
`Frame` says that every third place keeps its buffers, its chain and its bytes.
-/

namespace YardIce.MbufPool

open Lib ListPool

variable {Q V : Type}

/-- Where a buffer can be: a list of the heap, or a variable of a client. -/
abbrev Place (Q V : Type) := MbufHead Q ⊕ V

/-- The free list as a place. -/
abbrev freePlace : Place Q V := .inl .free

/-- A queue as a place. -/
abbrev queuePlace (q : Q) : Place Q V := .inl (.queue q)

/-- A queue has exactly the buffers that its offset and length need. -/
structure Fill (k : MbufQueue) (l : List Mbuf) : Prop where
  offs_lt : k.offs < mbufDataSize
  length_eq : l.length = (k.offs + k.len + (mbufDataSize - 1)) / mbufDataSize
  offs_zero : k.len = 0 → k.offs = 0

/-- The part of the invariant that is about the pool alone. -/
structure PoolInv (s : MbufSys Q) (c : Place Q V → List Mbuf) : Prop where
  pool : ListPool Sum.inl s.heap c
  max_eq : s.max = mbufPoolSize
  used_eq : s.used + (c freePlace).length = mbufPoolSize
  unlocked : s.locked = false

/-- The invariant between two calls. -/
structure Inv (s : MbufSys Q) (c : Place Q V → List Mbuf) : Prop extends PoolInv s c where
  fill : ∀ q, Fill (s.queue q) (c (queuePlace q))

/-- A call that moves buffers between the free list and the place `p` only. -/
structure Frame (p : Place Q V) (s : MbufSys Q) (c : Place Q V → List Mbuf)
    (s' : MbufSys Q) (c' : Place Q V → List Mbuf) : Prop where
  contents : ∀ r, r ≠ freePlace → r ≠ p → c' r = c r
  data : ∀ r, r ≠ freePlace → r ≠ p → ∀ b ∈ c r, s'.data b = s.data b
  linked : ∀ r, r ≠ freePlace → r ≠ p → ∀ x, Linked s.heap.next x (c r) →
    Linked s'.heap.next x (c r)
  queue : ∀ q, queuePlace q ≠ p → s'.queue q = s.queue q

variable {s s' s'' : MbufSys Q} {c c' c'' : Place Q V → List Mbuf} {p : Place Q V}

theorem Frame.refl (p : Place Q V) (s : MbufSys Q) (c : Place Q V → List Mbuf) :
    Frame p s c s c :=
  ⟨fun _ _ _ => rfl, fun _ _ _ _ _ => rfl, fun _ _ _ _ h => h, fun _ _ => rfl⟩

theorem Frame.trans (h : Frame p s c s' c') (h' : Frame p s' c' s'' c'') :
    Frame p s c s'' c'' := by
  constructor
  · intro r hf hp
    rw [h'.contents r hf hp, h.contents r hf hp]
  · intro r hf hp b hb
    rw [h'.data r hf hp b (by rwa [h.contents r hf hp]), h.data r hf hp b hb]
  · intro r hf hp x hx
    have hx' := h.linked r hf hp x hx
    rw [← h.contents r hf hp] at hx' ⊢
    exact h'.linked r hf hp x hx'
  · intro q hq
    rw [h'.queue q hq, h.queue q hq]

/-- The bytes that a queue holds. -/
def queueBytes (s : MbufSys Q) (c : Place Q V → List Mbuf) (q : Q) : List UInt8 :=
  chainBytes s.data (c (queuePlace q)) (s.queue q).offs (s.queue q).len

@[simp] theorem queueBytes_length (s : MbufSys Q) (c : Place Q V → List Mbuf) (q : Q) :
    (queueBytes s c q).length = (s.queue q).len := by
  simp [queueBytes]

theorem Frame.queueBytes_eq (h : Frame p s c s' c') {q : Q} (hq : queuePlace q ≠ p) :
    queueBytes s' c' q = queueBytes s c q := by
  have hfree : (queuePlace q : Place Q V) ≠ freePlace := by simp [queuePlace, freePlace]
  unfold queueBytes
  rw [h.queue q hq, h.contents _ hfree hq]
  exact chainBytes_congr (h.data _ hfree hq)

theorem PoolInv.holds_free (hinv : PoolInv s c) : s.heap.Holds .free (c freePlace) :=
  hinv.pool.holds .free

theorem PoolInv.holds_queue (hinv : PoolInv s c) (q : Q) :
    s.heap.Holds (.queue q) (c (queuePlace q)) :=
  hinv.pool.holds (.queue q)

/-- A place holds no more buffers than the pool has. -/
theorem PoolInv.length_le (hinv : PoolInv s c) (r : Place Q V) : (c r).length ≤ mbufPoolSize := by
  simpa [mbufPoolSize] using (hinv.pool.part.nodup r).length_le_card

theorem PoolInv.used_le (hinv : PoolInv s c) : s.used ≤ mbufPoolSize := by
  have := hinv.used_eq
  omega

theorem Fill.offs_add_len_le {k : MbufQueue} {l : List Mbuf} (h : Fill k l) :
    k.offs + k.len ≤ mbufDataSize * l.length := by
  have := h.length_eq
  simp only [mbufDataSize] at this ⊢
  omega

/-- The counters of a queue are far from their 16-bit limit. -/
theorem Inv.offs_add_len_le (hinv : Inv s c) (q : Q) :
    (s.queue q).offs + (s.queue q).len ≤ mbufDataSize * mbufPoolSize :=
  (hinv.fill q).offs_add_len_le.trans (Nat.mul_le_mul_left _ (hinv.length_le _))

/-- A place other than the free list holds a buffer, so some buffer is in use. -/
theorem PoolInv.used_pos (hinv : PoolInv s c) {r : Place Q V} (hr : r ≠ freePlace) {b : Mbuf}
    (hb : b ∈ c r) : 0 < s.used := by
  have hnot : b ∉ c freePlace := fun hf => hr (hinv.pool.part.eq_of_mem hb hf)
  have hlt : (c freePlace).length < mbufPoolSize := by
    have hnd : (b :: c freePlace).Nodup :=
      List.nodup_cons.mpr ⟨hnot, hinv.pool.part.nodup _⟩
    have hcard := hnd.length_le_card
    simp only [List.length_cons, Fintype.card_fin] at hcard
    omega
  have := hinv.used_eq
  omega

section Init

/-- Before the first call all buffers are in the free list. -/
def initContents : Place Q V → List Mbuf
  | .inl .free => List.finRange mbufPoolSize
  | .inl (.queue _) => []
  | .inr _ => []

theorem initContents_partition : Partition (initContents : Place Q V → List Mbuf) := by
  constructor
  · intro b
    refine ⟨freePlace, by simp [initContents], ?_⟩
    intro r hr
    match r with
    | .inl .free => rfl
    | .inl (.queue q) => simp [initContents] at hr
    | .inr v => simp [initContents] at hr
  · intro r
    match r with
    | .inl .free => exact List.nodup_finRange _
    | .inl (.queue q) => exact List.nodup_nil
    | .inr v => exact List.nodup_nil

theorem mbufInit_inv [DecidableEq Q] (data : Mbuf → Nat → UInt8) :
    Inv (mbufInit Q data) (initContents : Place Q V → List Mbuf) := by
  refine ⟨⟨⟨initContents_partition, ?_⟩, rfl, ?_, rfl⟩, ?_⟩
  · intro h
    cases h with
    | free =>
        constructor
        · simp only [mbufInit, initContents]
          apply linkAll_linked _ (List.nodup_finRange _)
          intro i _
          simp
        · simp only [mbufInit, initContents]
    | queue q =>
        constructor
        · simp only [mbufInit, initContents, Linked]
          apply linkAll_of_ne
          · simp
          · intro i _
            simp
        · rfl
  · simp [mbufInit, initContents]
  · intro q
    exact ⟨by simp [mbufInit, mbufDataSize], by simp [mbufInit, initContents, mbufDataSize],
      fun _ => rfl⟩

end Init

end YardIce.MbufPool
