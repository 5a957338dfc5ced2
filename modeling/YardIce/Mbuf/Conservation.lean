import YardIce.Lib.Runs
import YardIce.Mbuf.Clients

/-!
# Conservation of buffers

Over every run of calls in which `mbuf_list_alloc` is asked for at least one
byte and for no more than the pool has free, no buffer is lost or shared, and
the mutex is free between calls.
-/

namespace YardIce.MbufPool

open Lib

variable {Q V : Type} [DecidableEq Q] [DecidableEq V]

/-- The state after a call that returns. -/
def Clients.step (s : Clients Q V) (a : Call Q V) : Option (Clients Q V) :=
  match s.call a with
  | .ok (_, t) => some t
  | .error _ => none

/-- No buffer is lost or shared: every one is in exactly one of the free list, the
queues and the live allocations, the lists and their tail pointers are those of
the heap, `used` counts the rest and the mutex is not held. -/
structure Conserved (s : Clients Q V) : Prop where
  places : ∃ c : Place Q V → List Mbuf,
    Partition c ∧
    s.sys.heap.Holds .free (c freePlace) ∧
    (∀ q, s.sys.heap.Holds (.queue q) (c (queuePlace q))) ∧
    (∀ v, HeldOk s.sys (s.vars v) (c (.inr v))) ∧
    s.sys.used + (c freePlace).length = mbufPoolSize
  unlocked : s.sys.locked = false

variable {s t : Clients Q V} {c : Place Q V → List Mbuf}

omit [DecidableEq Q] [DecidableEq V] in
theorem ClientsInv.conserved (h : ClientsInv s c) : Conserved s :=
  ⟨⟨c, h.inv.pool.part, h.inv.holds_free, h.inv.holds_queue, h.held, h.inv.used_eq⟩,
    h.inv.unlocked⟩

theorem ClientsInv.step (h : ClientsInv s c) {a : Call Q V} (hfit : Fits s a)
    (hstep : s.step a = some t) : ∃ c', ClientsInv t c' := by
  have hret : ∃ r u c', Returned s c a r u c' := by
    by_cases hwait : ∃ v, a = .alloc v
    · obtain ⟨v, rfl⟩ := hwait
      by_cases hv : s.vars v = .empty
      · cases hc : c freePlace with
        | nil =>
            simp only [Clients.step, Clients.call, if_pos hv, mbufAlloc_nil h.inv hc] at hstep
            cases hstep
        | cons m l => exact ⟨_, _, _, h.allocated hv hc⟩
      · exact ⟨.done, s, c, by simp [Clients.call, hv, pure, Except.pure], h, rfl, rfl⟩
    · exact h.returns hfit fun v hv => hwait ⟨v, hv⟩
  obtain ⟨r, u, c', hret⟩ := hret
  simp only [Clients.step, hret.call_eq, Option.some.injEq] at hstep
  exact ⟨c', hstep ▸ hret.inv⟩

/-- In every run whose calls of `mbuf_list_alloc` fit, buffers are conserved in
every state reached. -/
theorem mbufPool_conserved (data : Mbuf → Nat → UInt8) (calls : List (Call Q V))
    (hfit : Along Clients.step Fits (Clients.init data) calls)
    (hrun : exec Clients.step (Clients.init data) calls = some s) : Conserved s := by
  have hinv : ∃ c, ClientsInv s c := by
    refine exec_invariant (I := fun s => ∃ c, ClientsInv s c) ?_ ⟨_, ClientsInv.init data⟩ hfit hrun
    rintro s a t ⟨c, hc⟩ hok hstep
    exact hc.step hok hstep
  obtain ⟨c, hc⟩ := hinv
  exact hc.conserved

theorem mbufPool_conserved_run :
    ∃ s : Clients Unit Unit, exec Clients.step (Clients.init fun _ _ => 0)
      [.listAlloc () 125, .queueAdd () [1, 2, 3], .listFree (), .queueRemove () 2] = some s ∧
      Conserved s :=
  ⟨_, rfl, mbufPool_conserved (fun _ _ => 0)
    [.listAlloc () 125, .queueAdd () [1, 2, 3], .listFree (), .queueRemove () 2]
    (by decide) rfl⟩

/-- A request for more buffers than the pool has returns with the mutex held; one
for no bytes hands out a buffer that stays in the free list. -/
theorem mbufListAlloc_not_conserved :
    (∃ s : Clients Unit Unit, exec Clients.step (Clients.init fun _ _ => 0)
      [.listAlloc () 8060] = some s ∧ ¬Conserved s) ∧
    (∃ s : Clients Unit Unit, exec Clients.step (Clients.init fun _ _ => 0)
      [.listAlloc () 0] = some s ∧ ¬Conserved s) := by
  constructor
  · refine ⟨_, rfl, ?_⟩
    intro h
    exact absurd h.unlocked (by decide)
  · refine ⟨_, rfl, ?_⟩
    rintro ⟨⟨c, hpart, hfree, -, hheld, -⟩, -⟩
    -- the first free buffer is at once the chain that was handed out
    have hmem : (⟨0, by decide⟩ : Mbuf) ∈ c freePlace :=
      List.mem_of_head? hfree.linked.eq_head?.symm
    have hmem' : (⟨0, by decide⟩ : Mbuf) ∈ c (.inr ()) :=
      List.mem_of_head? (hheld ()).eq_head?.symm
    exact absurd (hpart.eq_of_mem hmem hmem') (by simp)

end YardIce.MbufPool
