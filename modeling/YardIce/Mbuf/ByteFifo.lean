import YardIce.Mbuf.Clients

/-!
# The byte queues are FIFOs

Every queue stands for a list of bytes. Over every sequence of queue calls, with
other users taking and returning buffers in between, each call answers and acts
as on that list, and the chain of buffers is as short as it can be.
-/

namespace YardIce.MbufPool

open Lib

variable {Q V : Type} [DecidableEq Q] [DecidableEq V]

/-- A call on a queue, or a buffer that another user takes or gives back. -/
inductive FifoOp (Q V : Type)
  | add (q : Q) (buf : List UInt8)
  | get (q : Q) (offs len : Nat)
  | trim (q : Q) (len : Nat)
  | remove (q : Q) (len : Nat)
  | free (q : Q)
  | take (v : V)
  | giveBack (v : V)

/-- The call that an operation makes. -/
def FifoOp.toCall : FifoOp Q V → Call Q V
  | .add q buf => .queueAdd q buf
  | .get q offs len => .queueGet q offs len
  | .trim q len => .queueTrim q len
  | .remove q len => .queueRemove q len
  | .free q => .queueFree q
  | .take v => .tryAlloc v
  | .giveBack v => .free v

/-- The chain of the queue `q` holds the bytes `bs` from its offset on, has just
the buffers they need, and its tail pointer is the last of them. -/
def Represents (sys : MbufSys Q) (q : Q) (bs : List UInt8) : Prop :=
  ∃ l, sys.heap.Holds (.queue q) l ∧
    bs = chainBytes sys.data l (sys.queue q).offs (sys.queue q).len ∧
    l.length = ((sys.queue q).offs + (sys.queue q).len + (mbufDataSize - 1)) / mbufDataSize

/-- The operations all return, every queue represents its byte list in each state
on the way, and each operation acts on the byte lists as a FIFO does. -/
inductive FifoRun : Clients Q V → (Q → List UInt8) → List (FifoOp Q V) → Prop
  | nil {s : Clients Q V} {L : Q → List UInt8} (rep : ∀ q, Represents s.sys q (L q)) :
      FifoRun s L []
  | cons {s t : Clients Q V} {L L' : Q → List UInt8} {a : FifoOp Q V} {as : List (FifoOp Q V)}
      {r : Reply} (rep : ∀ q, Represents s.sys q (L q))
      (call : s.call a.toCall = .ok (r, t))
      (step : FifoStep L (t.sys.heap.next (.head .free) = none) a.toCall r L')
      (rest : FifoRun t L' as) : FifoRun s L (a :: as)

variable {s : Clients Q V} {c : Place Q V → List Mbuf}

omit [DecidableEq Q] [DecidableEq V] in
theorem ClientsInv.represents (h : ClientsInv s c) (q : Q) :
    Represents s.sys q (queueBytes s.sys c q) :=
  ⟨c (queuePlace q), h.inv.holds_queue q, rfl, (h.inv.fill q).length_eq⟩

omit [DecidableEq V] in
theorem FifoStep.mono {L L' : Q → List UInt8} {full full' : Prop} {a : Call Q V} {r : Reply}
    (himp : full → full') (h : FifoStep L full a r L') : FifoStep L full' a r L' := by
  cases a with
  | queueAdd q buf =>
      obtain ⟨k, hk, hr, hL, hfull⟩ := h
      exact ⟨k, hk, hr, hL, fun hlt => himp (hfull hlt)⟩
  | _ => exact h

/-- Each operation returns and acts as on byte lists. -/
theorem ClientsInv.fifoStep (h : ClientsInv s c) (a : FifoOp Q V) :
    ∃ r t c', s.call a.toCall = .ok (r, t) ∧ ClientsInv t c' ∧
      FifoStep (queueBytes s.sys c) (t.sys.heap.next (.head .free) = none) a.toCall r
        (queueBytes t.sys c') := by
  have hret : ∃ r t c', Returned s c a.toCall r t c' := by
    apply h.returns
    · cases a <;> exact trivial
    · intro v
      cases a <;> simp [FifoOp.toCall]
  obtain ⟨r, t, c', hret⟩ := hret
  refine ⟨r, t, c', hret.call_eq, hret.inv, hret.fifo.mono ?_⟩
  intro hempty
  rw [next_free hret.inv.inv, hempty]
  rfl

theorem ClientsInv.fifoRun (h : ClientsInv s c) (ops : List (FifoOp Q V)) :
    FifoRun s (queueBytes s.sys c) ops := by
  induction ops generalizing s c with
  | nil => exact .nil h.represents
  | cons a as ih =>
      obtain ⟨r, t, c', hcall, hinv, hstep⟩ := h.fifoStep a
      exact .cons h.represents hcall hstep (ih hinv)

/-- From an initialised pool every sequence of operations treats each queue as a
byte FIFO. -/
theorem mbufQueue_fifo (data : Mbuf → Nat → UInt8) (ops : List (FifoOp Q V)) :
    FifoRun (Clients.init data) (fun _ => []) ops := by
  have hbytes : queueBytes (Clients.init data : Clients Q V).sys
      (initContents : Place Q V → List Mbuf) = fun _ => [] := by
    funext q
    rfl
  have hrun := (ClientsInv.init data : ClientsInv (Clients.init data : Clients Q V) _).fifoRun ops
  rwa [hbytes] at hrun

end YardIce.MbufPool
