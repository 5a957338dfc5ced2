import YardIce.Mbuf.QueueSpec

/-!
# Clients of the mbuf pool

Clients keep what the pool hands out in variables and give it back, and use the
byte queues. One lemma says what every call does: to the places of the buffers
and to the byte lists that the queues stand for.

## Implementation notes

A client that would overwrite a buffer it holds, or free a variable that holds
none, makes no call.
-/

namespace YardIce.MbufPool

open Lib ListPool

variable {Q V : Type} [DecidableEq Q] [DecidableEq V]

/-- What a variable of a client refers to. -/
inductive Held
  | empty
  | buf (m : Mbuf)
  | chain (p : Option Mbuf)
  deriving DecidableEq

/-- The pool and the variables of its clients. -/
structure Clients (Q V : Type) where
  sys : MbufSys Q
  vars : V → Held

/-- The calls that clients make. -/
inductive Call (Q V : Type)
  | alloc (v : V)
  | tryAlloc (v : V)
  | free (v : V)
  | listAlloc (v : V) (len : Nat)
  | listFree (v : V)
  | queueAdd (q : Q) (buf : List UInt8)
  | queueGet (q : Q) (offs len : Nat)
  | queueTrim (q : Q) (len : Nat)
  | queueRemove (q : Q) (len : Nat)
  | queueFree (q : Q)

/-- What a call returns, with the bytes it copied to the caller. -/
inductive Reply
  | done
  | count (n : Nat)
  | bytes (n : Nat) (out : List UInt8)
  deriving DecidableEq

/-- Store a result in a variable. -/
def Clients.set (s : Clients Q V) (sys : MbufSys Q) (v : V) (h : Held) : Clients Q V :=
  { sys := sys, vars := Function.update s.vars v h }

/-- One call of a client. -/
def Clients.call (s : Clients Q V) : Call Q V → Except Stop (Reply × Clients Q V)
  | .alloc v =>
    if s.vars v = .empty then do
      let (m, sys) ← mbufAlloc s.sys
      return (.done, s.set sys v (.buf m))
    else return (.done, s)
  | .tryAlloc v =>
    if s.vars v = .empty then do
      let (m, sys) ← mbufTryAlloc s.sys
      return (.done, s.set sys v (m.elim .empty .buf))
    else return (.done, s)
  | .free v =>
    match s.vars v with
    | .buf m => do
      let sys ← mbufFree s.sys m
      return (.done, s.set sys v .empty)
    | _ => return (.done, s)
  | .listAlloc v len =>
    if s.vars v = .empty then do
      let (m, sys) ← mbufListAlloc s.sys len
      return (.done, s.set sys v (m.elim .empty fun b => .chain (some b)))
    else return (.done, s)
  | .listFree v =>
    match s.vars v with
    | .chain p => do
      let sys ← mbufListFree s.sys p
      return (.done, s.set sys v .empty)
    | _ => return (.done, s)
  | .queueAdd q buf => do
    let (n, sys) ← mbufQueueAdd s.sys q buf
    return (.count n, { s with sys := sys })
  | .queueGet q offs len => do
    let out ← mbufQueueGet s.sys q offs len
    return (.bytes out.length out, s)
  | .queueTrim q len => do
    let (n, sys) ← mbufQueueTrim s.sys q len
    return (.count n, { s with sys := sys })
  | .queueRemove q len => do
    let (n, out, sys) ← mbufQueueRemove s.sys q len
    return (.bytes n out, { s with sys := sys })
  | .queueFree q => do
    let sys ← mbufQueueFree s.sys q
    return (.done, { s with sys := sys })

/-- The pool after `mbuf_init`, with no buffer handed out. -/
def Clients.init (data : Mbuf → Nat → UInt8) : Clients Q V where
  sys := mbufInit Q data
  vars := fun _ => .empty

/-- The buffers of a live allocation. -/
def HeldOk (sys : MbufSys Q) : Held → List Mbuf → Prop
  | .empty, l => l = []
  | .buf m, l => l = [m]
  | .chain p, l => Linked sys.heap.next p l

/-- The step calls `mbuf_list_alloc` only for at least one byte and for no more
buffers than are free. -/
def Fits (s : Clients Q V) : Call Q V → Prop
  | .listAlloc _ len => ListAllocFits s.sys len
  | _ => True

instance (s : Clients Q V) : (a : Call Q V) → Decidable (Fits s a)
  | .listAlloc _ len => inferInstanceAs (Decidable (ListAllocFits s.sys len))
  | .alloc _ | .tryAlloc _ | .free _ | .listFree _ => isTrue trivial
  | .queueAdd _ _ | .queueGet _ _ _ | .queueTrim _ _ => isTrue trivial
  | .queueRemove _ _ | .queueFree _ => isTrue trivial

/-- What a call answers and what it does to the byte lists of the queues. An
addition stores less than it was given only where the pool is `full`. -/
def FifoStep (L : Q → List UInt8) (full : Prop) :
    Call Q V → Reply → (Q → List UInt8) → Prop
  | .queueAdd q buf, r, L' => ∃ k ≤ buf.length, r = .count k ∧
      L' = Function.update L q (L q ++ buf.take k) ∧ (k < buf.length → full)
  | .queueGet q offs len, r, L' => L' = L ∧
      r = .bytes (((L q).drop offs).take len).length (((L q).drop offs).take len)
  | .queueTrim q len, r, L' => r = .count (min len (L q).length) ∧
      L' = Function.update L q ((L q).drop len)
  | .queueRemove q len, r, L' => r = .bytes (min len (L q).length) ((L q).take len) ∧
      L' = Function.update L q ((L q).drop len)
  | .queueFree q, r, L' => r = .done ∧ L' = Function.update L q []
  | _, r, L' => r = .done ∧ L' = L

/-- The invariant of the pool together with the live allocations. -/
structure ClientsInv (s : Clients Q V) (c : Place Q V → List Mbuf) : Prop where
  inv : Inv s.sys c
  held : ∀ v, HeldOk s.sys (s.vars v) (c (.inr v))

omit [DecidableEq Q] [DecidableEq V] in
theorem HeldOk.frame {sys sys' : MbufSys Q} {c c' : Place Q V → List Mbuf} {p : Place Q V}
    (hf : Frame p sys c sys' c') {h : Held} {v : V} (hv : (.inr v : Place Q V) ≠ p)
    (hok : HeldOk sys h (c (.inr v))) : HeldOk sys' h (c' (.inr v)) := by
  rw [hf.contents _ (by simp) hv]
  cases h with
  | empty => exact hok
  | buf m => exact hok
  | chain x => exact hf.linked _ (by simp) hv x hok

variable {s : Clients Q V} {c c' : Place Q V → List Mbuf} {sys : MbufSys Q}

omit [DecidableEq Q] [DecidableEq V] in
/-- A call on a queue leaves every variable as it was. -/
theorem ClientsInv.of_queue (h : ClientsInv s c) {q : Q} (hinv : Inv sys c')
    (hf : Frame (queuePlace q) s.sys c sys c') : ClientsInv { s with sys := sys } c' :=
  ⟨hinv, fun v => (h.held v).frame hf (by simp)⟩

omit [DecidableEq Q] in
/-- A call for one variable leaves the others as they were. -/
theorem ClientsInv.set (h : ClientsInv s c) {v : V} (hinv : Inv sys c')
    (hf : Frame (.inr v) s.sys c sys c') {x : Held} (hx : HeldOk sys x (c' (.inr v))) :
    ClientsInv (s.set sys v x) c' := by
  refine ⟨hinv, ?_⟩
  intro w
  by_cases hw : w = v
  · subst hw
    simpa [Clients.set] using hx
  · simp only [Clients.set, Function.update_of_ne hw]
    exact (h.held w).frame hf (by simpa using hw)

theorem ClientsInv.taken (h : ClientsInv s c) {v : V} (hv : s.vars v = .empty)
    {m : Mbuf} {l : List Mbuf} (hc : c freePlace = m :: l) :
    ClientsInv (s.set (takeFirst s.sys m) v (.buf m)) (moved c freePlace (.inr v) l m) := by
  have hempty : c (.inr v) = [] := by
    have := h.held v
    rwa [hv] at this
  apply h.set (takeFirst_inv h.inv hc v) (takeFirst_frame h.inv hc v)
  simp [HeldOk, hempty]

omit [DecidableEq V] in
theorem ClientsInv.init (data : Mbuf → Nat → UInt8) :
    ClientsInv (Clients.init data : Clients Q V) initContents :=
  ⟨mbufInit_inv data, fun _ => rfl⟩

omit [DecidableEq V] in
/-- A call on a queue changes the bytes of that queue only. -/
theorem Frame.queueBytes_update {sys' : MbufSys Q} {q : Q}
    (hf : Frame (queuePlace q) sys c sys' c') :
    queueBytes sys' c' = Function.update (queueBytes sys c) q (queueBytes sys' c' q) := by
  funext r
  by_cases hr : r = q
  · subst hr
    rw [Function.update_self]
  · rw [Function.update_of_ne hr]
    exact hf.queueBytes_eq (by simpa using hr)

omit [DecidableEq Q] [DecidableEq V] in
/-- A call for a variable changes the bytes of no queue. -/
theorem Frame.queueBytes_inr {sys' : MbufSys Q} {v : V} (hf : Frame (.inr v) sys c sys' c') :
    queueBytes sys' c' = queueBytes sys c := by
  funext r
  exact hf.queueBytes_eq (by simp)

/-- The state `t` and reply `r` of a call that returned. -/
structure Returned (s : Clients Q V) (c : Place Q V → List Mbuf) (a : Call Q V) (r : Reply)
    (t : Clients Q V) (c' : Place Q V → List Mbuf) : Prop where
  call_eq : s.call a = .ok (r, t)
  inv : ClientsInv t c'
  fifo : FifoStep (queueBytes s.sys c) (c' freePlace = []) a r (queueBytes t.sys c')

private theorem drop_min (l : List UInt8) (n : Nat) : l.drop (min n l.length) = l.drop n := by
  by_cases h : n ≤ l.length
  · rw [min_eq_left h]
  · rw [min_eq_right (by omega), List.drop_length, List.drop_eq_nil_of_le (by omega)]

theorem ClientsInv.allocated (h : ClientsInv s c) {v : V} (hv : s.vars v = .empty) {m : Mbuf}
    {l : List Mbuf} (hc : c freePlace = m :: l) :
    Returned s c (.alloc v) .done (s.set (takeFirst s.sys m) v (.buf m))
      (moved c freePlace (.inr v) l m) := by
  refine ⟨?_, h.taken hv hc, rfl, (takeFirst_frame h.inv hc v).queueBytes_inr⟩
  simp only [Clients.call, if_pos hv, mbufAlloc_cons h.inv hc]
  rfl

theorem ClientsInv.tryAlloc (h : ClientsInv s c) (v : V) :
    ∃ r t c', Returned s c (.tryAlloc v) r t c' := by
  by_cases hv : s.vars v = .empty
  · cases hc : c freePlace with
    | nil =>
        refine ⟨.done, s.set s.sys v .empty, c, ?_, ?_, rfl, rfl⟩
        · simp only [Clients.call, if_pos hv, mbufTryAlloc_nil h.inv hc]
          rfl
        · apply h.set h.inv (Frame.refl _ _ _)
          rw [← hv]
          exact h.held v
    | cons m l =>
        refine ⟨.done, _, _, ?_, h.taken hv hc, rfl,
          (takeFirst_frame h.inv hc v).queueBytes_inr⟩
        simp only [Clients.call, if_pos hv, mbufTryAlloc_cons h.inv hc]
        rfl
  · exact ⟨.done, s, c, by simp [Clients.call, hv, pure, Except.pure], h, rfl, rfl⟩

theorem ClientsInv.free (h : ClientsInv s c) (v : V) :
    ∃ r t c', Returned s c (.free v) r t c' := by
  cases hv : s.vars v with
  | empty =>
      exact ⟨.done, s, c, by simp [Clients.call, hv, pure, Except.pure], h, rfl, rfl⟩
  | chain p =>
      exact ⟨.done, s, c, by simp [Clients.call, hv, pure, Except.pure], h, rfl, rfl⟩
  | buf m =>
      have hc : c (.inr v) = [m] := by
        have := h.held v
        rwa [hv] at this
      have hframe := mbufRelease_frame h.inv hc
      refine ⟨.done, s.set (mbufRelease s.sys m) v .empty, _, ?_,
        h.set (mbufRelease_inv h.inv hc) hframe (moved_source (by simp) _ _), rfl,
        hframe.queueBytes_inr⟩
      simp only [Clients.call, hv, mbufFree_unlocked h.inv.unlocked]
      rfl

theorem ClientsInv.listAlloc (h : ClientsInv s c) (v : V) {len : Nat}
    (hfit : ListAllocFits s.sys len) : ∃ r t c', Returned s c (.listAlloc v len) r t c' := by
  by_cases hv : s.vars v = .empty
  · have hempty : c (.inr v) = [] := by
      have := h.held v
      rwa [hv] at this
    obtain ⟨u, b, w, hc, hn⟩ := ListAllocFits.split h.inv hfit
    obtain ⟨x, hx⟩ : ∃ x, (u ++ [b]).head? = some x := by
      cases u with
      | nil => exact ⟨b, rfl⟩
      | cons x u => exact ⟨x, rfl⟩
    have hlinked := listTaken_linked h.inv hc (u.length + 1)
    have hframe := listTaken_frame h.inv v hc (u.length + 1)
    rw [hx] at hlinked
    refine ⟨.done, _, _, ?_, h.set (listTaken_inv h.inv hc hempty) hframe
      (x := .chain (some x)) ?_, rfl, hframe.queueBytes_inr⟩
    · simp only [Clients.call, if_pos hv, mbufListAlloc_eq h.inv hc hn, hx]
      rfl
    · rw [splitOff_target]
      exact hlinked
  · exact ⟨.done, s, c, by simp [Clients.call, hv, pure, Except.pure], h, rfl, rfl⟩

theorem ClientsInv.listFree (h : ClientsInv s c) (v : V) :
    ∃ r t c', Returned s c (.listFree v) r t c' := by
  cases hv : s.vars v with
  | empty =>
      exact ⟨.done, s, c, by simp [Clients.call, hv, pure, Except.pure], h, rfl, rfl⟩
  | buf m =>
      exact ⟨.done, s, c, by simp [Clients.call, hv, pure, Except.pure], h, rfl, rfl⟩
  | chain p =>
      have hlinked : Linked s.sys.heap.next p (c (.inr v)) := by
        have := h.held v
        rwa [hv] at this
      have hframe := listFreed_frame h.inv (r := .inr v) (by simp)
      refine ⟨.done, s.set (listFreed s.sys (c (.inr v))) v .empty, _, ?_,
        h.set (listFreed_inv h.inv v) hframe (drained_source (by simp)), rfl,
        hframe.queueBytes_inr⟩
      simp only [Clients.call, hv, mbufListFree_eq h.inv hlinked]
      rfl

theorem ClientsInv.queueAdd (h : ClientsInv s c) (q : Q) (buf : List UInt8) :
    ∃ r t c', Returned s c (.queueAdd q buf) r t c' := by
  obtain ⟨k, sys, c', hrun, hadd, hfull⟩ := mbufQueueAdd_spec h.inv q buf
  refine ⟨.count k, { s with sys := sys }, c', ?_, h.of_queue hadd.inv hadd.frame, ?_⟩
  · simp only [Clients.call, hrun]
    rfl
  · refine ⟨k, hadd.le, rfl, ?_, hfull⟩
    rw [hadd.frame.queueBytes_update, hadd.bytes]

theorem ClientsInv.queueGet (h : ClientsInv s c) (q : Q) (offs len : Nat) :
    ∃ r t c', Returned s c (.queueGet q offs len) r t c' := by
  refine ⟨.bytes (((queueBytes s.sys c q).drop offs).take len).length
    (((queueBytes s.sys c q).drop offs).take len), s, c, ?_, h, rfl, rfl⟩
  simp only [Clients.call, mbufQueueGet_spec h.inv]
  rfl

theorem ClientsInv.queueTrim (h : ClientsInv s c) (q : Q) (len : Nat) :
    ∃ r t c', Returned s c (.queueTrim q len) r t c' := by
  obtain ⟨out, sys, c', hrun, hcons⟩ := consume_spec h.inv false q len
  refine ⟨.count (min len (s.sys.queue q).len), { s with sys := sys }, c', ?_,
    h.of_queue hcons.inv hcons.frame, ?_⟩
  · simp only [Clients.call, mbufQueueTrim, hrun]
    rfl
  · refine ⟨by simp, ?_⟩
    rw [hcons.frame.queueBytes_update, hcons.bytes, ← queueBytes_length s.sys c q, drop_min]

theorem ClientsInv.queueRemove (h : ClientsInv s c) (q : Q) (len : Nat) :
    ∃ r t c', Returned s c (.queueRemove q len) r t c' := by
  obtain ⟨out, sys, c', hrun, hcons⟩ := consume_spec h.inv true q len
  refine ⟨.bytes (min len (s.sys.queue q).len) out, { s with sys := sys }, c', ?_,
    h.of_queue hcons.inv hcons.frame, ?_⟩
  · simp only [Clients.call, mbufQueueRemove, hrun]
    rfl
  · refine ⟨?_, ?_⟩
    · rw [hcons.out_eq, ← queueBytes_length s.sys c q]
      simp
    · rw [hcons.frame.queueBytes_update, hcons.bytes, ← queueBytes_length s.sys c q, drop_min]

theorem ClientsInv.queueFree (h : ClientsInv s c) (q : Q) :
    ∃ r t c', Returned s c (.queueFree q) r t c' := by
  have hframe := queueFreed_frame h.inv q
  refine ⟨.done, { s with sys := queueFreed s.sys q (c (queuePlace q)) }, _, ?_,
    h.of_queue (queueFreed_inv h.inv q) hframe, rfl, ?_⟩
  · simp only [Clients.call, mbufQueueFree_eq h.inv]
    rfl
  · rw [hframe.queueBytes_update, queueFreed_bytes]

/-- Every call that fits returns to a state with the invariant, unless it waits
for a buffer. -/
theorem ClientsInv.returns (h : ClientsInv s c) {a : Call Q V} (hfit : Fits s a)
    (hwait : ∀ v, a ≠ .alloc v) : ∃ r t c', Returned s c a r t c' := by
  cases a with
  | alloc v => exact absurd rfl (hwait v)
  | tryAlloc v => exact h.tryAlloc v
  | free v => exact h.free v
  | listAlloc v len => exact h.listAlloc v hfit
  | listFree v => exact h.listFree v
  | queueAdd q buf => exact h.queueAdd q buf
  | queueGet q offs len => exact h.queueGet q offs len
  | queueTrim q len => exact h.queueTrim q len
  | queueRemove q len => exact h.queueRemove q len
  | queueFree q => exact h.queueFree q

end YardIce.MbufPool
