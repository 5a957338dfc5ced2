import Mathlib.Data.List.Basic

/-!
# Block transfers with repeated packets

A machine that answers each of its inputs with a list of outputs, and the inputs of a
stop-and-wait protocol: numbered packets in order, each of them any number of times. A
file is cut into blocks of one size, the last of which is shorter and may be empty.
-/

namespace YardIce.Lib

section Machines

variable {σ α ω : Type*}

/-- The state after a list of inputs, with all outputs in their order. -/
def respond (step : σ → α → Option (σ × List ω)) : σ → List α → Option (σ × List ω)
  | s, [] => some (s, [])
  | s, a :: as =>
      (step s a).bind fun r => (respond step r.1 as).map fun q => (q.1, r.2 ++ q.2)

variable {step : σ → α → Option (σ × List ω)} {s t u : σ} {o p : List ω}

theorem respond_cons {a : α} {as : List α} (h : step s a = some (t, o))
    (hrest : respond step t as = some (u, p)) :
    respond step s (a :: as) = some (u, o ++ p) := by
  simp [respond, h, hrest]

theorem respond_append {as bs : List α} (has : respond step s as = some (t, o))
    (hbs : respond step t bs = some (u, p)) :
    respond step s (as ++ bs) = some (u, o ++ p) := by
  induction as generalizing s o with
  | nil =>
      simp only [respond, Option.some.injEq, Prod.mk.injEq] at has
      obtain ⟨rfl, rfl⟩ := has
      exact hbs
  | cons a as ih =>
      simp only [respond, Option.bind_eq_some_iff, Option.map_eq_some_iff] at has
      obtain ⟨r, hr, q, hq, heq⟩ := has
      cases heq
      rw [List.cons_append, List.append_assoc]
      exact respond_cons hr (ih hq)

/-- Inputs that keep an invariant have an answer, and keep it together. -/
theorem respond_invariant {I : σ → Prop} {as : List α}
    (hstep : ∀ s, ∀ a ∈ as, I s → ∃ t o, step s a = some (t, o) ∧ I t) (hs : I s) :
    ∃ t o, respond step s as = some (t, o) ∧ I t := by
  induction as generalizing s with
  | nil => exact ⟨s, [], rfl, hs⟩
  | cons a as ih =>
      obtain ⟨t, o, ha, ht⟩ := hstep s a List.mem_cons_self hs
      obtain ⟨u, p, has, hu⟩ := ih (fun v b hb => hstep v b (List.mem_cons_of_mem a hb)) ht
      exact ⟨u, o ++ p, respond_cons ha has, hu⟩

/-- Inputs without outputs give none together. -/
theorem respond_silent {I : σ → Prop} {as : List α}
    (hstep : ∀ s, ∀ a ∈ as, I s → ∃ t, step s a = some (t, []) ∧ I t) (hs : I s) :
    ∃ t, respond step s as = some (t, []) ∧ I t := by
  induction as generalizing s with
  | nil => exact ⟨s, rfl, hs⟩
  | cons a as ih =>
      obtain ⟨t, ha, ht⟩ := hstep s a List.mem_cons_self hs
      obtain ⟨u, has, hu⟩ := ih (fun v b hb => hstep v b (List.mem_cons_of_mem a hb)) ht
      exact ⟨u, respond_cons ha has, hu⟩

/-- An input with one answer under an invariant has it for each of its copies. -/
theorem respond_replicate {I : σ → Prop} {a : α} {o : List ω}
    (hstep : ∀ s, I s → ∃ t, step s a = some (t, o) ∧ I t) (n : ℕ) (hs : I s) :
    ∃ t, respond step s (List.replicate n a) = some (t, (List.replicate n o).flatten) ∧ I t := by
  induction n generalizing s with
  | zero => exact ⟨s, rfl, hs⟩
  | succ n ih =>
      obtain ⟨t, ha, ht⟩ := hstep s hs
      obtain ⟨u, has, hu⟩ := ih ht
      exact ⟨u, respond_cons ha has, hu⟩

/-- The inputs of a run, each with the state it meets. -/
def visits (step : σ → α → Option (σ × List ω)) : σ → List α → List (σ × α)
  | _, [] => []
  | s, a :: as =>
      (s, a) :: match step s a with
        | none => []
        | some r => visits step r.1 as

/-- What each step keeps exactly if its input has a property, a run keeps if all inputs have it. -/
theorem respond_keeps_iff {I : σ → Prop} {Q : σ → α → Prop} {as : List α}
    (hstep : ∀ s a t o, step s a = some (t, o) → (I t ↔ I s ∧ Q s a))
    (h : respond step s as = some (t, o)) : I t ↔ I s ∧ ∀ v ∈ visits step s as, Q v.1 v.2 := by
  induction as generalizing s o with
  | nil =>
      cases h
      simp [visits]
  | cons a as ih =>
      simp only [respond, Option.bind_eq_some_iff, Option.map_eq_some_iff] at h
      obtain ⟨r, hr, q, hq, heq⟩ := h
      cases heq
      rw [ih hq, hstep s a r.1 r.2 hr, visits, hr, List.forall_mem_cons, and_assoc]

end Machines

section Copies

variable {σ α β ω : Type*}

/-- The packets of the numbers `ks` in order, that of `k` with `r k` further copies. -/
def copies (r : ℕ → ℕ) (f : ℕ → α) (ks : List ℕ) : List α :=
  ks.flatMap fun k => List.replicate (r k + 1) (f k)

theorem copies_cons (r : ℕ → ℕ) (f : ℕ → α) (k : ℕ) (ks : List ℕ) :
    copies r f (k :: ks) = f k :: (List.replicate (r k) (f k) ++ copies r f ks) :=
  List.flatMap_cons

theorem copies_append (r : ℕ → ℕ) (f : ℕ → α) (ks ls : List ℕ) :
    copies r f (ks ++ ls) = copies r f ks ++ copies r f ls :=
  List.flatMap_append

theorem copies_singleton (r : ℕ → ℕ) (f : ℕ → α) (k : ℕ) :
    copies r f [k] = List.replicate (r k + 1) (f k) :=
  List.flatMap_singleton _ _

theorem mem_copies {r : ℕ → ℕ} {f : ℕ → α} {ks : List ℕ} {a : α} (h : a ∈ copies r f ks) :
    ∃ k ∈ ks, a = f k := by
  obtain ⟨k, hk, ha⟩ := List.mem_flatMap.mp h
  exact ⟨k, hk, List.eq_of_mem_replicate ha⟩

theorem copies_congr {r : ℕ → ℕ} {f g : ℕ → α} {ks : List ℕ} (h : ∀ k ∈ ks, f k = g k) :
    copies r f ks = copies r g ks :=
  List.flatMap_congr fun k hk => by rw [h k hk]

/-- The number of packets does not depend on what they are. -/
theorem length_copies (r : ℕ → ℕ) (f : ℕ → α) (g : ℕ → β) (ks : List ℕ) :
    (copies r f ks).length = (copies r g ks).length := by
  induction ks with
  | nil => rfl
  | cons k ks ih => simp [copies_cons, ih]

/-- Further numbers mean further packets. -/
theorem length_copies_lt (r : ℕ → ℕ) (f : ℕ → α) (lo : ℕ) {m n : ℕ} (h : m < n) :
    (copies r f (List.range' lo m)).length < (copies r f (List.range' lo n)).length := by
  obtain ⟨d, rfl⟩ := Nat.exists_eq_add_of_lt h
  have hsplit : List.range' lo (m + d + 1) = List.range' lo m ++ List.range' (lo + m) (d + 1) := by
    rw [List.range'_append_1, Nat.add_assoc]
  rw [hsplit, copies_append, List.length_append, List.range'_succ, copies_cons]
  simp

theorem copies_injective {r : ℕ → ℕ} {f g : ℕ → α} {ks : List ℕ}
    (h : copies r f ks = copies r g ks) : ∀ k ∈ ks, f k = g k := by
  induction ks with
  | nil => exact fun k hk => absurd hk List.not_mem_nil
  | cons k ks ih =>
      rw [copies_cons, copies_cons, List.cons.injEq] at h
      have hrest := List.append_inj_right h.2 (by simp)
      intro j hj
      rcases List.mem_cons.mp hj with rfl | hj
      · exact h.1
      · exact ih hrest j hj

variable {step : σ → α → Option (σ × List ω)} {I : ℕ → σ → Prop} {f : ℕ → α}
  {first again : ℕ → List ω} {s : σ}

/-- The rule for numbered packets: the first copy of a packet leads from the invariant of
its number to that of the next, which the further copies keep. -/
theorem respond_copies (r : ℕ → ℕ) (lo n : ℕ)
    (hfirst : ∀ k s, lo ≤ k → k < lo + n → I k s →
      ∃ t, step s (f k) = some (t, first k) ∧ I (k + 1) t)
    (hagain : ∀ k s, lo ≤ k → k < lo + n → I (k + 1) s →
      ∃ t, step s (f k) = some (t, again k) ∧ I (k + 1) t) (hs : I lo s) :
    ∃ t, respond step s (copies r f (List.range' lo n)) =
        some (t, (List.range' lo n).flatMap fun k =>
          first k ++ (List.replicate (r k) (again k)).flatten) ∧ I (lo + n) t := by
  induction n with
  | zero => exact ⟨s, rfl, hs⟩
  | succ n ih =>
      obtain ⟨t, hrun, ht⟩ := ih
        (fun k s h₁ h₂ => hfirst k s h₁ (Nat.lt_succ_of_lt h₂))
        (fun k s h₁ h₂ => hagain k s h₁ (Nat.lt_succ_of_lt h₂))
      have hlo : lo ≤ lo + n := Nat.le_add_right lo n
      have hhi : lo + n < lo + (n + 1) := Nat.lt_succ_self _
      obtain ⟨u, hu, hIu⟩ := hfirst (lo + n) t hlo hhi ht
      obtain ⟨v, hv, hIv⟩ := respond_replicate (fun s => hagain (lo + n) s hlo hhi) (r (lo + n)) hIu
      refine ⟨v, ?_, hIv⟩
      rw [List.range'_1_concat, copies_append, List.flatMap_append, copies_singleton,
        List.flatMap_singleton]
      exact respond_append hrun (respond_cons hu hv)

end Copies

section Blocks

variable {α : Type*}

/-- The block of number `k`, counted from zero. -/
def block (b : ℕ) (l : List α) (k : ℕ) : List α := (l.drop (k * b)).take b

theorem take_append_block (b : ℕ) (l : List α) (k : ℕ) :
    l.take (k * b) ++ block b l k = l.take ((k + 1) * b) := by
  rw [block, ← List.take_add, Nat.succ_mul]

theorem length_block (b : ℕ) (l : List α) (k : ℕ) :
    (block b l k).length = min b (l.length - k * b) := by
  rw [block, List.length_take, List.length_drop]

/-- The blocks before the last one are full. -/
theorem length_block_of_lt {b : ℕ} {l : List α} {k : ℕ} (hk : k < l.length / b) :
    (block b l k).length = b := by
  have hle : (k + 1) * b ≤ l.length := Nat.le_trans (Nat.mul_le_mul_right b hk) (Nat.div_mul_le_self _ _)
  rw [Nat.succ_mul] at hle
  rw [length_block]
  omega

/-- The last block is shorter. -/
theorem length_block_last {b : ℕ} (hb : 0 < b) (l : List α) :
    (block b l (l.length / b)).length < b := by
  rw [length_block]
  have := Nat.mod_lt l.length hb
  have := Nat.div_add_mod' l.length b
  omega

/-- The blocks give the file. -/
theorem take_append_last {b : ℕ} (hb : 0 < b) (l : List α) :
    l.take (l.length / b * b) ++ block b l (l.length / b) = l := by
  rw [take_append_block]
  exact List.take_of_length_le (Nat.le_of_lt (Nat.lt_mul_of_div_lt (Nat.lt_succ_self _) hb))

theorem flatten_blocks (b : ℕ) (l : List α) (n : ℕ) :
    ((List.range n).map (block b l)).flatten = l.take (n * b) := by
  induction n with
  | zero => simp
  | succ n ih =>
      rw [List.range_succ, List.map_append, List.flatten_append, ih, ← take_append_block]
      simp

end Blocks

end YardIce.Lib
