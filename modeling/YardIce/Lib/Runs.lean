import Mathlib.Data.List.Basic

/-!
# Runs of a partial step function

A machine is a partial function from a state and an action to the next state.
A run is the list of its actions; the machine has no next state where the
program blocks or stops. Conditions on the steps of a run are predicates on the
state before the step and the action.
-/

namespace YardIce.Lib

variable {σ α : Type*}

/-- The state reached by a list of actions, if none of them is refused. -/
def exec (step : σ → α → Option σ) : σ → List α → Option σ
  | s, [] => some s
  | s, a :: as => (step s a).bind fun t => exec step t as

/-- Every step of the run meets the condition `ok` in the state it starts from. -/
def Along (step : σ → α → Option σ) (ok : σ → α → Prop) : σ → List α → Prop
  | _, [] => True
  | s, a :: as => ok s a ∧ ∀ t, step s a = some t → Along step ok t as

variable {step : σ → α → Option σ} {ok : σ → α → Prop}

theorem exec_cons {s u : σ} {a : α} {as : List α} (h : exec step s (a :: as) = some u) :
    ∃ t, step s a = some t ∧ exec step t as = some u := by
  simpa only [exec, Option.bind_eq_some_iff] using h

theorem exec_append (s : σ) (as bs : List α) :
    exec step s (as ++ bs) = (exec step s as).bind fun t => exec step t bs := by
  induction as generalizing s with
  | nil => rfl
  | cons a as ih =>
      rw [List.cons_append, exec, exec, Option.bind_assoc]
      exact congrArg _ (funext fun t => ih t)

/-- A property that holds at the start and is kept by every step that meets
`ok` holds at the end of every run all of whose steps meet `ok`. -/
theorem exec_invariant {I : σ → Prop}
    (hstep : ∀ s a t, I s → ok s a → step s a = some t → I t)
    {s t : σ} {as : List α} (hs : I s) (hok : Along step ok s as)
    (hrun : exec step s as = some t) : I t := by
  induction as generalizing s with
  | nil =>
      simp only [exec, Option.some.injEq] at hrun
      exact hrun ▸ hs
  | cons a as ih =>
      obtain ⟨v, hv, hrest⟩ := exec_cons hrun
      exact ih (hstep s a v hs hok.1 hv) (hok.2 v hv) hrest

/-- A measure that every step lowers bounds the runs. -/
theorem exec_length_le {I : σ → Prop} {μ : σ → Nat}
    (hstep : ∀ s a t, I s → step s a = some t → I t ∧ μ t < μ s)
    {s t : σ} {as : List α} (hs : I s) (hrun : exec step s as = some t) :
    as.length + μ t ≤ μ s := by
  induction as generalizing s with
  | nil =>
      simp only [exec, Option.some.injEq] at hrun
      rw [hrun, List.length_nil]
      exact Nat.le_of_eq (Nat.zero_add (μ t))
  | cons a as ih =>
      obtain ⟨v, hv, hrest⟩ := exec_cons hrun
      obtain ⟨hI, hlt⟩ := hstep s a v hs hv
      have hle := ih hI hrest
      rw [List.length_cons]
      omega

/-- A measure that no step of an endless run raises, and that steps lower again and again until a
state has a property, leads to such a state. -/
theorem reaches_of_measure {st : ℕ → σ} {μ : σ → ℕ} {P : σ → Prop}
    (hle : ∀ n, μ (st (n + 1)) ≤ μ (st n))
    (hlt : ∀ n, ¬P (st n) → ∃ m ≥ n, μ (st (m + 1)) < μ (st m)) : ∃ n, P (st n) := by
  by_contra hnone
  rw [not_exists] at hnone
  have hanti : ∀ n d, μ (st (n + d)) ≤ μ (st n) := by
    intro n d
    induction d with
    | zero => exact Nat.le_refl _
    | succ d ih => exact Nat.le_trans (hle (n + d)) ih
  have hbelow : ∀ k, ∃ n, μ (st n) + k ≤ μ (st 0) := by
    intro k
    induction k with
    | zero => exact ⟨0, Nat.le_refl _⟩
    | succ k ih =>
        obtain ⟨n, hn⟩ := ih
        obtain ⟨m, hm, hdrop⟩ := hlt n (hnone n)
        obtain ⟨d, rfl⟩ := Nat.exists_eq_add_of_le hm
        have hdown := hanti n d
        exact ⟨n + d + 1, by omega⟩
  obtain ⟨n, hn⟩ := hbelow (μ (st 0) + 1)
  omega

/-- A condition that holds of every step holds along every run. -/
theorem along_of_forall (hok : ∀ s a, ok s a) (s : σ) (as : List α) : Along step ok s as := by
  induction as generalizing s with
  | nil => trivial
  | cons a as ih => exact ⟨hok s a, fun t _ => ih t⟩

/-- A condition on the actions alone. -/
theorem along_of_mem {p : α → Prop} {as : List α} (hp : ∀ a ∈ as, p a) (s : σ) :
    Along step (fun _ a => p a) s as := by
  induction as generalizing s with
  | nil => trivial
  | cons a as ih =>
      exact ⟨hp a (List.mem_cons_self ..), fun t _ => ih (fun b hb => hp b (.tail a hb)) t⟩

theorem Along.and {ok' : σ → α → Prop} {s : σ} {as : List α} (h : Along step ok s as)
    (h' : Along step ok' s as) : Along step (fun s a => ok s a ∧ ok' s a) s as := by
  induction as generalizing s with
  | nil => trivial
  | cons a as ih => exact ⟨⟨h.1, h'.1⟩, fun t ht => ih (h.2 t ht) (h'.2 t ht)⟩

theorem along_append_left {s : σ} {as bs : List α} (h : Along step ok s (as ++ bs)) :
    Along step ok s as := by
  induction as generalizing s with
  | nil => trivial
  | cons a as ih => exact ⟨h.1, fun t ht => ih (h.2 t ht)⟩

/-- The condition holds at the last step of a run. -/
theorem along_last {s t : σ} {as : List α} {a : α} (h : Along step ok s (as ++ [a]))
    (hrun : exec step s as = some t) : ok t a := by
  induction as generalizing s with
  | nil =>
      simp only [exec, Option.some.injEq] at hrun
      exact hrun ▸ h.1
  | cons b as ih =>
      obtain ⟨v, hv, hrest⟩ := exec_cons hrun
      exact ih (h.2 v hv) hrest

/-- Two conditions that agree in every state with an invariant, which their steps keep, hold
along the same runs. -/
theorem along_congr {ok' : σ → α → Prop} {I : σ → Prop} (heq : ∀ s a, I s → (ok s a ↔ ok' s a))
    (hstep : ∀ s a t, I s → ok s a → step s a = some t → I t) {s : σ} (as : List α) (hs : I s) :
    Along step ok s as ↔ Along step ok' s as := by
  induction as generalizing s with
  | nil => exact Iff.rfl
  | cons a as ih =>
      constructor
      · rintro ⟨ha, hrest⟩
        exact ⟨(heq s a hs).mp ha, fun t ht => (ih (hstep s a t hs ha ht)).mp (hrest t ht)⟩
      · rintro ⟨ha, hrest⟩
        have ha' := (heq s a hs).mpr ha
        exact ⟨ha', fun t ht => (ih (hstep s a t hs ha' ht)).mpr (hrest t ht)⟩

/-- Conditions on a concrete run are checked by executing it. -/
def decideAlong (step : σ → α → Option σ) (ok : σ → α → Prop) [∀ s a, Decidable (ok s a)] :
    (s : σ) → (as : List α) → Decidable (Along step ok s as)
  | _, [] => isTrue trivial
  | s, a :: as =>
    match h : step s a with
    | none => decidable_of_iff (ok s a) (by simp [Along, h])
    | some t =>
      have := decideAlong step ok t as
      decidable_of_iff (ok s a ∧ Along step ok t as) (by simp [Along, h])

instance [∀ s a, Decidable (ok s a)] (s : σ) (as : List α) : Decidable (Along step ok s as) :=
  decideAlong step ok s as

end YardIce.Lib
