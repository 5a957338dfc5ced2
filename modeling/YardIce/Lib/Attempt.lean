import Mathlib.Tactic.SplitIfs

/-!
# Attempts

An attempt is a computation on a state that may fail and then leaves the state that it
had reached, as a function does that returns an error code without undoing its work.

## Implementation notes

`Attempt.Ok` and `Attempt.Fails` give the two outcomes as relations, with one inversion
for each way of building an attempt, so that a proof about a long attempt takes it apart
step by step. `Attempt.Keeps` is for what holds in every state, whatever the outcome.
-/

namespace YardIce.Lib

/-- A computation on `σ` that gives an `α` or fails with an `ε`. -/
def Attempt (σ ε α : Type) : Type := σ → Except ε α × σ

namespace Attempt

variable {σ τ ε α β : Type}

/-- What follows an outcome: the rest after a success, nothing after a failure. -/
def andThen (f : α → Attempt σ ε β) : Except ε α × σ → Except ε β × σ
  | (.ok a, s) => f a s
  | (.error e, s) => (.error e, s)

instance : Monad (Attempt σ ε) where
  pure a s := (.ok a, s)
  bind x f s := andThen f (x s)

/-- Fails and leaves the state as it is. -/
def fail (e : ε) : Attempt σ ε α := fun s => (.error e, s)

/-- Reads the state. -/
def read (f : σ → α) : Attempt σ ε α := fun s => (.ok (f s), s)

/-- Changes the state. -/
def update (f : σ → σ) : Attempt σ ε Unit := fun s => (.ok (), f s)

/-- Fails unless the condition holds. -/
def guard (c : Prop) [Decidable c] (e : ε) : Attempt σ ε Unit := if c then pure () else fail e

/-- The value of an option, or a failure. -/
def get (o : Option α) (e : ε) : Attempt σ ε α := o.elim (fail e) pure

/-- Goes on after a failure as after a success. -/
def ignoring (x : Attempt σ ε α) : Attempt σ ε Unit := fun s => (.ok (), (x s).2)

/-- An attempt on a part of the state. -/
def on (view : σ → τ) (put : τ → σ → σ) (x : Attempt τ ε α) : Attempt σ ε α := fun s =>
  ((x (view s)).1, put (x (view s)).2 s)

/-! ## Running -/

section Run

variable (x : Attempt σ ε α) (f : α → Attempt σ ε β) (s : σ) (a : α) (e : ε)

@[simp] theorem andThen_ok : andThen f (.ok a, s) = f a s := rfl

@[simp] theorem andThen_error : andThen f (.error e, s) = (.error e, s) := rfl

@[simp] theorem run_bind : (x >>= f) s = andThen f (x s) := rfl

@[simp] theorem run_pure : (pure a : Attempt σ ε α) s = (.ok a, s) := rfl

@[simp] theorem run_fail : (fail e : Attempt σ ε α) s = (.error e, s) := rfl

@[simp] theorem run_read (v : σ → α) : (read v : Attempt σ ε α) s = (.ok (v s), s) := rfl

@[simp] theorem run_update (v : σ → σ) : (update v : Attempt σ ε Unit) s = (.ok (), v s) := rfl

@[simp] theorem run_ignoring : ignoring x s = (.ok (), (x s).2) := rfl

theorem run_map (v : α → β) : (v <$> x) s = andThen (fun a => pure (v a)) (x s) := rfl

end Run

/-! ## Outcomes -/

/-! ## What an attempt keeps -/

/-- `R` relates the state at the start to the state at the end, failure or not. -/
def Keeps (x : Attempt σ ε α) (R : σ → σ → Prop) : Prop := ∀ s, R s (x s).2

section Keeps

variable {R : σ → σ → Prop}

theorem keeps_pure (hrefl : ∀ s, R s s) (a : α) : Keeps (pure a : Attempt σ ε α) R := hrefl

theorem keeps_fail (hrefl : ∀ s, R s s) (e : ε) : Keeps (fail e : Attempt σ ε α) R := hrefl

theorem keeps_read (hrefl : ∀ s, R s s) (f : σ → α) : Keeps (read f : Attempt σ ε α) R := hrefl

theorem keeps_guard (hrefl : ∀ s, R s s) (c : Prop) [Decidable c] (e : ε) :
    Keeps (guard c e : Attempt σ ε Unit) R := by
  unfold guard
  split_ifs
  · exact keeps_pure hrefl ()
  · exact keeps_fail hrefl e

theorem keeps_get (hrefl : ∀ s, R s s) (o : Option α) (e : ε) :
    Keeps (get o e : Attempt σ ε α) R := by
  cases o with
  | none => exact keeps_fail hrefl e
  | some a => exact keeps_pure hrefl a

theorem keeps_bind (htrans : ∀ s t u, R s t → R t u → R s u) {x : Attempt σ ε α}
    {f : α → Attempt σ ε β} (hx : Keeps x R) (hf : ∀ a, Keeps (f a) R) :
    Keeps (x >>= f) R := by
  intro s
  have h := hx s
  change R s (andThen f (x s)).2
  cases heq : x s with
  | mk o t =>
      rw [heq] at h
      cases o with
      | ok a => exact htrans s t _ h (hf a t)
      | error e => exact h

end Keeps

/-! ## Two states with one outcome -/

/-- From states in `R` the attempt has the same outcome and ends in states in `R`. -/
def Agrees (x : Attempt σ ε α) (R : σ → σ → Prop) : Prop :=
  ∀ s t, R s t → (x s).1 = (x t).1 ∧ R (x s).2 (x t).2

section Agrees

variable {R : σ → σ → Prop}

theorem agrees_pure (a : α) : Agrees (pure a : Attempt σ ε α) R := fun _ _ h => ⟨rfl, h⟩

theorem agrees_fail (e : ε) : Agrees (fail e : Attempt σ ε α) R := fun _ _ h => ⟨rfl, h⟩

theorem agrees_read {f : σ → α} (hf : ∀ s t, R s t → f s = f t) :
    Agrees (read f : Attempt σ ε α) R := fun s t h => ⟨congrArg Except.ok (hf s t h), h⟩

theorem agrees_update {f : σ → σ} (hf : ∀ s t, R s t → R (f s) (f t)) :
    Agrees (update f : Attempt σ ε Unit) R := fun s t h => ⟨rfl, hf s t h⟩

theorem agrees_guard (c : Prop) [Decidable c] (e : ε) :
    Agrees (guard c e : Attempt σ ε Unit) R := by
  unfold guard
  split_ifs
  · exact agrees_pure ()
  · exact agrees_fail e

theorem agrees_get (o : Option α) (e : ε) : Agrees (get o e : Attempt σ ε α) R := by
  cases o with
  | none => exact agrees_fail e
  | some a => exact agrees_pure a

theorem agrees_ignoring {x : Attempt σ ε α} (hx : Agrees x R) : Agrees (ignoring x) R :=
  fun s t h => ⟨rfl, (hx s t h).2⟩

theorem agrees_bind {x : Attempt σ ε α} {f : α → Attempt σ ε β} (hx : Agrees x R)
    (hf : ∀ a, Agrees (f a) R) : Agrees (x >>= f) R := by
  intro s t hst
  obtain ⟨hout, hend⟩ := hx s t hst
  change (andThen f (x s)).1 = (andThen f (x t)).1 ∧ R (andThen f (x s)).2 (andThen f (x t)).2
  cases hs : x s with
  | mk o s' =>
      cases ht : x t with
      | mk o' t' =>
          rw [hs, ht] at hout hend
          obtain rfl : o = o' := hout
          cases o with
          | ok a => exact hf a s' t' hend
          | error e => exact ⟨rfl, hend⟩

end Agrees

end Attempt

end YardIce.Lib
