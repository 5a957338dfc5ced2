import Mathlib.Data.List.Basic

/-!
# Computations in stages

A computation in stages either goes on with a value or ends early with a result.
`Ends Q E x` is its postcondition: `Q` of the value, `E` of an early result.
-/

namespace YardIce.Lib

universe u v

variable {ε : Type u} {α β : Type v}

/-- The postcondition of a stage. -/
def Ends (Q : α → Prop) (E : ε → Prop) : Except ε α → Prop
  | .ok a => Q a
  | .error e => E e

variable {Q : α → Prop} {E : ε → Prop} {x : Except ε α}

theorem Ends.bind {R : β → Prop} {f : α → Except ε β} (h : Ends Q E x)
    (hf : ∀ a, Q a → Ends R E (f a)) : Ends R E (x >>= f) := by
  cases x with
  | ok a => exact hf a h
  | error e => exact h

theorem Ends.imp {Q' : α → Prop} {E' : ε → Prop} (h : Ends Q E x) (hQ : ∀ a, Q a → Q' a)
    (hE : ∀ e, E e → E' e) : Ends Q' E' x := by
  cases x with
  | ok a => exact hQ a h
  | error e => exact hE e h

end YardIce.Lib
