import Mathlib.Data.List.Basic
import Mathlib.Logic.Function.Basic
import Mathlib.Order.Nat

/-!
# Texts in a buffer

A buffer is a function of the place. A text is spelled in it from a place on, and a buffer can be
overwritten from its start.
-/

namespace YardIce.Lib

variable {α : Type*}

/-- The bytes `s` are in the buffer from `p` on. -/
def Spells (buf : Nat → α) (p : Nat) (s : List α) : Prop :=
  ∀ k (h : k < s.length), buf (p + k) = s[k]

theorem spells_nil (buf : Nat → α) (p : Nat) : Spells buf p [] :=
  fun _ h => absurd h (Nat.not_lt_zero _)

theorem spells_cons {buf : Nat → α} {p : Nat} {c : α} {s : List α} :
    Spells buf p (c :: s) ↔ buf p = c ∧ Spells buf (p + 1) s := by
  constructor
  · intro h
    refine ⟨h 0 (Nat.succ_pos _), fun k hk => ?_⟩
    rw [Nat.add_assoc, Nat.add_comm 1 k]
    exact h (k + 1) (Nat.succ_lt_succ hk)
  · rintro ⟨h0, h⟩ k hk
    cases k with
    | zero => exact h0
    | succ k =>
      rw [← Nat.add_assoc, Nat.add_right_comm]
      exact h k (Nat.lt_of_succ_lt_succ hk)

theorem spells_append {buf : Nat → α} {p : Nat} {s t : List α} :
    Spells buf p (s ++ t) ↔ Spells buf p s ∧ Spells buf (p + s.length) t := by
  induction s generalizing p with
  | nil => simp [spells_nil]
  | cons c s ih =>
    rw [List.cons_append, spells_cons, spells_cons, ih, and_assoc, List.length_cons,
      Nat.add_assoc, Nat.add_comm 1]

/-- A text stays spelled where the buffer has the same bytes. -/
theorem Spells.moved {buf buf' : Nat → α} {p p' : Nat} {s : List α} (h : Spells buf p s)
    (heq : ∀ k < s.length, buf' (p' + k) = buf (p + k)) : Spells buf' p' s :=
  fun k hk => (heq k hk).trans (h k hk)

/-- The bytes of a buffer, read back. -/
theorem Spells.map_range {buf : Nat → α} {s : List α} (h : Spells buf 0 s) :
    (List.range s.length).map buf = s := by
  refine List.ext_getElem (by simp) fun k h1 h2 => ?_
  rw [List.getElem_map, List.getElem_range, ← h k h2, Nat.zero_add]

/-- A buffer that begins with `out`. -/
def overlay (out : List α) (mem : Nat → α) (k : Nat) : α := out[k]?.getD (mem k)

theorem overlay_nil (mem : Nat → α) : overlay [] mem = mem := by
  ext k : 1
  simp [overlay]

theorem overlay_of_le {out : List α} {mem : Nat → α} {k : Nat} (h : out.length ≤ k) :
    overlay out mem k = mem k := by
  simp [overlay, h]

theorem overlay_snoc (out : List α) (mem : Nat → α) (c : α) :
    Function.update (overlay out mem) out.length c = overlay (out ++ [c]) mem := by
  ext k : 1
  obtain h | rfl | h := lt_trichotomy k out.length
  · rw [Function.update_of_ne (Nat.ne_of_lt h), overlay, overlay, List.getElem?_append_left h]
  · simp [overlay]
  · have hlen : (out ++ [c]).length ≤ k := by simpa using Nat.succ_le_of_lt h
    rw [Function.update_of_ne (Nat.ne_of_gt h), overlay_of_le h.le, overlay_of_le hlen]

/-- The bytes at a written place are the written ones. -/
theorem spells_overlay {out s : List α} {mem : Nat → α} (h : s.length = out.length) :
    Spells (overlay out mem) 0 s ↔ out = s := by
  constructor
  · intro hs
    refine List.ext_getElem h.symm fun k h1 h2 => ?_
    have hk := hs k h2
    rwa [Nat.zero_add, overlay, List.getElem?_eq_getElem h1, Option.getD_some] at hk
  · rintro rfl k hk
    rw [Nat.zero_add, overlay, List.getElem?_eq_getElem hk, Option.getD_some]

/-- A buffer already ends a string where it holds a `NUL`. -/
theorem overlay_snoc_self (out : List α) (mem : Nat → α) :
    overlay (out ++ [mem out.length]) mem = overlay out mem := by
  have hself : mem out.length = overlay out mem out.length := (overlay_of_le le_rfl).symm
  rw [← overlay_snoc, hself, Function.update_eq_self]

end YardIce.Lib
