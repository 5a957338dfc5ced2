import Mathlib.Data.List.Nodup

/-!
# Lists in the order of last use

A key that is touched goes to the front of the list, a key that is dropped leaves it. After
any history the list holds the keys that were touched and not dropped since, the one touched
last first.

Histories are lists of events with the newest event first; the time of an event is its number
from the oldest one on.
-/

namespace YardIce.Lib

/-- What can happen to a key. -/
inductive Recency (κ : Type*)
  | touch (k : κ)
  | drop (k : κ)
  deriving DecidableEq

namespace Recency

variable {κ : Type*} [DecidableEq κ]

/-- One event on the list. -/
def apply (l : List κ) : Recency κ → List κ
  | .touch k => k :: l.erase k
  | .drop k => l.erase k

/-- A key that was added at the end only to be touched. -/
theorem apply_touch_append {l : List κ} {k : κ} (hk : k ∉ l) :
    apply (l ++ [k]) (.touch k) = apply l (.touch k) := by
  simp only [apply]
  rw [List.erase_append_right _ hk, List.erase_of_not_mem hk, List.erase_cons_head, List.append_nil]

theorem apply_drop_of_not_mem {l : List κ} {k : κ} (hk : k ∉ l) : apply l (.drop k) = l :=
  List.erase_of_not_mem hk

/-- The list after a history. -/
def recent : List (Recency κ) → List κ
  | [] => []
  | e :: es => apply (recent es) e

/-- The time at which a key was last touched, or zero if it was never or has been dropped. -/
def lastTouch (k : κ) : List (Recency κ) → Nat
  | [] => 0
  | .touch j :: es => if j = k then es.length + 1 else lastTouch k es
  | .drop j :: es => if j = k then 0 else lastTouch k es

theorem lastTouch_le (k : κ) (es : List (Recency κ)) : lastTouch k es ≤ es.length := by
  induction es with
  | nil => exact Nat.le_refl 0
  | cons e es ih =>
      cases e with
      | touch j =>
          simp only [lastTouch, List.length_cons]
          split
          · exact Nat.le_refl _
          · exact Nat.le_succ_of_le ih
      | drop j =>
          simp only [lastTouch, List.length_cons]
          split
          · exact Nat.zero_le _
          · exact Nat.le_succ_of_le ih

theorem nodup_recent (es : List (Recency κ)) : (recent es).Nodup := by
  induction es with
  | nil => exact List.nodup_nil
  | cons e es ih =>
      cases e with
      | touch k => exact List.nodup_cons.mpr ⟨ih.not_mem_erase, ih.erase k⟩
      | drop k => exact ih.erase k

/-- The list holds exactly the keys in use. -/
theorem mem_recent_iff (k : κ) (es : List (Recency κ)) :
    k ∈ recent es ↔ 0 < lastTouch k es := by
  induction es with
  | nil => simp [recent, lastTouch]
  | cons e es ih =>
      cases e with
      | touch j =>
          simp only [recent, apply, lastTouch, List.mem_cons, (nodup_recent es).mem_erase_iff, ih]
          by_cases hj : j = k
          · simp [hj]
          · simp [hj, Ne.symm hj]
      | drop j =>
          simp only [recent, apply, lastTouch, (nodup_recent es).mem_erase_iff, ih]
          by_cases hj : j = k
          · simp [hj]
          · simp [hj, Ne.symm hj]

/-- An event on another key does not change the time of a key. -/
theorem pairwise_congr {es fs : List (Recency κ)} {l : List κ}
    (h : l.Pairwise fun a b => lastTouch b es < lastTouch a es)
    (heq : ∀ k ∈ l, lastTouch k fs = lastTouch k es) :
    l.Pairwise fun a b => lastTouch b fs < lastTouch a fs := by
  refine h.imp_of_mem ?_
  intro a b ha hb hab
  rw [heq a ha, heq b hb]
  exact hab

/-- The keys stand in the order of their last touch, the newest first. -/
theorem pairwise_recent (es : List (Recency κ)) :
    (recent es).Pairwise fun a b => lastTouch b es < lastTouch a es := by
  induction es with
  | nil => exact List.Pairwise.nil
  | cons e es ih =>
      have hrest : ∀ j, ((recent es).erase j).Pairwise fun a b => lastTouch b es < lastTouch a es :=
        fun j => ih.sublist List.erase_sublist
      have hother : ∀ j, ∀ k ∈ (recent es).erase j, j ≠ k := by
        rintro j k hk rfl
        exact (nodup_recent es).not_mem_erase hk
      cases e with
      | touch j =>
          have hkeep : ∀ k ∈ (recent es).erase j, lastTouch k (.touch j :: es) = lastTouch k es := by
            intro k hk
            simp only [lastTouch, if_neg (hother j k hk)]
          refine List.pairwise_cons.mpr ⟨fun k hk => ?_, pairwise_congr (hrest j) hkeep⟩
          rw [hkeep k hk]
          simp only [lastTouch, if_pos]
          exact Nat.lt_succ_of_le (lastTouch_le k es)
      | drop j =>
          apply pairwise_congr (hrest j)
          intro k hk
          simp only [lastTouch, if_neg (hother j k hk)]

end Recency

end YardIce.Lib
