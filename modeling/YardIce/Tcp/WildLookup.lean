import YardIce.Tcp.System
import Mathlib.Algebra.Ring.Nat

/-!
# The lookup with wildcards

A block matches a datagram when each of its addresses is the datagram's or is open on one
of the sides. The fewer of them are open on one side only, the more specific is the block.

`pcb_wildlookup` looks for a most specific block, but its count of wildcards goes on from
block to block. A block that is rejected for its foreign address leaves its count to those
that follow, and after the first match no other block can have a lower one.
-/

namespace YardIce.Tcp

variable {N : Nat}

namespace Pcb

/-- The local side of a block fits: its port, and its address or a wildcard. -/
def FitsLocal (p : Pcb) (e : TcpSystem.Endpoints) : Prop :=
  p.lport = e.dport ∧ (p.laddr = 0 ∨ e.daddr = 0 ∨ p.laddr = e.daddr)

/-- The foreign side of a block fits: its address and port, or a wildcard. -/
def FitsForeign (p : Pcb) (e : TcpSystem.Endpoints) : Prop :=
  p.faddr = 0 ∨ e.saddr = 0 ∨ p.faddr = e.saddr ∧ p.fport = e.sport

instance (p : Pcb) (e : TcpSystem.Endpoints) : Decidable (p.FitsLocal e) :=
  inferInstanceAs (Decidable (_ ∧ _))

instance (p : Pcb) (e : TcpSystem.Endpoints) : Decidable (p.FitsForeign e) :=
  inferInstanceAs (Decidable (_ ∨ _))

/-- The wildcards of the local address. -/
def localWild (p : Pcb) (e : TcpSystem.Endpoints) : Nat := TcpSystem.countWild p.laddr e.daddr 0

/-- The wildcards of a block of its own. -/
def ownWild (p : Pcb) (e : TcpSystem.Endpoints) : Nat :=
  p.localWild e + TcpSystem.countWild p.faddr e.saddr 0

end Pcb

namespace TcpSystem

/-- A block matches under the wildcard rules. -/
def Matches (s : TcpSystem N) (e : Endpoints) (i : Fin N) : Prop :=
  (s.pcb i).FitsLocal e ∧ (s.pcb i).FitsForeign e

instance (s : TcpSystem N) (e : Endpoints) : DecidablePred (s.Matches e) :=
  fun _ => inferInstanceAs (Decidable (_ ∧ _))

/-- Nothing is found only if nothing matches, and what is found matches with the fewest
wildcards. -/
def MostSpecific (s : TcpSystem N) (e : Endpoints) (l : List (Fin N)) : Option (Fin N) → Prop
  | none => ∀ j ∈ l, ¬s.Matches e j
  | some i => i ∈ l ∧ s.Matches e i ∧
      ∀ j ∈ l, s.Matches e j → (s.pcb i).ownWild e ≤ (s.pcb j).ownWild e

/-- The wildcards of the blocks before the first match, which are those of the blocks that
are rejected halfway. -/
def strayWild (s : TcpSystem N) (e : Endpoints) : List (Fin N) → Nat
  | [] => 0
  | i :: rest =>
    if s.Matches e i then 0
    else (if (s.pcb i).FitsLocal e then (s.pcb i).localWild e else 0) + s.strayWild e rest

/-- The first match of the list is a most specific one, and the blocks rejected before it
leave its count below the three that the lookup starts from. -/
def FirstIsBest (s : TcpSystem N) (e : Endpoints) (l : List (Fin N)) : Prop :=
  ∀ i, l.find? (fun j => s.Matches e j) = some i →
    s.strayWild e l + (s.pcb i).ownWild e < 3 ∧
      ∀ j ∈ l, s.Matches e j → (s.pcb i).ownWild e ≤ (s.pcb j).ownWild e

theorem countWild_eq (mine asked : BitVec 32) (w : Nat) :
    countWild mine asked w = w + countWild mine asked 0 := by
  simp only [countWild]
  split <;> rfl

section Loop

variable {s : TcpSystem N} {e : Endpoints} {i : Fin N}

/-- The loop with what is asked for in one record. -/
def wildFrom (s : TcpSystem N) (e : Endpoints) (w : Wild N) (l : List (Fin N)) : Option (Fin N) :=
  wildLoop s e.saddr e.sport e.daddr e.dport w l

theorem wildFrom_other (w : Wild N) (rest : List (Fin N)) (h : ¬(s.pcb i).FitsLocal e) :
    s.wildFrom e w (i :: rest) = s.wildFrom e w rest := by
  simp only [Pcb.FitsLocal, not_and_or, not_or] at h
  simp only [wildFrom, wildLoop]
  rcases h with hport | haddr
  · rw [if_pos hport]
  · rw [if_pos haddr]
    exact ite_self _

/-- A block that is rejected for its foreign address has been counted on its local one. -/
theorem wildFrom_halfway (w : Wild N) (rest : List (Fin N)) (hl : (s.pcb i).FitsLocal e)
    (hf : ¬(s.pcb i).FitsForeign e) :
    s.wildFrom e w (i :: rest) =
      s.wildFrom e { w with wildcard := w.wildcard + (s.pcb i).localWild e } rest := by
  have haddr : ¬((s.pcb i).laddr ≠ 0 ∧ e.daddr ≠ 0 ∧ (s.pcb i).laddr ≠ e.daddr) := by
    have := hl.2
    tauto
  have hforeign : (s.pcb i).faddr ≠ 0 ∧ e.saddr ≠ 0 ∧
      ((s.pcb i).faddr ≠ e.saddr ∨ (s.pcb i).fport ≠ e.sport) := by
    simp only [Pcb.FitsForeign, not_or, not_and_or] at hf
    exact hf
  simp only [wildFrom, wildLoop]
  rw [if_neg (not_not_intro hl.1), if_neg haddr, if_pos hforeign, countWild_eq]
  rfl

theorem wildFrom_match (w : Wild N) (rest : List (Fin N)) (h : s.Matches e i) :
    s.wildFrom e w (i :: rest) =
      let count := w.wildcard + (s.pcb i).ownWild e
      if count < w.matchwild then
        if count = 0 then some i else s.wildFrom e ⟨some i, count, count⟩ rest
      else s.wildFrom e { w with wildcard := count } rest := by
  have haddr : ¬((s.pcb i).laddr ≠ 0 ∧ e.daddr ≠ 0 ∧ (s.pcb i).laddr ≠ e.daddr) := by
    have := h.1.2
    tauto
  have hforeign : ¬((s.pcb i).faddr ≠ 0 ∧ e.saddr ≠ 0 ∧
      ((s.pcb i).faddr ≠ e.saddr ∨ (s.pcb i).fport ≠ e.sport)) := by
    have hf := h.2
    simp only [Pcb.FitsForeign] at hf
    tauto
  have hcount : countWild (s.pcb i).faddr e.saddr (countWild (s.pcb i).laddr e.daddr w.wildcard) =
      w.wildcard + (s.pcb i).ownWild e := by
    rw [countWild_eq, countWild_eq _ _ w.wildcard, Nat.add_assoc]
    rfl
  simp only [wildFrom, wildLoop]
  rw [if_neg (not_not_intro h.1.1), if_neg haddr, if_neg hforeign, hcount]

/-- Once the count has reached what was found nothing else is found. -/
theorem wildFrom_full (l : List (Fin N)) (w : Wild N) (hw : w.matchwild ≤ w.wildcard) :
    s.wildFrom e w l = w.found := by
  induction l generalizing w with
  | nil => rfl
  | cons i rest ih =>
      by_cases hl : (s.pcb i).FitsLocal e
      · by_cases hf : (s.pcb i).FitsForeign e
        · have hcount : ¬w.wildcard + (s.pcb i).ownWild e < w.matchwild := by omega
          rw [wildFrom_match w rest ⟨hl, hf⟩, if_neg hcount]
          exact ih _ (Nat.le_add_right_of_le hw)
        · rw [wildFrom_halfway w rest hl hf]
          exact ih _ (Nat.le_add_right_of_le hw)
      · rw [wildFrom_other w rest hl]
        exact ih w hw

/-- The loop finds the first match, unless the count is too high by then. -/
theorem wildFrom_none (l : List (Fin N)) (c : Nat) :
    s.wildFrom e ⟨none, 3, c⟩ l =
      (l.find? fun j => s.Matches e j).filter
        fun i => c + s.strayWild e l + (s.pcb i).ownWild e < 3 := by
  induction l generalizing c with
  | nil => rfl
  | cons i rest ih =>
      by_cases hm : s.Matches e i
      · rw [wildFrom_match _ rest hm, List.find?_cons_of_pos (by simpa using hm)]
        simp only [strayWild, if_pos hm, Nat.add_zero, Option.filter_some, decide_eq_true_eq]
        split
        · split
          · rfl
          · exact wildFrom_full rest _ (Nat.le_refl _)
        · next hcount => exact wildFrom_full rest _ (Nat.le_of_not_lt hcount)
      · rw [List.find?_cons_of_neg (by simpa using hm)]
        simp only [strayWild, if_neg hm]
        by_cases hl : (s.pcb i).FitsLocal e
        · rw [wildFrom_halfway _ rest hl fun hf => hm ⟨hl, hf⟩, ih]
          simp only [if_pos hl, Nat.add_assoc]
        · rw [wildFrom_other _ rest hl, ih]
          simp only [if_neg hl, Nat.zero_add]

end Loop

/-- The lookup returns a most specific match, or nothing where nothing matches, exactly if
the first match of the list is one and is not lost to the blocks rejected before it. -/
theorem pcbWildlookup_mostSpecific (s : TcpSystem N) (e : Endpoints) (h : PcbHead) :
    s.MostSpecific e (s.list h) (s.pcbWildlookup e.saddr e.sport e.daddr e.dport h) ↔
      s.FirstIsBest e (s.list h) := by
  have hloop := wildFrom_none (s := s) (e := e) (s.list h) 0
  rw [Nat.zero_add] at hloop
  change s.MostSpecific e (s.list h) (s.wildFrom e ⟨none, 3, 0⟩ (s.list h)) ↔ _
  rw [hloop]
  cases hfind : (s.list h).find? fun j => s.Matches e j with
  | none =>
      have hnone : ∀ j ∈ s.list h, ¬s.Matches e j := by
        simpa only [List.find?_eq_none, decide_eq_true_eq] using hfind
      constructor
      · intro _ i hi
        rw [hfind] at hi
        cases hi
      · intro _
        exact hnone
  | some i =>
      have hmatch : s.Matches e i := by simpa using List.find?_some hfind
      have hmem := List.mem_of_find?_eq_some hfind
      rw [Option.filter_some]
      constructor
      · intro hbest j hj
        obtain rfl : i = j := Option.some.inj (hfind.symm.trans hj)
        split at hbest
        · next hcount => exact ⟨of_decide_eq_true hcount, hbest.2.2⟩
        · exact absurd hmatch (hbest i hmem)
      · intro hfirst
        obtain ⟨hcount, hleast⟩ := hfirst i hfind
        rw [if_pos (decide_eq_true hcount)]
        exact ⟨hmem, hmatch, hleast⟩

local instance two_blocks : NeZero 2 := ⟨Nat.succ_ne_zero 1⟩

/-- Two blocks bound to port 7 of any address, the first connected to another host. -/
def sharedPort : TcpSystem 2 :=
  let s := tcpInit 2 (fun i => { zeroPcb with lport := 7, faddr := if i = 0 then 9 else 0 }) 0
  (s.pcbMove 0 .free .active).pcbMove 1 .free .active

/-- The second block matches, but the rejected one has used up the count. -/
theorem sharedPort_missed :
    sharedPort.list .active = [0, 1] ∧ sharedPort.Matches ⟨5, 6, 2, 7⟩ 1 ∧
      sharedPort.pcbWildlookup 5 6 2 7 .active = none ∧
      ¬∀ (s : TcpSystem 2) (e : Endpoints) (h : PcbHead),
        s.MostSpecific e (s.list h) (s.pcbWildlookup e.saddr e.sport e.daddr e.dport h) := by
  have hlist : sharedPort.list .active = [0, 1] := by decide
  have hmatch : sharedPort.Matches ⟨5, 6, 2, 7⟩ 1 := by decide
  have hnone : sharedPort.pcbWildlookup 5 6 2 7 .active = none := by decide
  refine ⟨hlist, hmatch, hnone, fun hall => ?_⟩
  have hspec := hall sharedPort ⟨5, 6, 2, 7⟩ .active
  simp only [hnone, hlist] at hspec
  exact hspec 1 (by simp) hmatch

end TcpSystem

end YardIce.Tcp
