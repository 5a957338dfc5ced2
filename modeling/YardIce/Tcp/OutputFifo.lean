import YardIce.Lib.Runs
import Mathlib.Data.BitVec
import Mathlib.Data.Fintype.Card
import Mathlib.Data.List.Nodup

/-!
# The output FIFO of TCP

The control blocks that have something to send wait in a ring, `__tcp__.out`. They are put there
once, which a flag of the block remembers, and the timer task takes them out. A block that is
freed is taken out of the middle.

## Implementation notes

The counters of the ring have 16 bits and wrap; the ring has as many slots as there are blocks in
the pool.
-/

namespace YardIce.Tcp

/-- `NET_TCP_PCB_ACTIVE_MAX` -/
def netTcpPcbActiveMax : Nat := 8

/-- A control block of the pool. -/
abbrev PcbRef := Fin netTcpPcbActiveMax

instance : NeZero netTcpPcbActiveMax := ⟨by decide⟩

/-- `__tcp__.out`, and `TF_NEEDOUTPUT` of the blocks. -/
structure OutFifo where
  head : BitVec 16
  tail : BitVec 16
  tp : Nat → Option PcbRef
  need : PcbRef → Bool

/-- The slot of a counter. -/
def slot (mark : BitVec 16) : Nat := mark.toNat % netTcpPcbActiveMax

/-- A slot of the ring is written. -/
def setSlot (tp : Nat → Option PcbRef) (i : Nat) (v : Option PcbRef) : Nat → Option PcbRef :=
  fun j => if j = i then v else tp j

namespace OutFifo

/-- `tcp_init` -/
def init : OutFifo := ⟨0, 0, fun _ => none, fun _ => false⟩

variable (s : OutFifo)

/-- `tcp_output_enqueue`, and `tcp_output_sched`, which signals the timer task as well. -/
def tcpOutputEnqueue (p : PcbRef) : OutFifo :=
  if s.need p then s
  else
    { s with tp := setSlot s.tp (slot s.head) (some p), head := s.head + 1
             need := fun q => if q = p then true else s.need q }

/-- `while (tail != mark)` the entries are shifted; there are `n` turns left. -/
def shiftLoop : Nat → BitVec 16 → (Nat → Option PcbRef) → Nat → Option PcbRef
  | 0, _, tp => tp
  | n + 1, tail, tp =>
      shiftLoop n (tail + 1) (setSlot tp (slot (tail + 1)) (tp (slot tail)))

/-- `for (mark = tail; mark != head; ++mark)`; there are `n` turns left. -/
def dequeueLoop (p : PcbRef) : Nat → BitVec 16 → OutFifo
  | 0, _ => s
  | n + 1, mark =>
      if s.tp (slot mark) = some p then
        { s with tail := s.tail + 1, tp := shiftLoop (mark - s.tail).toNat s.tail s.tp }
      else dequeueLoop p n (mark + 1)

/-- `tcp_output_dequeue` -/
def tcpOutputDequeue (p : PcbRef) : OutFifo := s.dequeueLoop p (s.head - s.tail).toNat s.tail

/-- `tcp_pcb_free`, as far as it concerns the FIFO. -/
def tcpPcbFree (p : PcbRef) : OutFifo :=
  if s.need p then
    tcpOutputDequeue { s with need := fun q => if q = p then false else s.need q } p
  else s

/-- The loop of `tcp_tmr_task`; `again` tells at which entries `tcp_output` returns `-EAGAIN`. -/
def drainLoop (again : BitVec 16 → Bool) : Nat → BitVec 16 → OutFifo → OutFifo
  | 0, tail, s => { s with tail := tail }
  | n + 1, tail, s =>
      match s.tp (slot tail) with
      | none => drainLoop again n (tail + 1) s
      | some p =>
          if s.need p = false then drainLoop again n (tail + 1) s
          else if again tail then { s with tail := tail }
          else
            drainLoop again n (tail + 1)
              { s with tp := setSlot s.tp (slot tail) none
                       need := fun q => if q = p then false else s.need q }

/-- The PCBs pending for output are processed. -/
def drain (again : BitVec 16 → Bool) : OutFifo :=
  drainLoop again (s.head - s.tail).toNat s.tail s

/-- The entries between the tail and the head. -/
def entries : List (Option PcbRef) :=
  (List.range (s.head - s.tail).toNat).map fun k => s.tp (slot (s.tail + BitVec.ofNat 16 k))

end OutFifo

/-- What happens to the FIFO. -/
inductive OutEvent where
  | sched (p : PcbRef)
  | enqueue (p : PcbRef)
  | free (p : PcbRef)
  | drain (again : BitVec 16 → Bool)

/-- One step. -/
def outStep (s : OutFifo) : OutEvent → Option OutFifo
  | .sched p => some (s.tcpOutputEnqueue p)
  | .enqueue p => some (s.tcpOutputEnqueue p)
  | .free p => some (s.tcpPcbFree p)
  | .drain again => some (s.drain again)

namespace OutFifo

/-- The entries are different from each other, and are the blocks that have the flag. -/
structure Consistent (s : OutFifo) : Prop where
  nodup : s.entries.Nodup
  filled : none ∉ s.entries
  flagged : ∀ p, some p ∈ s.entries ↔ s.need p = true

/-- A block is taken out, and the others keep their order. -/
def Removes (s : OutFifo) (p : PcbRef) : Prop :=
  (s.tcpOutputDequeue p).entries = s.entries.erase (some p)

/-- At most one entry is ahead of the block. -/
def AtFront (s : OutFifo) (p : PcbRef) : Prop :=
  some p ∈ s.entries → s.entries.idxOf (some p) ≤ 1

instance (s : OutFifo) (p : PcbRef) : Decidable (s.AtFront p) :=
  inferInstanceAs (Decidable (_ → _))

/-- A block that is freed has at most one entry ahead of it. -/
def NearFront (s : OutFifo) : OutEvent → Prop
  | .free p => s.AtFront p
  | _ => True

instance (s : OutFifo) : DecidablePred s.NearFront := fun e => by
  unfold NearFront
  split <;> infer_instance

/-! ## The slots of the ring -/

theorem slot_add (a : BitVec 16) (k : Nat) :
    slot (a + BitVec.ofNat 16 k) = (slot a + k) % netTcpPcbActiveMax := by
  unfold slot netTcpPcbActiveMax
  rw [BitVec.toNat_add, BitVec.toNat_ofNat]
  lia

theorem slot_lt (a : BitVec 16) : slot a < netTcpPcbActiveMax := Nat.mod_lt _ (by decide)

theorem slot_succ (a : BitVec 16) : slot (a + 1) = (slot a + 1) % netTcpPcbActiveMax :=
  slot_add a 1

theorem setSlot_same (tp : Nat → Option PcbRef) (i : Nat) (v : Option PcbRef) :
    setSlot tp i v i = v := if_pos rfl

theorem setSlot_ne (tp : Nat → Option PcbRef) {i j : Nat} (h : j ≠ i) (v : Option PcbRef) :
    setSlot tp i v j = tp j := if_neg h

/-- The loop copies the first entry over all that it passes. -/
theorem shiftLoop_slot {n : Nat} (hn : n < netTcpPcbActiveMax) (tail : BitVec 16)
    (tp : Nat → Option PcbRef) {k : Nat} (hk : k < netTcpPcbActiveMax) :
    shiftLoop n tail tp ((slot tail + k) % netTcpPcbActiveMax) =
      if k ≤ n then tp (slot tail) else tp ((slot tail + k) % netTcpPcbActiveMax) := by
  have hslot := slot_lt tail
  unfold netTcpPcbActiveMax at *
  induction n generalizing tail tp k with
  | zero =>
      unfold shiftLoop
      split_ifs with hzero
      · rw [show (slot tail + k) % 8 = slot tail by lia]
      · rfl
  | succ n ih =>
      have hnext : slot (tail + 1) = (slot tail + 1) % 8 := slot_succ tail
      have hlt : slot (tail + 1) < 8 := by lia
      unfold shiftLoop
      rcases Nat.eq_zero_or_pos k with rfl | hpos
      · -- the slot behind the last one that is written
        have hwhere : (slot tail + 0) % 8 = (slot (tail + 1) + 7) % 8 := by lia
        rw [hwhere, ih (by lia) (tail + 1) _ (by decide) hlt, if_neg (by lia),
          setSlot_ne _ (by lia), if_pos (by lia), ← hwhere]
        rw [show (slot tail + 0) % 8 = slot tail by lia]
      · have hwhere : (slot tail + k) % 8 = (slot (tail + 1) + (k - 1)) % 8 := by lia
        rw [hwhere, ih (by lia) (tail + 1) _ (by lia) hlt, setSlot_same]
        by_cases hle : k ≤ n + 1
        · rw [if_pos (by lia), if_pos hle]
        · rw [if_neg (by lia), if_neg hle, setSlot_ne _ (by lia)]

/-! ## The entries -/

section Entries

variable {s : OutFifo} {l : List PcbRef} {p : PcbRef}

theorem entries_length (s : OutFifo) : s.entries.length = (s.head - s.tail).toNat := by
  unfold entries
  rw [List.length_map, List.length_range]

/-- The entries are the blocks of a list. -/
structure Lists (s : OutFifo) (l : List PcbRef) : Prop where
  length : (s.head - s.tail).toNat = l.length
  entry : ∀ k (_ : k < l.length), s.tp ((slot s.tail + k) % netTcpPcbActiveMax) = some l[k]

theorem Lists.entries (h : s.Lists l) : s.entries = l.map some := by
  refine List.ext_getElem ?_ fun k hk hk' => ?_
  · rw [entries_length, h.length, List.length_map]
  · simp only [OutFifo.entries, List.getElem_map, List.getElem_range, slot_add]
    exact h.entry k (by simpa only [List.length_map] using hk')

/-- The entries are different blocks, which are those that have the flag. -/
structure Queues (s : OutFifo) (l : List PcbRef) : Prop extends Lists s l where
  nodup : l.Nodup
  flagged : ∀ p, p ∈ l ↔ s.need p = true

/-- The ring has a slot for every block. -/
theorem length_le_of_nodup (h : l.Nodup) : l.length ≤ netTcpPcbActiveMax := by
  simpa only [Fintype.card_fin] using h.length_le_card

theorem map_some_of_filled {os : List (Option PcbRef)} (h : none ∉ os) :
    ∃ l : List PcbRef, os = l.map some := by
  induction os with
  | nil => exact ⟨[], rfl⟩
  | cons o os ih =>
      obtain ⟨l, rfl⟩ := ih fun hin => h (List.mem_cons_of_mem _ hin)
      cases o with
      | none => exact absurd List.mem_cons_self h
      | some p => exact ⟨p :: l, rfl⟩

theorem lists_of_entries (h : s.entries = l.map some) : s.Lists l := by
  have hlen : (s.head - s.tail).toNat = l.length := by
    rw [← entries_length, h, List.length_map]
  refine ⟨hlen, fun k hk => ?_⟩
  have hk' : k < s.entries.length := by
    rw [entries_length]
    lia
  have hentry : s.entries[k] = some l[k] := by
    simp only [h, List.getElem_map]
  simpa only [OutFifo.entries, List.getElem_map, List.getElem_range, slot_add] using hentry

theorem mem_map_some : some p ∈ l.map some ↔ p ∈ l :=
  List.mem_map_of_injective (Option.some_injective _)

theorem consistent_iff : s.Consistent ↔ ∃ l, s.Queues l := by
  constructor
  · intro h
    obtain ⟨l, hl⟩ := map_some_of_filled h.filled
    refine ⟨l, lists_of_entries hl, ?_, fun p => ?_⟩
    · exact List.Nodup.of_map _ (hl ▸ h.nodup)
    · rw [← h.flagged, hl, mem_map_some]
  · rintro ⟨l, h⟩
    have hl := h.toLists.entries
    refine ⟨?_, ?_, fun p => ?_⟩
    · rw [hl]
      exact h.nodup.map (Option.some_injective _)
    · rw [hl]
      simp
    · rw [hl, mem_map_some, h.flagged]

theorem idxOf_map_some (l : List PcbRef) (p : PcbRef) : (l.map some).idxOf (some p) = l.idxOf p := by
  induction l with
  | nil => rfl
  | cons q l ih =>
      rw [List.map_cons, List.idxOf_cons, List.idxOf_cons, ih]
      simp

theorem Lists.atFront (h : s.Lists l) (p : PcbRef) : s.AtFront p ↔ (p ∈ l → l.idxOf p ≤ 1) := by
  unfold AtFront
  rw [h.entries, mem_map_some, idxOf_map_some]

/-! ## What the operations do to the list -/

/-- The block behind the last one. -/
theorem Queues.enqueue (h : s.Queues l) (hp : s.need p = false) :
    (s.tcpOutputEnqueue p).Queues (l ++ [p]) := by
  have hnew : p ∉ l := fun hin => Bool.false_ne_true (hp ▸ (h.flagged p).mp hin)
  have hnodup : (l ++ [p]).Nodup := List.nodup_append.mpr
    ⟨h.nodup, List.nodup_singleton p, fun a ha b hb => by
      rintro rfl
      exact hnew (List.mem_singleton.mp hb ▸ ha)⟩
  have hroom := length_le_of_nodup hnodup
  have hslot := slot_lt s.tail
  have hhead : slot s.head = (slot s.tail + l.length) % netTcpPcbActiveMax := by
    rw [← h.length, ← slot_add, BitVec.ofNat_toNat, BitVec.setWidth_eq, BitVec.add_comm,
      BitVec.sub_add_cancel]
  unfold tcpOutputEnqueue
  rw [if_neg (by rw [hp]; exact Bool.false_ne_true)]
  rw [List.length_append, List.length_singleton] at hroom
  unfold netTcpPcbActiveMax at *
  refine ⟨⟨?_, fun k hk => ?_⟩, hnodup, fun q => ?_⟩
  · rw [List.length_append, List.length_singleton]
    have hlen := h.length
    show (s.head + 1 - s.tail).toNat = l.length + 1
    bv_omega
  · show setSlot s.tp (slot s.head) (some p) ((slot s.tail + k) % 8) = _
    rw [List.length_append, List.length_singleton] at hk
    by_cases hlast : k < l.length
    · rw [setSlot_ne _ (by lia), List.getElem_append_left hlast]
      exact h.entry k hlast
    · have hk' : k = l.length := by lia
      subst hk'
      rw [← hhead, setSlot_same, List.getElem_concat_length rfl]
  · show q ∈ l ++ [p] ↔ (if q = p then true else s.need q) = true
    rw [List.mem_append, List.mem_singleton, h.flagged]
    split_ifs with hq <;> simp [hq]

/-- What is left when the entry at `i` is taken out: its predecessors are copies of the first. -/
def shifted : List PcbRef → Nat → List PcbRef
  | [], _ => []
  | q :: l, i => List.replicate i q ++ l.drop i

theorem shifted_eq_iff {l : List PcbRef} {i : Nat} (h : l.Nodup) (hi : i < l.length) :
    shifted l i = l.eraseIdx i ↔ i ≤ 1 := by
  match l, i with
  | q :: l, 0 => simp [shifted]
  | q :: r :: l, 1 => simp [shifted]
  | q :: l, i + 2 =>
      refine iff_of_false (fun heq => ?_) (by lia)
      have hnodup : (shifted (q :: l) (i + 2)).Nodup := heq ▸ h.sublist (List.eraseIdx_sublist _ _)
      simp only [shifted, List.replicate_succ, List.cons_append] at hnodup
      exact (List.nodup_cons.mp hnodup).1 (by simp)

theorem dequeueLoop_eq (h : s.Lists l) (hroom : l.length ≤ netTcpPcbActiveMax) {n k : Nat}
    (hk : k + n = l.length) (hbefore : p ∉ l.take k) :
    s.dequeueLoop p n (s.tail + BitVec.ofNat 16 k) =
      if p ∈ l then
        { s with tail := s.tail + 1, tp := shiftLoop (l.idxOf p) s.tail s.tp }
      else s := by
  induction n generalizing k with
  | zero =>
      rw [List.take_of_length_le (by lia)] at hbefore
      unfold dequeueLoop
      rw [if_neg hbefore]
  | succ n ih =>
      have hlt : k < l.length := by lia
      unfold dequeueLoop
      rw [slot_add, h.entry k hlt]
      by_cases hp : l[k] = p
      · have hin : p ∈ l := hp ▸ List.getElem_mem hlt
        have hidx : l.idxOf p = k := by
          have hle := mt (List.mem_take_iff_idxOf_lt hin).mpr hbefore
          have hlt' := (List.mem_take_iff_idxOf_lt (n := k + 1) hin).mp
            (by rw [List.take_succ_eq_append_getElem hlt, hp]; simp)
          lia
        rw [if_pos (by rw [hp]), if_pos hin, hidx]
        have hturns : (s.tail + BitVec.ofNat 16 k - s.tail).toNat = k := by
          unfold netTcpPcbActiveMax at hroom
          bv_omega
        rw [hturns]
      · rw [if_neg (by simpa using hp)]
        have hnext : s.tail + BitVec.ofNat 16 k + 1 = s.tail + BitVec.ofNat 16 (k + 1) := by
          rw [BitVec.ofNat_add, BitVec.add_assoc]
          rfl
        rw [hnext]
        refine ih (by lia) ?_
        rw [List.take_succ_eq_append_getElem hlt, List.mem_append, List.mem_singleton]
        rintro (hin | rfl)
        · exact hbefore hin
        · exact hp rfl

theorem Lists.dequeue_eq (h : s.Lists l) (hroom : l.length ≤ netTcpPcbActiveMax) :
    s.tcpOutputDequeue p =
      if p ∈ l then
        { s with tail := s.tail + 1, tp := shiftLoop (l.idxOf p) s.tail s.tp }
      else s := by
  unfold tcpOutputDequeue
  have hloop := dequeueLoop_eq (p := p) h hroom (n := l.length) (k := 0) (Nat.zero_add _) (by simp)
  rw [h.length]
  simpa using hloop

theorem Lists.shift (h : s.Lists l) (hroom : l.length ≤ netTcpPcbActiveMax) {i : Nat}
    (hi : i < l.length) :
    Lists { s with tail := s.tail + 1, tp := shiftLoop i s.tail s.tp } (shifted l i) := by
  have hlen := h.length
  have hslot := slot_lt s.tail
  obtain ⟨q, l, rfl⟩ := List.exists_cons_of_length_pos (Nat.zero_lt_of_lt hi)
  rw [List.length_cons] at hi hlen hroom
  have hfirst : s.tp (slot s.tail) = some q := by
    have hentry := h.entry 0 (by simp)
    rwa [Nat.add_zero, Nat.mod_eq_of_lt hslot] at hentry
  have hrest : (shifted (q :: l) i).length = l.length := by
    unfold shifted
    rw [List.length_append, List.length_replicate, List.length_drop]
    lia
  refine ⟨?_, fun k hk => ?_⟩
  · rw [hrest]
    show (s.head - (s.tail + 1)).toNat = l.length
    bv_omega
  · rw [hrest] at hk
    have hwhere : (slot (s.tail + 1) + k) % netTcpPcbActiveMax =
        (slot s.tail + (k + 1)) % netTcpPcbActiveMax := by
      rw [slot_succ, Nat.mod_add_mod]
      congr 1
      lia
    show shiftLoop i s.tail s.tp ((slot (s.tail + 1) + k) % netTcpPcbActiveMax) = _
    rw [hwhere, shiftLoop_slot (by lia) s.tail s.tp (by lia)]
    simp only [shifted]
    by_cases hcopy : k < i
    · rw [if_pos (by lia), hfirst, List.getElem_append_left (by simpa using hcopy),
        List.getElem_replicate]
    · rw [if_neg (by lia), h.entry (k + 1) (by simpa using hk), List.getElem_append_right (by simpa using hcopy),
        List.getElem_drop, List.getElem_cons_succ]
      congr 2
      rw [List.length_replicate]
      lia

/-- A block is taken out in order exactly if at most one entry is ahead of it. -/
theorem Queues.removes_iff (h : s.Queues l) (p : PcbRef) : s.Removes p ↔ s.AtFront p := by
  have hroom := length_le_of_nodup h.nodup
  unfold Removes
  rw [h.atFront, h.toLists.dequeue_eq hroom]
  split_ifs with hin
  · have hidx := List.idxOf_lt_length_iff.mpr hin
    rw [(h.shift hroom hidx).entries, h.toLists.entries,
      ← List.map_erase (Option.some_injective _), List.erase_eq_eraseIdx_of_idxOf rfl,
      (List.map_injective_iff.mpr (Option.some_injective _)).eq_iff, shifted_eq_iff h.nodup hidx]
    simp [hin]
  · rw [h.toLists.entries, List.erase_of_not_mem (mt mem_map_some.mp hin)]
    simp [hin]

/-- A block that has at most one entry ahead of it is freed. -/
theorem Queues.free (h : s.Queues l) (hp : s.need p = true) (hfront : s.AtFront p) :
    (s.tcpPcbFree p).Queues (l.erase p) := by
  have hroom := length_le_of_nodup h.nodup
  have hin : p ∈ l := (h.flagged p).mpr hp
  have hidx := List.idxOf_lt_length_iff.mpr hin
  have herase : l.erase p = shifted l (l.idxOf p) := by
    rw [List.erase_eq_eraseIdx_of_idxOf rfl, (shifted_eq_iff h.nodup hidx).mpr]
    exact (h.atFront p).mp hfront hin
  have hlists : Lists { s with need := fun q => if q = p then false else s.need q } l :=
    ⟨h.length, h.entry⟩
  unfold tcpPcbFree
  rw [if_pos hp, hlists.dequeue_eq hroom, if_pos hin]
  refine ⟨herase ▸ hlists.shift hroom hidx, h.nodup.erase p, fun q => ?_⟩
  show q ∈ l.erase p ↔ (if q = p then false else s.need q) = true
  rw [h.nodup.mem_erase_iff, h.flagged]
  split_ifs with hq <;> simp [hq]

/-- The first entry is processed: its slot and its flag are cleared. -/
theorem Queues.pop {tail : BitVec 16} (h : Queues { s with tail := tail } (p :: l)) :
    Queues { s with
      tail := tail + 1, tp := setSlot s.tp (slot tail) none
      need := fun q => if q = p then false else s.need q } l := by
  have hroom := length_le_of_nodup h.nodup
  have hlen : (s.head - tail).toNat = l.length + 1 := h.length
  have hslot := slot_lt tail
  have hnew := List.nodup_cons.mp h.nodup
  unfold netTcpPcbActiveMax at *
  rw [List.length_cons] at hroom
  refine ⟨⟨?_, fun k hk => ?_⟩, hnew.2, fun q => ?_⟩
  · show (s.head - (tail + 1)).toNat = l.length
    bv_omega
  · have hwhere : (slot (tail + 1) + k) % 8 = (slot tail + (k + 1)) % 8 := by
      have hsucc : slot (tail + 1) = (slot tail + 1) % 8 := slot_succ tail
      lia
    show setSlot s.tp (slot tail) none ((slot (tail + 1) + k) % 8) = _
    rw [hwhere, setSlot_ne _ (by lia)]
    exact h.entry (k + 1) (by simpa using hk)
  · have hflag : q ∈ p :: l ↔ s.need q = true := h.flagged q
    show q ∈ l ↔ (if q = p then false else s.need q) = true
    by_cases hq : q = p
    · subst hq
      rw [if_pos rfl]
      exact iff_of_false hnew.1 Bool.false_ne_true
    · rw [if_neg hq, ← hflag, List.mem_cons, or_iff_right hq]

theorem drainLoop_queues (again : BitVec 16 → Bool) {tail : BitVec 16}
    (h : Queues { s with tail := tail } l) :
    ∃ l', (drainLoop again l.length tail s).Queues l' := by
  induction l generalizing s tail with
  | nil => exact ⟨[], h⟩
  | cons p l ih =>
      have hfirst : s.tp (slot tail) = some p := by
        have hentry : s.tp ((slot tail + 0) % netTcpPcbActiveMax) = some p := h.entry 0 (by simp)
        rwa [Nat.add_zero, Nat.mod_eq_of_lt (slot_lt tail)] at hentry
      have hneed : s.need p = true := (h.flagged p).mp List.mem_cons_self
      rw [List.length_cons]
      unfold drainLoop
      simp only [hfirst, hneed, Bool.true_eq_false, if_false]
      split_ifs with hagain
      · exact ⟨p :: l, h⟩
      · exact ih h.pop

end Entries

/-! ## Runs -/

theorem consistent_init : init.Consistent :=
  consistent_iff.mpr ⟨[], ⟨rfl, fun k hk => absurd hk (Nat.not_lt_zero k)⟩, List.nodup_nil, by
    simp [init]⟩

theorem consistent_step (s : OutFifo) (e : OutEvent) (t : OutFifo) (hs : s.Consistent)
    (hfront : s.NearFront e) (ht : outStep s e = some t) : t.Consistent := by
  obtain ⟨l, h⟩ := consistent_iff.mp hs
  have henqueue : ∀ p, (s.tcpOutputEnqueue p).Consistent := fun p => by
    cases hp : s.need p with
    | false => exact consistent_iff.mpr ⟨_, h.enqueue hp⟩
    | true => rwa [tcpOutputEnqueue, if_pos hp]
  cases e with
  | sched p => exact Option.some.inj ht ▸ henqueue p
  | enqueue p => exact Option.some.inj ht ▸ henqueue p
  | free p =>
      obtain rfl := Option.some.inj ht
      cases hp : s.need p with
      | false => rwa [tcpPcbFree, if_neg (by rw [hp]; exact Bool.false_ne_true)]
      | true => exact consistent_iff.mpr ⟨_, h.free hp hfront⟩
  | drain again =>
      obtain rfl := Option.some.inj ht
      unfold drain
      rw [h.length]
      exact consistent_iff.mpr (drainLoop_queues again h)

/-- As long as every block that is freed has at most one entry ahead of it, the entries are
different blocks, which are those that have the flag, and exactly such a block is taken out in
order. -/
theorem output_fifo (es : List OutEvent) (t : OutFifo) (hfront : Lib.Along outStep NearFront init es)
    (hrun : Lib.exec outStep init es = some t) :
    t.Consistent ∧ ∀ p, t.Removes p ↔ t.AtFront p := by
  have ht : t.Consistent := Lib.exec_invariant consistent_step consistent_init hfront hrun
  obtain ⟨l, h⟩ := consistent_iff.mp ht
  exact ⟨ht, h.removes_iff⟩

theorem output_fifo_two :
    ∃ t : OutFifo, t.entries = [some 2] ∧ t.Consistent ∧ ∀ p, t.Removes p ↔ t.AtFront p :=
  ⟨_, by decide, output_fifo [.sched 0, .enqueue 1, .free 1, .sched 2, .drain fun tail => tail == 2]
    _ (by decide) rfl⟩

/-- A block behind two others is freed: the first of them is entered twice, the second is lost. -/
theorem dequeue_third_loses :
    ¬ ∀ (es : List OutEvent) (t : OutFifo), Lib.exec outStep init es = some t →
      t.Consistent ∧ ∀ p, t.Removes p := by
  intro hall
  have hlost := (hall [.sched 0, .sched 1, .sched 2, .free 2] _ rfl).1.nodup
  exact absurd hlost (by decide)

end OutFifo

end YardIce.Tcp
