import YardIce.IceDrv.MemDispatch
import Mathlib.Tactic.Linarith

/-!
# Short transfers and the blocks of a region

A region operation may transfer less than it was asked for. The loop over the blocks then goes on
in the middle of a block, but takes the next block of the region and asks for a whole one.
-/

namespace YardIce.IceDrv

variable {σ : Type}

/-- The operation returns a count of the bytes asked, and not nothing. -/
def Counting (op : RegionOp σ) : Prop :=
  ∀ ref p n s, (op ref p n s).1 ≤ n ∧ (op ref p n s).1.msb = false ∧
    (0 < n → 0 < (op ref p n s).1)

/-- The operations called once more in order: the sum of their counts and the state left. -/
def replay (op : MemOper σ → RegionOp σ) : σ → List (Call σ) → Nat × σ
  | s, [] => (0, s)
  | s, call :: rest =>
      let (ret, s) := op call.entry.op call.ref call.ptr call.n s
      let (sum, s) := replay op s rest
      (ret.toNat + sum, s)

/-- The loop over the blocks of the region that an address is in. -/
def regionLoop (op : RegionOp σ) (e : MemEntry σ) (len : Word) (c : Cursor σ) : Outcome σ :=
  let memStart := e.addr.base + e.addr.offs
  let blk := (c.addr - memStart) / e.size
  let n := e.size - (c.addr - (memStart + blk * e.size))
  blkLoop op e len (e.count.toNat - blk.toNat) n (c.addr - e.addr.base) c

/-- The regions that a transfer comes to, with the cursor before each. -/
def visits (op : MemOper σ → RegionOp σ) (guarded : Bool) (len : Word) :
    List (MemEntry σ) → Cursor σ → List (MemEntry σ × Cursor σ)
  | [], _ => []
  | e :: rest, c =>
      if e.count * e.size = 0 then visits op guarded len rest c
      else if c.addr < e.addr.base + e.addr.offs ∨
          e.addr.base + e.addr.offs + e.count * e.size - 1 < c.addr then
        visits op guarded len rest c
      else if guarded ∧ e.flags &&& memRo ≠ 0 then []
      else (e, c) ::
        match regionLoop (op e.op) e len c with
        | .returned _ _ => []
        | .running d => visits op guarded len rest d

/-- The cursor at the end of a region. -/
def Outcome.cursor : Outcome σ → Cursor σ
  | .returned _ c => c
  | .running c => c

/-- The request is satisfied or the region exhausted. -/
def Outcome.Complete (e : MemEntry σ) (len : Word) : Outcome σ → Prop
  | .returned ret _ => ret = len
  | .running c => c.addr = BitVec.ofNat 32 (e.start + e.bytes)

instance (e : MemEntry σ) (len : Word) (o : Outcome σ) : Decidable (o.Complete e len) := by
  cases o <;> unfold Outcome.Complete <;> infer_instance

/-- A transfer from `s` with the value and the cursor `r` that visits `vs`: every call stays in one
block, each region is left satisfied or exhausted, and the value is the sum of the counts, unless a
write was refused. -/
structure OnGrid (op : MemOper σ → RegionOp σ) (guarded : Bool) (map : List (MemEntry σ))
    (len : Word) (s : σ) (vs : List (MemEntry σ × Cursor σ)) (r : Word × Cursor σ) : Prop where
  inBlock : ∀ call ∈ r.2.calls, call.InBlock
  complete : ∀ v ∈ vs, (regionLoop (op v.1.op) v.1 len v.2).Complete v.1 len
  sum : r.1.toNat = (replay op s r.2.calls).1 ∨ guarded = true ∧ r.1 = -1 ∧ ∃ e ∈ map, e.ReadOnly

/-- The cursor behind a call for `m` bytes that `ret` answered. -/
def Cursor.answered (c : Cursor σ) (e : MemEntry σ) (offs m ret : Word) (target : σ) : Cursor σ where
  addr := c.addr + ret
  rem := c.rem - ret
  ptr := c.ptr + ret.toNat
  target := target
  calls := c.calls ++ [⟨e, ⟨e.addr.base, offs⟩, c.ptr, m⟩]

/-- A call for the bytes up to the end of the block or of the request. -/
def asked (n : Word) (c : Cursor σ) : Word := if c.rem < n then c.rem else n

/-- The answer to a call. -/
def answer (op : RegionOp σ) (e : MemEntry σ) (offs n : Word) (c : Cursor σ) : Word × σ :=
  op ⟨e.addr.base, offs⟩ c.ptr (asked n c) c.target

/-- The cursor behind it. -/
def turn (op : RegionOp σ) (e : MemEntry σ) (offs n : Word) (c : Cursor σ) : Cursor σ :=
  c.answered e offs (asked n c) (answer op e offs n c).1 (answer op e offs n c).2

/-- From a place in a region, with the blocks left, the bytes `n` to the end of the block and the
offset: each call is answered in full, or it asks for the rest of the request, which ends in its
block, and there is a block left to count for the next call. -/
def InFull (op : RegionOp σ) (e : MemEntry σ) : Nat → Word → Word → Cursor σ → Prop
  | 0, _, _, _ => True
  | left + 1, n, offs, c =>
      let m := if c.rem < n then c.rem else n
      let (ret, target) := op ⟨e.addr.base, offs⟩ c.ptr m c.target
      ret = c.rem ∨
        (ret = m ∨ c.rem ≤ n ∧ 0 < left) ∧
          InFull op e left e.size (offs + ret) (c.answered e offs m ret target)

instance decidableInFull (op : RegionOp σ) (e : MemEntry σ) :
    (left : Nat) → (n offs : Word) → (c : Cursor σ) → Decidable (InFull op e left n offs c)
  | 0, _, _, _ => isTrue trivial
  | left + 1, n, offs, c =>
      have := decidableInFull op e left e.size (offs + (answer op e offs n c).1)
        (turn op e offs n c)
      inferInstanceAs (Decidable ((answer op e offs n c).1 = c.rem ∨
        ((answer op e offs n c).1 = asked n c ∨ c.rem ≤ n ∧ 0 < left) ∧
          InFull op e left e.size (offs + (answer op e offs n c).1) (turn op e offs n c)))

/-- The calls for a region from the address of a cursor. -/
def RegionInFull (op : RegionOp σ) (e : MemEntry σ) (c : Cursor σ) : Prop :=
  let memStart := e.addr.base + e.addr.offs
  let blk := (c.addr - memStart) / e.size
  let n := e.size - (c.addr - (memStart + blk * e.size))
  InFull op e (e.count.toNat - blk.toNat) n (c.addr - e.addr.base) c

instance (op : RegionOp σ) (e : MemEntry σ) (c : Cursor σ) : Decidable (RegionInFull op e c) :=
  decidableInFull op e _ _ _ c

/-- The regions that `ice_mem_read` comes to. -/
def readVisits (map : List (MemEntry σ)) (addr len : Word) (s : σ) :
    List (MemEntry σ × Cursor σ) :=
  visits MemOper.read false len map ⟨addr, len, 0, s, []⟩

/-- The regions that `ice_mem_write` comes to. -/
def writeVisits (map : List (MemEntry σ)) (addr len : Word) (s : σ) :
    List (MemEntry σ × Cursor σ) :=
  visits MemOper.write true len map ⟨addr, len, 0, s, []⟩

/-! ## One turn of the loop -/

section Turns

variable {op : RegionOp σ} {e : MemEntry σ} {c : Cursor σ} {len n offs : Word} {left : Nat}

theorem asked_le (n : Word) (c : Cursor σ) : asked n c ≤ c.rem ∧ asked n c ≤ n := by
  unfold asked
  split
  · next h => exact ⟨BitVec.le_refl _, BitVec.le_of_lt h⟩
  · next h => exact ⟨BitVec.not_lt.mp h, BitVec.le_refl _⟩

theorem asked_eq (n : Word) (c : Cursor σ) :
    (asked n c).toNat = min c.rem.toNat n.toNat := by
  unfold asked
  split
  · next h => exact (Nat.min_eq_left (Nat.le_of_lt (BitVec.lt_def.mp h))).symm
  · next h => exact (Nat.min_eq_right (BitVec.le_def.mp (BitVec.not_lt.mp h))).symm

theorem Counting.answer_le (hx : Counting op) : (answer op e offs n c).1 ≤ asked n c :=
  (hx _ _ _ _).1

theorem Counting.answer_toNat (hx : Counting op) (offs n : Word) (c : Cursor σ) :
    (answer op e offs n c).1.toNat ≤ (asked n c).toNat :=
  BitVec.le_def.mp hx.answer_le

theorem Counting.answer_pos (hx : Counting op) (hrem : 0 < c.rem) (hn : 0 < n) :
    0 < (answer op e offs n c).1 := by
  apply (hx _ _ _ _).2.2
  unfold asked
  split
  · exact hrem
  · exact hn

/-- The cursor after the call, not moved on. -/
def made (op : RegionOp σ) (e : MemEntry σ) (offs n : Word) (c : Cursor σ) : Cursor σ :=
  { c with
    target := (answer op e offs n c).2
    calls := (turn op e offs n c).calls }

/-- The loop by its answers. -/
theorem blkLoop_answer : blkLoop op e len (left + 1) n offs c =
    if (answer op e offs n c).1 ≠ asked n c ∧ (answer op e offs n c).1.msb = true then
      .returned (answer op e offs n c).1 (made op e offs n c)
    else if (answer op e offs n c).1 ≠ asked n c ∧ (answer op e offs n c).1 = 0 then
      .running (made op e offs n c)
    else if c.rem ≤ (answer op e offs n c).1 then
      .returned (len + ((answer op e offs n c).1 - c.rem)) (made op e offs n c)
    else
      blkLoop op e len left e.size (offs + (answer op e offs n c).1) (turn op e offs n c) := rfl

/-- One call, answered with the rest of the request or with less. -/
theorem blkLoop_turn (hx : Counting op) :
    blkLoop op e len (left + 1) n offs c =
      if (answer op e offs n c).1 = c.rem then .returned len (made op e offs n c)
      else
        blkLoop op e len left e.size (offs + (answer op e offs n c).1) (turn op e offs n c) := by
  obtain ⟨hle, hmsb, hpos⟩ := hx ⟨e.addr.base, offs⟩ c.ptr (asked n c) c.target
  change (answer op e offs n c).1 ≤ asked n c at hle
  change (answer op e offs n c).1.msb = false at hmsb
  change 0 < asked n c → 0 < (answer op e offs n c).1 at hpos
  have hrem : (answer op e offs n c).1 ≤ c.rem := BitVec.le_trans hle (asked_le n c).1
  rw [blkLoop_answer]
  generalize (answer op e offs n c).1 = ret at hle hmsb hpos hrem
  have hneg : ¬(ret ≠ asked n c ∧ ret.msb = true) := by
    rintro ⟨-, hm⟩
    rw [hmsb] at hm
    cases hm
  have hzero : ¬(ret ≠ asked n c ∧ ret = 0) := by
    rintro ⟨hne, rfl⟩
    have hasked : 0 < asked n c := BitVec.not_le.mp fun h => hne (BitVec.le_antisymm hle h)
    exact absurd (hpos hasked) (by decide)
  rw [if_neg hneg, if_neg hzero]
  by_cases heq : ret = c.rem
  · rw [if_pos heq, if_pos (heq ▸ BitVec.le_refl _), heq, BitVec.sub_self, BitVec.add_zero]
  · rw [if_neg heq, if_neg fun h => heq (BitVec.le_antisymm hrem h)]

/-- What `InFull` asks of one call. -/
theorem inFull_succ : InFull op e (left + 1) n offs c ↔
    (answer op e offs n c).1 = c.rem ∨
      ((answer op e offs n c).1 = asked n c ∨ c.rem ≤ n ∧ 0 < left) ∧
        InFull op e left e.size (offs + (answer op e offs n c).1) (turn op e offs n c) :=
  Iff.rfl

end Turns

/-! ## The calls of a region -/

section Calls

variable {op : RegionOp σ} {e : MemEntry σ} {c : Cursor σ} {len n offs : Word} {left : Nat}

/-- The loop only adds calls, and all of them are for its region. -/
theorem blkLoop_calls (op : RegionOp σ) (e : MemEntry σ) (len : Word) (left : Nat) (n offs : Word)
    (c : Cursor σ) :
    ∃ new, (blkLoop op e len left n offs c).cursor.calls = c.calls ++ new ∧
      ∀ call ∈ new, call.entry = e := by
  induction left generalizing n offs c with
  | zero => exact ⟨[], (List.append_nil _).symm, by simp⟩
  | succ left ih =>
      obtain ⟨new, hnew, hentry⟩ := ih e.size (offs + (answer op e offs n c).1) (turn op e offs n c)
      have hone : ∀ call ∈ [Call.mk e ⟨e.addr.base, offs⟩ c.ptr (asked n c)], call.entry = e := by
        intro call hcall
        rw [List.mem_singleton.mp hcall]
      rw [blkLoop_answer]
      split
      · exact ⟨_, rfl, hone⟩
      · split
        · exact ⟨_, rfl, hone⟩
        · split
          · exact ⟨_, rfl, hone⟩
          · refine ⟨⟨e, ⟨e.addr.base, offs⟩, c.ptr, asked n c⟩ :: new, ?_, ?_⟩
            · rw [hnew]
              exact List.append_assoc c.calls _ new
            · intro call hcall
              obtain rfl | hin := List.mem_cons.mp hcall
              · rfl
              · exact hentry call hin

/-- The calls that a loop adds. -/
def newCalls (c : Cursor σ) (o : Outcome σ) : List (Call σ) := o.cursor.calls.drop c.calls.length

/-- The calls of a loop stay in their blocks, and it completes. -/
def Good (op : RegionOp σ) (e : MemEntry σ) (len : Word) (left : Nat) (n offs : Word)
    (c : Cursor σ) : Prop :=
  (∀ call ∈ newCalls c (blkLoop op e len left n offs c), call.InBlock) ∧
    (blkLoop op e len left n offs c).Complete e len

/-- The first call. -/
def firstCall (e : MemEntry σ) (offs n : Word) (c : Cursor σ) : Call σ :=
  ⟨e, ⟨e.addr.base, offs⟩, c.ptr, asked n c⟩

theorem good_zero : Good op e len 0 n offs c ↔ c.addr = BitVec.ofNat 32 (e.start + e.bytes) := by
  simp [Good, newCalls, blkLoop, Outcome.cursor, Outcome.Complete]

/-- The only call when it is answered with the rest of the request. -/
theorem newCalls_made : newCalls c (.returned len (made op e offs n c)) = [firstCall e offs n c] :=
  List.drop_left

/-- The calls behind a call that is answered with less. -/
theorem newCalls_turn : newCalls c
    (blkLoop op e len left e.size (offs + (answer op e offs n c).1) (turn op e offs n c)) =
      firstCall e offs n c :: newCalls (turn op e offs n c)
        (blkLoop op e len left e.size (offs + (answer op e offs n c).1) (turn op e offs n c)) := by
  obtain ⟨new, hnew, -⟩ := blkLoop_calls op e len left e.size (offs + (answer op e offs n c).1)
    (turn op e offs n c)
  have hcalls : (turn op e offs n c).calls = c.calls ++ [firstCall e offs n c] := rfl
  rw [newCalls, newCalls, hnew, List.drop_left, hcalls, List.append_assoc, List.drop_left]
  rfl

theorem good_done (hx : Counting op) (h : (answer op e offs n c).1 = c.rem) :
    Good op e len (left + 1) n offs c ↔ (firstCall e offs n c).InBlock := by
  unfold Good
  rw [blkLoop_turn hx, if_pos h, newCalls_made]
  simp [Outcome.Complete]

theorem good_next (hx : Counting op) (h : (answer op e offs n c).1 ≠ c.rem) :
    Good op e len (left + 1) n offs c ↔ (firstCall e offs n c).InBlock ∧
      Good op e len left e.size (offs + (answer op e offs n c).1) (turn op e offs n c) := by
  unfold Good
  rw [blkLoop_turn hx, if_neg h, newCalls_turn, List.forall_mem_cons, and_assoc]

/-- The cursor is at the offset `o` of the region. -/
structure At (e : MemEntry σ) (offs : Word) (c : Cursor σ) (o : Nat) : Prop where
  addr : c.addr = BitVec.ofNat 32 (e.start + o)
  ref : e.addr.base + offs = c.addr

variable {o b : Nat}

theorem At.turn (h : At e offs c o) :
    At e (offs + (answer op e offs n c).1) (turn op e offs n c)
      (o + (answer op e offs n c).1.toNat) where
  addr := by
    show c.addr + (answer op e offs n c).1 = _
    rw [h.addr, ← Nat.add_assoc, BitVec.ofNat_add (e.start + o), BitVec.ofNat_toNat,
      BitVec.setWidth_eq]
  ref := by
    show _ = c.addr + (answer op e offs n c).1
    rw [← h.ref, BitVec.add_assoc]

theorem At.toNat (h : At e offs c o) (hw : e.NonWrapping) (ho : o < e.bytes) :
    c.addr.toNat = e.start + o := by
  have hend := hw.2
  rw [h.addr, BitVec.toNat_ofNat, Nat.mod_eq_of_lt (by lia)]

/-- Before the end of the region nothing is exhausted. -/
theorem At.not_end (h : At e offs c o) (hw : e.NonWrapping) (ho : o < e.bytes) :
    c.addr ≠ BitVec.ofNat 32 (e.start + e.bytes) := by
  intro heq
  have hlt := hw.1
  have hend := hw.2
  have hnat := congrArg BitVec.toNat heq
  rw [h.toNat hw ho, BitVec.toNat_ofNat] at hnat
  lia

/-- A call from an offset stays in a block if and only if it ends before the block does. -/
theorem At.inBlock_iff (h : At e offs c o) (hw : e.NonWrapping) (hb : b < e.count.toNat)
    (hlo : b * e.size.toNat ≤ o) (hhi : o < (b + 1) * e.size.toNat) :
    (firstCall e offs n c).InBlock ↔ o + (asked n c).toNat ≤ (b + 1) * e.size.toNat := by
  have hbytes : (b + 1) * e.size.toNat ≤ e.bytes := Nat.mul_le_mul_right _ hb
  have haddr : (firstCall e offs n c).ref.addr.toNat = e.start + o := by
    rw [← h.toNat hw (by lia), ← h.ref]
    rfl
  have hn : (firstCall e offs n c).n = asked n c := rfl
  have hentry : (firstCall e offs n c).entry = e := rfl
  unfold Call.InBlock
  rw [haddr, hn, hentry]
  constructor
  · rintro ⟨b', -, hlo', hhi'⟩
    have hle : b' ≤ b := by
      have hlt : b' * e.size.toNat < (b + 1) * e.size.toNat := by lia
      exact Nat.lt_succ_iff.mp (Nat.lt_of_mul_lt_mul_right hlt)
    have hmul : (b' + 1) * e.size.toNat ≤ (b + 1) * e.size.toNat :=
      Nat.mul_le_mul_right _ (Nat.succ_le_succ hle)
    lia
  · intro hle
    exact ⟨b, hb, by lia, by lia⟩

/-- The request ends in the block `b` in which the cursor is. -/
structure Tail (e : MemEntry σ) (b : Nat) (offs : Word) (c : Cursor σ) (o : Nat) : Prop
    extends At e offs c o where
  block : b < e.count.toNat
  lo : b * e.size.toNat ≤ o
  pos : 0 < c.rem.toNat
  ends : o + c.rem.toNat ≤ (b + 1) * e.size.toNat

theorem Tail.asked (h : Tail e b offs c o) : c.rem ≤ e.size ∧ asked e.size c = c.rem := by
  have hlo := h.lo
  have hends := h.ends
  have hsucc : (b + 1) * e.size.toNat = b * e.size.toNat + e.size.toNat := Nat.succ_mul b _
  have hfits : c.rem.toNat ≤ e.size.toNat := by lia
  refine ⟨BitVec.le_def.mpr hfits, BitVec.eq_of_toNat_eq ?_⟩
  rw [asked_eq, Nat.min_eq_left hfits]

theorem Tail.inBlock (h : Tail e b offs c o) (hw : e.NonWrapping) :
    (firstCall e offs e.size c).InBlock := by
  have hpos := h.pos
  have hends := h.ends
  rw [h.inBlock_iff hw h.block h.lo (by lia), h.asked.2]
  exact hends

/-- A short call leaves the rest of the request in the block. -/
theorem Tail.next (h : Tail e b offs c o) (hx : Counting op)
    (hshort : (answer op e offs e.size c).1 ≠ c.rem) :
    Tail e b (offs + (answer op e offs e.size c).1) (turn op e offs e.size c)
      (o + (answer op e offs e.size c).1.toNat) := by
  have hlo := h.lo
  have hends := h.ends
  have hle : (answer op e offs e.size c).1 ≤ c.rem := by
    rw [← h.asked.2]
    exact hx.answer_le
  have hle' := BitVec.le_def.mp hle
  have hne : (answer op e offs e.size c).1.toNat ≠ c.rem.toNat :=
    fun heq => hshort (BitVec.eq_of_toNat_eq heq)
  have hrem : (turn op e offs e.size c).rem.toNat =
      c.rem.toNat - (answer op e offs e.size c).1.toNat := BitVec.toNat_sub_of_le hle
  exact ⟨h.toAt.turn, h.block, by lia, by lia, by lia⟩

/-- In the block in which the request ends, each short call takes one more block of the count. -/
theorem good_tail (hx : Counting op) (hw : e.NonWrapping) (h : Tail e b offs c o) (left : Nat) :
    Good op e len (left + 1) e.size offs c ↔ InFull op e (left + 1) e.size offs c := by
  induction left generalizing offs c o with
  | zero =>
      by_cases hdone : (answer op e offs e.size c).1 = c.rem
      · rw [good_done hx hdone, inFull_succ]
        exact iff_of_true (h.inBlock hw) (Or.inl hdone)
      · have hnext := h.next hx hdone
        have hbytes : (b + 1) * e.size.toNat ≤ e.bytes := Nat.mul_le_mul_right _ h.block
        have hpos := hnext.pos
        have hends := hnext.ends
        have hstop := hnext.not_end hw (by lia)
        rw [good_next hx hdone, good_zero, inFull_succ, h.asked.2]
        simp [hstop, hdone]
  | succ left ih =>
      by_cases hdone : (answer op e offs e.size c).1 = c.rem
      · rw [good_done hx hdone, inFull_succ]
        exact iff_of_true (h.inBlock hw) (Or.inl hdone)
      · rw [good_next hx hdone, inFull_succ, ih (h.next hx hdone)]
        simp [h.inBlock hw, hdone, h.asked.1]

/-- The cursor is where a block is cut: it is in the block `b`, with `n` bytes to its end. -/
structure Cut (e : MemEntry σ) (b : Nat) (left : Nat) (n offs : Word) (c : Cursor σ) (o : Nat) :
    Prop extends At e offs c o where
  blocks : b + left = e.count.toNat
  lo : b * e.size.toNat ≤ o
  size : o + n.toNat = (b + 1) * e.size.toNat
  pos : 0 < n.toNat
  all : left = 0 → o = b * e.size.toNat

/-- A call up to the end of its block stays in it. -/
theorem Cut.inBlock (h : Cut e b (left + 1) n offs c o) (hw : e.NonWrapping) :
    (firstCall e offs n c).InBlock := by
  have hblocks := h.blocks
  have hsize := h.size
  have hpos := h.pos
  rw [h.inBlock_iff hw (by lia) h.lo (by lia), ← hsize, asked_eq]
  lia

/-- Behind a whole block the next one is cut. -/
theorem Cut.next (h : Cut e b (left + 1) n offs c o) (hs : 0 < e.size.toNat)
    (hfull : (answer op e offs n c).1 = n) :
    Cut e (b + 1) left e.size (offs + (answer op e offs n c).1) (turn op e offs n c)
      (o + (answer op e offs n c).1.toNat) := by
  have hblocks := h.blocks
  have hsize := h.size
  have hsucc : (b + 1 + 1) * e.size.toNat = (b + 1) * e.size.toNat + e.size.toNat :=
    Nat.succ_mul (b + 1) _
  refine ⟨h.toAt.turn, by lia, ?_, ?_, hs, fun _ => ?_⟩
  · rw [hfull, hsize]
  · rw [hfull, hsize, hsucc]
  · rw [hfull, hsize]

/-- Behind a short call for the rest of the request. -/
theorem Cut.tail (h : Cut e b (left + 1) n offs c o) (hx : Counting op)
    (hshort : (answer op e offs n c).1 ≠ c.rem) (hends : c.rem ≤ n) :
    Tail e b (offs + (answer op e offs n c).1) (turn op e offs n c)
      (o + (answer op e offs n c).1.toNat) := by
  have hblocks := h.blocks
  have hlo := h.lo
  have hsize := h.size
  have hle : (answer op e offs n c).1 ≤ c.rem := BitVec.le_trans hx.answer_le (asked_le n c).1
  have hle' := BitVec.le_def.mp hle
  have hends' := BitVec.le_def.mp hends
  have hne : (answer op e offs n c).1.toNat ≠ c.rem.toNat :=
    fun heq => hshort (BitVec.eq_of_toNat_eq heq)
  have hrem : (turn op e offs n c).rem.toNat = c.rem.toNat - (answer op e offs n c).1.toNat :=
    BitVec.toNat_sub_of_le hle
  exact ⟨h.toAt.turn, by lia, by lia, by lia, by lia⟩

/-- Behind a short call the rest of a request that goes on behind the block is asked across its
end, or not at all. -/
theorem Cut.not_good (h : Cut e b (left + 1) n offs c o) (hx : Counting op) (hw : e.NonWrapping)
    (hshort : (answer op e offs n c).1 ≠ asked n c) (hover : ¬(c.rem ≤ n ∧ 0 < left)) :
    ¬Good op e len left e.size (offs + (answer op e offs n c).1) (turn op e offs n c) := by
  have hblocks := h.blocks
  have hlo := h.lo
  have hsize := h.size
  have hpos := h.pos
  have hasked := asked_eq n c
  have hle := hx.answer_toNat (e := e) offs n c
  have hlt : (answer op e offs n c).1.toNat < (asked n c).toNat :=
    Nat.lt_of_le_of_ne hle fun heq => hshort (BitVec.eq_of_toNat_eq heq)
  have hrem : (turn op e offs n c).rem.toNat = c.rem.toNat - (answer op e offs n c).1.toNat :=
    BitVec.toNat_sub_of_le (BitVec.le_trans hx.answer_le (asked_le n c).1)
  have hanswer : 0 < (answer op e offs n c).1.toNat := by
    have hrempos : 0 < c.rem := BitVec.lt_def.mpr (by
      show 0 < c.rem.toNat
      lia)
    exact BitVec.lt_def.mp (hx.answer_pos hrempos (BitVec.lt_def.mpr hpos))
  have hnext : At e _ (turn op e offs n c) _ := h.toAt.turn
  have hb : b < e.count.toNat := by lia
  have hbytes : (b + 1) * e.size.toNat ≤ e.bytes := Nat.mul_le_mul_right _ hb
  cases left with
  | zero =>
      rw [good_zero]
      exact hnext.not_end hw (by lia)
  | succ left =>
      intro hgood
      have hlong : n.toNat < c.rem.toNat := by
        by_contra hle
        exact hover ⟨BitVec.le_def.mpr (by lia), Nat.succ_pos left⟩
      have hsucc : (b + 1) * e.size.toNat = b * e.size.toNat + e.size.toNat := Nat.succ_mul b _
      have hcross := (hnext.inBlock_iff (n := e.size) hw hb (by lia) (by lia)).mp (by
        by_cases hdone : (answer op e (offs + (answer op e offs n c).1) e.size
            (turn op e offs n c)).1 = (turn op e offs n c).rem
        · exact (good_done hx hdone).mp hgood
        · exact ((good_next hx hdone).mp hgood).1)
      rw [asked_eq, hrem] at hcross
      lia

/-- From where a block is cut. -/
theorem good_cut (hx : Counting op) (hw : e.NonWrapping) (hs : 0 < e.size.toNat)
    (h : Cut e b left n offs c o) : Good op e len left n offs c ↔ InFull op e left n offs c := by
  induction left generalizing b n offs c o with
  | zero =>
      have hblocks := h.blocks
      have hend : o = e.bytes := by
        rw [h.all rfl, MemEntry.bytes, ← hblocks, Nat.add_zero]
      rw [good_zero, h.addr, hend]
      exact iff_of_true rfl trivial
  | succ left ih =>
      rw [inFull_succ]
      by_cases hdone : (answer op e offs n c).1 = c.rem
      · rw [good_done hx hdone]
        exact iff_of_true (h.inBlock hw) (Or.inl hdone)
      · rw [good_next hx hdone]
        simp only [h.inBlock hw, hdone, true_and, false_or]
        by_cases hfull : (answer op e offs n c).1 = asked n c
        · have hn : (answer op e offs n c).1 = n := by
            have hne : asked n c ≠ c.rem := fun heq => hdone (hfull.trans heq)
            rw [hfull]
            unfold asked at hne ⊢
            split
            · next hlt => exact absurd (if_pos hlt) hne
            · rfl
          rw [ih (h.next hs hn)]
          simp [hfull]
        · by_cases hin : c.rem ≤ n ∧ 0 < left
          · obtain ⟨left, rfl⟩ := Nat.exists_eq_succ_of_ne_zero (Nat.ne_of_gt hin.2)
            rw [good_tail hx hw (h.tail hx hdone hin.1) left]
            simp [hin.1]
          · simp [hfull, hin, h.not_good hx hw hfull hin]

/-- The loop of a region keeps the grid if and only if its calls are answered in full. -/
theorem good_region (hx : Counting op) (hw : e.NonWrapping) (hc : e.Covers c.addr.toNat) :
    (∀ call ∈ newCalls c (regionLoop op e len c), call.InBlock) ∧
        (regionLoop op e len c).Complete e len ↔ RegionInFull op e c := by
  obtain ⟨hblk, hn, hlo, hhi⟩ := firstBlock hc
  have hoffs : e.addr.base + (c.addr - e.addr.base) = c.addr := by
    rw [BitVec.add_comm, BitVec.sub_add_cancel]
  have hne : e.bytes ≠ 0 := by
    have h1 := hc.1
    have h2 := hc.2
    lia
  have hat : At e (c.addr - e.addr.base) c (c.addr.toNat - e.start) := by
    refine ⟨?_, hoffs⟩
    rw [Nat.add_sub_cancel' hc.1, BitVec.ofNat_toNat, BitVec.setWidth_eq]
  have hstart := hc.1
  exact good_cut hx hw (size_pos hne)
    ⟨hat, Nat.add_sub_cancel' (Nat.le_of_lt hblk), by lia, by lia, hn, by lia⟩

end Calls

/-! ## The sum of the counts -/

section Sums

variable {op : MemOper σ → RegionOp σ} {e : MemEntry σ}

theorem replay_append (s : σ) (xs ys : List (Call σ)) :
    replay op s (xs ++ ys) =
      ((replay op s xs).1 + (replay op (replay op s xs).2 ys).1,
        (replay op (replay op s xs).2 ys).2) := by
  induction xs generalizing s with
  | nil => simp [replay]
  | cons x xs ih => simp only [List.cons_append, replay, ih, Nat.add_assoc]

/-- A loop that counted `k` of the bytes that were left. -/
def Outcome.Counted (len : Word) (rem k : Nat) : Outcome σ → Prop
  | .returned ret _ => ret = len ∧ k = rem
  | .running d => k + d.rem.toNat = rem

theorem blkLoop_counted (len : Word) (hx : Counting (op e.op)) (left : Nat) (n offs : Word) (c : Cursor σ) :
    ∃ k, replay op c.target (newCalls c (blkLoop (op e.op) e len left n offs c)) =
        (k, (blkLoop (op e.op) e len left n offs c).cursor.target) ∧
      (blkLoop (op e.op) e len left n offs c).Counted len c.rem.toNat k := by
  induction left generalizing n offs c with
  | zero =>
      refine ⟨0, ?_, Nat.zero_add _⟩
      show replay op c.target (c.calls.drop c.calls.length) = (0, c.target)
      rw [List.drop_length]
      rfl
  | succ left ih =>
      rw [blkLoop_turn hx]
      have hfirst : ∀ rest, replay op c.target (firstCall e offs n c :: rest) =
          ((answer (op e.op) e offs n c).1.toNat +
              (replay op (answer (op e.op) e offs n c).2 rest).1,
            (replay op (answer (op e.op) e offs n c).2 rest).2) := fun _ => rfl
      by_cases hdone : (answer (op e.op) e offs n c).1 = c.rem
      · rw [if_pos hdone, newCalls_made]
        exact ⟨c.rem.toNat, by rw [hfirst, hdone]; rfl, rfl, rfl⟩
      · obtain ⟨k, hreplay, hcounted⟩ := ih e.size (offs + (answer (op e.op) e offs n c).1)
          (turn (op e.op) e offs n c)
        rw [if_neg hdone, newCalls_turn, hfirst]
        have htarget : (turn (op e.op) e offs n c).target = (answer (op e.op) e offs n c).2 := rfl
        have hle : (answer (op e.op) e offs n c).1 ≤ c.rem :=
          BitVec.le_trans hx.answer_le (asked_le n c).1
        have hle' := BitVec.le_def.mp hle
        have hrem : (turn (op e.op) e offs n c).rem.toNat =
            c.rem.toNat - (answer (op e.op) e offs n c).1.toNat := BitVec.toNat_sub_of_le hle
        rw [← htarget, hreplay]
        refine ⟨_, rfl, ?_⟩
        rw [hrem] at hcounted
        generalize blkLoop (op e.op) e len left e.size (offs + (answer (op e.op) e offs n c).1)
          (turn (op e.op) e offs n c) = o at hcounted ⊢
        cases o with
        | returned ret d =>
            obtain ⟨hret, hk⟩ := hcounted
            exact ⟨hret, by lia⟩
        | running d =>
            have hk : k + d.rem.toNat =
              c.rem.toNat - (answer (op e.op) e offs n c).1.toNat := hcounted
            show (answer (op e.op) e offs n c).1.toNat + k + d.rem.toNat = c.rem.toNat
            lia

end Sums

/-! ## The regions of a map -/

section Visits

variable {op : MemOper σ → RegionOp σ} {guarded : Bool} {len : Word} {map : List (MemEntry σ)}

/-- The calls of a visit. -/
def visitCalls (op : MemOper σ → RegionOp σ) (len : Word) (v : MemEntry σ × Cursor σ) :
    List (Call σ) :=
  newCalls v.2 (regionLoop (op v.1.op) v.1 len v.2)

theorem regionLoop_calls (op : RegionOp σ) (e : MemEntry σ) (len : Word) (c : Cursor σ) :
    (regionLoop op e len c).cursor.calls = c.calls ++ newCalls c (regionLoop op e len c) := by
  obtain ⟨new, hnew, -⟩ := blkLoop_calls op e len
    (e.count.toNat - ((c.addr - (e.addr.base + e.addr.offs)) / e.size).toNat)
    (e.size - (c.addr - (e.addr.base + e.addr.offs +
      (c.addr - (e.addr.base + e.addr.offs)) / e.size * e.size))) (c.addr - e.addr.base) c
  have hcalls : (regionLoop op e len c).cursor.calls = c.calls ++ new := hnew
  rw [newCalls, hcalls, List.drop_left]

/-- The calls of a transfer are those of its visits. -/
theorem memLoop_calls (op : MemOper σ → RegionOp σ) (guarded : Bool) (len : Word)
    (map : List (MemEntry σ)) (c : Cursor σ) :
    (memLoop op guarded len map c).2.calls =
      c.calls ++ (visits op guarded len map c).flatMap (visitCalls op len) := by
  induction map generalizing c with
  | nil => simp [memLoop, visits]
  | cons e rest ih =>
      unfold memLoop visits
      simp only
      split
      · exact ih c
      · split
        · exact ih c
        · split
          · simp
          · have hcalls := regionLoop_calls (op e.op) e len c
            change (match regionLoop (op e.op) e len c with
              | .returned ret d => (ret, d)
              | .running d => memLoop op guarded len rest d).2.calls = _
            rw [List.flatMap_cons, visitCalls]
            simp only
            generalize regionLoop (op e.op) e len c = o at hcalls
            cases o with
            | returned ret d => simpa [Outcome.cursor] using hcalls
            | running d =>
                have hd : d.calls = c.calls ++ newCalls c (.running d) := hcalls
                rw [← List.append_assoc, ← hd]
                exact ih d

/-- A transfer visits regions of the map that hold its address. -/
theorem visits_covers (op : MemOper σ → RegionOp σ) (guarded : Bool) (len : Word)
    (hw : ∀ e ∈ map, e.bytes ≠ 0 → e.NonWrapping) (c : Cursor σ) :
    ∀ v ∈ visits op guarded len map c,
      v.1 ∈ map ∧ v.1.NonWrapping ∧ v.1.Covers v.2.addr.toNat := by
  induction map generalizing c with
  | nil => simp [visits]
  | cons e rest ih =>
      have hrest : ∀ (d : Cursor σ), ∀ v ∈ visits op guarded len rest d,
          v.1 ∈ e :: rest ∧ v.1.NonWrapping ∧ v.1.Covers v.2.addr.toNat := by
        intro d v hv
        obtain ⟨hmem, hcov⟩ := ih (fun e he => hw e (List.mem_cons_of_mem _ he)) d v hv
        exact ⟨List.mem_cons_of_mem _ hmem, hcov⟩
      unfold visits
      split
      · exact hrest c
      · next hne =>
          have hbytes := bytes_ne_zero hne
          have hwe := hw e List.mem_cons_self hbytes
          split
          · exact hrest c
          · next hin =>
              rw [outside_iff hwe hbytes, not_not] at hin
              split
              · simp
              · intro v hv
                obtain rfl | hv := List.mem_cons.mp hv
                · exact ⟨List.mem_cons_self, hwe, hin⟩
                · split at hv
                  · cases hv
                  · exact hrest _ v hv

/-- The value of a transfer is what was counted before and the sum of the counts. -/
theorem memLoop_sum (guarded : Bool) (hx : ∀ e ∈ map, Counting (op e.op)) (c : Cursor σ)
    (hrem : c.rem ≤ len) :
    (memLoop op guarded len map c).1.toNat = len.toNat - c.rem.toNat +
        (replay op c.target ((visits op guarded len map c).flatMap (visitCalls op len))).1 ∨
      guarded = true ∧ (memLoop op guarded len map c).1 = -1 ∧ ∃ e ∈ map, e.ReadOnly := by
  induction map generalizing c with
  | nil =>
      left
      exact BitVec.toNat_sub_of_le hrem
  | cons e rest ih =>
      have hskip := ih fun e he => hx e (List.mem_cons_of_mem _ he)
      have hrest : ∀ {p : Prop}, (p ∨ guarded = true ∧ (memLoop op guarded len rest c).1 = -1 ∧
          ∃ e ∈ rest, e.ReadOnly) → p ∨ guarded = true ∧
            (memLoop op guarded len rest c).1 = -1 ∧ ∃ f ∈ e :: rest, f.ReadOnly := by
        rintro p (hp | ⟨hg, hret, f, hf, hro⟩)
        · exact Or.inl hp
        · exact Or.inr ⟨hg, hret, f, List.mem_cons_of_mem _ hf, hro⟩
      unfold memLoop visits
      simp only
      split
      · exact hrest (hskip c hrem)
      · split
        · exact hrest (hskip c hrem)
        · split
          · next hro => exact Or.inr ⟨hro.1, rfl, e, List.mem_cons_self, hro.2⟩
          · obtain ⟨k, hreplay, hcounted⟩ := blkLoop_counted len (hx e List.mem_cons_self)
              (e.count.toNat - ((c.addr - (e.addr.base + e.addr.offs)) / e.size).toNat)
              (e.size - (c.addr - (e.addr.base + e.addr.offs +
                (c.addr - (e.addr.base + e.addr.offs)) / e.size * e.size)))
              (c.addr - e.addr.base) c
            change replay op c.target (newCalls c (regionLoop (op e.op) e len c)) =
              (k, (regionLoop (op e.op) e len c).cursor.target) at hreplay
            change (regionLoop (op e.op) e len c).Counted len c.rem.toNat k at hcounted
            change (match regionLoop (op e.op) e len c with
                | .returned ret d => (ret, d)
                | .running d => memLoop op guarded len rest d).1.toNat = _ ∨ guarded = true ∧
              (match regionLoop (op e.op) e len c with
                | .returned ret d => (ret, d)
                | .running d => memLoop op guarded len rest d).1 = -1 ∧ _
            rw [List.flatMap_cons, visitCalls, replay_append]
            simp only
            have hrem' := BitVec.le_def.mp hrem
            generalize regionLoop (op e.op) e len c = o at hreplay hcounted
            rw [hreplay]
            cases o with
            | returned ret d =>
                obtain ⟨hret, hk⟩ := hcounted
                left
                show ret.toNat = len.toNat - c.rem.toNat + (k + 0)
                rw [hret]
                lia
            | running d =>
                have hk : k + d.rem.toNat = c.rem.toNat := hcounted
                have hd : d.rem ≤ len := BitVec.le_def.mpr (by lia)
                obtain hsum | ⟨hg, hret, f, hf, hro⟩ := hskip d hd
                · left
                  have hd' := BitVec.le_def.mp hd
                  have hdone : len.toNat - d.rem.toNat = len.toNat - c.rem.toNat + k := by lia
                  rw [hdone, Nat.add_assoc] at hsum
                  exact hsum
                · exact Or.inr ⟨hg, hret, f, List.mem_cons_of_mem _ hf, hro⟩

theorem onGrid_iff (hw : ∀ e ∈ map, e.bytes ≠ 0 → e.NonWrapping)
    (hx : ∀ e ∈ map, Counting (op e.op)) (guarded : Bool) (addr len : Word) (s : σ) :
    OnGrid op guarded map len s (visits op guarded len map ⟨addr, len, 0, s, []⟩)
        (memLoop op guarded len map ⟨addr, len, 0, s, []⟩) ↔
      ∀ v ∈ visits op guarded len map ⟨addr, len, 0, s, []⟩, RegionInFull (op v.1.op) v.1 v.2 := by
  have hcalls := memLoop_calls op guarded len map ⟨addr, len, 0, s, []⟩
  have hvisits := visits_covers op guarded len hw ⟨addr, len, 0, s, []⟩
  rw [List.nil_append] at hcalls
  constructor
  · intro h v hv
    obtain ⟨hmem, hwv, hcov⟩ := hvisits v hv
    refine (good_region (hx v.1 hmem) hwv hcov).mp ⟨fun call hcall => ?_, h.complete v hv⟩
    apply h.inBlock
    rw [hcalls]
    exact List.mem_flatMap.mpr ⟨v, hv, hcall⟩
  · intro h
    have hgood : ∀ v ∈ visits op guarded len map ⟨addr, len, 0, s, []⟩,
        (∀ call ∈ visitCalls op len v, call.InBlock) ∧
          (regionLoop (op v.1.op) v.1 len v.2).Complete v.1 len := by
      intro v hv
      obtain ⟨hmem, hwv, hcov⟩ := hvisits v hv
      exact (good_region (hx v.1 hmem) hwv hcov).mpr (h v hv)
    constructor
    case inBlock =>
      intro call hcall
      rw [hcalls] at hcall
      obtain ⟨v, hv, hin⟩ := List.mem_flatMap.mp hcall
      exact (hgood v hv).1 call hin
    case complete => exact fun v hv => (hgood v hv).2
    case sum =>
      have hsum := memLoop_sum guarded hx ⟨addr, len, 0, s, []⟩ (BitVec.le_refl len)
      rw [hcalls]
      rwa [Nat.sub_self, Nat.zero_add] at hsum

end Visits

/-- `ice_mem_read` and `ice_mem_write` keep the grid of the blocks, complete and sum up their counts
if and only if no call is short but for the rest of a request, and then only as often as there are
blocks behind. -/
theorem iceMem_onGrid_iff (map : List (MemEntry σ))
    (hw : ∀ e ∈ map, e.bytes ≠ 0 → e.NonWrapping) (hread : ∀ e ∈ map, Counting e.op.read)
    (hwrite : ∀ e ∈ map, Counting e.op.write) (addr len : Word) (s : σ) :
    (OnGrid MemOper.read false map len s (readVisits map addr len s) (iceMemRead map addr len s) ↔
      ∀ v ∈ readVisits map addr len s, RegionInFull v.1.op.read v.1 v.2) ∧
    (OnGrid MemOper.write true map len s (writeVisits map addr len s)
        (iceMemWrite map addr len s) ↔
      ∀ v ∈ writeVisits map addr len s, RegionInFull v.1.op.write v.1 v.2) :=
  ⟨onGrid_iff hw hread false addr len s, onGrid_iff hw hwrite true addr len s⟩

/-- An operation that transfers at most eight bytes and counts its calls. -/
def eightOp : RegionOp Nat := fun _ _ n s => (if 8 < n then 8 else n, s + 1)

theorem eightOp_counting : Counting eightOp := by
  intro ref p n s
  unfold eightOp
  by_cases h : 8 < n
  · rw [if_pos h]
    exact ⟨BitVec.le_of_lt h, (by decide : (8 : Word).msb = false),
      fun _ => (by decide : (0 : Word) < 8)⟩
  · have hle : n ≤ 8 := BitVec.not_lt.mp h
    rw [if_neg h]
    have hnat : n.toNat ≤ 8 := BitVec.le_def.mp hle
    have hmsb : n.msb = false := BitVec.msb_eq_false_iff_two_mul_lt.mpr (by lia)
    exact ⟨BitVec.le_refl n, hmsb, id⟩

/-- Two blocks of sixteen bytes. -/
def eightMap : List (MemEntry Nat) :=
  [{ flags := 0, addr := ⟨0x1000, 0⟩, count := 2, size := 16, op := ⟨eightOp, eightOp⟩ }]

/-- Twelve bytes at the end of the first block come in two calls, a request for both blocks does
not. -/
theorem iceMem_onGrid_twelve :
    OnGrid MemOper.read false eightMap 12 0 (readVisits eightMap 0x1004 12 0)
        (iceMemRead eightMap 0x1004 12 0) ∧
      ¬OnGrid MemOper.write true eightMap 32 0 (writeVisits eightMap 0x1000 32 0)
        (iceMemWrite eightMap 0x1000 32 0) := by
  have hw : ∀ e ∈ eightMap, e.bytes ≠ 0 → e.NonWrapping := by
    intro e he _
    rw [List.mem_singleton.mp he]
    exact ⟨by decide, by decide⟩
  have hread : ∀ e ∈ eightMap, Counting e.op.read := by
    intro e he
    rw [List.mem_singleton.mp he]
    exact eightOp_counting
  have hwrite : ∀ e ∈ eightMap, Counting e.op.write := by
    intro e he
    rw [List.mem_singleton.mp he]
    exact eightOp_counting
  exact ⟨(iceMem_onGrid_iff eightMap hw hread hwrite 0x1004 12 0).1.mpr (by decide),
    mt (iceMem_onGrid_iff eightMap hw hread hwrite 0x1000 32 0).2.mp (by decide)⟩

/-- A read of both blocks asks for sixteen bytes at `0x1008` after the first short call, and ends
after two calls with half of the region. -/
theorem iceMem_leaves_grid :
    Counting eightOp ∧
      (iceMemRead eightMap 0x1000 32 0).2.calls.map (fun call => (call.ref.addr, call.n)) =
        [(0x1000, 16), (0x1008, 16)] ∧
      (iceMemRead eightMap 0x1000 32 0).1 = 16 ∧
      ¬∀ call ∈ (iceMemRead eightMap 0x1000 32 0).2.calls, call.InBlock := by
  refine ⟨eightOp_counting, by decide, by decide, fun h => ?_⟩
  obtain ⟨b, hb, hlo, hhi⟩ := h
    ⟨eightMap.head (by decide), ⟨0x1000, 8⟩, 8, 16⟩ (by
      show _ ∈ [_, _]
      exact List.mem_cons_of_mem _ (List.mem_singleton.mpr rfl))
  change 0x1000 + b * 16 ≤ 0x1008 at hlo
  change 0x1008 + 16 ≤ 0x1000 + (b + 1) * 16 at hhi
  lia

end YardIce.IceDrv
