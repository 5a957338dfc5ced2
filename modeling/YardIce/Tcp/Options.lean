import YardIce.Net.IpInput
import YardIce.Tcp.Pcb

/-!
# The options of a segment

The loop of `tcp_parse_options` over the memory that the options lie in: what it reads, where
it ends and what it makes of `t_maxseg`. It takes the length of an option from the option
itself and does not look at how much is left.

## Implementation notes

The memory is given from the first byte of the TCP header on and goes on behind the segment.
The length that is left is an integer, which such an option makes negative.
-/

namespace YardIce.Tcp

open YardIce.Net (Memory bytes_length bytes_succ bytes_drop)

/-- A turn of the loop of `tcp_parse_options`: what it reads, `t_maxseg` behind it and where
the next one starts, with the length that is left. -/
structure OptTurn where
  reads : List Nat
  maxseg : Nat
  next : Option (Nat × Int)

/-- The turn at an offset. -/
def optTurn (mem : Memory) (syn : Bool) (p : Nat) (len : Int) (maxseg : Nat) : OptTurn :=
  if len = 0 then ⟨[], maxseg, none⟩
  else if mem p = 0 then ⟨[p], maxseg, none⟩
  else if mem p = 1 then ⟨[p], maxseg, some (p + 1, len - 1)⟩
  else
    let n := (mem (p + 1)).toNat
    if n = 0 then ⟨[p, p + 1], maxseg, none⟩
    else if mem p = 2 ∧ n = 4 then
      if syn then
        let val := (mem (p + 2)).toNat * 256 + (mem (p + 3)).toNat
        ⟨[p, p + 1, 13, p + 2, p + 3], if val < maxseg then val else maxseg, some (p + n, len - n)⟩
      else ⟨[p, p + 1, 13], maxseg, some (p + n, len - n)⟩
    else ⟨[p, p + 1], maxseg, some (p + n, len - n)⟩

/-- The first turns of `tcp_parse_options`, with `t_maxseg` if they are all of them. -/
def optTurns (mem : Memory) (syn : Bool) : Nat → Nat → Int → Nat → List Nat × Option Nat
  | 0, _, _, _ => ([], none)
  | fuel + 1, p, len, maxseg =>
    let r := optTurn mem syn p len maxseg
    match r.next with
    | none => (r.reads, some r.maxseg)
    | some (p, len) =>
      let (reads, maxseg) := optTurns mem syn fuel p len r.maxseg
      (r.reads ++ reads, maxseg)

/-- `tcp_parse_options` comes to an end, and reads no offset from `bound` on before. -/
structure OptionsInside (mem : Memory) (syn : Bool) (bound : Int) (p : Nat) (len : Int)
    (maxseg : Nat) : Prop where
  reads : ∀ fuel, ∀ off ∈ (optTurns mem syn fuel p len maxseg).1, (off : Int) < bound
  ends : ∃ fuel, (optTurns mem syn fuel p len maxseg).2.isSome

/-- Options in order: up to an end or a length of 0, each but `NOP` has its length byte and no
more bytes than are left. -/
inductive Options : List UInt8 → Prop
  | nil : Options []
  | stop (rest : List UInt8) : Options (0 :: rest)
  | nop {rest : List UInt8} : Options rest → Options (1 :: rest)
  | zero {opt : UInt8} (rest : List UInt8) : opt ≠ 0 → opt ≠ 1 → Options (opt :: 0 :: rest)
  | option {opt n : UInt8} {rest : List UInt8} : opt ≠ 0 → opt ≠ 1 → n ≠ 0 →
      n.toNat ≤ rest.length + 2 → Options ((opt :: n :: rest).drop n.toNat) →
      Options (opt :: n :: rest)

/-! ## The walk over the options -/

section Options

variable {opt n : UInt8} {rest : List UInt8}

theorem options_nop : Options (1 :: rest) ↔ Options rest := by
  refine ⟨fun h => ?_, .nop⟩
  cases h with
  | nop h => exact h
  | zero _ _ h => exact absurd rfl h
  | option _ h => exact absurd rfl h

/-- An option without length byte is none. -/
theorem not_options_single (h₀ : opt ≠ 0) (h₁ : opt ≠ 1) : ¬ Options [opt] := by
  intro h
  cases h with
  | stop => exact h₀ rfl
  | nop => exact h₁ rfl

theorem options_option (h₀ : opt ≠ 0) (h₁ : opt ≠ 1) (hn : n ≠ 0) :
    Options (opt :: n :: rest) ↔
      n.toNat ≤ rest.length + 2 ∧ Options ((opt :: n :: rest).drop n.toNat) := by
  refine ⟨fun h => ?_, fun h => .option h₀ h₁ hn h.1 h.2⟩
  cases h with
  | stop => exact absurd rfl h₀
  | nop => exact absurd rfl h₁
  | zero => exact absurd rfl hn
  | option _ _ _ hle hdrop => exact ⟨hle, hdrop⟩

end Options

section Walk

variable {mem : Memory} {syn : Bool} {bound len : Int} {p m maxseg : Nat}

/-- The walk is inside if its first turn is and what follows. -/
theorem optionsInside_turn : OptionsInside mem syn bound p len maxseg ↔
    (∀ off ∈ (optTurn mem syn p len maxseg).reads, (off : Int) < bound) ∧
      ∀ p' len', (optTurn mem syn p len maxseg).next = some (p', len') →
        OptionsInside mem syn bound p' len' (optTurn mem syn p len maxseg).maxseg := by
  cases hnext : (optTurn mem syn p len maxseg).next with
  | none =>
      have hturns : ∀ fuel, optTurns mem syn (fuel + 1) p len maxseg =
          ((optTurn mem syn p len maxseg).reads, some (optTurn mem syn p len maxseg).maxseg) := by
        intro fuel
        simp only [optTurns, hnext]
      constructor
      · rintro ⟨hreads, -⟩
        have hone := hreads 1
        rw [hturns 0] at hone
        exact ⟨hone, fun p' len' h => by cases h⟩
      · rintro ⟨hreads, -⟩
        refine ⟨fun fuel off hoff => ?_, 1, ?_⟩
        · cases fuel with
          | zero => cases hoff
          | succ fuel =>
              rw [hturns fuel] at hoff
              exact hreads off hoff
        · rw [hturns 0]
          rfl
  | some w =>
      obtain ⟨p', len'⟩ := w
      have hturns : ∀ fuel, optTurns mem syn (fuel + 1) p len maxseg =
          ((optTurn mem syn p len maxseg).reads ++
              (optTurns mem syn fuel p' len' (optTurn mem syn p len maxseg).maxseg).1,
            (optTurns mem syn fuel p' len' (optTurn mem syn p len maxseg).maxseg).2) := by
        intro fuel
        simp only [optTurns, hnext]
      constructor
      · rintro ⟨hreads, fuel, hends⟩
        have hsplit : ∀ fuel off, off ∈ (optTurn mem syn p len maxseg).reads ∨
            off ∈ (optTurns mem syn fuel p' len' (optTurn mem syn p len maxseg).maxseg).1 →
            (off : Int) < bound := by
          intro fuel off hoff
          refine hreads (fuel + 1) off ?_
          rw [hturns]
          exact List.mem_append.mpr hoff
        refine ⟨fun off hoff => hsplit 0 off (Or.inl hoff), fun p'' len'' h => ?_⟩
        cases h
        refine ⟨fun fuel off hoff => hsplit fuel off (Or.inr hoff), ?_⟩
        cases fuel with
        | zero => cases hends
        | succ fuel =>
            rw [hturns] at hends
            exact ⟨fuel, hends⟩
      · rintro ⟨hreads, hrest⟩
        obtain ⟨hinside, fuel, hends⟩ := hrest p' len' rfl
        refine ⟨fun fuel off hoff => ?_, fuel + 1, ?_⟩
        · cases fuel with
          | zero => cases hoff
          | succ fuel =>
              rw [hturns] at hoff
              rcases List.mem_append.mp hoff with hoff | hoff
              · exact hreads off hoff
              · exact hinside fuel off hoff
        · rw [hturns]
          exact hends

/-- A turn reads its first byte, unless nothing is left. -/
theorem optTurn_reads (hlen : len ≠ 0) : p ∈ (optTurn mem syn p len maxseg).reads := by
  simp only [optTurn, if_neg hlen]
  split_ifs <;> exact List.mem_cons_self ..

/-- A turn at an option with a length. -/
theorem optTurn_option (hlen : len ≠ 0) (h₀ : mem p ≠ 0) (h₁ : mem p ≠ 1)
    (hn : (mem (p + 1)).toNat ≠ 0) :
    (optTurn mem syn p len maxseg).next =
        some (p + (mem (p + 1)).toNat, len - (mem (p + 1)).toNat) ∧
      ∀ off ∈ (optTurn mem syn p len maxseg).reads, off = 13 ∨ off = p ∨ off = p + 1 ∨
        off < p + (mem (p + 1)).toNat := by
  simp only [optTurn, if_neg hlen, if_neg h₀, if_neg h₁, if_neg hn]
  by_cases hmss : mem p = 2 ∧ (mem (p + 1)).toNat = 4
  · have hfour := hmss.2
    rw [if_pos hmss]
    cases syn with
    | false =>
        refine ⟨rfl, fun off hoff => ?_⟩
        simp only [Bool.false_eq_true, if_false, List.mem_cons, List.not_mem_nil, or_false] at hoff
        omega
    | true =>
        refine ⟨rfl, fun off hoff => ?_⟩
        simp only [if_true, List.mem_cons, List.not_mem_nil, or_false] at hoff
        omega
  · rw [if_neg hmss]
    refine ⟨rfl, fun off hoff => ?_⟩
    simp only [List.mem_cons, List.not_mem_nil, or_false] at hoff
    omega

/-- An option with a length, by what follows it. -/
theorem optionsInside_option (hp : 20 ≤ p) (h₀ : mem p ≠ 0) (h₁ : mem p ≠ 1)
    (hn : mem (p + 1) ≠ 0)
    (hrest : ∀ maxseg', (mem (p + 1)).toNat ≤ m + 2 →
      (OptionsInside mem syn (p + (m + 2) : Nat) (p + (mem (p + 1)).toNat)
          (m + 2 - (mem (p + 1)).toNat : Nat) maxseg' ↔
        Options (mem.bytes (p + (mem (p + 1)).toNat) (m + 2 - (mem (p + 1)).toNat)))) :
    ((∀ off ∈ (optTurn mem syn p (m + 2 : Nat) maxseg).reads,
          (off : Int) < (p + (m + 2) : Nat)) ∧
        ∀ p' len', (optTurn mem syn p (m + 2 : Nat) maxseg).next = some (p', len') →
          OptionsInside mem syn (p + (m + 2) : Nat) p' len'
            (optTurn mem syn p (m + 2 : Nat) maxseg).maxseg) ↔
      Options (mem p :: mem (p + 1) :: mem.bytes (p + 2) m) := by
  have hlen : ((m + 2 : Nat) : Int) ≠ 0 := by omega
  have hn' : (mem (p + 1)).toNat ≠ 0 := fun h => hn (UInt8.toNat.inj h)
  obtain ⟨hnext, hreads⟩ := @optTurn_option mem syn _ p maxseg hlen h₀ h₁ hn'
  have hdrop : (mem p :: mem (p + 1) :: mem.bytes (p + 2) m).drop (mem (p + 1)).toNat =
      mem.bytes (p + (mem (p + 1)).toNat) (m + 2 - (mem (p + 1)).toNat) := by
    rw [← bytes_drop, bytes_succ, bytes_succ]
  rw [options_option h₀ h₁ hn, hdrop, bytes_length, hnext]
  by_cases hle : (mem (p + 1)).toNat ≤ m + 2
  · have hleft : ((m + 2 : Nat) : Int) - (mem (p + 1)).toNat =
        (m + 2 - (mem (p + 1)).toNat : Nat) := by omega
    rw [and_iff_right hle, ← hrest _ hle, hleft]
    refine ⟨fun h => h.2 _ _ rfl, fun h => ⟨fun off hoff => ?_, ?_⟩⟩
    · have hoff' := hreads off hoff
      omega
    · rintro p' len' heq
      cases heq
      exact h
  · refine iff_of_false (fun h => ?_) fun h => hle h.1
    -- the next turn starts behind the end and reads there
    have hafter := h.2 _ _ rfl
    have hread := (optionsInside_turn.mp hafter).1 _ (optTurn_reads (by omega))
    omega

/-- At the end of the segment the walk is inside exactly if the options are in order. -/
theorem optionsInside_iff (hp : 20 ≤ p) :
    OptionsInside mem syn (p + m : Nat) p m maxseg ↔ Options (mem.bytes p m) := by
  induction m using Nat.strong_induction_on generalizing p maxseg with
  | h m ih =>
      rw [optionsInside_turn]
      cases m with
      | zero =>
          refine iff_of_true ⟨fun off hoff => ?_, fun p' len' h => ?_⟩ .nil
          · cases hoff
          · cases h
      | succ m =>
          have hlen : ((m + 1 : Nat) : Int) ≠ 0 := by omega
          rw [bytes_succ]
          by_cases h₀ : mem p = 0
          · rw [h₀]
            refine iff_of_true ?_ (.stop _)
            simp only [optTurn, if_neg hlen, if_pos h₀]
            refine ⟨fun off hoff => ?_, fun p' len' h => by cases h⟩
            rw [List.mem_singleton] at hoff
            omega
          by_cases h₁ : mem p = 1
          · have hrest : OptionsInside mem syn (p + 1 + m : Nat) (p + 1) m maxseg ↔
                Options (mem.bytes (p + 1) m) := ih m (by omega) (by omega)
            have hbound : ((p + (m + 1) : Nat) : Int) = (p + 1 + m : Nat) := by omega
            have hleft : ((m + 1 : Nat) : Int) - 1 = (m : Nat) := by omega
            rw [h₁, options_nop, ← hrest, hbound]
            simp only [optTurn, if_neg hlen, if_neg h₀, if_pos h₁, hleft, Option.some.injEq,
              Prod.mk.injEq]
            refine ⟨fun h => h.2 _ _ ⟨rfl, rfl⟩, fun h => ⟨fun off hoff => ?_, ?_⟩⟩
            · rw [List.mem_singleton] at hoff
              omega
            · rintro p' len' ⟨rfl, rfl⟩
              exact h
          cases m with
          | zero =>
              refine iff_of_false (fun h => ?_) (not_options_single h₀ h₁)
              have hread : p + 1 ∈ (optTurn mem syn p ((0 + 1 : Nat) : Int) maxseg).reads := by
                simp only [optTurn, if_neg hlen, if_neg h₀, if_neg h₁]
                split_ifs <;> exact List.mem_cons_of_mem _ (List.mem_cons_self ..)
              have hlt := h.1 _ hread
              omega
          | succ m =>
              rw [bytes_succ]
              by_cases hn : mem (p + 1) = 0
              · rw [hn]
                have hzero : (mem (p + 1)).toNat = 0 := by
                  rw [hn]
                  rfl
                refine iff_of_true ?_ (.zero _ h₀ h₁)
                simp only [optTurn, if_neg hlen, if_neg h₀, if_neg h₁, if_pos hzero]
                refine ⟨fun off hoff => ?_, fun p' len' h => by cases h⟩
                simp only [List.mem_cons, List.not_mem_nil, or_false] at hoff
                omega
              · exact optionsInside_option hp h₀ h₁ hn fun maxseg' hle => by
                  have hbound : ((p + (m + 2) : Nat) : Int) = (p + (mem (p + 1)).toNat +
                      (m + 2 - (mem (p + 1)).toNat) : Nat) := by omega
                  have hpos : (mem (p + 1)).toNat ≠ 0 := fun h => hn (UInt8.toNat.inj h)
                  rw [hbound]
                  exact ih _ (by omega) (by omega)

end Walk

end YardIce.Tcp
