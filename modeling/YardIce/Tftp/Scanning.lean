import YardIce.Tftp.Request

/-!
# Where the scans of a request end

The functions that read strings and numbers of a request stop at a byte that they know, not at the
end of the datagram. What they find before the end of a list is the same whatever follows it, and
the comparison with a literal has no value exactly on a part of it.
-/

namespace YardIce.Tftp

open IceDrv (Word)

variable {σ : Type} {s t r cp lit : List Byte} {v : Word}

/-! ## Strings -/

theorem cstring_append (h : cstring s = some (lit, r)) (t : List Byte) :
    cstring (s ++ t) = some (lit, r ++ t) := by
  induction s generalizing lit with
  | nil => cases h
  | cons c s ih =>
      rw [cstring] at h
      rw [List.cons_append, cstring]
      by_cases hc : c = 0
      · rw [if_pos hc, Option.some.injEq, Prod.mk.injEq] at h
        obtain ⟨rfl, rfl⟩ := h
        rw [if_pos hc]
      · rw [if_neg hc, Option.map_eq_some_iff] at h
        obtain ⟨⟨name, rest⟩, hrest, heq⟩ := h
        cases heq
        rw [if_neg hc, ih hrest]
        rfl

/-- A string is the bytes before the first zero. -/
theorem cstring_eq_some_iff : cstring s = some (lit, r) ↔ 0 ∉ lit ∧ s = lit ++ 0 :: r := by
  induction s generalizing lit with
  | nil => simp [cstring]
  | cons c s ih =>
      rw [cstring]
      by_cases hc : c = 0
      · subst hc
        rw [if_pos rfl, Option.some.injEq, Prod.mk.injEq]
        constructor
        · rintro ⟨rfl, rfl⟩
          exact ⟨List.not_mem_nil, rfl⟩
        · rintro ⟨hzero, heq⟩
          cases lit with
          | nil => exact ⟨rfl, List.tail_eq_of_cons_eq heq⟩
          | cons d lit =>
              rw [List.cons_append, List.cons.injEq] at heq
              rw [← heq.1] at hzero
              exact absurd List.mem_cons_self hzero
      · rw [if_neg hc, Option.map_eq_some_iff]
        constructor
        · rintro ⟨⟨name, rest⟩, hrest, heq⟩
          cases heq
          obtain ⟨hzero, rfl⟩ := ih.mp hrest
          refine ⟨?_, rfl⟩
          rw [List.mem_cons]
          rintro (h0 | h0)
          · exact hc h0.symm
          · exact hzero h0
        · rintro ⟨hzero, heq⟩
          cases lit with
          | nil => exact absurd (List.head_eq_of_cons_eq heq) hc
          | cons d lit =>
              rw [List.cons_append, List.cons.injEq] at heq
              obtain ⟨rfl, heq⟩ := heq
              exact ⟨(lit, r), ih.mpr ⟨fun h0 => hzero (List.mem_cons_of_mem _ h0), heq⟩, rfl⟩

theorem zero_mem_of_cstring (h : cstring s = some (lit, r)) : 0 ∈ s := by
  rw [(cstring_eq_some_iff.mp h).2]
  exact List.mem_append_right _ List.mem_cons_self

theorem cstring_of_zero (h : 0 ∈ s) : ∃ name rest, cstring s = some (name, rest) := by
  induction s with
  | nil => cases h
  | cons c s ih =>
      rw [cstring]
      by_cases hc : c = 0
      · exact ⟨[], s, if_pos hc⟩
      · rcases List.mem_cons.mp h with h0 | hs
        · exact absurd h0.symm hc
        · obtain ⟨name, rest, hrest⟩ := ih hs
          exact ⟨c :: name, rest, by rw [if_neg hc, hrest]; rfl⟩

theorem strcmp_append {b : Bool} (h : strcmp s lit = some b) (t : List Byte) :
    strcmp (s ++ t) lit = some b := by
  induction s generalizing lit with
  | nil => cases h
  | cons c s ih =>
      cases lit with
      | nil => exact h
      | cons d lit =>
          rw [strcmp] at h
          rw [List.cons_append, strcmp]
          split at h
          · next hc =>
            rw [if_pos hc]
            exact ih h
          · next hc =>
            rw [if_neg hc]
            exact h

/-- A comparison reads past its bytes if they are a part of the literal. -/
theorem strcmp_eq_none_iff : strcmp s lit = none ↔ s <+: lit := by
  induction s generalizing lit with
  | nil => exact ⟨fun _ => List.nil_prefix, fun _ => rfl⟩
  | cons c s ih =>
      cases lit with
      | nil => simp [strcmp]
      | cons d lit =>
          rw [strcmp, List.cons_prefix_cons, ← ih]
          by_cases hc : c = d
          · rw [if_pos hc]
            exact ⟨fun h => ⟨hc, h⟩, fun h => h.2⟩
          · rw [if_neg hc]
            constructor
            · intro h
              cases h
            · rintro ⟨heq, -⟩
              exact absurd heq hc

theorem strcmp_eq_true_iff : strcmp s lit = some true ↔ ∃ rest, s = lit ++ 0 :: rest := by
  induction s generalizing lit with
  | nil => simp [strcmp]
  | cons c s ih =>
      cases lit with
      | nil => simp [strcmp]
      | cons d lit =>
          rw [strcmp]
          by_cases hc : c = d
          · simp [hc, ih]
          · simp [hc]

/-- A comparison gives the literal if the string is it. -/
theorem strcmp_eq_true_iff_cstring (hlit : 0 ∉ lit) :
    strcmp s lit = some true ↔ ∃ rest, cstring s = some (lit, rest) := by
  simp only [strcmp_eq_true_iff, cstring_eq_some_iff, hlit, not_false_eq_true, true_and]

/-! ## Numbers -/

section Numbers

variable {digit : Byte → Option Word} {base w : Word} {b : Nat}

/-- A number that ends inside a text is the same whatever follows. -/
theorem digits_append (h : digits digit base w s = some (v, r)) (t : List Byte) :
    digits digit base w (s ++ t) = some (v, r ++ t) := by
  induction s generalizing w with
  | nil => cases h
  | cons c s ih =>
      rw [List.cons_append, digits]
      rw [digits] at h
      cases hd : digit c with
      | none =>
          rw [hd] at h
          simp only [Option.some.injEq, Prod.mk.injEq] at h
          obtain ⟨rfl, rfl⟩ := h
          rfl
      | some d =>
          rw [hd] at h
          exact ih h

theorem digits_eq_none_iff : digits digit base w s = none ↔ ∀ c ∈ s, digit c ≠ none := by
  induction s generalizing w with
  | nil => simp [digits]
  | cons c s ih =>
      rw [digits, List.forall_mem_cons]
      cases hd : digit c with
      | none => simp
      | some d => simp [ih]

theorem skipBlanks_append (h : skipBlanks s ≠ []) (t : List Byte) :
    skipBlanks (s ++ t) = skipBlanks s ++ t := by
  induction s with
  | nil => exact absurd rfl h
  | cons c s ih =>
      rw [List.cons_append, skipBlanks, skipBlanks]
      rw [skipBlanks] at h
      by_cases hc : c = 0x20
      · rw [if_pos hc] at h
        rw [if_pos hc, if_pos hc]
        exact ih h
      · rw [if_neg hc, if_neg hc]
        rfl

/-- A number that `strtoul` finds inside a text is the same whatever follows. -/
theorem strtoul_append (h : strtoul s b = some (v, r)) (t : List Byte) :
    strtoul (s ++ t) b = some (v, r ++ t) := by
  have hne : skipBlanks s ≠ [] := by
    intro hnil
    rw [strtoul, hnil] at h
    cases h
  rw [strtoul] at h
  rw [strtoul, skipBlanks_append hne]
  cases hs : skipBlanks s with
  | nil => exact absurd hs hne
  | cons c rest =>
      rw [hs] at h
      simp only [List.cons_append] at h ⊢
      by_cases hzero : (b = 0 ∨ b = 16) ∧ c = 0x30
      · rw [if_pos hzero] at h ⊢
        cases rest with
        | nil => cases h
        | cons x rest =>
            simp only [List.cons_append] at h ⊢
            by_cases hx : x &&& ~~~0x20 = 0x58
            · rw [if_pos hx] at h ⊢
              exact digits_append h t
            · rw [if_neg hx] at h ⊢
              by_cases hb : b = 16
              · rw [if_pos hb] at h ⊢
                exact digits_append h t
              · rw [if_neg hb, Option.some.injEq, Prod.mk.injEq] at h
                rw [if_neg hb, ← h.1, ← h.2]
                rfl
      · rw [if_neg hzero] at h ⊢
        by_cases hten : b = 0 ∨ b = 10
        · rw [if_pos hten] at h ⊢
          exact digits_append h t
        · rw [if_neg hten] at h ⊢
          by_cases hb : b = 16
          · rw [if_pos hb] at h ⊢
            exact digits_append h t
          · rw [if_neg hb, Option.some.injEq, Prod.mk.injEq] at h
            rw [if_neg hb, ← h.1, ← h.2]
            rfl

end Numbers
/-! ## Texts with a zero -/

section Zero

variable {digit : Byte → Option Word} {base w : Word}

/-- A zero ends a number. -/
theorem digits_of_zero (hdigit : digit 0 = none) (h : 0 ∈ s) :
    ∃ v r, digits digit base w s = some (v, r) ∧ 0 ∈ r := by
  induction s generalizing w with
  | nil => cases h
  | cons c s ih =>
      rw [digits]
      cases hd : digit c with
      | none => exact ⟨w, c :: s, rfl, h⟩
      | some d =>
          rcases List.mem_cons.mp h with rfl | hs
          · rw [hdigit] at hd
            cases hd
          · exact ih hs

theorem zero_mem_skipBlanks (h : 0 ∈ s) : 0 ∈ skipBlanks s := by
  induction s with
  | nil => cases h
  | cons c s ih =>
      rw [skipBlanks]
      by_cases hc : c = 0x20
      · rw [if_pos hc]
        rcases List.mem_cons.mp h with rfl | hs
        · cases hc
        · exact ih hs
      · rwa [if_neg hc]

theorem strtoul_of_zero (b : Nat) (h : 0 ∈ s) : ∃ v r, strtoul s b = some (v, r) ∧ 0 ∈ r := by
  have hdec : decDigit 0 = none := rfl
  have hhex : hexDigit 0 = none := rfl
  have hblanks := zero_mem_skipBlanks h
  rw [strtoul]
  cases hs : skipBlanks s with
  | nil =>
      rw [hs] at hblanks
      cases hblanks
  | cons c rest =>
      rw [hs] at hblanks
      simp only
      by_cases hzero : (b = 0 ∨ b = 16) ∧ c = 0x30
      · have hrest : 0 ∈ rest := by
          rcases List.mem_cons.mp hblanks with h0 | hrest
          · rw [← h0] at hzero
            exact absurd hzero.2 (by decide)
          · exact hrest
        rw [if_pos hzero]
        cases rest with
        | nil => cases hrest
        | cons x rest =>
            simp only
            by_cases hx : x &&& ~~~0x20 = 0x58
            · rw [if_pos hx]
              apply digits_of_zero hhex
              rcases List.mem_cons.mp hrest with h0 | hrest
              · rw [← h0] at hx
                exact absurd hx (by decide)
              · exact hrest
            · rw [if_neg hx]
              split
              · exact digits_of_zero hhex hrest
              · exact ⟨0, _, rfl, hrest⟩
      · rw [if_neg hzero]
        split
        · exact digits_of_zero hdec hblanks
        · split
          · exact digits_of_zero hhex hblanks
          · exact ⟨0, _, rfl, hblanks⟩

end Zero

/-! ## File names -/

section FileNames

variable {dbg dbg' : Debugger σ} {addr size : Word} {fname : List Byte} {ret : Int}

theorem cutName_append (h : cutName s = some r) (t : List Byte) :
    cutName (s ++ t) = some (r ++ t) := by
  induction s generalizing r with
  | nil => cases h
  | cons c s ih =>
      rw [cutName] at h
      rw [List.cons_append, cutName]
      by_cases hzero : c = 0
      · rw [if_pos hzero, Option.some.injEq] at h
        rw [if_pos hzero, ← h]
        rfl
      · rw [if_neg hzero] at h ⊢
        by_cases hend : c = 0x2e ∨ c = 0x20
        · rw [if_pos hend, Option.some.injEq] at h
          rw [if_pos hend, ← h]
          rfl
        · rw [if_neg hend, Option.map_eq_some_iff] at h
          obtain ⟨r', hr', rfl⟩ := h
          rw [if_neg hend, ih hr']
          rfl

theorem zero_mem_cutName (h : 0 ∈ s) : ∃ r, cutName s = some r ∧ 0 ∈ r := by
  induction s with
  | nil => cases h
  | cons c s ih =>
      rw [cutName]
      by_cases hzero : c = 0
      · exact ⟨c :: s, if_pos hzero, h⟩
      · rw [if_neg hzero]
        by_cases hend : c = 0x2e ∨ c = 0x20
        · exact ⟨0 :: s, if_pos hend, List.mem_cons_self⟩
        · rcases List.mem_cons.mp h with h0 | hs
          · exact absurd h0.symm hzero
          · obtain ⟨r, hr, hmem⟩ := ih hs
            rw [if_neg hend, hr]
            exact ⟨c :: r, rfl, List.mem_cons_of_mem c hmem⟩

theorem rangeEnd_append {last : Option Word} (h : rangeEnd addr size s = some last)
    (t : List Byte) : rangeEnd addr size (s ++ t) = some last := by
  cases s with
  | nil => cases h
  | cons c cp =>
      rw [rangeEnd] at h
      rw [List.cons_append, rangeEnd]
      by_cases hrange : c = 0x3a ∨ c = 0x2d
      · rw [if_pos hrange] at h ⊢
        simp only [Option.bind_eq_bind, Option.bind_eq_some_iff] at h
        obtain ⟨⟨v, r⟩, hv, h⟩ := h
        rw [strtoul_append hv t]
        exact h
      · rw [if_neg hrange] at h ⊢
        by_cases hsize : c = 0x2e ∨ c = 0x5f ∨ c = 0x23
        · rw [if_pos hsize] at h ⊢
          simp only [Option.bind_eq_bind, Option.bind_eq_some_iff] at h
          obtain ⟨⟨v, r⟩, hv, unit, hunit, h⟩ := h
          cases r with
          | nil => cases hunit
          | cons d r =>
              rw [strtoul_append hv t]
              simp only [List.head?_cons, Option.some.injEq] at hunit
              rw [← hunit] at h
              exact h
        · rw [if_neg hsize] at h ⊢
          exact h

theorem rangeEnd_of_zero (addr size : Word) (h : 0 ∈ s) :
    ∃ last, rangeEnd addr size s = some last := by
  cases s with
  | nil => cases h
  | cons c cp =>
      rw [rangeEnd]
      have hcp : c ≠ 0 → 0 ∈ cp := by
        intro hc
        rcases List.mem_cons.mp h with h0 | hcp
        · exact absurd h0.symm hc
        · exact hcp
      by_cases hrange : c = 0x3a ∨ c = 0x2d
      · have hzero : c ≠ 0 := by
          rintro rfl
          exact absurd hrange (by decide)
        obtain ⟨v, r, hv, -⟩ := strtoul_of_zero 16 (hcp hzero)
        rw [if_pos hrange, hv]
        exact ⟨_, rfl⟩
      · rw [if_neg hrange]
        by_cases hsize : c = 0x2e ∨ c = 0x5f ∨ c = 0x23
        · have hzero : c ≠ 0 := by
            rintro rfl
            exact absurd hsize (by decide)
          obtain ⟨v, r, hv, hr⟩ := strtoul_of_zero 0 (hcp hzero)
          rw [if_pos hsize, hv]
          cases r with
          | nil => cases hr
          | cons d r => exact ⟨_, rfl⟩
        · rw [if_neg hsize]
          exact ⟨_, rfl⟩

/-- Whether a name is an address is seen before its end. -/
theorem isAddress_append (h : cutName s = some r) (t : List Byte) :
    isAddress (s ++ t) = isAddress s := by
  match s, h with
  | [c], h =>
      have hc : c ≠ 0x30 := by
        rintro rfl
        cases h
      cases t with
      | nil => rfl
      | cons d t => exact decide_eq_false fun haddr => hc haddr.1
  | c :: d :: s, _ => rfl

theorem tftpDecodeFname_append (h : tftpDecodeFname dbg s = some (ret, dbg', fname))
    (t : List Byte) : tftpDecodeFname dbg (s ++ t) = some (ret, dbg', fname ++ t) := by
  by_cases haddr : isAddress s
  · have haddr' : isAddress (s ++ t) := by
      match s, haddr with
      | c :: d :: s, haddr => exact haddr
    rw [tftpDecodeFname, if_pos haddr] at h
    rw [tftpDecodeFname, if_pos haddr']
    simp only [Option.bind_eq_bind, Option.bind_eq_some_iff] at h ⊢
    obtain ⟨⟨addr, cp⟩, hstr, last, hlast, h⟩ := h
    refine ⟨(addr, cp ++ t), strtoul_append hstr t, last, rangeEnd_append hlast t, ?_⟩
    cases last with
    | none =>
        cases h
        rfl
    | some last =>
        cases h
        rfl
  · rw [tftpDecodeFname, if_neg haddr] at h
    simp only [Option.bind_eq_bind, Option.bind_eq_some_iff] at h
    obtain ⟨cut, hcut, ⟨name, rest⟩, hname, h⟩ := h
    rw [tftpDecodeFname, isAddress_append hcut, if_neg haddr]
    simp only [Option.bind_eq_bind, cutName_append hcut t, cstring_append hname t,
      Option.bind_some]
    cases hmem : iceMemByName dbg.mem name with
    | none =>
        rw [hmem] at h
        cases h
        rfl
    | some e =>
        rw [hmem] at h
        cases h
        rfl

/-- The name of a file with a zero is decoded inside the bytes given. -/
theorem tftpDecodeFname_of_zero (dbg : Debugger σ) (h : 0 ∈ s) :
    ∃ p, tftpDecodeFname dbg s = some p := by
  rw [tftpDecodeFname]
  by_cases haddr : isAddress s
  · obtain ⟨addr, cp, hstr, hcp⟩ := strtoul_of_zero 16 h
    obtain ⟨last, hlast⟩ := rangeEnd_of_zero addr dbg.transf.size hcp
    rw [if_pos haddr, hstr]
    simp only [Option.bind_eq_bind, Option.bind_some, hlast]
    cases last with
    | none => exact ⟨_, rfl⟩
    | some last => exact ⟨_, rfl⟩
  · obtain ⟨cut, hcut, hzero⟩ := zero_mem_cutName h
    obtain ⟨name, rest, hname⟩ := cstring_of_zero hzero
    rw [if_neg haddr]
    simp only [hcut, Option.bind_eq_bind, Option.bind_some, hname]
    cases iceMemByName dbg.mem name with
    | none => exact ⟨_, rfl⟩
    | some e => exact ⟨_, rfl⟩

end FileNames

end YardIce.Tftp
