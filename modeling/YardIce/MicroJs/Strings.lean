import YardIce.MicroJs.JsonBuffer

/-!
# String literals

The string buffer has two counters, a table of offsets that grows up and the strings, which grow
down. A literal is stored with its escapes translated, unless a string of the buffer compares equal
to it; the code pushes its index.

## Implementation notes

A function gives `none` where it would access memory outside of the buffer, or read behind the
source text. The buffer is the list of its bytes.
-/

namespace YardIce.MicroJs.Strbuf

open Json (poke pokes Outside)

/-! ## Literals -/

/-- A string literal: its bytes, the quote it ends with and the source text behind. -/
structure Literal where
  text : List Nat
  qt : Nat
  behind : List Nat
  quote : qt = 39 ∨ qt = 34
  ends : qt ∉ text
  bytes : ∀ b ∈ text, b < 256

/-- `tok.qlf`. -/
def Literal.qlf (lit : Literal) : Nat := lit.text.length % 256

/-- The source text from `tok.s` on. -/
def Literal.src (lit : Literal) : List Nat := lit.text ++ lit.qt :: lit.behind

/-- `cxlate`. -/
def cxlate (c : Nat) : Nat :=
  if c = 97 then 7 else if c = 98 then 8 else if c = 102 then 12 else if c = 110 then 10
  else if c = 114 then 13 else if c = 116 then 9 else if c = 118 then 11 else c

/-- What `cstrncpy` stores before the zero; `esc` is its variable. -/
def translate : (esc : Bool) → List Nat → List Nat
  | _, [] => []
  | true, c :: cs => cxlate c :: translate false cs
  | false, c :: cs => if c = 92 then translate true cs else c :: translate false cs

/-- The variable `esc` at the end: the last byte is a backslash that escapes nothing. -/
def dangling : (esc : Bool) → List Nat → Bool
  | esc, [] => esc
  | true, _ :: cs => dangling false cs
  | false, c :: cs => dangling (c = 92) cs

/-- The literal with its escapes translated. -/
def Literal.translation (lit : Literal) : List Nat := translate false lit.text

/-! ## The buffer -/

/-- A field of 16 bits. -/
def u16 (buf : List Nat) (k : Nat) : Option Nat :=
  (buf[k]?).bind fun lo => (buf[k + 1]?).map fun hi => lo + 256 * hi

/-- A store to a field of 16 bits. -/
def setU16 (buf : List Nat) (k v : Nat) : Option (List Nat) := pokes buf k [v, v / 256]

/-- `strbuf_init`: `pos`, `cnt` and `offs[0]`. -/
def strbufInit (buf : List Nat) (len : Nat) : Option (List Nat) :=
  (setU16 buf 2 len).bind fun buf => (setU16 buf 0 0).bind fun buf => setU16 buf 4 0

/-- `cstrncmp` of a string of the buffer and the source text. The count `n` has 32 bits. -/
def cstrncmp : List Nat → List Nat → Nat → Option Bool
  | [], _, _ => none
  | c1 :: s1, czs, n =>
    if n = 0 then some (c1 = 0)
    else
      match czs with
      | [] => none
      | c2 :: czs =>
        if c2 = 92 then
          match czs with
          | [] => none
          | c2 :: czs =>
            if c1 ≠ cxlate c2 then some false else cstrncmp s1 czs ((n + (2 ^ 32 - 2)) % 2 ^ 32)
        else if c1 ≠ c2 then some false
        else cstrncmp s1 czs (n - 1)

def errStringNotFound : Int := 10

def errStrbufOverflow : Int := 11

/-- The loop of `cstr_lookup` over the next strings, from `i` on. -/
def lookupLoop (buf cs : List Nat) (len : Nat) : Nat → Nat → Option Int
  | 0, _ => some (-errStringNotFound)
  | left + 1, i =>
    (u16 buf (4 + 2 * i)).bind fun offs => (cstrncmp (buf.drop offs) cs len).bind fun eq =>
      if eq then some (i : Int) else lookupLoop buf cs len left (i + 1)

/-- `cstr_lookup`. -/
def cstrLookup (buf cs : List Nat) (len : Nat) : Option Int :=
  (u16 buf 0).bind fun cnt => lookupLoop buf cs len cnt 0

/-- `cstr_add`. The test for the room compares unsigned numbers; `offs` may be negative. -/
def cstrAdd (buf s : List Nat) (len : Nat) : Option (Int × List Nat) :=
  (cstrLookup buf s len).bind fun found =>
    if 0 ≤ found then some (found, buf)
    else
      (u16 buf 2).bind fun pos => (u16 buf 0).bind fun idx =>
        let offs : Int := pos - (len + 1)
        if offs % 2 ^ 32 < (idx + 1) * 2 then some (-errStrbufOverflow, buf)
        else if offs < 0 then none
        else
          (pokes buf offs.toNat (translate false (s.take len) ++ [0])).bind fun buf =>
            (setU16 buf (4 + 2 * idx) offs.toNat).bind fun buf =>
              (u16 buf 0).bind fun cnt => (setU16 buf 0 (cnt + 1)).bind fun buf =>
                (u16 buf 2).bind fun pos =>
                  (setU16 buf 2 (pos + 65536 - (len + 1))).map fun buf => ((idx : Int), buf)

def opcI8 : Nat := 6

def opcI4 : Nat := 16

/-- The code for an index. -/
def pushCode (isz : Nat) : List Nat :=
  if isz < 4 then [opcI4 + isz] else [opcI8, isz % 256]

/-- `op_push_string`: the result of `cstr_add`, the code that it emits and the buffer. The count of
the target stack is left out. -/
def opPushString (buf : List Nat) (lit : Literal) : Option (Int × List Nat × List Nat) :=
  (cstrAdd buf lit.src lit.qlf).map fun r =>
    if r.1 < 0 then (r.1, [], r.2) else (r.1, pushCode r.1.toNat, r.2)

/-- What `microjs_exec` pushes for `I4` and `I8`. -/
def execPush : List Nat → Option (BitVec 32)
  | [opc] => if opc / 16 = opcI4 / 16 then some ((BitVec.ofNat 4 (opc % 16)).signExtend 32) else none
  | [opc, b] => if opc = opcI8 then some ((BitVec.ofNat 8 b).signExtend 32) else none
  | _ => none

/-- `str`, up to the zero at the end. -/
def str (buf : List Nat) (idx : BitVec 32) : Option (List Nat) :=
  (u16 buf 0).bind fun cnt =>
    if cnt ≤ idx.toNat then some []
    else
      (u16 buf (4 + 2 * idx.toNat)).bind fun offs =>
        if 0 ∈ buf.drop offs then some ((buf.drop offs).takeWhile (· ≠ 0)) else none

/-! ## Comparing -/

theorem cxlate_ne_zero {c : Nat} (hc : c ≠ 0) : cxlate c ≠ 0 := by
  unfold cxlate
  split_ifs <;> omega

theorem cxlate_lt {c : Nat} (hc : c < 256) : cxlate c < 256 := by
  unfold cxlate
  split_ifs <;> omega

theorem translate_plain {cs : List Nat} : ∀ {esc : Bool}, 0 ∉ cs → 0 ∉ translate esc cs := by
  induction cs with
  | nil => exact fun _ => List.not_mem_nil
  | cons c cs ih =>
      intro esc hcs
      obtain ⟨hc, hcs⟩ := not_or.mp (fun h => hcs (List.mem_cons.mpr h))
      cases esc with
      | true => exact List.not_mem_cons_of_ne_of_not_mem (cxlate_ne_zero (Ne.symm hc)).symm (ih hcs)
      | false =>
          rw [translate]
          split_ifs
          · exact ih hcs
          · exact List.not_mem_cons_of_ne_of_not_mem hc (ih hcs)

theorem translate_bytes {cs : List Nat} : ∀ {esc : Bool}, (∀ b ∈ cs, b < 256) →
    ∀ b ∈ translate esc cs, b < 256 := by
  induction cs with
  | nil => exact fun _ b hb => absurd hb List.not_mem_nil
  | cons c cs ih =>
      intro esc hcs
      have hc := hcs c List.mem_cons_self
      have htail := fun b hb => hcs b (List.mem_cons_of_mem _ hb)
      cases esc with
      | true =>
          rw [translate, List.forall_mem_cons]
          exact ⟨cxlate_lt hc, ih htail⟩
      | false =>
          rw [translate]
          split_ifs
          · exact ih htail
          · exact List.forall_mem_cons.mpr ⟨hc, ih htail⟩

theorem translate_length_le {cs : List Nat} : ∀ {esc : Bool}, (translate esc cs).length ≤ cs.length := by
  induction cs with
  | nil => exact Nat.le_refl _
  | cons c cs ih =>
      intro esc
      rw [List.length_cons]
      cases esc with
      | true =>
          rw [translate, List.length_cons]
          exact Nat.succ_le_succ ih
      | false =>
          rw [translate]
          split_ifs
          · exact ih.trans (Nat.le_succ _)
          · rw [List.length_cons]
            exact Nat.succ_le_succ ih

theorem cstrncmp_zero (c1 : Nat) (s1 czs : List Nat) :
    cstrncmp (c1 :: s1) czs 0 = some (decide (c1 = 0)) := by
  cases czs with
  | nil => exact if_pos rfl
  | cons c2 czs => exact if_pos rfl

theorem cstrncmp_plain (c1 : Nat) (s1 czs : List Nat) {c2 : Nat} (hc : c2 ≠ 92) (n : Nat) :
    cstrncmp (c1 :: s1) (c2 :: czs) (n + 1) =
      if c1 ≠ c2 then some false else cstrncmp s1 czs n := by
  rw [cstrncmp.eq_def]
  dsimp only
  rw [if_neg (Nat.succ_ne_zero n), if_neg hc, Nat.add_sub_cancel]

theorem cstrncmp_escape (c1 : Nat) (s1 czs : List Nat) (c2 n : Nat) :
    cstrncmp (c1 :: s1) (92 :: c2 :: czs) (n + 1) =
      if c1 ≠ cxlate c2 then some false
      else cstrncmp s1 czs ((n + 1 + (2 ^ 32 - 2)) % 2 ^ 32) := by
  rw [cstrncmp.eq_def]
  dsimp only
  rw [if_neg (Nat.succ_ne_zero n), if_pos rfl]

/-- The comparison is right, unless the literal ends in a backslash that escapes nothing and the
stored string goes as far as there. -/
theorem cstrncmp_eq (rest behind : List Nat) {t : List Nat} : ∀ {cs : List Nat}, 0 ∉ t → 0 ∉ cs →
    cs.length < 2 ^ 32 → (dangling false cs = true → ¬ translate false cs <+: t) →
      cstrncmp (t ++ 0 :: rest) (cs ++ behind) cs.length =
        some (decide (t = translate false cs)) := by
  induction t with
  | nil =>
      intro cs _ hcs hlen hwhole
      cases cs with
      | nil => rfl
      | cons c cs =>
          obtain ⟨hc, hcs₁⟩ := not_or.mp (fun h => hcs (List.mem_cons.mpr h))
          rw [List.nil_append, List.cons_append, List.length_cons, translate]
          by_cases hesc : c = 92
          · subst hesc
            rw [if_pos rfl]
            cases cs with
            | nil => exact absurd List.nil_prefix (hwhole rfl)
            | cons e cs =>
                have he : e ≠ 0 := fun h => hcs₁ (h ▸ List.mem_cons_self)
                rw [List.cons_append, cstrncmp_escape, if_pos (cxlate_ne_zero he).symm]
                exact congrArg some (decide_eq_false (List.cons_ne_nil _ _).symm).symm
          · rw [if_neg hesc, cstrncmp_plain _ _ _ hesc, if_pos hc]
            exact congrArg some (decide_eq_false (List.cons_ne_nil _ _).symm).symm
  | cons a t ih =>
      intro cs ht hcs hlen hwhole
      obtain ⟨ha, ht₁⟩ := not_or.mp (fun h => ht (List.mem_cons.mpr h))
      cases cs with
      | nil =>
          rw [List.cons_append, List.length_nil, cstrncmp_zero, decide_eq_false (Ne.symm ha)]
          exact congrArg some (decide_eq_false (List.cons_ne_nil a t)).symm
      | cons c cs =>
          obtain ⟨hc, hcs₁⟩ := not_or.mp (fun h => hcs (List.mem_cons.mpr h))
          rw [List.length_cons] at hlen
          rw [List.cons_append, List.cons_append, List.length_cons, translate]
          have hwhole₁ := hwhole
          rw [dangling, translate] at hwhole₁
          by_cases hesc : c = 92
          · subst hesc
            rw [if_pos rfl]
            rw [if_pos rfl, decide_eq_true rfl] at hwhole₁
            cases cs with
            | nil => exact absurd List.nil_prefix (hwhole₁ rfl)
            | cons e cs =>
                have hcs₂ : 0 ∉ cs := fun h => hcs₁ (List.mem_cons_of_mem _ h)
                rw [List.length_cons] at hlen
                rw [List.cons_append, List.length_cons, cstrncmp_escape,
                  show (cs.length + 1 + 1 + (2 ^ 32 - 2)) % 2 ^ 32 = cs.length by omega]
                rw [dangling, translate] at hwhole₁
                rw [translate]
                by_cases heq : a = cxlate e
                · subst heq
                  rw [if_neg (not_not.mpr rfl), ih ht₁ hcs₂ (by omega) fun hd hpre =>
                    hwhole₁ hd (List.cons_prefix_cons.mpr ⟨rfl, hpre⟩)]
                  simp only [List.cons.injEq, true_and]
                · rw [if_pos heq]
                  exact congrArg some (decide_eq_false fun h => heq (List.cons.inj h).1).symm
          · rw [if_neg hesc, cstrncmp_plain _ _ _ hesc]
            rw [if_neg hesc, decide_eq_false hesc] at hwhole₁
            by_cases heq : a = c
            · subst heq
              rw [if_neg (not_not.mpr rfl), ih ht₁ hcs₁ (by omega) fun hd hpre =>
                hwhole₁ hd (List.cons_prefix_cons.mpr ⟨rfl, hpre⟩)]
              simp only [List.cons.injEq, true_and]
            · rw [if_pos heq]
              exact congrArg some (decide_eq_false fun h => heq (List.cons.inj h).1).symm

/-! ## Fields and strings under stores -/

variable {buf buf' : List Nat} {lo hi : Nat}

theorem outside_getElem? (h : Outside lo hi buf buf') {j : Nat} (hj : j < lo ∨ hi ≤ j) :
    buf'[j]? = buf[j]? := by
  rcases hj with hlo | hhi
  · have hbelow := congrArg (fun l : List Nat => l[j]?) h.below
    simpa only [List.getElem?_take, if_pos hlo] using hbelow
  · have habove := congrArg (fun l : List Nat => l[j - hi]?) h.above
    simpa only [List.getElem?_drop, Nat.add_sub_cancel' hhi] using habove

theorem u16_outside (h : Outside lo hi buf buf') {k : Nat} (hk : k + 2 ≤ lo ∨ hi ≤ k) :
    u16 buf' k = u16 buf k := by
  unfold u16
  rw [outside_getElem? h (show k < lo ∨ hi ≤ k by omega),
    outside_getElem? h (show k + 1 < lo ∨ hi ≤ k + 1 by omega)]

/-- A field that was stored. -/
theorem setU16_spec (k v : Nat) (hk : k + 2 ≤ buf.length) :
    ∃ buf', setU16 buf k v = some buf' ∧ Outside k (k + 2) buf buf' ∧
      u16 buf' k = some (v % 65536) := by
  obtain ⟨buf', hrun, hout⟩ := @Json.pokes_outside [v, v / 256] buf k (k + 2) k (le_refl k) (le_refl _) hk
  have h₀ := Json.pokes_getElem? hrun (show 0 < 2 by decide)
  have h₁ := Json.pokes_getElem? hrun (show 1 < 2 by decide)
  refine ⟨buf', hrun, hout, ?_⟩
  unfold u16
  rw [show buf'[k]? = some (v % 256) from h₀, Option.bind_some,
    show buf'[k + 1]? = some (v / 256 % 256) from h₁, Option.map_some, Option.some.injEq]
  omega

/-- A string and its zero. -/
def StringAt (buf : List Nat) (o : Nat) (t : List Nat) : Prop := ∃ rest, buf.drop o = t ++ 0 :: rest

theorem StringAt.outside {o : Nat} {t : List Nat} (h : StringAt buf o t)
    (hout : Outside lo hi buf buf') (ho : hi ≤ o) : StringAt buf' o t := by
  have habove := congrArg (List.drop (o - hi)) hout.above
  rw [List.drop_drop, List.drop_drop, Nat.add_sub_cancel' ho] at habove
  obtain ⟨rest, hrest⟩ := h
  exact ⟨rest, habove.trans hrest⟩

/-- A string that was stored. -/
theorem pokes_stringAt {t : List Nat} {o : Nat} (ht : ∀ b ∈ t, b < 256)
    (ho : o + (t ++ [0]).length ≤ buf.length) :
    ∃ buf', pokes buf o (t ++ [0]) = some buf' ∧
      Outside o (o + (t ++ [0]).length) buf buf' ∧ StringAt buf' o t := by
  obtain ⟨buf', hrun, hout⟩ := @Json.pokes_outside (t ++ [0]) buf o _ o (le_refl o) (le_refl _) ho
  refine ⟨buf', hrun, hout, buf'.drop (o + (t ++ [0]).length), ?_⟩
  have hbytes : (t ++ [0]).map (· % 256) = t ++ [0] := by
    refine (List.map_congr_left fun b hb => ?_).trans (List.map_id _)
    rcases List.mem_append.mp hb with hb | hb
    · exact Nat.mod_eq_of_lt (ht b hb)
    · rw [List.mem_singleton.mp hb]
      rfl
  have htake : (buf'.drop o).take (t ++ [0]).length = t ++ [0] := by
    refine List.ext_getElem? fun j => ?_
    rw [List.getElem?_take, List.getElem?_drop]
    by_cases hj : j < (t ++ [0]).length
    · rw [if_pos hj, Json.pokes_getElem? hrun hj, ← List.getElem?_map, hbytes]
    · rw [if_neg hj, List.getElem?_eq_none (Nat.not_lt.mp hj)]
  have hsplit := List.take_append_drop (t ++ [0]).length (buf'.drop o)
  rw [htake, List.drop_drop, List.append_assoc] at hsplit
  exact hsplit.symm

/-! ## The strings of a buffer -/

/-- The buffer holds these strings, the lowest one at `pos`. The table ends before it. -/
structure Pool (buf : List Nat) (pos : Nat) (texts : List (List Nat)) : Prop where
  cnt : u16 buf 0 = some texts.length
  top : u16 buf 2 = some pos
  le : pos ≤ buf.length
  small : pos < 65536
  room : texts ≠ [] → 4 + 2 * texts.length ≤ pos
  entry : ∀ i t, texts[i]? = some t → ∃ o, u16 buf (4 + 2 * i) = some o ∧ pos ≤ o ∧ StringAt buf o t
  plain : ∀ t ∈ texts, 0 ∉ t
  nodup : texts.Nodup

namespace Pool

variable {pos : Nat} {texts : List (List Nat)} (h : Pool buf pos texts)
include h

/-- The comparison of a string of the buffer with a literal. -/
theorem compare {i : Nat} {t cs : List Nat} (hi : texts[i]? = some t) (behind : List Nat)
    (hcs : 0 ∉ cs) (hlen : cs.length < 2 ^ 32)
    (hwhole : dangling false cs = true → ∀ t ∈ texts, ¬ translate false cs <+: t) :
    ∃ o, u16 buf (4 + 2 * i) = some o ∧
      cstrncmp (buf.drop o) (cs ++ behind) cs.length = some (decide (t = translate false cs)) := by
  obtain ⟨o, ho, -, rest, hrest⟩ := h.entry i t hi
  have hmem := List.mem_of_getElem? hi
  exact ⟨o, ho, hrest ▸ cstrncmp_eq rest behind (h.plain t hmem) hcs hlen
    fun hd => hwhole hd t hmem⟩

/-- A literal that is in the buffer is found. -/
theorem lookupLoop_found {cs : List Nat} (behind : List Nat) (hcs : 0 ∉ cs)
    (hlen : cs.length < 2 ^ 32)
    (hwhole : dangling false cs = true → ∀ t ∈ texts, ¬ translate false cs <+: t) {j : Nat}
    (hj : texts[j]? = some (translate false cs)) :
    ∀ left i, i + left = texts.length → i ≤ j →
      lookupLoop buf (cs ++ behind) cs.length left i = some (j : Int) := by
  obtain ⟨hjlt, hget⟩ := List.getElem?_eq_some_iff.mp hj
  intro left
  induction left with
  | zero =>
      intro i hi hij
      omega
  | succ left ih =>
      intro i hi hij
      have hilt : i < texts.length := by omega
      obtain ⟨o, ho, hcmp⟩ := h.compare (List.getElem?_eq_getElem hilt) behind hcs hlen hwhole
      rw [lookupLoop, ho, Option.bind_some, hcmp, Option.bind_some]
      by_cases heq : texts[i] = translate false cs
      · have hij' : i = j := (h.nodup.getElem_inj_iff).mp (heq.trans hget.symm)
        rw [decide_eq_true heq, if_pos rfl, hij']
      · rw [decide_eq_false heq, if_neg Bool.false_ne_true]
        have hne : i ≠ j := by
          rintro rfl
          exact heq hget
        exact ih (i + 1) (by omega) (by omega)

/-- One that is not is not found. -/
theorem lookupLoop_missing {cs : List Nat} (behind : List Nat) (hcs : 0 ∉ cs)
    (hlen : cs.length < 2 ^ 32)
    (hwhole : dangling false cs = true → ∀ t ∈ texts, ¬ translate false cs <+: t)
    (hnew : translate false cs ∉ texts) :
    ∀ left i, i + left = texts.length →
      lookupLoop buf (cs ++ behind) cs.length left i = some (-errStringNotFound) := by
  intro left
  induction left with
  | zero => exact fun _ _ => rfl
  | succ left ih =>
      intro i hi
      have hilt : i < texts.length := by omega
      obtain ⟨o, ho, hcmp⟩ := h.compare (List.getElem?_eq_getElem hilt) behind hcs hlen hwhole
      have hne : texts[i] ≠ translate false cs := fun heq => hnew (heq ▸ List.getElem_mem hilt)
      rw [lookupLoop, ho, Option.bind_some, hcmp, Option.bind_some, decide_eq_false hne,
        if_neg Bool.false_ne_true]
      exact ih (i + 1) (by omega)

end Pool

/-- The writes of a literal: the table keeps its entries, the strings their bytes, and the table
ends before the strings. -/
structure Confined (buf buf' : List Nat) : Prop where
  length : buf'.length = buf.length
  table : ∀ cnt, u16 buf 0 = some cnt → ∀ k, 4 ≤ k → k < 4 + 2 * cnt → buf'[k]? = buf[k]?
  strings : ∀ pos, u16 buf 2 = some pos → buf'.drop pos = buf.drop pos
  apart : ∀ cnt pos, u16 buf' 0 = some cnt → u16 buf' 2 = some pos → 4 + 2 * cnt ≤ pos

namespace Pool

variable {pos : Nat} {texts : List (List Nat)} (h : Pool buf pos texts) {cs : List Nat}
  (behind : List Nat) (hcs : 0 ∉ cs) (hlen : cs.length < 256)
  (hwhole : dangling false cs = true → ∀ t ∈ texts, ¬ translate false cs <+: t)
include h hcs hlen hwhole

theorem cstrAdd_found {j : Nat} (hj : texts[j]? = some (translate false cs)) :
    cstrAdd buf (cs ++ behind) cs.length = some ((j : Int), buf) := by
  have hfound := h.lookupLoop_found behind hcs (by omega) hwhole hj texts.length 0
    (Nat.zero_add _) (Nat.zero_le _)
  rw [cstrAdd, cstrLookup, h.cnt, Option.bind_some, hfound, Option.bind_some,
    if_pos (Int.natCast_nonneg j)]

theorem lookup_missing (hnew : translate false cs ∉ texts) :
    cstrLookup buf (cs ++ behind) cs.length = some (-errStringNotFound) := by
  rw [cstrLookup, h.cnt, Option.bind_some]
  exact h.lookupLoop_missing behind hcs (by omega) hwhole hnew texts.length 0 (Nat.zero_add _)

theorem cstrAdd_refused (hnew : translate false cs ∉ texts) (hpos : cs.length < pos)
    (hfull : pos - (cs.length + 1) < 2 * (texts.length + 1)) :
    cstrAdd buf (cs ++ behind) cs.length = some (-errStrbufOverflow, buf) := by
  have hsmall := h.small
  have hoffs : ((pos : Int) - (cs.length + 1)) % 2 ^ 32 < ((texts.length : Int) + 1) * 2 := by
    rw [Int.emod_eq_of_lt (by omega) (by omega)]
    omega
  rw [cstrAdd, h.lookup_missing behind hcs hlen hwhole hnew, Option.bind_some,
    if_neg (by decide), h.top, Option.bind_some, h.cnt, Option.bind_some]
  exact if_pos hoffs

theorem cstrAdd_stored (hbytes : ∀ b ∈ cs, b < 256) (hnew : translate false cs ∉ texts)
    (hpos : cs.length < pos)
    (hroom : 4 + 2 * (texts.length + 1) ≤ pos - (cs.length + 1)) :
    ∃ buf', cstrAdd buf (cs ++ behind) cs.length = some ((texts.length : Int), buf') ∧
      Pool buf' (pos - (cs.length + 1)) (texts ++ [translate false cs]) ∧ Confined buf buf' := by
  have hsmall := h.small
  have hle := h.le
  have hoffs : ¬ ((pos : Int) - (cs.length + 1)) % 2 ^ 32 < ((texts.length : Int) + 1) * 2 := by
    rw [Int.emod_eq_of_lt (by omega) (by omega)]
    omega
  have hnat : ((pos : Int) - (cs.length + 1)).toNat = pos - (cs.length + 1) := by omega
  have hd : (translate false cs ++ [0]).length ≤ cs.length + 1 := by
    rw [List.length_append, List.length_singleton]
    exact Nat.succ_le_succ translate_length_le
  obtain ⟨buf₁, hstring, hout₁, hat⟩ := @pokes_stringAt buf (translate false cs)
    (pos - (cs.length + 1)) (translate_bytes hbytes) (by omega)
  have hout₁' := hout₁.mono (le_refl _) (show _ ≤ pos by omega)
  obtain ⟨buf₂, hentry, hout₂, hat₂⟩ := @setU16_spec buf₁ (4 + 2 * texts.length)
    (pos - (cs.length + 1)) (by rw [hout₁.length]; omega)
  have hcnt₂ : u16 buf₂ 0 = some texts.length := by
    rw [u16_outside hout₂ (by omega), u16_outside hout₁' (by omega), h.cnt]
  obtain ⟨buf₃, hcnt, hout₃, hat₃⟩ := @setU16_spec buf₂ 0 (texts.length + 1)
    (by rw [hout₂.length, hout₁.length]; omega)
  have hpos₃ : u16 buf₃ 2 = some pos := by
    rw [u16_outside hout₃ (by omega), u16_outside hout₂ (by omega), u16_outside hout₁' (by omega),
      h.top]
  obtain ⟨buf₄, htop, hout₄, hat₄⟩ := @setU16_spec buf₃ 2 (pos + 65536 - (cs.length + 1))
    (by rw [hout₃.length, hout₂.length, hout₁.length]; omega)
  have hhead : Outside 0 4 buf₂ buf₄ :=
    (hout₃.mono (Nat.zero_le _) (by omega)).trans (hout₄.mono (Nat.zero_le _) (le_refl _))
  have hold : Outside 0 pos buf buf₄ := (hout₁'.mono (Nat.zero_le _) (le_refl _)).trans
    ((hout₂.mono (Nat.zero_le _) (by omega)).trans (hhead.mono (le_refl _) (by omega)))
  have hcnt₄ : u16 buf₄ 0 = some (texts ++ [translate false cs]).length := by
    rw [u16_outside hout₄ (by omega), hat₃, List.length_append, List.length_singleton,
      Nat.mod_eq_of_lt (by omega)]
  have htop₄ : u16 buf₄ 2 = some (pos - (cs.length + 1)) := by
    rw [hat₄]
    exact congrArg some (by omega)
  refine ⟨buf₄, ?_, ⟨hcnt₄, htop₄, ?_, by omega, fun _ => ?_, fun i t hi => ?_, ?_, ?_⟩,
    ⟨hold.length, fun cnt hcnt' k hk hlt => ?_, fun p hp => ?_, fun cnt p hcnt' hp => ?_⟩⟩
  · rw [cstrAdd, h.lookup_missing behind hcs hlen hwhole hnew, Option.bind_some,
      if_neg (by decide), h.top, Option.bind_some, h.cnt, Option.bind_some]
    dsimp only
    rw [if_neg hoffs, if_neg (by omega), hnat, List.take_left, hstring, Option.bind_some, hentry,
      Option.bind_some, hcnt₂, Option.bind_some, hcnt, Option.bind_some, hpos₃, Option.bind_some,
      htop, Option.map_some]
  · rw [hold.length]
    omega
  · rw [List.length_append, List.length_singleton]
    exact hroom
  · rcases Nat.lt_or_ge i texts.length with hlt | hge
    · rw [List.getElem?_append_left hlt] at hi
      obtain ⟨o, ho, hop, hstr⟩ := h.entry i t hi
      refine ⟨o, ?_, by omega, hstr.outside hold hop⟩
      rw [u16_outside hhead (by omega), u16_outside hout₂ (by omega),
        u16_outside hout₁' (by omega), ho]
    · rw [List.getElem?_append_right hge] at hi
      obtain ⟨hzero, hget⟩ := List.getElem?_eq_some_iff.mp hi
      rw [List.length_singleton] at hzero
      have hi' : i = texts.length := by omega
      subst hi'
      simp only [Nat.sub_self, List.getElem_cons_zero] at hget
      subst hget
      refine ⟨pos - (cs.length + 1), ?_, le_refl _, (hat.outside hout₂ (by omega)).outside hhead
        (by omega)⟩
      rw [u16_outside hhead (by omega), hat₂, Nat.mod_eq_of_lt (by omega)]
  · intro t ht
    rcases List.mem_append.mp ht with ht | ht
    · exact h.plain t ht
    · rw [List.mem_singleton.mp ht]
      exact translate_plain hcs
  · exact h.nodup.append (List.nodup_singleton _) (List.disjoint_singleton.mpr hnew)
  · rw [h.cnt, Option.some.injEq] at hcnt'
    rw [outside_getElem? hhead (by omega), outside_getElem? hout₂ (by omega),
      outside_getElem? hout₁' (by omega)]
  · rw [h.top, Option.some.injEq] at hp
    exact hp ▸ hold.above
  · rw [hcnt₄, Option.some.injEq] at hcnt'
    rw [htop₄, Option.some.injEq] at hp
    rw [List.length_append, List.length_singleton] at hcnt'
    omega

end Pool

/-! ## Sequences of literals -/

/-- The buffer, and for the literals that were compiled what they mean and what their code pushes. -/
structure State where
  buf : List Nat
  done : List (List Nat × BitVec 32)

def step (st : State) (lit : Literal) : Option State :=
  (opPushString st.buf lit).map fun r =>
    ⟨r.2.2, st.done ++ ((execPush r.2.1).map fun v => (lit.translation, v)).toList⟩

/-- The buffer is full and nothing changes, or the index that the code pushes is that of the literal:
its text is the translation, it is the index of every equal literal before, and the texts of the
indices before stay. -/
def Right (st : State) (lit : Literal) : Prop :=
  ∃ ret code buf, opPushString st.buf lit = some (ret, code, buf) ∧
    ((ret = -errStrbufOverflow ∧ buf = st.buf) ∨
      ∃ v, 0 ≤ ret ∧ execPush code = some v ∧ str buf v = some lit.translation ∧
        (∀ p ∈ st.done, str buf p.2 = some p.1 ∧ (p.1 = lit.translation → p.2 = v)) ∧
        (buf = st.buf ∨ Confined st.buf buf))

/-- What the code relies on: less than 256 bytes, none of them zero; if the last one is a backslash
that escapes nothing, no string before begins with the literal; a new literal is not longer than all
the room, and either it is too long for the room between the strings and the table without the four
bytes of the counters, or it fits with them and is one of the first 128. -/
structure Fits (st : State) (lit : Literal) : Prop where
  short : lit.text.length < 256
  plain : 0 ∉ lit.text
  whole : dangling false lit.text = true → ∀ p ∈ st.done, ¬ lit.translation <+: p.1
  room : ∀ cnt pos, u16 st.buf 0 = some cnt → u16 st.buf 2 = some pos →
    (∀ p ∈ st.done, p.1 ≠ lit.translation) → lit.text.length < pos ∧
      (pos - (lit.text.length + 1) < 2 * (cnt + 1) ∨
        4 + 2 * (cnt + 1) ≤ pos - (lit.text.length + 1) ∧ cnt < 128)

/-- What holds before every literal. -/
structure Sound (st : State) (pos : Nat) (texts : List (List Nat)) : Prop
    extends Pool st.buf pos texts where
  few : texts.length ≤ 128
  indexed : ∀ p ∈ st.done, ∃ i, texts[i]? = some p.1 ∧ p.2 = BitVec.ofNat 32 i
  listed : ∀ t ∈ texts, ∃ p ∈ st.done, p.1 = t

theorem execPush_pushCode : ∀ i < 128, execPush (pushCode i) = some (BitVec.ofNat 32 i) := by
  decide

/-- The text of an index. -/
theorem Pool.str_eq {pos : Nat} {texts : List (List Nat)} (h : Pool buf pos texts) {i : Nat}
    {t : List Nat} (hi : texts[i]? = some t) (hlt : i < 2 ^ 32) :
    str buf (BitVec.ofNat 32 i) = some t := by
  obtain ⟨o, ho, -, rest, hrest⟩ := h.entry i t hi
  obtain ⟨hin, -⟩ := List.getElem?_eq_some_iff.mp hi
  have hplain := h.plain t (List.mem_of_getElem? hi)
  have hnat : (BitVec.ofNat 32 i).toNat = i := Nat.mod_eq_of_lt hlt
  have htake : (t ++ 0 :: rest).takeWhile (· ≠ 0) = t := by
    have hall : ∀ b ∈ t, decide (b ≠ 0) = true := by
      intro b hb
      refine decide_eq_true fun hzero => hplain ?_
      rwa [← hzero]
    rw [List.takeWhile_append_of_pos hall,
      List.takeWhile_cons_of_neg (by simp), List.append_nil]
  rw [str, h.cnt, Option.bind_some, hnat, if_neg (Nat.not_le.mpr hin), ho, Option.bind_some, hrest,
    if_pos (List.mem_append_right t List.mem_cons_self), htake]

variable {st st' : State} {pos : Nat} {texts : List (List Nat)} {lit : Literal}

theorem opPushString_eq {buf' : List Nat} {i : Nat} (hshort : lit.text.length < 256)
    (hadd : cstrAdd buf (lit.text ++ lit.qt :: lit.behind) lit.text.length = some ((i : Int), buf')) :
    opPushString buf lit = some ((i : Int), pushCode i, buf') := by
  have hqlf : lit.qlf = lit.text.length := Nat.mod_eq_of_lt hshort
  rw [opPushString, hqlf, Literal.src, hadd, Option.map_some]
  exact congrArg some (if_neg (Int.not_lt.mpr (Int.natCast_nonneg i)))

/-- A literal that fits is right, and what holds before it holds behind it. -/
theorem fits_spec (h : Sound st pos texts) (hfits : Fits st lit) :
    Right st lit ∧ ∃ st' pos' texts', step st lit = some st' ∧ Sound st' pos' texts' := by
  have hwhole : dangling false lit.text = true → ∀ t ∈ texts, ¬ translate false lit.text <+: t := by
    intro hd t ht
    obtain ⟨p, hp, rfl⟩ := h.listed t ht
    exact hfits.whole hd p hp
  have hstr : ∀ {buf' : List Nat} {pos' : Nat} {texts' : List (List Nat)}, Pool buf' pos' texts' →
      texts'.length ≤ 129 → ∀ {i : Nat} {t : List Nat}, texts'[i]? = some t →
        str buf' (BitVec.ofNat 32 i) = some t := by
    intro buf' pos' texts' hpool hfew i t hi
    obtain ⟨hin, -⟩ := List.getElem?_eq_some_iff.mp hi
    exact hpool.str_eq hi (by omega)
  by_cases hmem : translate false lit.text ∈ texts
  · obtain ⟨i, hi⟩ := List.mem_iff_getElem?.mp hmem
    obtain ⟨hin, hget⟩ := List.getElem?_eq_some_iff.mp hi
    have hfew := h.few
    have hpush := opPushString_eq hfits.short (h.cstrAdd_found (lit.qt :: lit.behind) hfits.plain
      hfits.short hwhole hi)
    have hexec := execPush_pushCode i (by omega)
    refine ⟨⟨_, _, _, hpush, Or.inr ⟨_, Int.natCast_nonneg i, hexec, hstr h.toPool (by omega) hi,
      fun p hp => ?_, Or.inl rfl⟩⟩, ⟨st.buf, st.done ++ [(lit.translation, BitVec.ofNat 32 i)]⟩, pos,
      texts, ?_, h.toPool, h.few, fun p hp => ?_, fun t ht => ?_⟩
    · obtain ⟨j, hj, hv⟩ := h.indexed p hp
      refine ⟨hv ▸ hstr h.toPool (by omega) hj, fun heq => ?_⟩
      obtain ⟨hjn, hjget⟩ := List.getElem?_eq_some_iff.mp hj
      have hij : j = i := h.nodup.getElem_inj_iff.mp (hjget.trans (heq.trans hget.symm))
      rw [hv, hij]
    · rw [step, hpush, Option.map_some, hexec]
      rfl
    · rcases List.mem_append.mp hp with hp | hp
      · exact h.indexed p hp
      · obtain rfl := List.mem_singleton.mp hp
        exact ⟨i, hi, rfl⟩
    · obtain ⟨p, hp, heq⟩ := h.listed t ht
      exact ⟨p, List.mem_append_left _ hp, heq⟩
  · have hnew : ∀ p ∈ st.done, p.1 ≠ lit.translation := by
      intro p hp heq
      obtain ⟨i, hi, -⟩ := h.indexed p hp
      rw [heq] at hi
      exact hmem (List.mem_of_getElem? hi)
    obtain ⟨hpos, hroom⟩ := hfits.room _ _ h.cnt h.top hnew
    rcases hroom with hfull | ⟨hroom, hcnt⟩
    · have hadd := h.cstrAdd_refused (lit.qt :: lit.behind) hfits.plain hfits.short hwhole hmem hpos
        hfull
      have hpush : opPushString st.buf lit = some (-errStrbufOverflow, [], st.buf) := by
        have hqlf : lit.qlf = lit.text.length := Nat.mod_eq_of_lt hfits.short
        rw [opPushString, hqlf, Literal.src, hadd, Option.map_some]
        exact congrArg some (if_pos (show -errStrbufOverflow < 0 by decide))
      refine ⟨⟨_, _, _, hpush, Or.inl ⟨rfl, rfl⟩⟩, st, pos, texts, ?_, h⟩
      rw [step, hpush, Option.map_some]
      show some (State.mk st.buf (st.done ++ [])) = some st
      rw [List.append_nil]
    · obtain ⟨buf', hadd, hpool, hconf⟩ := h.cstrAdd_stored (lit.qt :: lit.behind) hfits.plain
        hfits.short hwhole lit.bytes hmem hpos hroom
      have hpush := opPushString_eq hfits.short hadd
      have hexec := execPush_pushCode texts.length hcnt
      have hlast : (texts ++ [translate false lit.text])[texts.length]? = some lit.translation :=
        List.getElem?_concat_length
      have hlen : (texts ++ [translate false lit.text]).length = texts.length + 1 := by
        rw [List.length_append, List.length_singleton]
      have hold : ∀ p ∈ st.done, ∃ j, (texts ++ [translate false lit.text])[j]? = some p.1 ∧
          p.2 = BitVec.ofNat 32 j := by
        intro p hp
        obtain ⟨j, hj, hv⟩ := h.indexed p hp
        obtain ⟨hjn, -⟩ := List.getElem?_eq_some_iff.mp hj
        exact ⟨j, (List.getElem?_append_left hjn).trans hj, hv⟩
      refine ⟨⟨_, _, _, hpush, Or.inr ⟨_, Int.natCast_nonneg _, hexec,
        hstr hpool (by omega) hlast, fun p hp => ?_, Or.inr hconf⟩⟩,
        ⟨buf', st.done ++ [(lit.translation, BitVec.ofNat 32 texts.length)]⟩, _, _, ?_, hpool,
        by omega, fun p hp => ?_, fun t ht => ?_⟩
      · obtain ⟨j, hj, hv⟩ := hold p hp
        exact ⟨hv ▸ hstr hpool (by omega) hj, fun heq => absurd heq (hnew p hp)⟩
      · rw [step, hpush, Option.map_some]
        dsimp only
        rw [hexec]
        rfl
      · rcases List.mem_append.mp hp with hp | hp
        · exact hold p hp
        · obtain rfl := List.mem_singleton.mp hp
          exact ⟨texts.length, hlast, rfl⟩
      · rcases List.mem_append.mp ht with ht | ht
        · obtain ⟨p, hp, heq⟩ := h.listed t ht
          exact ⟨p, List.mem_append_left _ hp, heq⟩
        · exact ⟨_, List.mem_append_right _ List.mem_cons_self, (List.mem_singleton.mp ht).symm⟩

/-- `strbuf_init` stays in a buffer of six bytes or more. -/
theorem strbufInit_sound (hlen : 6 ≤ buf.length) :
    ∃ buf', strbufInit buf buf.length = some buf' ∧
      Sound ⟨buf', []⟩ (buf.length % 65536) [] := by
  obtain ⟨buf₁, htop, hout₁, hat₁⟩ := @setU16_spec buf 2 buf.length (by omega)
  obtain ⟨buf₂, hcnt, hout₂, hat₂⟩ := @setU16_spec buf₁ 0 0 (by rw [hout₁.length]; omega)
  obtain ⟨buf₃, hoffs, hout₃, -⟩ := @setU16_spec buf₂ 4 0
    (by rw [hout₂.length, hout₁.length]; omega)
  refine ⟨buf₃, ?_, ⟨⟨?_, ?_, ?_, ?_, ?_, ?_, ?_, ?_⟩, ?_, ?_, ?_⟩⟩
  · rw [strbufInit, htop, Option.bind_some, hcnt, Option.bind_some, hoffs]
  · show u16 buf₃ 0 = some 0
    rw [u16_outside hout₃ (by omega), hat₂]
  · show u16 buf₃ 2 = _
    rw [u16_outside hout₃ (by omega), u16_outside hout₂ (by omega), hat₁]
  · show buf.length % 65536 ≤ buf₃.length
    rw [hout₃.length, hout₂.length, hout₁.length]
    exact Nat.mod_le _ _
  · exact Nat.mod_lt _ (by decide)
  · exact fun h => absurd rfl h
  · exact fun i t hi => by cases hi
  · exact fun t ht => absurd ht List.not_mem_nil
  · exact List.nodup_nil
  · exact Nat.zero_le _
  · exact fun p hp => absurd hp List.not_mem_nil
  · exact fun t ht => absurd ht List.not_mem_nil

theorem Sound.along_right (h : Sound st pos texts) (lits : List Literal)
    (hfits : Lib.Along step Fits st lits) : Lib.Along step Right st lits := by
  induction lits generalizing st pos texts with
  | nil => trivial
  | cons lit lits ih =>
      obtain ⟨hright, st₁, pos₁, texts₁, hstep, hsound⟩ := fits_spec h hfits.1
      refine ⟨hright, fun st₂ hst₂ => ?_⟩
      obtain rfl := Option.some.inj (hstep.symm.trans hst₂)
      exact ih hsound (hfits.2 _ hst₂)

/-- While the literals are such that the code gets them right, every index leads to its text. -/
theorem literals_right {buf : List Nat} (hlen : 6 ≤ buf.length) :
    ∃ buf', strbufInit buf buf.length = some buf' ∧ ∀ lits : List Literal,
      Lib.Along step Fits ⟨buf', []⟩ lits → Lib.Along step Right ⟨buf', []⟩ lits := by
  obtain ⟨buf', hinit, hsound⟩ := strbufInit_sound hlen
  exact ⟨buf', hinit, hsound.along_right⟩

/-- `a\n`, in double quotes. -/
def newline : Literal := ⟨[97, 92, 110], 34, [], Or.inr rfl, by decide, by decide⟩

/-- A buffer of 16 bytes behind `strbuf_init`. -/
def emptyBuf : List Nat := [0, 0, 16, 0, 0, 0, 0, 0, 0, 0, 0, 0, 0, 0, 0, 0]

theorem literals_right_newline : Lib.Along step Right ⟨emptyBuf, []⟩ [newline, newline] := by
  obtain ⟨buf', hinit, hrun⟩ := literals_right (show 6 ≤ (List.replicate 16 0).length by decide)
  obtain rfl := Option.some.inj hinit
  refine hrun [newline, newline] ⟨⟨by decide, by decide, nofun, ?_⟩, fun st hst => ?_⟩
  · intro cnt pos hcnt hpos _
    cases hcnt
    cases hpos
    decide
  · obtain rfl := Option.some.inj hst
    exact ⟨⟨by decide, by decide, nofun, fun _ _ _ _ hnew => absurd rfl (hnew _ List.mem_cons_self)⟩,
      fun _ _ => trivial⟩

/-- Twenty letters. -/
def letters : Literal := ⟨List.replicate 20 97, 34, [], Or.inr rfl, by decide, by decide⟩

/-- A literal that is longer than the room: the test for the room takes its negative offset for a
large one, and the string is stored before the buffer. -/
theorem letters_not_right :
    strbufInit (List.replicate 16 0) 16 = some emptyBuf ∧
      ¬ Lib.Along step Right ⟨emptyBuf, []⟩ [letters] := by
  refine ⟨rfl, ?_⟩
  rintro ⟨⟨ret, code, buf, hpush, -⟩, -⟩
  cases hpush

end YardIce.MicroJs.Strbuf
