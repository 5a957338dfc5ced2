import YardIce.MicroJs.JsonRoundTrip

/-!
# Attributes of objects

`microjs_json_parse_obj` goes through the members of an object and calls the parsers of an
attribute table. It passes over the values of the members that the table does not have, with
the objects and the arrays in them.

## Implementation notes

The loops of the two functions call each other; each turn of a loop takes one unit of fuel, and
so does each call. The memory that the attribute parsers write is a parameter.
-/

namespace YardIce.MicroJs.Json

/-- `struct microjs_attr_desc`. A parser gets the value, `opt` and the place it stores to. -/
structure Desc (μ : Type*) where
  key : List Nat
  type : Nat
  opt : Nat
  offs : Nat
  parse : Parser → Val → Nat → Nat → μ → Option (Int × Parser × μ)

/-- `val.lbl.sz`. -/
def Val.sz : Val → Option (List Nat)
  | .lbl sz _ => sz
  | _ => Option.none

section

variable {μ : Type*}

/-- The loop over a table, which ends before the first entry without a parser. -/
def lookup (desc : List (Desc μ)) (sz : Option (List Nat)) : Option (Desc μ) :=
  sz.bind fun name => desc.find? (·.key = name)

mutual

/-- The loop of `microjs_json_parse_array`. -/
def arrayLoop (lim : Limits) : Nat → Parser → μ → Option (Parser × μ)
  | 0, _, _ => none
  | fuel + 1, jsn, m =>
      (microjsJsonGetVal lim jsn).bind fun r =>
        if r.1.1 = typEndArray then some (r.2, m)
        else
          (if r.1.1 = typArray then arrayLoop lim fuel r.2 m
           else if r.1.1 = typObject then (objLoop lim fuel [] 0 0 r.2 m).map Prod.snd
           else some (r.2, m)).bind fun next => arrayLoop lim fuel next.1 next.2

/-- The loop of `microjs_json_parse_obj`, after `cnt` members. -/
def objLoop (lim : Limits) : Nat → List (Desc μ) → Nat → Int → Parser → μ →
    Option (Int × Parser × μ)
  | 0, _, _, _, _, _ => none
  | fuel + 1, desc, ptr, cnt, jsn, m =>
      (microjsJsonGetVal lim jsn).bind fun r =>
        if r.1.1 = typLabel then
          match lookup desc r.1.2.sz with
          | some d =>
              (microjsJsonGetVal lim r.2).bind fun r =>
                if r.1.1 ≠ d.type then some (-1, r.2, m)
                else
                  (d.parse r.2 r.1.2 d.opt (ptr + d.offs) m).bind fun next =>
                    if next.1 < 0 then some (-1, next.2)
                    else objLoop lim fuel desc ptr (cnt + 1) next.2.1 next.2.2
          | none =>
              (microjsJsonGetVal lim r.2).bind fun r =>
                (if r.1.1 = typArray then arrayLoop lim fuel r.2 m
                 else if r.1.1 = typObject then (objLoop lim fuel [] 0 0 r.2 m).map Prod.snd
                 else some (r.2, m)).bind fun next =>
                  objLoop lim fuel desc ptr (cnt + 1) next.1 next.2
        else if r.1.1 = typEndObject then some (cnt, r.2, m)
        else if r.1.1 = tokStop then some (cnt, r.2, m)
        else some (-1, r.2, m)

end

/-- `microjs_json_parse_obj`, with fuel for its loops. -/
def microjsJsonParseObj (lim : Limits) (fuel : Nat) (jsn : Parser) (desc : List (Desc μ))
    (ptr : Nat) (m : μ) : Option (Int × Parser × μ) := objLoop lim fuel desc ptr 0 jsn m

/-- What both loops do with a value that has no parser, after its first token. -/
def skipValue (lim : Limits) (fuel typ : Nat) (jsn : Parser) (m : μ) : Option (Parser × μ) :=
  if typ = typArray then arrayLoop lim fuel jsn m
  else if typ = typObject then (objLoop lim fuel [] 0 0 jsn m).map Prod.snd
  else some (jsn, m)

end

/-! ## Objects -/

/-- What `microjs_json_get_val` gives for a value, for the elements of an array and for the members
of an object. -/
inductive Reads : Part → List (Nat × Val) → Prop
  | scalar {typ : Nat} {val : Val} (h : typ ∈ [typNull, typBoolean, typInteger, typString]) :
      Reads .value [(typ, val)]
  | array {vs : List (Nat × Val)} (h : Reads .elements vs) :
      Reads .value ((typArray, .none) :: (vs ++ [(typEndArray, .none)]))
  | object {vs : List (Nat × Val)} (h : Reads .members vs) :
      Reads .value ((typObject, .none) :: (vs ++ [(typEndObject, .none)]))
  | noElements : Reads .elements []
  | element {vs ws : List (Nat × Val)} (h : Reads .value vs) (h' : Reads .elements ws) :
      Reads .elements (vs ++ ws)
  | noMembers : Reads .members []
  | member {sz : Option (List Nat)} {id : Nat} {vs ws : List (Nat × Val)} (h : Reads .value vs)
      (h' : Reads .members ws) : Reads .members ((typLabel, .lbl sz id) :: (vs ++ ws))

/-- The parser gives the results, one by one, and becomes `jsn'`. -/
def Gives (lim : Limits) : Parser → List (Nat × Val) → Parser → Prop
  | jsn, [], jsn' => jsn = jsn'
  | jsn, v :: vs, jsn' => ∃ next, microjsJsonGetVal lim jsn = some (v, next) ∧ Gives lim next vs jsn'

section

variable {lim : Limits} {jsn jsn' : Parser}

theorem gives_append {vs ws : List (Nat × Val)} : ∀ {jsn : Parser},
    Gives lim jsn (vs ++ ws) jsn' ↔ ∃ mid, Gives lim jsn vs mid ∧ Gives lim mid ws jsn' := by
  induction vs with
  | nil =>
      intro jsn
      constructor
      · exact fun h => ⟨jsn, rfl, h⟩
      · rintro ⟨mid, rfl, h⟩
        exact h
  | cons v vs ih =>
      intro jsn
      constructor
      · rintro ⟨next, hnext, h⟩
        obtain ⟨mid, hvs, hws⟩ := ih.mp h
        exact ⟨mid, ⟨next, hnext, hvs⟩, hws⟩
      · rintro ⟨mid, ⟨next, hnext, hvs⟩, hws⟩
        exact ⟨next, hnext, ih.mpr ⟨mid, hvs, hws⟩⟩

/-- The first token of a value is no bracket that closes and no label. -/
def Begins (typ : Nat) : Prop :=
  typ ∈ [typNull, typBoolean, typInteger, typString, typArray, typObject]

theorem Begins.ne {typ : Nat} (h : Begins typ) : typ ≠ typEndArray ∧ typ ≠ typLabel := by
  unfold Begins at h
  revert typ
  decide

/-! ## Values that are passed over -/

variable {μ : Type*}

variable (lim μ) in
/-- What the loops do with the results of a part of a text. -/
def Skips : Part → List (Nat × Val) → Prop
  | .value, vs => ∃ typ val rest, vs = (typ, val) :: rest ∧ Begins typ ∧
      ∀ (fuel : Nat) (jsn jsn' : Parser) (m : μ), Gives lim jsn rest jsn' → rest.length < fuel →
        skipValue lim fuel typ jsn m = some (jsn', m)
  | .elements, vs => ∀ (fuel : Nat) (jsn jsn' : Parser) (m : μ), Gives lim jsn vs jsn' →
      vs.length < fuel → ∃ fuel', fuel ≤ fuel' + vs.length ∧
        arrayLoop lim fuel jsn m = arrayLoop lim fuel' jsn' m
  | .members, vs => ∀ (fuel : Nat) (cnt : Int) (jsn jsn' : Parser) (m : μ), Gives lim jsn vs jsn' →
      vs.length < fuel → ∃ fuel' cnt', fuel ≤ fuel' + vs.length ∧
        objLoop lim fuel [] 0 cnt jsn m = objLoop lim fuel' [] 0 cnt' jsn' m

/-- A turn of the loop over an array. -/
theorem arrayLoop_turn {fuel typ : Nat} {val : Val} {next : Parser} (m : μ)
    (hget : microjsJsonGetVal lim jsn = some ((typ, val), next)) (htyp : typ ≠ typEndArray) :
    arrayLoop lim (fuel + 1) jsn m =
      (skipValue lim fuel typ next m).bind fun s => arrayLoop lim fuel s.1 s.2 := by
  rw [arrayLoop, hget, Option.bind_some, if_neg htyp]
  rfl

theorem arrayLoop_end {fuel : Nat} {val : Val} (m : μ)
    (hget : microjsJsonGetVal lim jsn = some ((typEndArray, val), jsn')) :
    arrayLoop lim (fuel + 1) jsn m = some (jsn', m) := by
  rw [arrayLoop, hget, Option.bind_some, if_pos rfl]

/-- A turn of the loop over an object, on a member that is not in the table. -/
theorem objLoop_skip {desc : List (Desc μ)} {fuel ptr typ id : Nat} {cnt : Int}
    {sz : Option (List Nat)} {val : Val} {next next' : Parser} (m : μ)
    (hlabel : microjsJsonGetVal lim jsn = some ((typLabel, .lbl sz id), next))
    (hnone : lookup desc sz = none)
    (hget : microjsJsonGetVal lim next = some ((typ, val), next')) :
    objLoop lim (fuel + 1) desc ptr cnt jsn m =
      (skipValue lim fuel typ next' m).bind fun s => objLoop lim fuel desc ptr (cnt + 1) s.1 s.2 := by
  rw [objLoop, hlabel, Option.bind_some, if_pos rfl]
  show (match lookup desc sz with | some d => _ | none => _) = _
  rw [hnone]
  show (microjsJsonGetVal lim next).bind _ = _
  rw [hget, Option.bind_some]
  rfl

theorem objLoop_end {desc : List (Desc μ)} {fuel ptr : Nat} {cnt : Int} {val : Val} (m : μ)
    (hget : microjsJsonGetVal lim jsn = some ((typEndObject, val), jsn')) :
    objLoop lim (fuel + 1) desc ptr cnt jsn m = some (cnt, jsn', m) := by
  rw [objLoop, hget, Option.bind_some, if_neg (show ¬ typEndObject = typLabel by decide), if_pos rfl]

variable (lim μ) in
/-- Values are passed over whole, whatever is in them. -/
theorem Reads.skips {part : Part} {vs : List (Nat × Val)} (h : Reads part vs) :
    Skips lim μ part vs := by
  induction h with
  | @scalar typ val htyp =>
      refine ⟨typ, val, [], rfl, ?_, ?_⟩
      · unfold Begins
        revert typ
        decide
      · intro fuel jsn jsn' m hgives _
        obtain rfl : jsn = jsn' := hgives
        unfold skipValue
        rw [if_neg (by revert typ; decide), if_neg (by revert typ; decide)]
  | @array vs _ ih =>
      refine ⟨typArray, .none, _, rfl, by unfold Begins; decide, ?_⟩
      intro fuel jsn jsn' m hgives hfuel
      rw [List.length_append, List.length_singleton] at hfuel
      obtain ⟨mid, hvs, last, hlast, rfl⟩ := gives_append.mp hgives
      obtain ⟨fuel', hle, hloop⟩ := ih fuel jsn mid m hvs (by omega)
      obtain ⟨fuel', rfl⟩ : ∃ k, fuel' = k + 1 := ⟨fuel' - 1, by omega⟩
      unfold skipValue
      rw [if_pos rfl, hloop, arrayLoop_end m hlast]
  | @object vs _ ih =>
      refine ⟨typObject, .none, _, rfl, by unfold Begins; decide, ?_⟩
      intro fuel jsn jsn' m hgives hfuel
      rw [List.length_append, List.length_singleton] at hfuel
      obtain ⟨mid, hvs, last, hlast, rfl⟩ := gives_append.mp hgives
      obtain ⟨fuel', cnt', hle, hloop⟩ := ih fuel 0 jsn mid m hvs (by omega)
      obtain ⟨fuel', rfl⟩ : ∃ k, fuel' = k + 1 := ⟨fuel' - 1, by omega⟩
      unfold skipValue
      rw [if_neg (by decide), if_pos rfl, hloop, objLoop_end m hlast]
      rfl
  | noElements =>
      intro fuel jsn jsn' m hgives _
      obtain rfl : jsn = jsn' := hgives
      exact ⟨fuel, Nat.le_add_right _ _, rfl⟩
  | @element vs ws _ _ ih ih' =>
      intro fuel jsn jsn' m hgives hfuel
      obtain ⟨typ, val, rest, rfl, hbegins, hskip⟩ := ih
      obtain ⟨mid, ⟨next, hget, hrest⟩, hws⟩ := gives_append.mp hgives
      rw [List.length_append, List.length_cons] at hfuel ⊢
      obtain ⟨fuel, rfl⟩ : ∃ k, fuel = k + 1 := ⟨fuel - 1, by omega⟩
      obtain ⟨fuel', hle, hloop⟩ := ih' fuel mid jsn' m hws (by omega)
      refine ⟨fuel', by omega, ?_⟩
      rw [arrayLoop_turn m hget hbegins.ne.1, hskip fuel next mid m hrest (by omega),
        Option.bind_some, hloop]
  | noMembers =>
      intro fuel cnt jsn jsn' m hgives _
      obtain rfl : jsn = jsn' := hgives
      exact ⟨fuel, cnt, Nat.le_add_right _ _, rfl⟩
  | @member sz id vs ws _ _ ih ih' =>
      intro fuel cnt jsn jsn' m hgives hfuel
      obtain ⟨typ, val, rest, rfl, hbegins, hskip⟩ := ih
      obtain ⟨first, hlabel, hgives⟩ := hgives
      obtain ⟨mid, ⟨next, hget, hrest⟩, hws⟩ := gives_append.mp hgives
      rw [List.length_cons, List.length_append, List.length_cons] at hfuel ⊢
      obtain ⟨fuel, rfl⟩ : ∃ k, fuel = k + 1 := ⟨fuel - 1, by omega⟩
      obtain ⟨fuel', cnt', hle, hloop⟩ := ih' fuel (cnt + 1) mid jsn' m hws (by omega)
      refine ⟨fuel', cnt', by omega, ?_⟩
      have hnone : lookup ([] : List (Desc μ)) sz = none := by
        cases sz with
        | none => rfl
        | some name => rfl
      rw [objLoop_skip m hlabel hnone hget, hskip fuel next mid m hrest (by omega),
        Option.bind_some, hloop]

end

/-! ## Members and their parsers -/

/-- A member of an object, with the results for its value. -/
structure Member where
  sz : Option (List Nat)
  id : Nat
  typ : Nat
  val : Val
  rest : List (Nat × Val)
  reads : Reads .value ((typ, val) :: rest)

/-- The results for the key and the value. -/
def Member.results (mem : Member) : List (Nat × Val) :=
  (typLabel, .lbl mem.sz mem.id) :: (mem.typ, mem.val) :: mem.rest

/-- The results for an object behind its opening brace. -/
def objectResults (ms : List Member) : List (Nat × Val) :=
  ms.flatMap Member.results ++ [(typEndObject, .none)]

section

variable {μ : Type*} (lim : Limits) (ptr : Nat)

/-- The call of a parser: it is made behind the first token of the value. -/
def Desc.call (d : Desc μ) (mem : Member) (jsn : Parser) (m : μ) : Option (Int × Parser × μ) :=
  d.parse jsn mem.val d.opt (ptr + d.offs) m

/-- A parser that ends well has read the rest of the value. -/
def Desc.Takes (d : Desc μ) (mem : Member) : Prop :=
  ∀ (jsn jsn' : Parser) (m : μ), Gives lim jsn mem.rest jsn' →
    ∃ r last m', d.call ptr mem jsn m = some (r, last, m') ∧ (0 ≤ r → last = jsn')

end

/-! ## The parser of byte arrays -/

/-- `val->u32`; it is read only from the value of an integer. -/
def Val.toNat : Val → Nat
  | .u32 x => x.toNat
  | _ => 0

/-- The loop of `microjs_array_u8_enc`, after `n` bytes stored from `p` on. -/
def arrayU8Loop (lim : Limits) (len p : Nat) : Nat → Nat → Parser → (Nat → Nat) →
    Option (Int × Parser × (Nat → Nat))
  | 0, _, _, _ => none
  | fuel + 1, n, jsn, m =>
      (microjsJsonGetVal lim jsn).bind fun r =>
        if r.1.1 = typInteger then
          if n < len then
            arrayU8Loop lim len p fuel (n + 1) r.2
              (Function.update m (p + n) (r.1.2.toNat % 256))
          else arrayU8Loop lim len p fuel n r.2 m
        else some (if r.1.1 = typEndArray then (n : Int) else -1, r.2, m)

/-- `microjs_array_u8_enc`, with fuel for its loop. -/
def microjsArrayU8Enc (lim : Limits) (fuel : Nat) (jsn : Parser) (_val : Val) (len p : Nat)
    (m : Nat → Nat) : Option (Int × Parser × (Nat → Nat)) := arrayU8Loop lim len p fuel 0 jsn m

section

variable {lim : Limits} {jsn jsn' : Parser}

/-- The loop stops at the bracket, or at an element that is no integer. -/
theorem arrayU8Loop_elements {part : Part} {vs : List (Nat × Val)} (h : Reads part vs)
    (hpart : part = .elements) (len p : Nat) : ∀ {jsn : Parser} (fuel n : Nat) (m : Nat → Nat),
      Gives lim jsn (vs ++ [(typEndArray, .none)]) jsn' → vs.length + 1 < fuel →
        ∃ r last m', arrayU8Loop lim len p fuel n jsn m = some (r, last, m') ∧
          (0 ≤ r → last = jsn') := by
  induction h with
  | scalar | array | object | noMembers | member => cases hpart
  | noElements =>
      rintro jsn fuel n m ⟨last, hlast, rfl⟩ hfuel
      obtain ⟨fuel, rfl⟩ : ∃ k, fuel = k + 1 := ⟨fuel - 1, by omega⟩
      refine ⟨n, last, m, ?_, fun _ => rfl⟩
      rw [arrayU8Loop, hlast, Option.bind_some, if_neg (show ¬ typEndArray = typInteger by decide),
        if_pos rfl]
  | @element vs ws hvs _ _ ih =>
      intro jsn fuel n m hgives hfuel
      obtain ⟨fuel, rfl⟩ : ∃ k, fuel = k + 1 := ⟨fuel - 1, by omega⟩
      obtain ⟨typ, val, rest, rfl, hbegins, -⟩ := hvs.skips lim Unit
      rw [List.append_assoc] at hgives
      obtain ⟨mid, ⟨next, hget, hrest⟩, hws⟩ := gives_append.mp hgives
      rw [List.length_append, List.length_cons] at hfuel
      rw [arrayU8Loop, hget, Option.bind_some]
      dsimp only
      by_cases htyp : typ = typInteger
      · subst htyp
        obtain rfl : rest = [] := by
          cases hvs with
          | scalar => rfl
        obtain rfl : next = mid := hrest
        rw [if_pos rfl]
        split_ifs
        · exact ih rfl fuel _ _ hws (by omega)
        · exact ih rfl fuel _ _ hws (by omega)
      · rw [if_neg htyp, if_neg hbegins.ne.1]
        exact ⟨-1, next, m, rfl, fun hr => absurd hr (by decide)⟩

/-- It takes every array. -/
theorem microjsArrayU8Enc_takes {d : Desc (Nat → Nat)} {fuel : Nat}
    (hparse : d.parse = microjsArrayU8Enc lim fuel) (ptr : Nat) {mem : Member}
    (htyp : mem.typ = typArray) (hfuel : mem.rest.length < fuel) : d.Takes lim ptr mem := by
  obtain ⟨sz, id, typ, val, rest, hreads⟩ := mem
  obtain rfl : typ = typArray := htyp
  intro jsn jsn' m hgives
  unfold Desc.call
  rw [hparse]
  cases hreads with
  | scalar h => exact absurd h (by decide)
  | @array vs hvs =>
      have hfuel' : (vs ++ [(typEndArray, Val.none)]).length < fuel := hfuel
      rw [List.length_append, List.length_singleton] at hfuel'
      exact arrayU8Loop_elements hvs rfl _ _ fuel 0 m hgives hfuel'

end

/-! ## Texts -/

/-! ## Calls -/

section

variable {μ : Type*} (lim : Limits) (desc : List (Desc μ)) (ptr : Nat)

/-- What is done with the members of an object, from the first one on: a member that is not in the
table is passed over; for one with the key and the type of an entry the parser is called once, where
its value begins; a member with the key of an entry and another type, or an error of a parser, is
the end, and the result is `false`. -/
inductive Delivered : List Member → Parser → μ → Bool → μ → Prop
  | nil {jsn : Parser} {m : μ} : Delivered [] jsn m true m
  | skipped {mem : Member} {ms : List Member} {jsn jsn' : Parser} {m m' : μ} {ok : Bool}
      (hnone : lookup desc mem.sz = none) (hgives : Gives lim jsn mem.results jsn')
      (h : Delivered ms jsn' m ok m') : Delivered (mem :: ms) jsn m ok m'
  | called {mem : Member} {ms : List Member} {d : Desc μ} {jsn jsn' last : Parser} {m m₁ m' : μ}
      {r : Int} {ok : Bool} (hsome : lookup desc mem.sz = some d) (htyp : mem.typ = d.type)
      (hhead : Gives lim jsn [(typLabel, .lbl mem.sz mem.id), (mem.typ, mem.val)] jsn')
      (hcall : d.call ptr mem jsn' m = some (r, last, m₁)) (hr : 0 ≤ r)
      (hgives : Gives lim jsn' mem.rest last) (h : Delivered ms last m₁ ok m') :
      Delivered (mem :: ms) jsn m ok m'
  | mismatch {mem : Member} {ms : List Member} {d : Desc μ} {jsn : Parser} {m : μ}
      (hsome : lookup desc mem.sz = some d) (htyp : mem.typ ≠ d.type) :
      Delivered (mem :: ms) jsn m false m
  | failed {mem : Member} {ms : List Member} {d : Desc μ} {jsn jsn' last : Parser} {m m' : μ}
      {r : Int} (hsome : lookup desc mem.sz = some d) (htyp : mem.typ = d.type)
      (hhead : Gives lim jsn [(typLabel, .lbl mem.sz mem.id), (mem.typ, mem.val)] jsn')
      (hcall : d.call ptr mem jsn' m = some (r, last, m')) (hr : r < 0) :
      Delivered (mem :: ms) jsn m false m'

variable {lim desc ptr} {jsn jsn' : Parser}

/-- A turn of the loop over an object, on a member that is in the table. -/
theorem objLoop_listed {fuel : Nat} {cnt : Int} {mem : Member} {d : Desc μ} {next next' : Parser}
    (m : μ) (hlabel : microjsJsonGetVal lim jsn = some ((typLabel, .lbl mem.sz mem.id), next))
    (hsome : lookup desc mem.sz = some d)
    (hget : microjsJsonGetVal lim next = some ((mem.typ, mem.val), next')) :
    objLoop lim (fuel + 1) desc ptr cnt jsn m =
      if mem.typ ≠ d.type then some (-1, next', m)
      else
        (d.call ptr mem next' m).bind fun s =>
          if s.1 < 0 then some (-1, s.2) else objLoop lim fuel desc ptr (cnt + 1) s.2.1 s.2.2 := by
  rw [objLoop, hlabel, Option.bind_some, if_pos rfl]
  show (match lookup desc mem.sz with | some d => _ | none => _) = _
  rw [hsome]
  show (microjsJsonGetVal lim next).bind _ = _
  rw [hget, Option.bind_some]
  rfl

/-- The loop gets the count of the members and the closing brace, or gives up. -/
theorem objLoop_delivers {ms : List Member}
    (htakes : ∀ mem ∈ ms, ∀ d, lookup desc mem.sz = some d → mem.typ = d.type → d.Takes lim ptr mem) :
    ∀ {jsn : Parser} (fuel : Nat) (cnt : Int) (m : μ), Gives lim jsn (objectResults ms) jsn' →
      (objectResults ms).length < fuel → ∃ ok m' last,
        objLoop lim fuel desc ptr cnt jsn m = some (if ok then cnt + ms.length else -1, last, m') ∧
          Delivered lim desc ptr ms jsn m ok m' ∧ (ok = true → last = jsn') := by
  induction ms with
  | nil =>
      rintro jsn fuel cnt m ⟨last, hlast, rfl⟩ hfuel
      obtain ⟨fuel, rfl⟩ : ∃ k, fuel = k + 1 := ⟨fuel - 1, by omega⟩
      refine ⟨true, m, last, ?_, .nil, fun _ => rfl⟩
      rw [objLoop_end m hlast]
      simp only [if_true, List.length_nil, Nat.cast_zero, add_zero]
  | cons mem ms ih =>
      intro jsn fuel cnt m hgives hfuel
      have hsplit : objectResults (mem :: ms) = mem.results ++ objectResults ms := by
        unfold objectResults
        rw [List.flatMap_cons, List.append_assoc]
      rw [hsplit] at hgives hfuel
      rw [List.length_append] at hfuel
      obtain ⟨mid, hmem, hms⟩ := gives_append.mp hgives
      have hlen : mem.results.length = mem.rest.length + 2 := rfl
      obtain ⟨fuel, rfl⟩ : ∃ k, fuel = k + 1 := ⟨fuel - 1, by omega⟩
      have hmem' := hmem
      obtain ⟨next, hlabel, next', hget, hrest⟩ := hmem
      have htail : ∀ {jsn₁ : Parser} (m₁ : μ), jsn₁ = mid → ∃ ok m' last,
          objLoop lim fuel desc ptr (cnt + 1) jsn₁ m₁ =
              some (if ok then cnt + (mem :: ms).length else -1, last, m') ∧
            Delivered lim desc ptr ms jsn₁ m₁ ok m' ∧ (ok = true → last = jsn') := by
        rintro jsn₁ m₁ rfl
        obtain ⟨ok, m', last, hloop, hdelivered, hlast⟩ :=
          ih (fun mem' hmem' => htakes mem' (List.mem_cons_of_mem _ hmem')) fuel (cnt + 1) m₁ hms
            (by omega)
        refine ⟨ok, m', last, ?_, hdelivered, hlast⟩
        rw [hloop, List.length_cons, Nat.cast_succ, add_assoc, add_comm 1]
      cases hlook : lookup desc mem.sz with
      | none =>
          obtain ⟨ok, m', last, hloop, hdelivered, hlast⟩ := htail m rfl
          refine ⟨ok, m', last, ?_, .skipped hlook hmem' hdelivered, hlast⟩
          obtain ⟨typ, val, rest, heq, -, hskip⟩ := mem.reads.skips lim μ
          obtain ⟨hhead, rfl⟩ := List.cons.inj heq
          obtain ⟨rfl, rfl⟩ := Prod.mk.inj hhead
          rw [objLoop_skip m hlabel hlook hget, hskip fuel next' mid m hrest (by omega),
            Option.bind_some, hloop]
      | some d =>
          rw [objLoop_listed m hlabel hlook hget]
          by_cases htyp : mem.typ = d.type
          · obtain ⟨r, last₁, m₁, hcall, hend⟩ :=
              htakes mem List.mem_cons_self d hlook htyp next' mid m hrest
            rw [if_neg (not_not.mpr htyp), hcall, Option.bind_some]
            by_cases hr : r < 0
            · exact ⟨false, m₁, last₁, if_pos hr,
                .failed hlook htyp ⟨next, hlabel, next', hget, rfl⟩ hcall hr, nofun⟩
            · have hlast₁ := hend (not_lt.mp hr)
              obtain ⟨ok, m', last, hloop, hdelivered, hlast⟩ := htail m₁ hlast₁
              refine ⟨ok, m', last, (if_neg hr).trans hloop, ?_, hlast⟩
              exact .called hlook htyp ⟨next, hlabel, next', hget, rfl⟩ hcall (not_lt.mp hr)
                (hlast₁.symm ▸ hrest) hdelivered
          · rw [if_pos htyp]
            exact ⟨false, m, next', rfl, .mismatch hlook htyp, nofun⟩

/-- `microjs_json_parse_obj` calls the parsers of the members that the table has, passes over the
others, reads the closing brace and gives back how many members there are, or -1 if a parser
fails or a member has another type. -/
theorem microjsJsonParseObj_delivers {ms : List Member}
    (htakes : ∀ mem ∈ ms, ∀ d, lookup desc mem.sz = some d → mem.typ = d.type → d.Takes lim ptr mem)
    (hgives : Gives lim jsn (objectResults ms) jsn') (m : μ) {fuel : Nat}
    (hfuel : (objectResults ms).length < fuel) :
    ∃ ok m' last,
      microjsJsonParseObj lim fuel jsn desc ptr m =
          some (if ok then (ms.length : Int) else -1, last, m') ∧
        Delivered lim desc ptr ms jsn m ok m' ∧ (ok = true → last = jsn') := by
  obtain ⟨ok, m', last, hloop, hrest⟩ := objLoop_delivers htakes fuel 0 m hgives hfuel
  rw [zero_add] at hloop
  exact ⟨ok, m', last, hloop, hrest⟩

end

/-- `{"a":[5,6],"b":{"c":[{},7]}}` behind its brace, where the label table has `a` only. -/
def nestedMembers : List Member :=
  [⟨some [97], 0, typArray, .none,
      [(typInteger, .u32 5), (typInteger, .u32 6), (typEndArray, .none)],
      .array (.element (.scalar (by decide)) (.element (.scalar (by decide)) .noElements))⟩,
    ⟨none, 1, typObject, .none,
      [(typLabel, .lbl none 1), (typArray, .none), (typObject, .none), (typEndObject, .none),
        (typInteger, .u32 7), (typEndArray, .none), (typEndObject, .none)],
      .object (.member (.array (.element (.object .noMembers)
        (.element (.scalar (by decide)) .noElements))) .noMembers)⟩]

/-- A parser with these tokens. -/
def parserOf (tok : List Nat) : Parser := ⟨0, tok.length, tok.length, tok, 0, 0, 0, [], [[97]]⟩

def nestedParser : Parser :=
  parserOf [15, 4, 12, 5, 12, 6, 6, 16, 3, 16, 4, 3, 5, 12, 7, 6, 5, 5]

/-- `{"a", MICROJS_JSON_ARRAY, 4, 2, microjs_array_u8_enc}`. -/
def arrayTable : List (Desc (Nat → Nat)) :=
  [⟨[97], typArray, 4, 2, microjsArrayU8Enc Limits.default 20⟩]

theorem microjsJsonParseObj_delivers_nested :
    ∃ ok m' last,
      microjsJsonParseObj Limits.default 20 nestedParser arrayTable 8 (fun _ => 0) =
          some (if ok then (nestedMembers.length : Int) else -1, last, m') ∧
        Delivered Limits.default arrayTable 8 nestedMembers nestedParser (fun _ => 0) ok m' ∧
          (ok = true → last = { nestedParser with idx := 18 }) := by
  refine microjsJsonParseObj_delivers (fun mem hmem d hd htyp => ?_) ?_ _ (by decide)
  · have hd' : d = ⟨[97], typArray, 4, 2, microjsArrayU8Enc Limits.default 20⟩ := by
      obtain ⟨name, -, hfind⟩ := Option.bind_eq_some_iff.mp hd
      exact List.mem_singleton.mp (List.mem_of_find?_eq_some hfind)
    subst hd'
    have hlen : ∀ mem ∈ nestedMembers, mem.rest.length < 20 := by decide
    exact microjsArrayU8Enc_takes rfl 8 htyp (hlen mem hmem)
  · exact ⟨_, rfl, _, rfl, _, rfl, _, rfl, _, rfl, _, rfl, _, rfl, _, rfl, _, rfl, _, rfl, _, rfl,
      _, rfl, _, rfl, _, rfl, _, rfl, rfl⟩

/-- `{"a":1}` where the table has a string for `a`: the result is -1, not the number of the
members, and the closing brace is not read. -/
theorem other_type_fails :
    Gives Limits.default (parserOf [15, 12, 1, 5])
        (objectResults [⟨some [97], 0, typInteger, .u32 1, [], .scalar (by decide)⟩])
        { parserOf [15, 12, 1, 5] with idx := 4 } ∧
      microjsJsonParseObj Limits.default 5 (parserOf [15, 12, 1, 5])
          [⟨[97], typString, 0, 0, fun jsn _ _ _ m => some (0, jsn, m)⟩] 0 () =
        some (-1, { parserOf [15, 12, 1, 5] with idx := 3 }, ()) :=
  ⟨⟨_, rfl, _, rfl, _, rfl, rfl⟩, rfl⟩

end YardIce.MicroJs.Json
