import YardIce.MicroJs.JsonScan
import YardIce.Lib.Runs
import Mathlib.Data.List.TakeWhile

/-!
# The token buffer

The tokens grow from the start of the buffer and the stack of closing brackets from its end. A
session opens texts, scans them and flushes the buffer. It stays in bounds exactly if there is room
at three places where the code does not look for it: for the two bytes of the opening brace, for
a whole symbol, and for a closing bracket on the stack.
-/

namespace YardIce.MicroJs.Json

/-! ## Stores between two places -/

/-- Only the bytes from `lo` on, below `hi`, may differ. -/
structure Outside (lo hi : Nat) (buf buf' : List Nat) : Prop where
  length : buf'.length = buf.length
  below : buf'.take lo = buf.take lo
  above : buf'.drop hi = buf.drop hi

namespace Outside

variable {lo hi : Nat} {buf buf' buf'' : List Nat}

theorem refl (lo hi : Nat) (buf : List Nat) : Outside lo hi buf buf := ⟨rfl, rfl, rfl⟩

theorem trans (h : Outside lo hi buf buf') (h' : Outside lo hi buf' buf'') :
    Outside lo hi buf buf'' :=
  ⟨h'.length.trans h.length, h'.below.trans h.below, h'.above.trans h.above⟩

theorem mono {lo' hi' : Nat} (h : Outside lo hi buf buf') (hlo : lo' ≤ lo) (hhi : hi ≤ hi') :
    Outside lo' hi' buf buf' := by
  refine ⟨h.length, ?_, ?_⟩
  · have hbelow := congrArg (List.take lo') h.below
    rwa [List.take_take, List.take_take, Nat.min_eq_left hlo] at hbelow
  · have habove := congrArg (List.drop (hi' - hi)) h.above
    rwa [List.drop_drop, List.drop_drop, Nat.add_sub_cancel' hhi] at habove

theorem set {k : Nat} (hlo : lo ≤ k) (hhi : k < hi) (buf : List Nat) (v : Nat) :
    Outside lo hi buf (buf.set k v) :=
  ⟨List.length_set, List.take_set_of_le hlo, List.drop_set_of_lt hhi⟩

end Outside

theorem poke_outside {buf : List Nat} {lo hi k : Nat} (hlo : lo ≤ k) (hhi : k < hi)
    (hlen : hi ≤ buf.length) (v : Nat) :
    poke buf k v = some (buf.set k (v % 256)) ∧ Outside lo hi buf (buf.set k (v % 256)) :=
  ⟨if_pos (by lia), .set hlo hhi buf _⟩

/-- Stores in the free region succeed and leave the rest. -/
theorem pokes_outside {vs : List Nat} : ∀ {buf : List Nat} {lo hi k : Nat}, lo ≤ k →
    k + vs.length ≤ hi → hi ≤ buf.length →
      ∃ buf', pokes buf k vs = some buf' ∧ Outside lo hi buf buf' := by
  induction vs with
  | nil => exact fun _ _ _ => ⟨_, rfl, .refl _ _ _⟩
  | cons v vs ih =>
      intro buf lo hi k hlo hhi hlen
      rw [List.length_cons] at hhi
      obtain ⟨hpoke, hout⟩ := poke_outside hlo (show k < hi by lia) hlen v
      obtain ⟨buf', hrun, hout'⟩ := @ih (buf.set k (v % 256)) lo hi (k + 1) (by lia) (by lia)
        (by rw [List.length_set]; exact hlen)
      exact ⟨buf', by rw [pokes, hpoke, Option.bind_some, hrun], hout.trans hout'⟩

/-- What is stored. -/
theorem pokes_getElem? {vs : List Nat} : ∀ {buf buf' : List Nat} {k j : Nat},
    pokes buf k vs = some buf' → j < vs.length →
      buf'[k + j]? = (vs[j]?).map (· % 256) := by
  induction vs with
  | nil => exact fun _ hj => absurd hj (Nat.not_lt_zero _)
  | cons v vs ih =>
      intro buf buf' k j h hj
      obtain ⟨buf₁, hpoke, hrest⟩ := Option.bind_eq_some_iff.mp h
      cases j with
      | zero =>
          have hlt := (poke_some hpoke).1
          unfold poke at hpoke
          rw [if_pos hlt, Option.some.injEq] at hpoke
          have hle : k + 1 ≤ buf₁.length := by
            rw [← hpoke, List.length_set]
            lia
          rw [Nat.add_zero, (pokes_some hrest hle).2.2 k (Nat.lt_succ_self k), ← hpoke,
            List.getElem?_set_self hlt]
          rfl
      | succ j =>
          rw [show k + (j + 1) = k + 1 + j by lia, ih hrest (Nat.lt_of_succ_lt_succ hj)]
          rfl

/-! ## The area of the tokens and the stack -/

/-- The counters and the buffer, of a parser or of a scan. -/
structure Area where
  cnt : Nat
  sp : Nat
  buf : List Nat

/-- `cnt` is at most `sp`, and this is at most `top`. -/
structure Area.Within (a : Area) : Prop where
  le : a.cnt ≤ a.sp
  top : a.sp ≤ a.buf.length

/-- The tokens that a step keeps: a label takes the place of the three bytes of a string. -/
def Area.kept (a a' : Area) : Nat := if a'.cnt < a.cnt then a.cnt - 3 else a.cnt

/-- A step stores to the free region only, between the tokens and the stack. -/
structure Area.Respects (a a' : Area) : Prop extends a'.Within where
  stores : Outside (a.kept a') (max a.sp a'.sp) a.buf a'.buf

def Scan.area (s : Scan) : Area := ⟨s.cnt, s.sp, s.buf⟩

def Parser.area (jsn : Parser) : Area := ⟨jsn.cnt, jsn.sp, jsn.tok⟩

/-! ## The turns by their bytes -/

/-- What a byte begins. -/
inductive Kind where
  | skip
  | string
  | symbol
  | number
  | colon
  | left (tok close : Nat)
  | right (tok : Nat)
  | other

/-- The tests of the loop, in their order. -/
def kind (c : Nat) : Kind :=
  if isSpace c then .skip
  else if c = 39 ∨ c = 34 then .string
  else if isAlpha c ∨ c = 95 then .symbol
  else if isDigit c ∨ c = 45 then .number
  else if c = 58 then .colon
  else if c = 44 then .skip
  else if c = 91 then .left tokLeftbracket tokRightbracket
  else if c = 123 then .left tokLeftbrace tokRightbrace
  else if c = 93 then .right tokRightbracket
  else if c = 125 then .right tokRightbrace
  else .other

/-- The turn on a byte of that kind. -/
def scanKind (lim : Limits) (lbl : List (List Nat)) (txt : List Nat) (s : Scan) (c : Nat)
    (rest : List Nat) : Kind → Option Next
  | .skip => some (.cont { s with i := s.i + 1 })
  | .string => scanString lim s c rest
  | .symbol => scanSymbol s c rest
  | .number => scanNumber s c rest
  | .colon => scanColon lim lbl txt s
  | .left tok close => scanOpen s tok close
  | .right tok => scanClose s tok
  | .other => some (.stop unexpectedChar s)

/-- The word of a symbol. -/
def symbolWord (c : Nat) (rest : List Nat) : List Nat := c :: rest.takeWhile isWord

/-- There is room for a symbol and the zero behind it if the code looks at it, and for a closing
bracket. -/
def RoomyKind (s : Scan) (c : Nat) (rest : List Nat) : Kind → Prop
  | .symbol => s.room < 8 ∨ (symbolWord c rest).length + 2 ≤ s.room
  | .left _ _ => 0 < s.room
  | _ => True

/-- The bytes that the tokens of the turn, and its bracket for the stack, take. -/
def demandKind (lim : Limits) (s : Scan) (c : Nat) (rest : List Nat) : Kind → Nat
  | .string => if (quoteLoop c rest 0).any (· ≤ lim.stringMax) then 3 else 0
  | .symbol => if symbolWord c rest ∈ [wordTrue, wordFalse, wordNull] then 1 else 0
  | .number =>
    if c = 45 then
      match rest with
      | [] => 0
      | d :: rest =>
        if isDigit d then (intToks (-decimal (d :: rest.takeWhile isDigit))).2.length + 1 else 0
    else (intToks (decimal (c :: rest.takeWhile isDigit))).2.length + 1
  | .left _ _ => 2
  | .right tok =>
    -- the last bracket is followed by `JSON_TOK_STOP`, but leaves the stack
    if s.sp + 1 = s.buf.length ∧ s.buf[s.sp]? = some tok then 1 else 0
  | _ => 0

variable {lim : Limits} {lbl : List (List Nat)} {txt vis : List Nat} {s s₁ : Scan}

theorem scanStep_kind {c : Nat} {rest : List Nat} (hat : vis.drop s.i = c :: rest) :
    scanStep lim lbl txt vis s = scanKind lim lbl txt s c rest (kind c) := by
  rw [scanStep_at lim lbl txt hat]
  simp only [kind, apply_ite (scanKind lim lbl txt s c rest)]
  rfl

/-- The scan that a turn leaves. -/
def Next.scan : Next → Scan
  | .cont s => s
  | .stop _ s => s

/-- The stack is one of closing brackets. -/
structure Area.Packed (a : Area) : Prop extends a.Within where
  small : a.buf.length < 65536
  stacked : ∀ b ∈ a.buf.drop a.sp, b = tokRightbrace ∨ b = tokRightbracket

/-- Stores below the stack. -/
theorem Area.Packed.stored {cnt cnt' sp lo : Nat} {buf buf' : List Nat}
    (h : Area.Packed ⟨cnt, sp, buf⟩) (hout : Outside lo sp buf buf') (hle : cnt' ≤ sp) :
    Area.Packed ⟨cnt', sp, buf'⟩ := by
  have habove : buf'.drop sp = buf.drop sp := hout.above
  exact ⟨⟨hle, hout.length.symm ▸ h.top⟩, hout.length.symm ▸ h.small,
    fun b hb => h.stacked b (habove ▸ hb)⟩

/-- A closing bracket on the stack. -/
theorem Area.Packed.bracket {cnt sp close : Nat} {buf : List Nat} (h : Area.Packed ⟨cnt, sp, buf⟩)
    (hlt : cnt < sp) (hclose : close = tokRightbrace ∨ close = tokRightbracket) :
    Area.Packed ⟨cnt, sp - 1, buf.set (sp - 1) close⟩ := by
  have htop : sp ≤ buf.length := h.top
  have hdrop : (buf.set (sp - 1) close).drop (sp - 1) = close :: buf.drop sp := by
    rw [List.drop_eq_getElem_cons (by rw [List.length_set]; lia), List.getElem_set_self,
      Nat.sub_add_cancel (by lia), List.drop_set_of_lt (by lia)]
  refine ⟨⟨Nat.le_sub_one_of_lt hlt, ?_⟩, ?_, fun b hb => ?_⟩
  · show sp - 1 ≤ (buf.set (sp - 1) close).length
    rw [List.length_set]
    lia
  · show (buf.set (sp - 1) close).length < 65536
    rw [List.length_set]
    exact h.small
  · have hmem : b ∈ (buf.set (sp - 1) close).drop (sp - 1) := hb
    rw [hdrop] at hmem
    rcases List.mem_cons.mp hmem with rfl | hold
    · exact hclose
    · exact h.stacked b hold

/-- What holds at each turn of a scan. -/
structure Scan.Sound (lim : Limits) (s : Scan) : Prop extends s.area.Packed where
  string : s.tok = lim.tokString → 3 ≤ s.cnt

/-- A turn that needs `demand` bytes stays in the free region, or finds the buffer exhausted. -/
def Fine (lim : Limits) (s : Scan) (demand : Nat) (next : Option Next) : Prop :=
  ∃ n, next = some n ∧ s.area.Respects n.scan.area ∧ n.scan.Sound lim ∧
    (s.room < demand → n = .stop tokenBufOvf n.scan)

theorem Area.Packed.room_eq (h : s.area.Packed) : s.room = s.sp - s.cnt := by
  have hle : s.cnt ≤ s.sp := h.le
  have htop : s.sp ≤ s.buf.length := h.top
  have hsmall : s.buf.length < 65536 := h.small
  unfold Scan.room
  lia

/-- The place in the text does not matter. -/
theorem Scan.Sound.move (h : s.Sound lim) (i : Nat) : Sound lim { s with i := i } :=
  ⟨h.toPacked, h.string⟩

variable (s) in
/-- A turn that ends the scan without tokens. -/
theorem fine_stop (h : s₁.Sound lim) (hcnt : s₁.cnt = s.cnt)
    (hout : Outside s.cnt (max s.sp s₁.sp) s.buf s₁.buf) {err : Int} {demand : Nat}
    (hfull : s.room < demand → err = tokenBufOvf) : Fine lim s demand (some (.stop err s₁)) := by
  have hkept : s.area.kept s₁.area = s.cnt := if_neg (show ¬ s₁.cnt < s.cnt by lia)
  refine ⟨.stop err s₁, rfl, ⟨h.toWithin, ?_⟩, h, fun hlt => ?_⟩
  · show Outside (s.area.kept s₁.area) (max s.sp s₁.sp) s.buf s₁.buf
    rwa [hkept]
  · rw [hfull hlt]
    rfl

/-- A turn that only moves in the text. -/
theorem fine_still (h : s.Sound lim) (i : Nat) {err : Int} {demand : Nat}
    (hfull : s.room < demand → err = tokenBufOvf) :
    Fine lim s demand (some (.stop err { s with i := i })) :=
  fine_stop s (h.move i) rfl (.refl _ _ _) hfull

variable (s s₁) in
/-- A turn that stores tokens, behind stores to the free region or a change of the stack. -/
theorem fine_emit (h : s₁.area.Packed) (hcnt : s₁.cnt = s.cnt)
    (hout : Outside s.cnt (max s.sp s₁.sp) s.buf s₁.buf) {vs : List Nat}
    (hroom : vs.length ≤ s₁.room) {f : Scan → Next} (hf : ∀ s', (f s').scan = s') {demand : Nat}
    (htok : s₁.tok = lim.tokString → 3 ≤ vs.length) (hdemand : demand ≤ s.room) :
    Fine lim s demand ((s₁.emit vs).map f) := by
  rw [h.room_eq] at hroom
  have hle : s₁.cnt ≤ s₁.sp := h.le
  obtain ⟨buf', hrun, hstores⟩ := @pokes_outside vs s₁.buf s₁.cnt s₁.sp s₁.cnt (le_refl _)
    (by lia) h.top
  have hpacked : Area.Packed ⟨s₁.cnt + vs.length, s₁.sp, buf'⟩ := h.stored hstores (by lia)
  refine ⟨f { s₁ with buf := buf', cnt := s₁.cnt + vs.length }, ?_, ?_, ?_,
    fun hlt => absurd hlt (Nat.not_lt.mpr hdemand)⟩
  · rw [Scan.emit, hrun]
    rfl
  · rw [hf]
    refine ⟨hpacked.toWithin, ?_⟩
    have hkept : s.area.kept ⟨s₁.cnt + vs.length, s₁.sp, buf'⟩ = s.cnt :=
      if_neg (show ¬ s₁.cnt + vs.length < s.cnt by lia)
    show Outside (s.area.kept ⟨s₁.cnt + vs.length, s₁.sp, buf'⟩) (max s.sp s₁.sp) s.buf buf'
    rw [hkept]
    exact hout.trans (hstores.mono hcnt.ge (Nat.le_max_right _ _))
  · rw [hf]
    exact ⟨hpacked, fun ht => (htok ht).trans (Nat.le_add_left _ _)⟩

variable (s) in
/-- A token that is pushed, or does not fit. -/
theorem fine_push (h : s₁.Sound lim) (hcnt : s₁.cnt = s.cnt)
    (hout : Outside s.cnt (max s.sp s₁.sp) s.buf s₁.buf) (htok : s₁.tok ≠ lim.tokString)
    {demand : Nat} (hdemand : s.room < demand → s₁.room < 1) : Fine lim s demand (push s₁) := by
  unfold push
  by_cases hroom : s₁.room < 1
  · rw [if_pos hroom]
    exact fine_stop s h hcnt hout fun _ => rfl
  · rw [if_neg hroom]
    refine fine_emit s s₁ h.toPacked hcnt hout ?_ (fun _ => rfl) (fun ht => absurd ht htok) ?_
    · exact Nat.not_lt.mp hroom
    · exact Nat.not_lt.mp fun hlt => hroom (hdemand hlt)

/-! ## The turns -/

variable {c : Nat} {rest : List Nat}

theorem fine_skip (h : s.Sound lim) (i : Nat) : Fine lim s 0 (some (.cont { s with i := i })) :=
  ⟨_, rfl, ⟨h.toWithin, .refl _ _ _⟩, h.move i, fun hlt => absurd hlt (Nat.not_lt_zero _)⟩

theorem fine_string (h : s.Sound lim) :
    Fine lim s (demandKind lim s c rest .string) (scanString lim s c rest) := by
  unfold scanString demandKind
  cases quoteLoop c rest 0 with
  | none => exact fine_still h _ fun hlt => absurd hlt (Nat.not_lt_zero _)
  | some j =>
      dsimp only
      by_cases hlong : j > lim.stringMax
      · rw [if_pos hlong, if_neg (by simpa using hlong)]
        exact fine_still h _ fun hlt => absurd hlt (Nat.not_lt_zero _)
      · rw [if_neg hlong, if_pos (by simpa using hlong)]
        by_cases hroom : Scan.room { s with i := s.i + 1 + j + 1 } < 3
        · rw [if_pos hroom]
          exact fine_still h _ fun _ => rfl
        · rw [if_neg hroom]
          refine fine_emit s { s with tok := lim.tokString, i := s.i + 1 + j + 1 } h.toPacked rfl
            (.refl _ _ _) ?_ (fun _ => rfl) (fun _ => ?_) ?_
          · exact Nat.not_lt.mp hroom
          · exact le_refl 3
          · exact Nat.not_lt.mp hroom

theorem symbol_ne (tok : Nat) (htok : tok ∈ [tokTrue, tokFalse, tokNull]) : tok ≠ lim.tokString := by
  refine ne_tokString lim ?_
  revert tok
  decide

theorem fine_symbol (h : s.Sound lim) (hroomy : RoomyKind s c rest .symbol) :
    Fine lim s (demandKind lim s c rest .symbol) (scanSymbol s c rest) := by
  unfold scanSymbol
  by_cases hroom : s.room < 8
  · rw [if_pos hroom]
    exact fine_still h s.i fun _ => rfl
  · have hfits := hroomy.resolve_left hroom
    have hroom' := h.room_eq
    have hdemand : ¬ s.room < demandKind lim s c rest .symbol := by
      show ¬ s.room < if _ then 1 else 0
      split <;> lia
    obtain ⟨buf', hrun, hout⟩ := @pokes_outside (symbolWord c rest ++ [0]) s.buf s.cnt s.sp (s.cnt + 1)
      (Nat.le_succ _) (by rw [List.length_append, List.length_singleton]; lia) h.top
    have hmono := hout.mono (le_refl _) (Nat.le_max_left s.sp s.sp)
    have hs₁ : ∀ tok, (tok = lim.tokString → 3 ≤ s.cnt) → Scan.Sound lim
        { s with tok := tok, buf := buf', i := s.i + (symbolWord c rest).length } := fun tok htok =>
      ⟨h.toPacked.stored hout h.le, htok⟩
    have hpush : ∀ tok ∈ [tokTrue, tokFalse, tokNull], Fine lim s (demandKind lim s c rest .symbol)
        (push { s with tok := tok, buf := buf', i := s.i + (symbolWord c rest).length }) :=
      fun tok htok => fine_push s (hs₁ tok fun ht => absurd ht (symbol_ne tok htok)) rfl hmono
        (symbol_ne tok htok) fun hlt => absurd hlt hdemand
    rw [if_neg hroom]
    show Fine lim s _ ((pokes s.buf (s.cnt + 1) (symbolWord c rest ++ [0])).bind _)
    rw [hrun, Option.bind_some]
    show Fine lim s _ (if symbolWord c rest = wordTrue then _ else _)
    split_ifs
    · exact hpush tokTrue (by decide)
    · exact hpush tokFalse (by decide)
    · exact hpush tokNull (by decide)
    · exact fine_stop s (hs₁ s.tok h.string) rfl hmono fun hlt => absurd hlt hdemand

theorem fine_digits (h : s.Sound lim) (i : Nat) (neg : Bool) (c : Nat) (rest : List Nat) :
    Fine lim s ((intToks (if neg then -decimal (c :: rest.takeWhile isDigit)
        else decimal (c :: rest.takeWhile isDigit))).2.length + 1)
      (scanDigits { s with i := i } neg c rest) := by
  unfold scanDigits
  dsimp only
  generalize (if neg then -decimal (c :: rest.takeWhile isDigit)
    else decimal (c :: rest.takeWhile isDigit)) = val
  generalize i + (c :: rest.takeWhile isDigit).length = j
  have hlen := intToks_length val
  rw [List.length_cons] at hlen
  by_cases hroom : Scan.room { s with i := j } < 5
  · rw [if_pos hroom]
    exact fine_still h _ fun _ => rfl
  · rw [if_neg hroom]
    have hfits : 5 ≤ s.room := Nat.not_lt.mp hroom
    refine fine_emit s { s with tok := (intToks val).1, i := j } h.toPacked rfl (.refl _ _ _) ?_
      (fun _ => rfl) (fun ht => ?_) ?_
    · exact hlen.trans hfits
    · exact absurd ht (ne_tokString lim (intToks_tok val))
    · exact hlen.trans hfits

theorem fine_number (h : s.Sound lim) :
    Fine lim s (demandKind lim s c rest .number) (scanNumber s c rest) := by
  unfold scanNumber demandKind
  by_cases hneg : c = 45
  · rw [if_pos hneg, if_pos hneg]
    cases rest with
    | nil => exact fine_still h _ fun hlt => absurd hlt (Nat.not_lt_zero _)
    | cons d rest =>
        dsimp only
        by_cases hd : isDigit d = true
        · rw [if_pos hd, if_pos hd]
          exact fine_digits h (s.i + 1) true d rest
        · rw [if_neg hd, if_neg hd]
          exact fine_still h _ fun hlt => absurd hlt (Nat.not_lt_zero _)
  · rw [if_neg hneg, if_neg hneg]
    exact fine_digits h s.i false c rest

theorem fine_colon (h : s.Sound lim) (lbl : List (List Nat)) (txt : List Nat) :
    Fine lim s 0 (scanColon lim lbl txt s) := by
  have hle : s.cnt ≤ s.sp := h.le
  have htop : s.sp ≤ s.buf.length := h.top
  unfold scanColon
  by_cases htok : s.tok = lim.tokString
  · have hcnt := h.string htok
    rw [if_pos htok, List.getElem?_eq_getElem (by lia), Option.bind_some,
      List.getElem?_eq_getElem (by lia), Option.bind_some,
      List.getElem?_eq_getElem (by lia), Option.bind_some]
    dsimp only
    generalize lim.tokLabel + labelIdx lbl _ = v
    obtain ⟨hpoke, hout⟩ := @poke_outside s.buf (s.cnt - 3) s.sp (s.cnt - 3) (le_refl _) (by lia)
      htop v
    have hpacked : Area.Packed ⟨s.cnt - 2, s.sp, s.buf.set (s.cnt - 3) (v % 256)⟩ :=
      h.toPacked.stored hout ((Nat.sub_le _ _).trans hle)
    have hne : lim.tokLabel ≠ lim.tokString := by
      have hpos := lim.pos
      have hfits := lim.fits
      unfold Limits.tokLabel Limits.tokString
      lia
    rw [hpoke]
    refine ⟨.cont { s with
        buf := s.buf.set (s.cnt - 3) (v % 256), cnt := s.cnt - 2, tok := lim.tokLabel,
        i := s.i + 1 }, rfl, ⟨hpacked.toWithin, ?_⟩, ⟨hpacked, fun ht => absurd ht hne⟩,
      fun hlt => absurd hlt (Nat.not_lt_zero _)⟩
    · have hkept : s.area.kept ⟨s.cnt - 2, s.sp, s.buf.set (s.cnt - 3) (v % 256)⟩ = s.cnt - 3 :=
        if_pos (show s.cnt - 2 < s.cnt by lia)
      show Outside (s.area.kept ⟨s.cnt - 2, s.sp, s.buf.set (s.cnt - 3) (v % 256)⟩)
        (max s.sp s.sp) s.buf _
      rw [hkept]
      exact hout.mono (le_refl _) (Nat.le_max_left _ _)
  · rw [if_neg htok]
    exact fine_still h s.i fun hlt => absurd hlt (Nat.not_lt_zero _)

/-- A closing bracket goes to the top of the stack. -/
theorem fine_left (h : s.Sound lim) (hroomy : 0 < s.room) {tok close : Nat}
    (htok : tok = tokLeftbrace ∨ tok = tokLeftbracket)
    (hclose : close = tokRightbrace ∨ close = tokRightbracket) :
    Fine lim s 2 (scanOpen s tok close) := by
  have hle : s.cnt ≤ s.sp := h.le
  have htop : s.sp ≤ s.buf.length := h.top
  have hsmall : s.buf.length < 65536 := h.small
  have hroom := h.room_eq
  have hsp : (s.sp + (2 ^ 32 - 1)) % 2 ^ 32 = s.sp - 1 := by lia
  have hbyte : close % 256 = close := by
    rcases hclose with rfl | rfl
    · rfl
    · rfl
  have hne : tok ≠ lim.tokString := ne_tokString lim (by
    rcases htok with rfl | rfl
    · decide
    · decide)
  obtain ⟨hpoke, hout⟩ := @poke_outside s.buf s.cnt s.sp (s.sp - 1) (by lia) (by lia) htop close
  rw [hbyte] at hpoke hout
  unfold scanOpen
  dsimp only
  rw [hsp, hpoke, Option.bind_some]
  have hs₁ : Scan.Sound lim { s with
      buf := s.buf.set (s.sp - 1) close, sp := s.sp - 1, tok := tok, i := s.i + 1 } :=
    ⟨h.toPacked.bracket (by lia) hclose, fun ht => absurd ht hne⟩
  refine fine_push s hs₁ rfl (hout.mono (le_refl _) (Nat.le_max_left _ _)) hne fun hlt => ?_
  rw [hs₁.room_eq]
  show s.sp - 1 - s.cnt < 1
  lia

theorem fine_right (h : s.Sound lim) {tok : Nat}
    (htok : tok = tokRightbrace ∨ tok = tokRightbracket) :
    Fine lim s (demandKind lim s c rest (.right tok)) (scanClose s tok) := by
  have hle : s.cnt ≤ s.sp := h.le
  have htop : s.sp ≤ s.buf.length := h.top
  have hroom := h.room_eq
  have hne : tok ≠ lim.tokString := ne_tokString lim (by
    rcases htok with rfl | rfl
    · decide
    · decide)
  unfold scanClose
  dsimp only
  by_cases hempty : s.sp = s.buf.length
  · have hs₀ : Scan.Sound lim { s with tok := tok } := ⟨h.toPacked, fun ht => absurd ht hne⟩
    rw [if_pos hempty]
    refine fine_stop s hs₀ rfl (.refl _ _ _) fun hlt => ?_
    have hzero : demandKind lim s c rest (.right tok) = 0 := if_neg fun hcond => by lia
    lia
  rw [if_neg hempty, List.getElem?_eq_getElem (by lia), Option.bind_some]
  have hs₁ : ∀ i, Scan.Sound lim { s with tok := tok, sp := s.sp + 1, i := i } := fun i =>
    ⟨⟨⟨hle.trans (Nat.le_succ _), show s.sp + 1 ≤ s.buf.length by lia⟩, h.small, fun b hb =>
      h.stacked b (List.mem_of_mem_drop (by rwa [List.drop_drop]))⟩, fun ht => absurd ht hne⟩
  by_cases hmatch : s.buf[s.sp] ≠ tok
  · rw [if_pos hmatch]
    refine fine_stop s (hs₁ s.i) rfl (.refl _ _ _) fun hlt => ?_
    have hzero : demandKind lim s c rest (.right tok) = 0 := if_neg fun hcond => hmatch (by
      have hget := hcond.2
      rwa [List.getElem?_eq_getElem (by lia), Option.some.injEq] at hget)
    lia
  rw [if_neg hmatch]
  have hroom₁ := (hs₁ (s.i + 1)).room_eq
  by_cases hlast : s.sp + 1 = s.buf.length
  · rw [if_pos hlast]
    by_cases hfull : Scan.room { s with tok := tok, sp := s.sp + 1, i := s.i + 1 } < 2
    · rw [if_pos hfull]
      exact fine_stop s (hs₁ (s.i + 1)) rfl (.refl _ _ _) fun _ => rfl
    · rw [if_neg hfull]
      refine fine_emit s { s with tok := tok, sp := s.sp + 1, i := s.i + 1 }
        (hs₁ (s.i + 1)).toPacked rfl (.refl _ _ _) ?_ (fun _ => rfl) (fun ht => ?_) ?_
      · exact Nat.not_lt.mp hfull
      · exact absurd ht hne
      · have hone : demandKind lim s c rest (.right tok) ≤ 1 := by
          show (if _ then 1 else 0) ≤ 1
          split <;> lia
        rw [hroom₁] at hfull
        have hfull' : ¬ s.sp + 1 - s.cnt < 2 := hfull
        lia
  · rw [if_neg hlast]
    refine fine_push s (hs₁ (s.i + 1)) rfl (.refl _ _ _) hne fun hlt => ?_
    have hzero : demandKind lim s c rest (.right tok) = 0 := if_neg fun hcond => hlast hcond.1
    lia

/-! ## Turns without the room -/

/-- What a push leaves alone. -/
theorem push_some {n : Next} (h : push s = some n) :
    (s.room < 1 ∨ n.scan.cnt = s.cnt + 1) ∧ n.scan.sp = s.sp ∧
      ∀ p, p ≠ s.cnt → n.scan.buf[p]? = s.buf[p]? := by
  unfold push at h
  split_ifs at h with hroom
  · obtain rfl := Option.some.inj h
    exact ⟨Or.inl hroom, rfl, fun _ _ => rfl⟩
  · obtain ⟨s', hemit, rfl⟩ := Option.map_eq_some_iff.mp h
    obtain ⟨buf', hpokes, rfl⟩ := Option.map_eq_some_iff.mp hemit
    obtain ⟨buf₁, hpoke, hrest⟩ := Option.bind_eq_some_iff.mp hpokes
    obtain rfl := Option.some.inj hrest
    exact ⟨Or.inr rfl, rfl, (poke_some hpoke).2.2⟩

theorem isWord_symbolWord (hc : isWord c = true) : ∀ b ∈ symbolWord c rest, isWord b = true := by
  intro b hb
  rcases List.mem_cons.mp hb with rfl | hb
  · exact hc
  · exact List.mem_takeWhile_imp hb

/-- No byte that a symbol leaves is that of a closing bracket. -/
theorem symbol_byte_ne {b : Nat} (hb : isWord b = true ∨ b = 0) :
    b % 256 ≠ tokRightbrace ∧ b % 256 ≠ tokRightbracket := by
  unfold tokRightbrace tokRightbracket
  rcases hb with hb | rfl
  · unfold isWord isAlpha isUpper isLower isDigit at hb
    simp only [Bool.or_eq_true, Bool.and_eq_true, decide_eq_true_eq, beq_iff_eq] at hb
    lia
  · decide

/-- A symbol that does not fit runs into the stack, if not out of the buffer. -/
theorem symbol_overwrites (h : s.Sound lim) (hc : isWord c = true)
    (hroomy : ¬ RoomyKind s c rest .symbol) {n : Next} (hn : scanSymbol s c rest = some n) :
    n.scan.sp = s.sp ∧ ∀ a : Area, a.sp = s.sp → a.buf = n.scan.buf → ¬ s.area.Respects a := by
  have hle : s.cnt ≤ s.sp := h.le
  have hroom := h.room_eq
  unfold RoomyKind at hroomy
  obtain ⟨hroom8, hlong⟩ := not_or.mp hroomy
  unfold scanSymbol at hn
  rw [if_neg hroom8] at hn
  obtain ⟨buf', hpokes, hn⟩ := Option.bind_eq_some_iff.mp hn
  change pokes s.buf (s.cnt + 1) (symbolWord c rest ++ [0]) = some buf' at hpokes
  have hword : n.scan.sp = s.sp ∧ n.scan.buf[s.sp]? = buf'[s.sp]? := by
    have hpush : ∀ s₁ : Scan, push s₁ = some n → s₁.cnt = s.cnt → s₁.sp = s.sp → s₁.buf = buf' →
        n.scan.sp = s.sp ∧ n.scan.buf[s.sp]? = buf'[s.sp]? := by
      intro s₁ hpush hcnt hsp hbuf
      obtain ⟨-, hsp', hkeep⟩ := push_some hpush
      exact ⟨hsp'.trans hsp, hbuf ▸ hkeep s.sp (by lia)⟩
    dsimp only at hn
    split_ifs at hn
    · exact hpush _ hn rfl rfl rfl
    · exact hpush _ hn rfl rfl rfl
    · exact hpush _ hn rfl rfl rfl
    · obtain rfl := Option.some.inj hn
      exact ⟨rfl, rfl⟩
  refine ⟨hword.1, fun a hsp hbuf hrespects => ?_⟩
  have hj : s.sp - (s.cnt + 1) < (symbolWord c rest ++ [0]).length := by
    rw [List.length_append, List.length_singleton]
    lia
  have hbyte := pokes_getElem? hpokes hj
  rw [Nat.add_sub_cancel' (by lia), List.getElem?_eq_getElem hj, Option.map_some] at hbyte
  have habove := congrArg (fun l : List Nat => l[0]?) hrespects.stores.above
  have hmax : max s.area.sp a.sp = s.sp := by
    show max s.sp a.sp = s.sp
    rw [hsp, Nat.max_self]
  simp only [hmax, List.getElem?_drop, Nat.add_zero, hbuf] at habove
  have hold : s.buf[s.sp]? = some ((symbolWord c rest ++ [0])[s.sp - (s.cnt + 1)] % 256) :=
    habove.symm.trans (hword.2.trans hbyte)
  obtain ⟨hlt, hget⟩ := List.getElem?_eq_some_iff.mp hold
  have hmem : s.buf[s.sp] ∈ s.buf.drop s.sp :=
    List.mem_of_getElem? (by rw [List.getElem?_drop, Nat.add_zero]; exact List.getElem?_eq_getElem hlt)
  have hsymbol : isWord ((symbolWord c rest ++ [0])[s.sp - (s.cnt + 1)]) = true ∨
      (symbolWord c rest ++ [0])[s.sp - (s.cnt + 1)] = 0 := by
    rcases List.mem_append.mp (List.getElem_mem hj) with hin | hzero
    · exact Or.inl (isWord_symbolWord hc _ hin)
    · exact Or.inr (List.mem_singleton.mp hzero)
  obtain ⟨hbrace, hbracket⟩ := symbol_byte_ne hsymbol
  rw [← hget] at hbrace hbracket
  exact (h.stacked _ hmem).elim hbrace hbracket

/-- A bracket without room goes over the last token, and the next token over the bracket. -/
theorem left_overwrites (h : s.Sound lim) (hroomy : ¬ 0 < s.room) {tok close : Nat} {n : Next}
    (hn : scanOpen s tok close = some n) :
    ∃ s', n = .cont s' ∧ ¬ s.area.Respects s'.area := by
  have hle : s.cnt ≤ s.sp := h.le
  have htop : s.sp ≤ s.buf.length := h.top
  have hsmall : s.buf.length < 65536 := h.small
  have hroom := h.room_eq
  unfold scanOpen at hn
  obtain ⟨buf', hpoke, hn⟩ := Option.bind_eq_some_iff.mp hn
  have hlt := (poke_some hpoke).1
  have hsp : (s.sp + (2 ^ 32 - 1)) % 2 ^ 32 = s.sp - 1 ∧ 0 < s.sp := by lia
  rw [hsp.1] at hn
  obtain ⟨hcnt, hsp', -⟩ := push_some hn
  unfold push at hn
  have hwide : ¬ Scan.room { s with buf := buf', sp := s.sp - 1, tok := tok, i := s.i + 1 } < 1 := by
    unfold Scan.room
    dsimp only
    lia
  rw [if_neg hwide] at hn
  obtain ⟨s', -, rfl⟩ := Option.map_eq_some_iff.mp hn
  refine ⟨s', rfl, fun hrespects => ?_⟩
  have hwithin : s'.cnt ≤ s'.sp := hrespects.le
  have hcnt' : s'.cnt = s.cnt + 1 := hcnt.resolve_left hwide
  have hsp'' : s'.sp = s.sp - 1 := hsp'
  lia

/-! ## Every turn -/

theorem kind_left {tok close : Nat} (h : kind c = .left tok close) :
    (tok = tokLeftbrace ∨ tok = tokLeftbracket) ∧
      (close = tokRightbrace ∨ close = tokRightbracket) := by
  unfold kind at h
  split_ifs at h
  · obtain ⟨rfl, rfl⟩ := Kind.left.inj h
    exact ⟨Or.inr rfl, Or.inr rfl⟩
  · obtain ⟨rfl, rfl⟩ := Kind.left.inj h
    exact ⟨Or.inl rfl, Or.inl rfl⟩

theorem kind_right {tok : Nat} (h : kind c = .right tok) :
    tok = tokRightbrace ∨ tok = tokRightbracket := by
  unfold kind at h
  split_ifs at h
  · exact Or.inr (Kind.right.inj h).symm
  · exact Or.inl (Kind.right.inj h).symm

theorem kind_symbol (h : kind c = .symbol) : isWord c = true := by
  have hc : isAlpha c = true ∨ c = 95 := by
    unfold kind at h
    split_ifs at h with _ _ halpha
    exact halpha
  unfold isWord
  rcases hc with halpha | rfl
  · rw [halpha]
    rfl
  · decide

/-- There is room for the turn. -/
def RoomyTurn (s : Scan) : List Nat → Prop
  | [] => True
  | c :: rest => RoomyKind s c rest (kind c)

/-- The bytes that the turn takes. -/
def demandTurn (lim : Limits) (s : Scan) : List Nat → Nat
  | [] => 0
  | c :: rest => demandKind lim s c rest (kind c)

theorem fine_turn (h : s.Sound lim) (lbl : List (List Nat)) (txt : List Nat) {vis : List Nat}
    (hroomy : RoomyTurn s (vis.drop s.i)) :
    Fine lim s (demandTurn lim s (vis.drop s.i)) (scanStep lim lbl txt vis s) := by
  cases hat : vis.drop s.i with
  | nil =>
      unfold scanStep
      rw [hat]
      exact fine_still h s.i fun hlt => absurd hlt (Nat.not_lt_zero _)
  | cons c rest =>
      rw [hat] at hroomy
      rw [scanStep_kind hat]
      change RoomyKind s c rest (kind c) at hroomy
      show Fine lim s (demandKind lim s c rest (kind c)) _
      cases hkind : kind c with
      | skip => exact fine_skip h (s.i + 1)
      | string => exact fine_string h
      | symbol => exact fine_symbol h (hkind ▸ hroomy)
      | number => exact fine_number h
      | colon => exact fine_colon h lbl txt
      | left tok close =>
          rw [hkind] at hroomy
          exact fine_left h hroomy (kind_left hkind).1 (kind_left hkind).2
      | right tok => exact fine_right h (kind_right hkind)
      | other => exact fine_still h s.i fun hlt => absurd hlt (Nat.not_lt_zero _)

/-- The scan without room, whether it goes on or is over. -/
theorem turn_overwrites (h : s.Sound lim) (hroomy : ¬ RoomyTurn s (vis.drop s.i)) {n : Next}
    (hn : scanStep lim lbl txt vis s = some n) :
    (∃ s', n = .cont s' ∧ ¬ s.area.Respects s'.area) ∨
      n.scan.sp = s.sp ∧ ∀ a : Area, a.sp = s.sp → a.buf = n.scan.buf → ¬ s.area.Respects a := by
  cases hat : vis.drop s.i with
  | nil =>
      rw [hat] at hroomy
      exact absurd trivial hroomy
  | cons c rest =>
      rw [hat] at hroomy
      rw [scanStep_kind hat] at hn
      change ¬ RoomyKind s c rest (kind c) at hroomy
      cases hkind : kind c with
      | symbol =>
          rw [hkind] at hroomy hn
          exact Or.inr (symbol_overwrites h (kind_symbol hkind) hroomy hn)
      | left tok close =>
          rw [hkind] at hroomy hn
          exact Or.inl (left_overwrites h hroomy hn)
      | skip | string | number | colon | right | other =>
          rw [hkind] at hroomy
          exact absurd trivial hroomy

/-! ## Opening -/

/-- There is room for the two bytes of the brace that the text begins with. -/
def RoomyOpen (jsn : Parser) (txt : List Nat) : Prop :=
  (openLoop txt 0).map Prod.fst = some 123 → jsn.cnt + 2 ≤ jsn.sp

/-- Opening stays in the free region. -/
def FineOpen (jsn : Parser) (opened : Option (Int × Parser)) : Prop :=
  ∃ r, opened = some r ∧ jsn.area.Respects r.2.area ∧ r.2.area.Packed

theorem fineOpen {jsn : Parser} (h : jsn.area.Packed) {txt : List Nat}
    (hroomy : RoomyOpen jsn txt) : FineOpen jsn (microjsJsonOpen jsn txt) := by
  have htop : jsn.sp ≤ jsn.tok.length := h.top
  have hsmall : jsn.tok.length < 65536 := h.small
  unfold RoomyOpen at hroomy
  unfold microjsJsonOpen
  cases hloop : openLoop txt 0 with
  | none => exact ⟨_, rfl, ⟨h.toWithin, .refl _ _ _⟩, h⟩
  | some place =>
      obtain ⟨c, i⟩ := place
      dsimp only
      by_cases hc : c ≠ 123
      · rw [if_pos hc]
        exact ⟨_, rfl, ⟨h.toWithin, .refl _ _ _⟩, h⟩
      rw [if_neg hc]
      have hfits := hroomy (by rw [hloop]; exact congrArg some (not_not.mp hc))
      have hsp : (jsn.sp + 65535) % 65536 = jsn.sp - 1 := by lia
      obtain ⟨hleft, hout⟩ := @poke_outside jsn.tok jsn.cnt jsn.sp jsn.cnt (le_refl _) (by lia)
        htop tokLeftbrace
      obtain ⟨hright, hout'⟩ := @poke_outside (jsn.tok.set jsn.cnt (tokLeftbrace % 256)) jsn.cnt
        jsn.sp (jsn.sp - 1) (by lia) (by lia) (hout.length.symm ▸ htop) tokRightbrace
      have hpacked : Area.Packed ⟨jsn.cnt + 1, jsn.sp - 1, (jsn.tok.set jsn.cnt
          (tokLeftbrace % 256)).set (jsn.sp - 1) (tokRightbrace % 256)⟩ :=
        (h.stored hout (show jsn.cnt + 1 ≤ jsn.sp by lia)).bracket (by lia) (Or.inl rfl)
      have hkept : jsn.area.kept ⟨jsn.cnt + 1, jsn.sp - 1, (jsn.tok.set jsn.cnt
          (tokLeftbrace % 256)).set (jsn.sp - 1) (tokRightbrace % 256)⟩ = jsn.cnt :=
        if_neg (show ¬ jsn.cnt + 1 < jsn.cnt by lia)
      rw [hsp, Nat.mod_eq_of_lt (show jsn.cnt + 1 < 65536 by lia), hleft, Option.bind_some,
        hright]
      refine ⟨_, rfl, ⟨hpacked.toWithin, ?_⟩, hpacked⟩
      show Outside (jsn.area.kept ⟨jsn.cnt + 1, jsn.sp - 1, _⟩) (max jsn.sp (jsn.sp - 1)) _ _
      rw [hkept]
      exact (hout.trans hout').mono (le_refl _) (Nat.le_max_left _ _)

theorem roomyOpen_of_respects {jsn : Parser} (h : jsn.area.Packed) {txt : List Nat}
    {r : Int × Parser} (hr : microjsJsonOpen jsn txt = some r)
    (hrespects : jsn.area.Respects r.2.area) : RoomyOpen jsn txt := by
  intro hbrace
  have hle : jsn.cnt ≤ jsn.sp := h.le
  have htop : jsn.sp ≤ jsn.tok.length := h.top
  have hsmall : jsn.tok.length < 65536 := h.small
  obtain ⟨⟨c, i⟩, hloop, rfl⟩ := Option.map_eq_some_iff.mp hbrace
  unfold microjsJsonOpen at hr
  rw [hloop] at hr
  dsimp only at hr
  rw [if_neg (not_not.mpr rfl)] at hr
  obtain ⟨tok, hleft, hr⟩ := Option.bind_eq_some_iff.mp hr
  obtain ⟨tok', hright, rfl⟩ := Option.map_eq_some_iff.mp hr
  have hin := (poke_some hleft).1
  have hin' := (poke_some hright).1
  have hlen := (poke_some hleft).2.1
  have hwithin : (jsn.cnt + 1) % 65536 ≤ (jsn.sp + 65535) % 65536 := hrespects.le
  lia

/-! ## Sessions -/

/-- `microjs_json_flush`. -/
def microjsJsonFlush (jsn : Parser) : Parser :=
  { jsn with cnt := 0, sp := jsn.tok.length, idx := 0 }

/-- The end of `microjs_json_scan`: the variables go to the parser. -/
def Parser.finish (jsn : Parser) (err : Int) (s : Scan) : Parser :=
  let jsn' := { jsn with cnt := s.cnt % 65536, sp := s.sp % 65536, tok := s.buf }
  if err = ok then { jsn' with off := jsn.stop, stop := s.i % 65536 }
  else { jsn' with off := s.i % 65536 }

/-- The variables of `microjs_json_scan` before its loop. -/
def Parser.begin (jsn : Parser) : Scan := ⟨tokNull, jsn.cnt, jsn.sp, jsn.stop, jsn.tok⟩

/-- A parser, the variables of the scan that is under way, and what the last call gave back. -/
structure Session where
  jsn : Parser
  scan : Option Scan
  ret : Int

/-- The calls; a call of `microjs_json_scan` takes its turns one by one. -/
inductive Act where
  | openText (txt : List Nat)
  | flush
  | scan
  | turn

namespace Session

variable (lim)

/-- The turn of the scan that is under way. -/
def next (jsn : Parser) (s : Scan) : Option Next :=
  scanStep lim jsn.lbl jsn.txt (jsn.txt.take jsn.len) s

/-- The scan goes on, or its call is over. -/
def after (st : Session) : Next → Session
  | .cont s => { st with scan := some s }
  | .stop err s => ⟨st.jsn.finish err s, none, err⟩

def step (st : Session) : Act → Option Session
  | .openText txt =>
    if st.scan = none then
      (microjsJsonOpen st.jsn txt).map fun r => ⟨r.2, none, r.1⟩
    else none
  | .flush => if st.scan = none then some { st with jsn := microjsJsonFlush st.jsn } else none
  | .scan => if st.scan = none then some { st with scan := some st.jsn.begin } else none
  | .turn => st.scan.bind fun s => (next lim st.jsn s).map (after st)

/-- Calls are made while no scan is under way, turns while one is. -/
def Enabled (st : Session) : Act → Prop
  | .turn => st.scan ≠ none
  | _ => st.scan = none

def start (size : Nat) (lbl : List (List Nat)) : Session := ⟨microjsJsonInit size lbl, none, ok⟩

/-- The counters and the buffer. -/
def area (st : Session) : Area := (st.scan.map Scan.area).getD st.jsn.area

/-- The step stays in the buffer: `cnt` is at most `sp` and this at most `top`, it stores between
them only, and if it is a turn that needs more bytes than there are, the scan is over, with
`MICROJS_TOKEN_BUF_OVF`. -/
def Safe (st : Session) (a : Act) : Prop :=
  Enabled st a → ∃ st', step lim st a = some st' ∧ st.area.Respects st'.area ∧
    ∀ s, st.scan = some s →
      s.room < demandTurn lim s ((st.jsn.txt.take st.jsn.len).drop s.i) →
        st'.scan = none ∧ st'.ret = tokenBufOvf

/-- There is room where the code does not look for it. -/
def Roomy (st : Session) : Act → Prop
  | .openText txt => st.scan = none → RoomyOpen st.jsn txt
  | .turn => ∀ s, st.scan = some s → RoomyTurn s ((st.jsn.txt.take st.jsn.len).drop s.i)
  | _ => True

/-- What holds before every step. -/
def Sound (st : Session) : Prop :=
  match st.scan with
  | none => st.jsn.area.Packed
  | some s => s.Sound lim

end Session

namespace Session

variable {st st' : Session} {a : Act}

theorem finish_area (jsn : Parser) (err : Int) (s : Scan) :
    (jsn.finish err s).area = ⟨s.cnt % 65536, s.sp % 65536, s.buf⟩ := by
  unfold Parser.finish
  split_ifs
  · rfl
  · rfl

theorem finish_area_of_packed (jsn : Parser) (err : Int) {s : Scan} (h : s.area.Packed) :
    (jsn.finish err s).area = s.area := by
  have hle : s.cnt ≤ s.sp := h.le
  have htop : s.sp ≤ s.buf.length := h.top
  have hsmall : s.buf.length < 65536 := h.small
  rw [finish_area, Nat.mod_eq_of_lt (by lia), Nat.mod_eq_of_lt (by lia)]
  rfl

theorem after_area {n : Next} (h : n.scan.Sound lim) : (after st n).area = n.scan.area := by
  cases n with
  | cont s => rfl
  | stop err s => exact finish_area_of_packed st.jsn err h.toPacked

theorem after_sound {n : Next} (h : n.scan.Sound lim) : (after st n).Sound lim := by
  cases n with
  | cont s => exact h
  | stop err s =>
      have hpacked : s.area.Packed := h.toPacked
      show (st.jsn.finish err s).area.Packed
      rwa [finish_area_of_packed st.jsn err hpacked]

/-- Opening is safe exactly if there is room for the brace. -/
theorem openText_safe_iff (h : st.Sound lim) (txt : List Nat) :
    Safe lim st (.openText txt) ↔ Roomy st (.openText txt) := by
  obtain ⟨jsn, scan, ret⟩ := st
  cases scan with
  | some s => exact iff_of_true (fun hen => by cases hen) fun hen => by cases hen
  | none =>
      constructor
      · intro hsafe _
        obtain ⟨st', hstep, hrespects, -⟩ := hsafe rfl
        obtain ⟨r, hr, rfl⟩ := Option.map_eq_some_iff.mp hstep
        exact roomyOpen_of_respects h hr hrespects
      · intro hroomy _
        obtain ⟨r, hr, hrespects, -⟩ := fineOpen h (hroomy rfl)
        exact ⟨⟨r.2, none, r.1⟩, by rw [step, if_pos rfl, hr, Option.map_some], hrespects,
          fun s hs => by cases hs⟩

/-- A turn is safe exactly if there is room for it where the code does not look. -/
theorem turn_safe_iff (h : st.Sound lim) : Safe lim st .turn ↔ Roomy st .turn := by
  obtain ⟨jsn, scan, ret⟩ := st
  cases scan with
  | none => exact iff_of_true (fun hen => absurd rfl hen) fun s hs => by cases hs
  | some s =>
      have hs : s.Sound lim := h
      constructor
      · intro hsafe s' hs'
        obtain rfl := Option.some.inj hs'
        by_contra hroomy
        obtain ⟨st', hstep, hrespects, -⟩ := hsafe nofun
        obtain ⟨n, hn, rfl⟩ := Option.map_eq_some_iff.mp hstep
        rcases turn_overwrites hs hroomy hn with ⟨s', rfl, hnot⟩ | ⟨hsp, hnot⟩
        · exact hnot hrespects
        · cases n with
          | cont s' => exact hnot s'.area hsp rfl hrespects
          | stop err s' =>
              have htop : s.sp ≤ s.buf.length := hs.top
              have hsmall : s.buf.length < 65536 := hs.small
              have hsp' : s'.sp = s.sp := hsp
              refine hnot (jsn.finish err s').area ?_ ?_ hrespects
              · rw [finish_area, hsp']
                exact Nat.mod_eq_of_lt (htop.trans_lt hsmall)
              · rw [finish_area]
                rfl
      · intro hroomy _
        obtain ⟨n, hn, hrespects, hsound, hfull⟩ := fine_turn hs jsn.lbl jsn.txt (hroomy s rfl)
        refine ⟨after ⟨jsn, some s, ret⟩ n, ?_, ?_, ?_⟩
        · show (next lim jsn s).map _ = _
          rw [next, hn, Option.map_some]
        · rw [after_area hsound]
          exact hrespects
        · intro s' hs' hlt
          obtain rfl := Option.some.inj hs'
          rw [hfull hlt]
          exact ⟨rfl, rfl⟩

theorem safe_iff (h : st.Sound lim) (a : Act) : Safe lim st a ↔ Roomy st a := by
  cases a with
  | openText txt => exact openText_safe_iff h txt
  | turn => exact turn_safe_iff h
  | flush =>
      obtain ⟨jsn, scan, ret⟩ := st
      refine iff_of_true (fun hen => ?_) trivial
      obtain rfl : scan = none := hen
      have hjsn : jsn.area.Packed := h
      exact ⟨⟨microjsJsonFlush jsn, none, ret⟩, by rw [step, if_pos rfl],
        ⟨⟨Nat.zero_le _, le_refl _⟩, .refl _ _ _⟩, fun s hs => by cases hs⟩
  | scan =>
      obtain ⟨jsn, scan, ret⟩ := st
      refine iff_of_true (fun hen => ?_) trivial
      obtain rfl : scan = none := hen
      have hjsn : jsn.area.Packed := h
      exact ⟨⟨jsn, some jsn.begin, ret⟩, by rw [step, if_pos rfl],
        ⟨hjsn.toWithin, .refl _ _ _⟩, fun s hs => by cases hs⟩

/-- Safe steps keep the stack one of brackets. -/
theorem sound_step (h : st.Sound lim) (hsafe : Safe lim st a) (hstep : step lim st a = some st') :
    st'.Sound lim := by
  have hroomy := (safe_iff h a).mp hsafe
  obtain ⟨jsn, scan, ret⟩ := st
  cases a with
  | openText txt =>
      obtain ⟨hscan, hopen⟩ := Option.ite_none_right_eq_some.mp hstep
      obtain rfl : scan = none := hscan
      obtain ⟨r, hr, -, hpacked⟩ := fineOpen h (hroomy rfl)
      rw [show microjsJsonOpen jsn txt = some r from hr] at hopen
      obtain rfl := Option.some.inj hopen
      exact hpacked
  | flush =>
      obtain ⟨hscan, hflush⟩ := Option.ite_none_right_eq_some.mp hstep
      obtain rfl : scan = none := hscan
      obtain rfl := Option.some.inj hflush
      have hjsn : jsn.area.Packed := h
      refine ⟨⟨Nat.zero_le _, le_refl _⟩, hjsn.small, fun b hb => ?_⟩
      have hmem : b ∈ jsn.tok.drop jsn.tok.length := hb
      rw [List.drop_length] at hmem
      cases hmem
  | scan =>
      obtain ⟨hscan, hbegin⟩ := Option.ite_none_right_eq_some.mp hstep
      obtain rfl : scan = none := hscan
      obtain rfl := Option.some.inj hbegin
      exact ⟨h, fun htok => absurd htok (ne_tokString lim (show tokNull ≤ tokInt32 by decide))⟩
  | turn =>
      obtain ⟨s, hscan, hturn⟩ := Option.bind_eq_some_iff.mp hstep
      obtain rfl : scan = some s := hscan
      obtain ⟨n, hn, -, hsound, -⟩ := fine_turn h jsn.lbl jsn.txt (hroomy s rfl)
      rw [show next lim jsn s = some n from hn] at hturn
      obtain rfl := Option.some.inj hturn
      exact after_sound hsound

theorem sound_start (size : Nat) (lbl : List (List Nat)) : (start size lbl).Sound lim := by
  have hsmall : size % 65536 < 65536 := Nat.mod_lt _ (by decide)
  refine ⟨⟨Nat.zero_le _, ?_⟩, ?_, fun b hb => ?_⟩
  · show size % 65536 ≤ (List.replicate (size % 65536) 0).length
    rw [List.length_replicate]
  · show (List.replicate (size % 65536) 0).length < 65536
    rw [List.length_replicate]
    exact hsmall
  · have hmem : b ∈ (List.replicate (size % 65536) 0).drop (size % 65536) := hb
    rw [List.drop_eq_nil_of_le (by rw [List.length_replicate])] at hmem
    cases hmem

/-- A session stays in its buffer exactly if, before each of its steps, there is room for the two
bytes of an opening brace, for a whole symbol or for the bracket of the stack. -/
theorem along_safe_iff (lim : Limits) (size : Nat) (lbl : List (List Nat)) (acts : List Act) :
    Lib.Along (step lim) (Safe lim) (start size lbl) acts ↔
      Lib.Along (step lim) Roomy (start size lbl) acts :=
  Lib.along_congr (fun _ a h => safe_iff h a) (fun _ _ _ h hsafe hstep => sound_step h hsafe hstep)
    acts (sound_start size lbl)

/-- `{abcdefghij` in a buffer of ten bytes: the symbol is stored behind its end. -/
theorem long_symbol_unsafe :
    ¬ Lib.Along (step Limits.default) (Safe Limits.default) (start 10 [])
      [.openText [123, 97, 98, 99, 100, 101, 102, 103, 104, 105, 106], .scan, .turn] := by
  intro h
  obtain ⟨-, hscan⟩ := h
  obtain ⟨-, hturn⟩ := hscan _ rfl
  obtain ⟨hsafe, -⟩ := hturn _ rfl
  obtain ⟨st', hstep, -⟩ := hsafe nofun
  cases hstep

end Session

end YardIce.MicroJs.Json
