import Mathlib.Data.BitVec
import Mathlib.Data.List.Basic

/-!
# The TELNET service

`telnet_svc_write` puts a second `IAC` into the stream behind each one of the data. The input task
takes commands, negotiations and suboptions out of the stream it receives, in a state that lives
from one piece of it to the next.

## Implementation notes

A call of `tcp_send` takes all the bytes or fails. The receive ring is modelled by the bytes that
were put into it, in order; waiting for a place in it is left to the reader.
-/

namespace YardIce.Telnet

abbrev Byte := BitVec 8

/-- `IAC` -/
def iac : Byte := 255
/-- `DONT` -/
def cmdDont : Byte := 254
/-- `DO` -/
def cmdDo : Byte := 253
/-- `WONT` -/
def cmdWont : Byte := 252
/-- `WILL` -/
def cmdWill : Byte := 251
/-- `SB` -/
def cmdSb : Byte := 250
/-- `SE` -/
def cmdSe : Byte := 240

/-- `TELOPT_BINARY` -/
def teloptBinary : Byte := 0
/-- `TELOPT_ECHO` -/
def teloptEcho : Byte := 1
/-- `TELOPT_SGA` -/
def teloptSga : Byte := 3

/-! ## Writing -/

/-- `for (; (pos < rem) && (cp[pos] != IAC); pos++)` -/
def searchIac (cp : List Byte) (rem : Int) : Nat → Nat → Nat
  | 0, pos => pos
  | turns + 1, pos =>
      if (pos : Int) < rem ∧ cp[pos]? ≠ some iac then searchIac cp rem turns (pos + 1) else pos

/-- The bytes that were sent, and the number of the calls of `tcp_send`. -/
structure Wire where
  sent : List Byte
  calls : Nat

/-- `tcp_send`; `accepts` tells which of the calls do not fail. -/
def tcpSend (accepts : Nat → Bool) (cp : List Byte) (w : Wire) : Bool × Wire :=
  if accepts w.calls then (true, ⟨w.sent ++ cp, w.calls + 1⟩) else (false, ⟨w.sent, w.calls + 1⟩)

/-- The loop of `telnet_svc_write`, and what comes behind it. -/
def writeLoop (accepts : Nat → Bool) (len : Int) :
    Nat → List Byte → Int → Nat → Int → Wire → Int × Wire
  | 0, _, _, _, cnt, w => (cnt, w)
  | turns + 1, cp, rem, pos, cnt, w =>
      if (pos : Int) < rem then
        -- send data until IAC, inclusive
        let (ok, w) :=
          if cp[pos]? = some iac then tcpSend accepts (cp.take (pos + 1)) w else (true, w)
        if ok then
          let cp := cp.drop pos
          let rem := rem - pos
          writeLoop accepts len turns cp rem (searchIac cp rem cp.length 1) (cnt + pos) w
        else (cnt, w)
      else if pos = 0 then (len, w)
      else
        let (ok, w) := tcpSend accepts (cp.take pos) w
        (if ok then len else cnt, w)

/-- `telnet_svc_write`, when connected: the value returned and the bytes sent. -/
def telnetSvcWrite (accepts : Nat → Bool) (buf : List Byte) (w : Wire) : Int × Wire :=
  -- `int rem = len;`
  let len := BitVec.toInt (BitVec.ofNat 32 buf.length)
  writeLoop accepts len (buf.length + 2) buf len (searchIac buf len buf.length 0) 0 w

/-- The bytes that a call of `telnet_svc_write` puts on the wire. -/
def written (buf : List Byte) : List Byte := (telnetSvcWrite (fun _ => true) buf ⟨[], 0⟩).2.sent

/-! ## The input task -/

inductive TnState where
  | data
  | iacRcvd
  | dontRcvd
  | doRcvd
  | wontRcvd
  | willRcvd
  | suboptionId
  | suboption
  | sbIacRcvd
  | invalidSuboption
  | invalidSbIacRcvd
  deriving DecidableEq

/-- The variables of the input task, the bytes put into the ring and the replies sent. -/
structure Input where
  state : TnState
  binary : Bool
  optLocal : BitVec 32
  optRemote : BitVec 32
  stored : List Byte
  replies : List (List Byte)

namespace Input

/-- `1 << opt` -/
def optBit (opt : Byte) : BitVec 32 := 1#32 <<< opt.toNat

/-- `tn_opt_will` -/
def tnOptWill (s : Input) (opt : Byte) : Input :=
  if 31 < opt.toNat then s
  else if s.optLocal &&& optBit opt ≠ 0 then s
  else
    { s with
      optLocal := s.optLocal ||| optBit opt
      replies := s.replies ++ [[iac, cmdWill, opt]] }

/-- `tn_opt_do` -/
def tnOptDo (s : Input) (opt : Byte) : Input :=
  if 31 < opt.toNat then s
  else if s.optRemote &&& optBit opt ≠ 0 then s
  else
    { s with
      optRemote := s.optRemote ||| optBit opt
      replies := s.replies ++ [[iac, cmdDo, opt]] }

/-- `tn_opt_wont` -/
def tnOptWont (s : Input) (opt : Byte) : Input :=
  if 31 < opt.toNat then s
  else if s.optLocal &&& optBit opt = 0 then s
  else
    { s with
      optLocal := s.optLocal &&& ~~~optBit opt
      replies := s.replies ++ [[iac, cmdWont, opt]] }

/-- `tn_opt_dont`, which leaves the option in the set. -/
def tnOptDont (s : Input) (opt : Byte) : Input :=
  if 31 < opt.toNat then s
  else if s.optRemote &&& optBit opt = 0 then s
  else { s with replies := s.replies ++ [[iac, cmdDont, opt]] }

/-- The state behind `IAC` and a byte. -/
def afterIac (c : Byte) : TnState :=
  if c = iac then .data
  else if c = cmdDont then .dontRcvd
  else if c = cmdDo then .doRcvd
  else if c = cmdWont then .wontRcvd
  else if c = cmdWill then .willRcvd
  else if c = cmdSb then .suboptionId
  else .data

/-- A byte is processed. -/
def tnInput (s : Input) (c : Byte) : Input :=
  match s.state with
  | .data =>
      if c = iac then { s with state := .iacRcvd }
      else if s.binary ∨ 3 ≤ c.toNat ∧ c.toNat < 127 then { s with stored := s.stored ++ [c] }
      else s
  | .iacRcvd => { s with state := afterIac c }
  | .dontRcvd => { s.tnOptWont c with state := .data }
  | .doRcvd =>
      if c = teloptSga ∨ c = teloptEcho ∨ c = teloptBinary then
        { s.tnOptWill c with state := .data }
      else { s.tnOptWont c with state := .data }
  | .wontRcvd => { s.tnOptDont c with state := .data }
  | .willRcvd =>
      if c = teloptEcho then { s.tnOptDont c with state := .data }
      else if c = teloptSga then { s.tnOptDo c with state := .data }
      else if c = teloptBinary then { s.tnOptDo c with state := .data, binary := true }
      else { s.tnOptDont c with state := .data }
  | .suboptionId => { s with state := .suboption }
  | .suboption => if c = iac then { s with state := .sbIacRcvd } else s
  | .sbIacRcvd => { s with state := if c = cmdSe then .data else .suboption }
  | .invalidSuboption => if c = iac then { s with state := .invalidSbIacRcvd } else s
  | .invalidSbIacRcvd => { s with state := if c = cmdSe then .data else .invalidSuboption }

/-- The pieces that `tcp_recv` returns are processed. -/
def telnetInput (s : Input) (pieces : List (List Byte)) : Input :=
  pieces.foldl (fun s piece => piece.foldl tnInput s) s

end Input

/-! ## Streams -/

/-- The data with every `IAC` doubled. -/
def escape (data : List Byte) : List Byte :=
  data.flatMap fun c => if c = iac then [iac, iac] else [c]

/-- What a peer sends. -/
inductive Item where
  | data (buf : List Byte)
  | command (c : Byte)
  | negotiation (verb opt : Byte)
  | suboption (opt : Byte) (content : List Byte)

namespace Item

/-- A command is not one of those that go on, and a negotiation is one of the four. -/
def WellFormed : Item → Prop
  | .data buf => buf.length < 2 ^ 32
  | .command c => Input.afterIac c = .data ∧ c ≠ iac
  | .negotiation verb _ => verb = cmdDont ∨ verb = cmdDo ∨ verb = cmdWont ∨ verb = cmdWill
  | .suboption _ _ => True

/-- The bytes of an item on the wire. -/
def wire : Item → List Byte
  | .data buf => written buf
  | .command c => [iac, c]
  | .negotiation verb opt => [iac, verb, opt]
  | .suboption opt content => [iac, cmdSb, opt] ++ escape content ++ [iac, cmdSe]

/-- The data of an item. -/
def payload : Item → List Byte
  | .data buf => buf
  | _ => []

end Item

/-! ## What is written -/

theorem searchIac_eq (a b : List Byte) {turns : Nat} (h : b.length ≤ turns) :
    searchIac (a ++ b) (a ++ b).length turns a.length =
      a.length + (b.takeWhile (· ≠ iac)).length := by
  induction b generalizing a turns with
  | nil =>
      cases turns with
      | zero => rfl
      | succ turns => simp [searchIac]
  | cons c b ih =>
      obtain ⟨turns, rfl⟩ : ∃ k, turns = k + 1 := ⟨turns - 1, by simp at h; omega⟩
      unfold searchIac
      by_cases hc : c = iac
      · subst hc
        simp
      · have hrest : b.length ≤ turns := by simpa using h
        have hnext := ih (a ++ [c]) hrest
        rw [List.append_assoc, List.singleton_append, show (a ++ [c]).length = a.length + 1 by simp] at hnext
        have hin : ((a.length : Nat) : Int) < ((a ++ c :: b).length : Nat) := by
          rw [List.length_append, List.length_cons]
          omega
        rw [if_pos ⟨hin, by simpa using hc⟩, hnext, List.takeWhile_cons_of_pos (by simpa using hc),
          List.length_cons]
        omega

theorem escape_cons (c : Byte) (b : List Byte) :
    escape (c :: b) = (if c = iac then [iac, iac] else [c]) ++ escape b := rfl

theorem escape_append (a b : List Byte) : escape (a ++ b) = escape a ++ escape b :=
  List.flatMap_append

theorem escape_of_ne {a : List Byte} (h : ∀ c ∈ a, c ≠ iac) : escape a = a := by
  induction a with
  | nil => rfl
  | cons c a ih =>
      rw [escape_cons, if_neg (h c List.mem_cons_self),
        ih fun d hd => h d (List.mem_cons_of_mem _ hd), List.singleton_append]

/-- The bytes up to the first `IAC` stay as they are. -/
theorem escape_search (b : List Byte) :
    escape b = b.takeWhile (· ≠ iac) ++ escape (b.dropWhile (· ≠ iac)) := by
  have hplain : escape (b.takeWhile (· ≠ iac)) = b.takeWhile (· ≠ iac) :=
    escape_of_ne fun c hc => by simpa using List.all_eq_true.mp List.all_takeWhile c hc
  rw [← hplain, ← escape_append, List.takeWhile_append_dropWhile]

theorem dropWhile_head {b : List Byte} : ∀ c ∈ (b.dropWhile (· ≠ iac)).head?, c = iac := by
  induction b with
  | nil => exact fun c hc => nomatch hc
  | cons d b ih =>
      by_cases hd : d = iac
      · subst hd
        exact fun c hc => (Option.some.inj hc).symm
      · rwa [List.dropWhile_cons_of_pos (by simpa using hd)]

/-- The loop sends what is left with every `IAC` doubled; `a` is what the search has passed. -/
theorem writeLoop_sent (len : Int) {turns pos : Nat} {a b : List Byte} (cnt : Int) (w : Wire)
    (hpos : pos = a.length) (hb : ∀ c ∈ b.head?, c = iac) (hturns : b.length < turns) :
    (writeLoop (fun _ => true) len turns (a ++ b) (a ++ b).length pos cnt w).2.sent =
      w.sent ++ (a ++ escape b) := by
  subst hpos
  induction turns generalizing a b cnt w with
  | zero => omega
  | succ turns ih =>
      unfold writeLoop
      cases b with
      | nil =>
          rw [if_neg (by simp)]
          split_ifs with hnone
          · simp [List.length_eq_zero_iff.mp hnone, escape]
          · simp [tcpSend, escape]
      | cons c b =>
          obtain rfl : c = iac := hb c rfl
          have hin : ((a.length : Nat) : Int) < ((a ++ iac :: b).length : Nat) := by
            rw [List.length_append, List.length_cons]
            omega
          have hrem : (((a ++ iac :: b).length : Nat) : Int) - (a.length : Nat) =
              ((iac :: b).length : Nat) := by
            rw [List.length_append]
            omega
          have hfound : (a ++ iac :: b)[a.length]? = some iac := by simp
          have hslice : (a ++ iac :: b).take (a.length + 1) = a ++ [iac] := by
            simp [List.take_append]
          have hnext := searchIac_eq [iac] b (show b.length ≤ (iac :: b).length by simp)
          have hsplit : iac :: b = (iac :: b.takeWhile (· ≠ iac)) ++ b.dropWhile (· ≠ iac) := by
            rw [List.cons_append, List.takeWhile_append_dropWhile]
          rw [if_pos hin]
          simp only [hfound, if_true, tcpSend, hslice, hrem, List.drop_left]
          rw [List.singleton_append, List.length_singleton] at hnext
          rw [hnext, hsplit]
          rw [Nat.add_comm]
          have hmore := ih (cnt + a.length) ⟨w.sent ++ (a ++ [iac]), w.calls + 1⟩
            (dropWhile_head (b := b)) (a := iac :: b.takeWhile (· ≠ iac))
            ((List.dropWhile_suffix _).length_le.trans_lt (Nat.succ_lt_succ_iff.mp hturns))
          refine hmore.trans ?_
          rw [← hsplit, escape_cons, if_pos rfl, escape_search b]
          simp

theorem takeWhile_append (b : List Byte) :
    b.takeWhile (· ≠ iac) ++ b.dropWhile (· ≠ iac) = b := List.takeWhile_append_dropWhile

/-- Data of less than 2 GiB are sent with every `IAC` doubled; a longer piece is not sent at all,
as its length is negative. -/
theorem written_eq {buf : List Byte} (h : buf.length < 2 ^ 32) :
    written buf = if buf.length < 2 ^ 31 then escape buf else [] := by
  unfold written telnetSvcWrite
  have hlen : (BitVec.ofNat 32 buf.length).toNat = buf.length := by
    rw [BitVec.toNat_ofNat, Nat.mod_eq_of_lt h]
  split_ifs with hsmall
  · have hint : (BitVec.ofNat 32 buf.length).toInt = (buf.length : Nat) := by
      rw [BitVec.toInt_eq_toNat_of_lt (by omega), hlen]
    have hsearch := searchIac_eq [] buf (le_refl buf.length)
    rw [List.nil_append, List.length_nil, Nat.zero_add] at hsearch
    simp only [hint, hsearch]
    have hturns : (buf.dropWhile (· ≠ iac)).length < buf.length + 2 :=
      (List.dropWhile_suffix _).length_le.trans_lt (by omega)
    have hloop := writeLoop_sent (buf.length : Nat) (a := buf.takeWhile (· ≠ iac)) 0 ⟨[], 0⟩ rfl
      dropWhile_head hturns
    rw [takeWhile_append, ← escape_search] at hloop
    exact hloop
  · have hint : (BitVec.ofNat 32 buf.length).toInt < 0 := by
      rw [BitVec.toInt_eq_toNat_cond]
      omega
    have hsearch : ∀ turns, searchIac buf (BitVec.ofNat 32 buf.length).toInt turns 0 = 0 := by
      intro turns
      cases turns with
      | zero => rfl
      | succ turns =>
          unfold searchIac
          rw [if_neg (by simp; omega)]
    simp only [hsearch]
    unfold writeLoop
    rw [if_neg (by simp; omega), if_pos rfl]

/-! ## What is received -/

namespace Input

variable {s : Input}

/-- The task is ready for data again, and `d` was put into the ring. -/
structure Delivers (s t : Input) (d : List Byte) : Prop where
  state : t.state = .data
  binary : t.binary = true
  stored : t.stored = s.stored ++ d

theorem Delivers.trans {t u : Input} {d e : List Byte} (h : s.Delivers t d) (h' : t.Delivers u e) :
    s.Delivers u (d ++ e) :=
  ⟨h'.state, h'.binary, by rw [h'.stored, h.stored, List.append_assoc]⟩

theorem tnOptWill_frame (s : Input) (c : Byte) :
    (s.tnOptWill c).binary = s.binary ∧ (s.tnOptWill c).stored = s.stored := by
  unfold tnOptWill
  split_ifs <;> exact ⟨rfl, rfl⟩

theorem tnOptDo_frame (s : Input) (c : Byte) :
    (s.tnOptDo c).binary = s.binary ∧ (s.tnOptDo c).stored = s.stored := by
  unfold tnOptDo
  split_ifs <;> exact ⟨rfl, rfl⟩

theorem tnOptWont_frame (s : Input) (c : Byte) :
    (s.tnOptWont c).binary = s.binary ∧ (s.tnOptWont c).stored = s.stored := by
  unfold tnOptWont
  split_ifs <;> exact ⟨rfl, rfl⟩

theorem tnOptDont_frame (s : Input) (c : Byte) :
    (s.tnOptDont c).binary = s.binary ∧ (s.tnOptDont c).stored = s.stored := by
  unfold tnOptDont
  split_ifs <;> exact ⟨rfl, rfl⟩

/-- The states behind the verb of a negotiation. -/
def Negotiates (s : Input) : Prop :=
  s.state = .dontRcvd ∨ s.state = .doRcvd ∨ s.state = .wontRcvd ∨ s.state = .willRcvd

theorem negotiation_delivers (hs : s.Negotiates) (hbin : s.binary = true) (opt : Byte) :
    s.Delivers (s.tnInput opt) [] := by
  have hwill := tnOptWill_frame s opt
  have hdo := tnOptDo_frame s opt
  have hwont := tnOptWont_frame s opt
  have hdont := tnOptDont_frame s opt
  unfold tnInput
  rcases hs with hs | hs | hs | hs <;> simp only [hs]
  · exact ⟨rfl, hwont.1.trans hbin, by simpa using hwont.2⟩
  · split_ifs
    · exact ⟨rfl, hwill.1.trans hbin, by simpa using hwill.2⟩
    · exact ⟨rfl, hwont.1.trans hbin, by simpa using hwont.2⟩
  · exact ⟨rfl, hdont.1.trans hbin, by simpa using hdont.2⟩
  · split_ifs
    · exact ⟨rfl, hdont.1.trans hbin, by simpa using hdont.2⟩
    · exact ⟨rfl, hdo.1.trans hbin, by simpa using hdo.2⟩
    · exact ⟨rfl, rfl, by simpa using hdo.2⟩
    · exact ⟨rfl, hdont.1.trans hbin, by simpa using hdont.2⟩

theorem data_delivers (hs : s.state = .data) (hbin : s.binary = true) (data : List Byte) :
    s.Delivers ((escape data).foldl tnInput s) (data.filter (· ≠ iac)) := by
  induction data generalizing s with
  | nil => exact ⟨hs, hbin, (List.append_nil _).symm⟩
  | cons c data ih =>
      rw [escape_cons, List.foldl_append]
      by_cases hc : c = iac
      · subst hc
        -- the second byte is taken for the end of a command
        have htwice : [iac, iac].foldl tnInput s = s := by
          obtain ⟨state, binary, optLocal, optRemote, stored, replies⟩ := s
          obtain rfl : state = .data := hs
          rfl
        rw [if_pos rfl, htwice, List.filter_cons_of_neg (by simp)]
        exact ih hs hbin
      · have hone : [c].foldl tnInput s = { s with stored := s.stored ++ [c] } := by
          simp only [List.foldl_cons, List.foldl_nil, tnInput, hs, if_neg hc, hbin, true_or, if_true]
        rw [if_neg hc, hone, List.filter_cons_of_pos (by simpa using hc)]
        have hfirst : s.Delivers { s with stored := s.stored ++ [c] } [c] := ⟨hs, hbin, rfl⟩
        exact hfirst.trans (ih (s := { s with stored := s.stored ++ [c] }) hs hbin)

/-- The content of a suboption leaves the state as it is. -/
theorem foldl_content (hs : s.state = .suboption) (content : List Byte) :
    (escape content).foldl tnInput s = s := by
  induction content with
  | nil => rfl
  | cons c content ih =>
      have hone : (if c = iac then [iac, iac] else [c]).foldl tnInput s = s := by
        obtain ⟨state, binary, optLocal, optRemote, stored, replies⟩ := s
        obtain rfl : state = .suboption := hs
        split_ifs with hc
        · rfl
        · simp only [List.foldl_cons, List.foldl_nil, tnInput, if_neg hc]
      rw [escape_cons, List.foldl_append, hone, ih]

end Input

/-- What is stored of an item. -/
def Item.delivered : Item → List Byte
  | .data buf => if buf.length < 2 ^ 31 then buf.filter (· ≠ iac) else []
  | _ => []

theorem Item.delivers {s : Input} (hs : s.state = .data) (hbin : s.binary = true) {i : Item}
    (hi : i.WellFormed) : s.Delivers (i.wire.foldl Input.tnInput s) i.delivered := by
  obtain ⟨state, binary, optLocal, optRemote, stored, replies⟩ := s
  obtain rfl : state = .data := hs
  obtain rfl : binary = true := hbin
  cases i with
  | data buf =>
      show Input.Delivers _ ((written buf).foldl _ _) (if _ then _ else _)
      rw [written_eq hi]
      split_ifs
      · exact Input.data_delivers rfl rfl buf
      · exact ⟨rfl, rfl, (List.append_nil _).symm⟩
  | command c => exact ⟨hi.1, rfl, (List.append_nil _).symm⟩
  | negotiation verb opt =>
      have hverb : Input.Negotiates ([iac, verb].foldl Input.tnInput
          ⟨.data, true, optLocal, optRemote, stored, replies⟩) := by
        rcases hi with rfl | rfl | rfl | rfl
        · exact .inl rfl
        · exact .inr (.inl rfl)
        · exact .inr (.inr (.inl rfl))
        · exact .inr (.inr (.inr rfl))
      have h := Input.negotiation_delivers hverb rfl opt
      exact ⟨h.state, h.binary, h.stored⟩
  | suboption opt content =>
      have hcontent : ([iac, cmdSb, opt] ++ escape content ++ [iac, cmdSe]).foldl Input.tnInput
          ⟨.data, true, optLocal, optRemote, stored, replies⟩ =
            ⟨.data, true, optLocal, optRemote, stored, replies⟩ := by
        rw [List.foldl_append, List.foldl_append]
        rw [Input.foldl_content (s := [iac, cmdSb, opt].foldl Input.tnInput
          ⟨.data, true, optLocal, optRemote, stored, replies⟩) rfl]
        rfl
      show Input.Delivers _
        (([iac, cmdSb, opt] ++ escape content ++ [iac, cmdSe]).foldl Input.tnInput _) []
      rw [hcontent]
      exact ⟨rfl, rfl, (List.append_nil _).symm⟩

theorem delivers_items {s : Input} (hs : s.state = .data) (hbin : s.binary = true)
    {items : List Item} (hitems : ∀ i ∈ items, i.WellFormed) :
    s.Delivers ((items.flatMap Item.wire).foldl Input.tnInput s) (items.flatMap Item.delivered) := by
  induction items generalizing s with
  | nil => exact ⟨hs, hbin, (List.append_nil _).symm⟩
  | cons i items ih =>
      have hfirst := Item.delivers hs hbin (hitems i List.mem_cons_self)
      have hrest := ih hfirst.state hfirst.binary fun j hj => hitems j (List.mem_cons_of_mem _ hj)
      rw [List.flatMap_cons, List.foldl_append]
      exact hfirst.trans hrest

/-- Every item's data are stored as they are. -/
def Item.Transparent : Item → Prop
  | .data buf => iac ∉ buf ∧ buf.length < 2 ^ 31
  | _ => True

theorem Item.delivered_sublist (i : Item) : i.delivered.Sublist i.payload := by
  cases i with
  | data buf =>
      show (if buf.length < 2 ^ 31 then buf.filter (· ≠ iac) else []).Sublist buf
      split_ifs
      · exact List.filter_sublist
      · exact List.nil_sublist _
  | command c => exact .slnil
  | negotiation verb opt => exact .slnil
  | suboption opt content => exact .slnil

theorem Item.delivered_iff (i : Item) : i.delivered = i.payload ↔ i.Transparent := by
  cases i with
  | data buf =>
      show (if buf.length < 2 ^ 31 then buf.filter (· ≠ iac) else []) = buf ↔ iac ∉ buf ∧ _
      split_ifs with hsmall
      · rw [List.filter_eq_self, and_iff_left hsmall]
        constructor
        · exact fun h hin => by simpa using h iac hin
        · exact fun h c hc => by
            have hne : c ≠ iac := fun heq => h (heq ▸ hc)
            simpa using hne
      · refine iff_of_false (fun h => ?_) fun h => hsmall h.2
        rw [← h] at hsmall
        exact hsmall (by decide)
  | command c => exact iff_of_true rfl trivial
  | negotiation verb opt => exact iff_of_true rfl trivial
  | suboption opt content => exact iff_of_true rfl trivial

theorem flatMap_sublist {α β : Type*} {f g : α → List β} {l : List α}
    (h : ∀ a ∈ l, (f a).Sublist (g a)) : (l.flatMap f).Sublist (l.flatMap g) := by
  induction l with
  | nil => exact .slnil
  | cons a l ih =>
      exact (h a List.mem_cons_self).append (ih fun b hb => h b (List.mem_cons_of_mem _ hb))

/-- Parts that are sublists make up the whole only if they are all of it. -/
theorem flatMap_eq_iff {α β : Type*} {f g : α → List β} {l : List α}
    (h : ∀ a ∈ l, (f a).Sublist (g a)) : l.flatMap f = l.flatMap g ↔ ∀ a ∈ l, f a = g a := by
  induction l with
  | nil => simp
  | cons a l ih =>
      have hrest : ∀ b ∈ l, (f b).Sublist (g b) := fun b hb => h b (List.mem_cons_of_mem _ hb)
      rw [List.flatMap_cons, List.flatMap_cons, List.forall_mem_cons, ← ih hrest]
      constructor
      · intro heq
        have hlen := congrArg List.length heq
        rw [List.length_append, List.length_append] at hlen
        have ha := (h a List.mem_cons_self).length_le
        have hl := (flatMap_sublist hrest).length_le
        exact List.append_inj heq (by omega)
      · rintro ⟨ha, hl⟩
        rw [ha, hl]

/-- Whatever the pieces in which the stream is received: exactly the data are stored if and only
if no byte of them is `IAC` and none was written by a call of 2 GiB or more. -/
theorem telnet_transparent_iff (items : List Item) (hitems : ∀ i ∈ items, i.WellFormed)
    (pieces : List (List Byte)) (hpieces : pieces.flatten = items.flatMap Item.wire) (s : Input)
    (hs : s.state = .data) (hbin : s.binary = true) :
    ((s.telnetInput pieces).stored = s.stored ++ items.flatMap Item.payload ∧
      (s.telnetInput pieces).state = .data) ↔ ∀ i ∈ items, i.Transparent := by
  have hfold : s.telnetInput pieces = (items.flatMap Item.wire).foldl Input.tnInput s := by
    rw [← hpieces, List.foldl_flatten]
    rfl
  have hdelivers := delivers_items hs hbin hitems
  rw [hfold, and_iff_left hdelivers.state, hdelivers.stored, List.append_cancel_left_eq,
    flatMap_eq_iff fun i _ => i.delivered_sublist]
  simp only [Item.delivered_iff]

/-- Data, a request for an option and a suboption, received in two pieces. -/
theorem telnet_transparent_two :
    (Input.telnetInput ⟨.data, true, 0, 0, [], []⟩
      [[1, 2, 255], [253, 3, 255, 250, 24, 255, 255, 7, 255, 240, 0, 254]]).stored =
        [1, 2, 0, 254] :=
  ((telnet_transparent_iff
    [.data [1, 2], .negotiation cmdDo 3, .suboption 24 [255, 7], .data [0, 254]]
    (List.forall_mem_cons.mpr ⟨show _ < _ by decide, List.forall_mem_cons.mpr ⟨.inr (.inl rfl),
      List.forall_mem_cons.mpr ⟨trivial, List.forall_mem_singleton.mpr (show _ < _ by decide)⟩⟩⟩)
    [[1, 2, 255], [253, 3, 255, 250, 24, 255, 255, 7, 255, 240, 0, 254]] (by decide)
    ⟨.data, true, 0, 0, [], []⟩ rfl rfl).mpr
    (List.forall_mem_cons.mpr ⟨show _ ∧ _ by decide, List.forall_mem_cons.mpr ⟨trivial,
      List.forall_mem_cons.mpr ⟨trivial, List.forall_mem_singleton.mpr (show _ ∧ _ by decide)⟩⟩⟩)).1

/-- A byte 255 that is written is not stored. -/
theorem iac_lost :
    ¬ ∀ (buf : List Byte) (s : Input), s.state = .data → s.binary = true →
      (s.telnetInput [written buf]).stored = s.stored ++ buf := fun h =>
  absurd (h [255] ⟨.data, true, 0, 0, [], []⟩ rfl rfl) (by decide)

end YardIce.Telnet
