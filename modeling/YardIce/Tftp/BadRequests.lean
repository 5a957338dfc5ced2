import YardIce.Tftp.Download
import YardIce.Tftp.Scanning

/-!
# Requests that name no mode

A request is to be refused if its mode is unknown or if it is cut off. `tftp_req_parse` fails on an
unknown mode and leaves the request before it in place; the task does not look at its value. The
strings are read up to their zeros, wherever the datagram ends.
-/

namespace YardIce.Tftp

open IceDrv (Word)
open Lib

variable {σ : Type}

/-! ## The bytes of a request -/

/-- The bytes received from `th_stuff` on. -/
def body (pkt : List Byte) : List Byte := (pkt.take maxTftpMsg).drop 2

/-- The names of the modes. -/
def Known (mode : List Byte) : Prop := mode = text "octet" ∨ mode = text "netascii"
  deriving Decidable

/-- A mode that is known follows the file name, both within the bytes given. -/
def NamesMode (s : List Byte) : Prop := ∃ p ∈ cstring s, ∃ q ∈ cstring p.2, Known q.1
  deriving Decidable

/-- A datagram with the operation code of a request. -/
def IsRequest (pkt : List Byte) : Prop := ∃ opc ∈ [opcRrq, opcWrq], be16 opc <+: pkt
  deriving Decidable

/-- A request without a known mode, or one that does not end with a zero. -/
structure Malformed (pkt : List Byte) : Prop where
  request : IsRequest pkt
  bad : ¬(NamesMode (body pkt) ∧ (body pkt).getLast? = some 0)

/-- The request is parsed and its name decoded within the bytes received, and the answer is an
error, after which the server is idle. -/
structure Refused (t : Target σ) (s : Server σ) (pkt : List Byte) : Prop where
  parsed : ∃ r, tftpReqParse (body pkt) s.req = some r
  decoded : ∃ p, tftpDecodeFname s.dbg (body pkt) = some p
  reply : ∃ s' code msg, tftpDaemonTask t s (client pkt) = some (s', [tftpError code msg]) ∧
    s'.state = .idle

/-- What is read of the option ends within the bytes given. -/
def OptionEnds (opts : List Byte) : Prop :=
  ¬opts <+: text "blksize" ∧
    ∀ q ∈ cstring opts, q.1 = text "blksize" → ∃ c ∈ skipBlanks q.2, decDigit c = none
  deriving Decidable

/-- The name, the comparisons with the modes and the option end within the bytes given. -/
def Contained (s : List Byte) : Prop :=
  ∃ p ∈ cstring s, ¬p.2 <+: text "octet" ∧ ¬p.2 <+: text "netascii" ∧
    ∀ q ∈ cstring p.2, Known q.1 → OptionEnds q.2
  deriving Decidable

/-- The name is a range of addresses that does not end behind its start. -/
def BadRange (s : List Byte) : Prop :=
  isAddress s ∧ ∃ p ∈ strtoul s 16, ∃ c ∈ p.2.head?, (c = 0x3a ∨ c = 0x2d) ∧
    ∃ q ∈ strtoul p.2.tail 16, q.1 ≤ p.1
  deriving Decidable

/-- An event that the server takes as a request with a known mode. -/
def Names (s : Server σ) : Event → Prop
  | .failed => False
  | .datagram d =>
      ((s.load d).buf.field 0 = opcRrq ∨ (s.load d).buf.field 0 = opcWrq) ∧
        (s.connected = true ∨ 0 ≤ d.connect) ∧ NamesMode (s.load d).buf.stuff
/-! ## Parsing -/

section Parsing

variable {s cp opts : List Byte} {req req' : Req} {ret : Int}

theorem known_zero {mode : List Byte} (h : Known mode) : 0 ∉ mode := by
  rcases h with rfl | rfl <;> decide

theorem parseMode_eq_none_iff :
    parseMode cp = none ↔ cp <+: text "octet" ∨ cp <+: text "netascii" := by
  have hdiff : ¬(∃ rest, cp = text "octet" ++ 0 :: rest) ∨ ¬cp <+: text "netascii" := by
    rw [← not_and_or]
    rintro ⟨⟨rest, rfl⟩, hpre⟩
    exact absurd (List.cons_prefix_cons.mp hpre).1 (by decide)
  rw [← strcmp_eq_true_iff, ← strcmp_eq_none_iff] at hdiff
  rw [← strcmp_eq_none_iff, ← strcmp_eq_none_iff, parseMode]
  cases hoctet : strcmp cp (text "octet") with
  | none => simp
  | some octet =>
      cases octet with
      | true =>
          rw [hoctet] at hdiff
          simpa using hdiff
      | false =>
          cases strcmp cp (text "netascii") with
          | none => simp
          | some netascii => cases netascii <;> simp

theorem known_iff_strcmp : (∃ q ∈ cstring cp, Known q.1) ↔
    strcmp cp (text "octet") = some true ∨ strcmp cp (text "netascii") = some true := by
  rw [strcmp_eq_true_iff_cstring (by decide), strcmp_eq_true_iff_cstring (by decide)]
  constructor
  · rintro ⟨⟨mode, rest⟩, hmode, rfl | rfl⟩
    · exact .inl ⟨rest, hmode⟩
    · exact .inr ⟨rest, hmode⟩
  · rintro (⟨rest, hmode⟩ | ⟨rest, hmode⟩)
    · exact ⟨_, hmode, .inl rfl⟩
    · exact ⟨_, hmode, .inr rfl⟩

/-- The value for a mode that is known is one of the two, and for another there is none. -/
theorem parseMode_spec {m : Option Mode} (h : parseMode cp = some m) :
    (∃ q ∈ cstring cp, Known q.1) ∧ (∃ mode, m = some mode ∧ mode ≠ .unset) ∨
      (¬∃ q ∈ cstring cp, Known q.1) ∧ m = none := by
  rw [known_iff_strcmp]
  rw [parseMode] at h
  cases hoctet : strcmp cp (text "octet") with
  | none => simp [hoctet] at h
  | some octet =>
      cases octet with
      | true =>
          simp only [hoctet, Option.bind_eq_bind, Option.bind_some, if_true, Option.pure_def,
            Option.some.injEq] at h
          exact .inl ⟨.inl rfl, .octet, h.symm, by decide⟩
      | false =>
          cases hnetascii : strcmp cp (text "netascii") with
          | none => simp [hoctet, hnetascii] at h
          | some netascii =>
              cases netascii with
              | true =>
                  simp only [hoctet, hnetascii, Option.bind_eq_bind, Option.bind_some, if_true,
                    Bool.false_eq_true, if_false, Option.pure_def, Option.some.injEq] at h
                  exact .inl ⟨.inr rfl, .netascii, h.symm, by decide⟩
              | false =>
                  simp only [hoctet, hnetascii, Option.bind_eq_bind, Option.bind_some,
                    Bool.false_eq_true, if_false, Option.pure_def, Option.some.injEq] at h
                  exact .inr ⟨by simp, h.symm⟩

theorem parseMode_append {m : Option Mode} (h : parseMode cp = some m) (t : List Byte) :
    parseMode (cp ++ t) = some m := by
  rw [parseMode] at h ⊢
  simp only [Option.bind_eq_bind, Option.bind_eq_some_iff] at h ⊢
  obtain ⟨octet, hoctet, h⟩ := h
  refine ⟨octet, strcmp_append hoctet t, ?_⟩
  cases octet with
  | true => exact h
  | false =>
      simp only [Bool.false_eq_true, if_false, Option.bind_eq_some_iff] at h ⊢
      obtain ⟨netascii, hnetascii, h⟩ := h
      exact ⟨netascii, strcmp_append hnetascii t, h⟩

theorem parseBlksize_append {p : Nat × List Byte} (h : parseBlksize opts = some p)
    (t : List Byte) : parseBlksize (opts ++ t) = some p := by
  rw [parseBlksize] at h ⊢
  simp only [Option.bind_eq_bind, Option.bind_eq_some_iff] at h ⊢
  obtain ⟨named, hnamed, h⟩ := h
  refine ⟨named, strcmp_append hnamed t, ?_⟩
  cases named with
  | false => exact h
  | true =>
      simp only [if_true, Option.bind_eq_some_iff] at h ⊢
      obtain ⟨⟨name, cp⟩, hname, ⟨val, rest⟩, hval, h⟩ := h
      exact ⟨(name, cp ++ t), cstring_append hname t, (val, rest ++ t), strtoul_append hval t, h⟩

theorem strtoul_ten_eq_none_iff :
    strtoul s 10 = none ↔ ∀ c ∈ skipBlanks s, decDigit c ≠ none := by
  rw [strtoul]
  cases hs : skipBlanks s with
  | nil => simp
  | cons c rest =>
      simp only [show ¬((10 = 0 ∨ 10 = 16) ∧ c = 0x30) by omega, if_false, or_true, if_true]
      exact digits_eq_none_iff

theorem parseBlksize_some_iff : (∃ p, parseBlksize opts = some p) ↔ OptionEnds opts := by
  have hcstring : strcmp opts (text "blksize") = some true ↔
      ∃ rest, cstring opts = some (text "blksize", rest) :=
    strcmp_eq_true_iff_cstring (by decide)
  rw [OptionEnds, ← strcmp_eq_none_iff, parseBlksize]
  cases hnamed : strcmp opts (text "blksize") with
  | none => simp
  | some named =>
      rw [hnamed, Option.some.injEq] at hcstring
      cases named with
      | false =>
          have hnone : ∀ q ∈ cstring opts, q.1 ≠ text "blksize" := by
            rintro ⟨name, rest⟩ hname rfl
            exact absurd (hcstring.mpr ⟨rest, hname⟩) (by decide)
          constructor
          · exact fun _ => ⟨by simp, fun q hq heq => absurd heq (hnone q hq)⟩
          · exact fun _ => ⟨_, rfl⟩
      | true =>
          obtain ⟨val, hval⟩ := hcstring.mp rfl
          simp only [hval, Option.bind_eq_bind, Option.bind_some, if_true, reduceCtorEq,
            not_false_eq_true, Option.mem_def, Option.some.injEq, forall_eq', true_and, forall_const]
          have hnumber := strtoul_ten_eq_none_iff (s := val)
          cases hstr : strtoul val 10 with
          | none =>
              rw [hstr] at hnumber
              simpa using hnumber.mp rfl
          | some q =>
              rw [hstr] at hnumber
              simpa using hnumber

theorem tftpReqParse_append (h : tftpReqParse s req = some (ret, req')) (t : List Byte) :
    tftpReqParse (s ++ t) req = some (ret, req') := by
  rw [tftpReqParse] at h ⊢
  simp only [Option.bind_eq_bind, Option.bind_eq_some_iff] at h ⊢
  obtain ⟨⟨name, cp⟩, hname, m, hmode, h⟩ := h
  refine ⟨(name, cp ++ t), cstring_append hname t, m, parseMode_append hmode t, ?_⟩
  cases m with
  | none => exact h
  | some mode =>
      simp only [Option.bind_eq_some_iff] at h ⊢
      obtain ⟨⟨text, opts⟩, htext, p, hopts, h⟩ := h
      exact ⟨(text, opts ++ t), cstring_append htext t, p, parseBlksize_append hopts t, h⟩

/-- A request with a known mode replaces the one before, and one without leaves it. -/
theorem tftpReqParse_spec (h : tftpReqParse s req = some (ret, req')) :
    NamesMode s ∧ req'.mode ≠ .unset ∨ ¬NamesMode s ∧ req' = req := by
  rw [tftpReqParse] at h
  simp only [Option.bind_eq_bind, Option.bind_eq_some_iff] at h
  obtain ⟨⟨name, cp⟩, hname, m, hmode, h⟩ := h
  have hnames : NamesMode s ↔ ∃ q ∈ cstring cp, Known q.1 := by simp [NamesMode, hname]
  rw [hnames]
  rcases parseMode_spec hmode with ⟨hknown, mode, rfl, hset⟩ | ⟨hknown, rfl⟩
  · simp only [Option.bind_eq_some_iff, Option.pure_def, Option.some.injEq, Prod.mk.injEq] at h
    obtain ⟨_, -, p, -, -, rfl⟩ := h
    exact .inl ⟨hknown, hset⟩
  · simp only [Option.pure_def, Option.some.injEq, Prod.mk.injEq] at h
    exact .inr ⟨hknown, h.2.symm⟩

/-- The request is parsed inside the bytes given if the strings of it end there. -/
theorem tftpReqParse_some_iff : (∃ p, tftpReqParse s req = some p) ↔ Contained s := by
  rw [tftpReqParse, Contained]
  cases hname : cstring s with
  | none => simp
  | some p =>
      obtain ⟨name, cp⟩ := p
      have hpart : parseMode cp = none ↔ cp <+: text "octet" ∨ cp <+: text "netascii" :=
        parseMode_eq_none_iff
      simp only [Option.bind_eq_bind, Option.bind_some, Option.mem_def, Option.some.injEq,
        exists_eq_left']
      cases hmode : parseMode cp with
      | none =>
          rw [hmode] at hpart
          have hpre := hpart.mp rfl
          simp only [Option.bind_none, reduceCtorEq, exists_false, false_iff]
          tauto
      | some m =>
          rw [hmode] at hpart
          have hpre : ¬cp <+: text "octet" ∧ ¬cp <+: text "netascii" := by
            rw [← not_or]
            exact fun h => absurd (hpart.mpr h) (by simp)
          rcases parseMode_spec hmode with ⟨⟨⟨mode, opts⟩, hq, hknown⟩, m, rfl, -⟩ | ⟨hknown, rfl⟩
          · rw [Option.mem_def] at hq
            simp only [hq, Option.bind_some, Option.some.injEq, forall_eq', hknown, forall_const,
              hpre, not_false_eq_true, true_and]
            rw [← parseBlksize_some_iff]
            constructor
            · rintro ⟨p, h⟩
              obtain ⟨q, hq, -⟩ := Option.bind_eq_some_iff.mp h
              exact ⟨q, hq⟩
            · rintro ⟨q, hq⟩
              rw [hq]
              exact ⟨_, rfl⟩
          · refine ⟨fun _ => ⟨hpre.1, hpre.2, fun q hq h => absurd ⟨q, hq, h⟩ hknown⟩, ?_⟩
            exact fun _ => ⟨_, rfl⟩

end Parsing
/-! ## File names -/

theorem rangeEnd_eq_none_iff (addr size : Word) (s : List Byte) :
    rangeEnd addr size s = some none ↔
      ∃ c ∈ s.head?, (c = 0x3a ∨ c = 0x2d) ∧ ∃ q ∈ strtoul s.tail 16, q.1 ≤ addr := by
  cases s with
  | nil => simp [rangeEnd]
  | cons c cp =>
      rw [rangeEnd]
      by_cases hrange : c = 0x3a ∨ c = 0x2d
      · rw [if_pos hrange]
        cases hstr : strtoul cp 16 with
        | none => simp [hstr]
        | some q => simpa [hstr] using fun _ => hrange
      · rw [if_neg hrange]
        simp only [List.head?_cons, Option.mem_def, Option.some.injEq, exists_eq_left', hrange,
          false_and, iff_false]
        by_cases hsize : c = 0x2e ∨ c = 0x5f ∨ c = 0x23
        · rw [if_pos hsize]
          intro h
          simp only [Option.bind_eq_bind, Option.bind_eq_some_iff, Option.pure_def,
            Option.some.injEq, reduceCtorEq, and_false, exists_false] at h
        · rw [if_neg hsize]
          exact fun h => by cases h

theorem tftpDecodeFname_ret {dbg dbg' : Debugger σ} {s fname : List Byte} {ret : Int}
    (h : tftpDecodeFname dbg s = some (ret, dbg', fname)) :
    BadRange s ∧ ret = -1 ∨ ¬BadRange s ∧ ret = 0 := by
  rw [tftpDecodeFname] at h
  by_cases haddr : isAddress s
  · rw [if_pos haddr] at h
    simp only [Option.bind_eq_bind, Option.bind_eq_some_iff] at h
    obtain ⟨⟨addr, cp⟩, hstr, last, hlast, h⟩ := h
    have hrange : BadRange s ↔ rangeEnd addr dbg.transf.size cp = some none := by
      rw [rangeEnd_eq_none_iff, BadRange]
      simp [haddr, hstr]
    rw [hrange, hlast]
    cases last with
    | none =>
        cases h
        exact .inl ⟨rfl, rfl⟩
    | some last =>
        cases h
        exact .inr ⟨by simp, rfl⟩
  · have hrange : ¬BadRange s := fun hbad => haddr hbad.1
    rw [if_neg haddr] at h
    simp only [Option.bind_eq_bind, Option.bind_eq_some_iff] at h
    obtain ⟨cut, -, ⟨name, rest⟩, -, h⟩ := h
    refine .inr ⟨hrange, ?_⟩
    cases hmem : iceMemByName dbg.mem name with
    | none =>
        rw [hmem] at h
        cases h
        rfl
    | some e =>
        rw [hmem] at h
        cases h
        rfl

/-! ## The answer to a request -/

section Answers

variable {t : Target σ} {s u : Server σ} {sent : Int} {req : Req} {dbg : Debugger σ}
  {fname : List Byte} {ret c : Int} {code : ErrCode} {msg : List Byte}

theorem startTransfer_of (hparse : tftpReqParse s.buf.stuff s.req = some (ret, req))
    (hdecode : tftpDecodeFname s.dbg s.buf.stuff = some (c, dbg, fname)) :
    ∃ u, startTransfer s = some (decide (0 ≤ c), u) ∧ u.req = req ∧ u.state = s.state := by
  simp only [Tftp.startTransfer, hparse, hdecode, Option.bind_eq_bind, Option.bind_some]
  by_cases hc : c < 0
  · rw [if_pos hc, decide_eq_false (by omega)]
    exact ⟨_, rfl, rfl, rfl⟩
  · rw [if_neg hc, decide_eq_true (by omega)]
    exact ⟨_, rfl, rfl, rfl⟩

/-- A packet of data is no error. -/
theorem sendData_ne_error (len : Int) : (sendData sent len s).2 ≠ [tftpError code msg] := by
  intro h
  have hbytes := @Buf.store_zero s.buf (be16 opcData ++ be16 (s.block + 1))
    (show 4 ≤ maxTftpMsg by decide)
  simp only [sendData, hbytes, tftpError, List.cons.injEq, Action.sendto.injEq, and_true] at h
  have hsecond := congrArg (fun l => l[1]?) h
  simp [be16, opcData, opcError, List.getElem?_take] at hsecond

theorem sendOctet_ne_error : (sendOctet t sent s).2 ≠ [tftpError code msg] := by
  rw [sendOctet]
  split
  · simp
  · exact sendData_ne_error _

theorem sendNetascii_ne_error : (sendNetascii t sent s).2 ≠ [tftpError code msg] := by
  rw [sendNetascii]
  split
  · simp
  · exact sendData_ne_error _

theorem tftpOack_ne_error (opt : List Byte) : tftpOack opt ≠ [tftpError code msg] := by
  rw [tftpOack]
  split
  · simp
  · simp [tftpError, be16, opcOack, opcError]

end Answers
section Requests

variable {t : Target σ} {s : Server σ} {sent : Int} {req : Req} {dbg : Debugger σ}
  {fname : List Byte} {ret c : Int}

/-- A request whose name is a bad range, or after which no mode is set, is answered by an error. -/
theorem request_error (hparse : tftpReqParse s.buf.stuff s.req = some (ret, req))
    (hdecode : tftpDecodeFname s.dbg s.buf.stuff = some (c, dbg, fname))
    (hbad : c < 0 ∨ req.mode = .unset) :
    ∃ u code msg, readRequest t sent s = some (u, [tftpError code msg]) ∧
      writeRequest s = some (u, [tftpError code msg]) ∧ u.state = s.state := by
  obtain ⟨u, hstart, hreq, hstate⟩ := startTransfer_of hparse hdecode
  by_cases hc : c < 0
  · rw [decide_eq_false (by omega)] at hstart
    refine ⟨u, .enotfound, text "BAD ADDR.", ?_, ?_, hstate⟩
    · rw [readRequest, hstart]
      rfl
    · rw [writeRequest, hstart]
      rfl
  · have hmode : u.req.mode = .unset := by
      rw [hreq]
      exact hbad.resolve_left hc
    rw [decide_eq_true (by omega)] at hstart
    refine ⟨u, .eundef, eundefText, ?_, ?_, hstate⟩
    · simp [readRequest, hstart, hmode]
    · simp [writeRequest, hstart, hmode]

/-- Any other request starts a transfer. -/
theorem readRequest_ne_error (hparse : tftpReqParse s.buf.stuff s.req = some (ret, req))
    (hdecode : tftpDecodeFname s.dbg s.buf.stuff = some (c, dbg, fname)) (hc : 0 ≤ c)
    (hmode : req.mode ≠ .unset) {u : Server σ} {code : ErrCode} {msg : List Byte} :
    readRequest t sent s ≠ some (u, [tftpError code msg]) := by
  obtain ⟨v, hstart, hreq, -⟩ := startTransfer_of hparse hdecode
  rw [decide_eq_true hc] at hstart
  rw [← hreq] at hmode
  intro h
  simp only [readRequest, hstart, Option.bind_eq_bind, Option.bind_some, Bool.not_true,
    Bool.false_eq_true, if_false] at h
  cases hm : v.req.mode with
  | unset => exact hmode hm
  | netascii =>
      simp only [hm] at h
      split at h
      · simp only [Option.pure_def, Option.some.injEq, Prod.mk.injEq] at h
        exact tftpOack_ne_error _ h.2
      · simp only [Option.pure_def, Option.some.injEq] at h
        exact sendNetascii_ne_error (congrArg Prod.snd h)
  | octet =>
      simp only [hm] at h
      split at h
      · simp only [Option.pure_def, Option.some.injEq, Prod.mk.injEq] at h
        exact tftpOack_ne_error _ h.2
      · simp only [Option.pure_def, Option.some.injEq] at h
        exact sendOctet_ne_error (congrArg Prod.snd h)

theorem acceptWrite_ne_error (state : State) {code : ErrCode} {msg : List Byte} :
    (acceptWrite state s).2 ≠ [tftpError code msg] := by
  rw [acceptWrite]
  split
  · exact tftpOack_ne_error _
  · simp [tftpAck, tftpError, be16, opcAck, opcError]

theorem writeRequest_ne_error (hparse : tftpReqParse s.buf.stuff s.req = some (ret, req))
    (hdecode : tftpDecodeFname s.dbg s.buf.stuff = some (c, dbg, fname)) (hc : 0 ≤ c)
    (hmode : req.mode ≠ .unset) {u : Server σ} {code : ErrCode} {msg : List Byte} :
    writeRequest s ≠ some (u, [tftpError code msg]) := by
  obtain ⟨v, hstart, hreq, -⟩ := startTransfer_of hparse hdecode
  rw [decide_eq_true hc] at hstart
  rw [← hreq] at hmode
  intro h
  simp only [writeRequest, hstart, Option.bind_eq_bind, Option.bind_some, Bool.not_true,
    Bool.false_eq_true, if_false] at h
  cases hm : v.req.mode with
  | unset => exact hmode hm
  | netascii =>
      simp only [hm, Option.pure_def, Option.some.injEq] at h
      exact acceptWrite_ne_error _ (congrArg Prod.snd h)
  | octet =>
      simp only [hm, Option.pure_def, Option.some.injEq] at h
      exact acceptWrite_ne_error _ (congrArg Prod.snd h)

end Requests

/-! ## A request in the buffer -/

section Requests

variable {pkt : List Byte}

/-- Behind the bytes of a request the buffer has those of earlier datagrams. -/
theorem IsRequest.stuff (h : IsRequest pkt) (s : Server σ) :
    ∃ stale, (s.load (dgram pkt)).buf.stuff = body pkt ++ stale := by
  obtain ⟨opc, -, rest, rfl⟩ := h
  refine ⟨s.buf.bytes.drop ((be16 opc ++ rest).take maxTftpMsg).length, ?_⟩
  have hlen : ((be16 opc ++ rest).take maxTftpMsg).length ≤ maxTftpMsg := List.length_take_le _ _
  have htwo : 2 ≤ ((be16 opc ++ rest).take maxTftpMsg).length := by
    rw [List.length_take, List.length_append, be16, maxTftpMsg, maxTftpSegsize, List.length_cons,
      List.length_cons]
    omega
  rw [Buf.stuff, Server.load, dgram, Buf.store_zero _ hlen, body, List.drop_append_of_le_length htwo]

theorem IsRequest.field (h : IsRequest pkt) (s : Server σ) :
    (s.load (dgram pkt)).buf.field 0 = opcRrq ∨ (s.load (dgram pkt)).buf.field 0 = opcWrq := by
  obtain ⟨opc, hopc, rest, rfl⟩ := h
  have hlen : ((be16 opc ++ rest).take maxTftpMsg).length ≤ maxTftpMsg := List.length_take_le _ _
  have htake : (be16 opc ++ rest).take maxTftpMsg =
      be16 opc ++ rest.take (maxTftpMsg - 2) := by
    rw [List.take_append, be16]
    rfl
  have hfield : (s.load (dgram (be16 opc ++ rest))).buf.field 0 = opc % 2 ^ 16 := by
    rw [Server.load, dgram, Buf.field, Buf.store_zero _ hlen, htake]
    exact be16_toNat opc
  rw [hfield]
  simp only [List.mem_cons, List.not_mem_nil, or_false] at hopc
  rcases hopc with rfl | rfl
  · exact .inl rfl
  · exact .inr rfl

end Requests
section Refused

variable {t : Target σ} {s : Server σ} {pkt : List Byte}

theorem client_request (t : Target σ) (s : Server σ) (h : IsRequest pkt) :
    tftpDaemonTask t s (client pkt) =
      ((if (s.load (dgram pkt)).buf.field 0 = opcRrq then readRequest t 0 (s.load (dgram pkt))
        else writeRequest (s.load (dgram pkt))).map fun r => (r.1.after, r.2)) := by
  have hfield := h.field s
  rw [task_request t hfield pkt rfl, serve_eq, dispatch]
  rcases hfield with hfield | hfield
  · rw [if_pos hfield, if_pos hfield]
    rfl
  · have hrrq : ¬(s.load (dgram pkt)).buf.field 0 = opcRrq := by
      rw [hfield]
      decide
    rw [if_neg hrrq, if_neg hrrq, if_pos hfield]

/-- A request is refused exactly if it is read inside the datagram, the server is idle, and the name
is a bad range or no mode is set before and after it. -/
theorem refused_request_iff (h : IsRequest pkt) : Refused t s pkt ↔ Contained (body pkt) ∧
    s.state = .idle ∧ (BadRange (body pkt) ∨ ¬NamesMode (body pkt) ∧ s.req.mode = .unset) := by
  obtain ⟨stale, hstale⟩ := h.stuff s
  have hbuf : ∀ {ret req c dbg fname}, tftpReqParse (body pkt) s.req = some (ret, req) →
      tftpDecodeFname s.dbg (body pkt) = some (c, dbg, fname) →
      tftpReqParse (s.load (dgram pkt)).buf.stuff (s.load (dgram pkt)).req = some (ret, req) ∧
      tftpDecodeFname (s.load (dgram pkt)).dbg (s.load (dgram pkt)).buf.stuff =
        some (c, dbg, fname ++ stale) := by
    intro ret req c dbg fname hparse hdecode
    rw [hstale]
    exact ⟨tftpReqParse_append hparse stale, tftpDecodeFname_append hdecode stale⟩
  constructor
  · rintro ⟨⟨⟨ret, req⟩, hparse⟩, ⟨⟨c, dbg, fname⟩, hdecode⟩, s', code, msg, hstep, hidle⟩
    obtain ⟨hparse', hdecode'⟩ := hbuf hparse hdecode
    refine ⟨tftpReqParse_some_iff.mp ⟨_, hparse⟩, ?_⟩
    rw [client_request t s h, Option.map_eq_some_iff] at hstep
    obtain ⟨⟨u, acts⟩, hdispatch, heq⟩ := hstep
    rw [Prod.mk.injEq] at heq
    obtain ⟨rfl, rfl⟩ := heq
    by_cases hbad : c < 0 ∨ req.mode = .unset
    · obtain ⟨v, code', msg', hread, hwrite, hstate⟩ :=
        request_error (t := t) hparse' hdecode' hbad
      rw [hread, hwrite, ite_self, Option.some.injEq, Prod.mk.injEq] at hdispatch
      refine ⟨?_, ?_⟩
      · rw [← hdispatch.1] at hidle
        exact hstate.symm.trans hidle
      · rcases tftpDecodeFname_ret hdecode with ⟨hrange, -⟩ | ⟨hrange, rfl⟩
        · exact .inl hrange
        · have hunset : req.mode = .unset := hbad.resolve_left (by decide)
          rcases tftpReqParse_spec hparse with ⟨-, hset⟩ | ⟨hnames, rfl⟩
          · exact absurd hunset hset
          · exact .inr ⟨hnames, hunset⟩
    · rw [not_or] at hbad
      split at hdispatch
      · exact absurd hdispatch
          (readRequest_ne_error hparse' hdecode' (Int.not_lt.mp hbad.1) hbad.2)
      · exact absurd hdispatch
          (writeRequest_ne_error hparse' hdecode' (Int.not_lt.mp hbad.1) hbad.2)
  · rintro ⟨hcontained, hidle, hbad⟩
    obtain ⟨⟨ret, req⟩, hparse⟩ := tftpReqParse_some_iff.mpr hcontained
    have hzero : 0 ∈ body pkt := by
      obtain ⟨⟨name, cp⟩, hname, -⟩ := hcontained
      exact zero_mem_of_cstring hname
    obtain ⟨⟨c, dbg, fname⟩, hdecode⟩ := tftpDecodeFname_of_zero s.dbg hzero
    obtain ⟨hparse', hdecode'⟩ := hbuf hparse hdecode
    have herror : c < 0 ∨ req.mode = .unset := by
      rcases hbad with hrange | ⟨hnames, hunset⟩
      · rcases tftpDecodeFname_ret hdecode with ⟨-, rfl⟩ | ⟨hrange', -⟩
        · exact .inl (by decide)
        · exact absurd hrange hrange'
      · rcases tftpReqParse_spec hparse with ⟨hnames', -⟩ | ⟨-, rfl⟩
        · exact absurd hnames' hnames
        · exact .inr hunset
    obtain ⟨u, code, msg, hread, hwrite, hstate⟩ := request_error (t := t) hparse' hdecode' herror
    refine ⟨⟨_, hparse⟩, ⟨_, hdecode⟩, u.after, code, msg, ?_, hstate.trans hidle⟩
    rw [client_request t s h, hread, hwrite, ite_self]
    rfl

end Refused
/-! ## The mode after a run -/

section Runs

variable {t : Target σ} {s s' : Server σ} {sent len : Int} {acts : List Action}

theorem sendOctet_req : (sendOctet t sent s).1.req = s.req := by
  rw [sendOctet]
  split <;> rfl

theorem sendNetascii_req : (sendNetascii t sent s).1.req = s.req := by
  rw [sendNetascii]
  split <;> rfl

theorem ackPacket_req : (ackPacket t sent s).1.req = s.req := by
  rw [ackPacket]
  split
  · exact sendNetascii_req
  · exact sendOctet_req
  · rfl

theorem recvOctet_req : (recvOctet t len s).1.req = s.req := by
  simp only [recvOctet, Server.setTarget]
  split
  · rfl
  · split <;> rfl

theorem recvNetascii_req (h : recvNetascii t len s = some (s', acts)) : s'.req = s.req := by
  rw [recvNetascii] at h
  simp only at h
  by_cases hend : len ≠ s.blksize ∧ len = 0
  · rw [if_pos hend] at h
    cases h
    rfl
  · rw [if_neg hend, tftpRecvNetascii] at h
    simp only [Option.bind_eq_bind, Option.bind_eq_some_iff] at h
    obtain ⟨⟨ret, n, dbg, buf⟩, -, h⟩ := h
    simp only at h
    split at h
    · cases h
      rfl
    · cases h
      rfl

theorem dataPacket_req (h : dataPacket t len s = some (s', acts)) : s'.req = s.req := by
  rw [dataPacket] at h
  split at h
  · cases h
    rfl
  · split at h
    · rw [Option.some.injEq] at h
      have hfst : _ = s' := congrArg Prod.fst h
      rw [← hfst]
      exact recvOctet_req
    · cases h
      rfl
    · exact recvNetascii_req h
    · cases h
      rfl

/-- A request leaves the request that was parsed. -/
theorem startTransfer_req {u : Server σ} {accepted : Bool}
    (h : startTransfer s = some (accepted, u)) :
    ∃ ret, tftpReqParse s.buf.stuff s.req = some (ret, u.req) := by
  simp only [Tftp.startTransfer, Option.bind_eq_bind, Option.bind_eq_some_iff] at h
  obtain ⟨⟨ret, req⟩, hparse, ⟨c, dbg, fname⟩, -, h⟩ := h
  simp only at h
  split at h
  · cases h
    exact ⟨ret, hparse⟩
  · cases h
    exact ⟨ret, hparse⟩

theorem readRequest_req (h : readRequest t sent s = some (s', acts)) :
    ∃ ret, tftpReqParse s.buf.stuff s.req = some (ret, s'.req) := by
  simp only [readRequest, Option.bind_eq_bind, Option.bind_eq_some_iff] at h
  obtain ⟨⟨accepted, u⟩, hstart, h⟩ := h
  suffices hreq : s'.req = u.req by
    rw [hreq]
    exact startTransfer_req hstart
  simp only at h
  split at h
  · cases h
    rfl
  · split at h
    · cases h
      rfl
    · split at h
      · cases h
        rfl
      · rw [Option.pure_def, Option.some.injEq] at h
        have hfst : _ = s' := congrArg Prod.fst h
        rw [← hfst]
        exact sendNetascii_req
    · split at h
      · cases h
        rfl
      · rw [Option.pure_def, Option.some.injEq] at h
        have hfst : _ = s' := congrArg Prod.fst h
        rw [← hfst]
        exact sendOctet_req

theorem writeRequest_req (h : writeRequest s = some (s', acts)) :
    ∃ ret, tftpReqParse s.buf.stuff s.req = some (ret, s'.req) := by
  simp only [writeRequest, Option.bind_eq_bind, Option.bind_eq_some_iff] at h
  obtain ⟨⟨accepted, u⟩, hstart, h⟩ := h
  suffices hreq : s'.req = u.req by
    rw [hreq]
    exact startTransfer_req hstart
  simp only at h
  split at h
  · cases h
    rfl
  · split at h
    · cases h
      rfl
    · cases h
      rfl
    · cases h
      rfl

end Runs
section Modes

variable {t : Target σ} {s s' : Server σ} {e : Event} {acts : List Action} {pkt : List Byte}

theorem serve_mode {d : Datagram} {len : Int} (h : serve t d len s = some (s', acts)) :
    s'.req.mode = .unset ↔ s.req.mode = .unset ∧
      ¬((s.buf.field 0 = opcRrq ∨ s.buf.field 0 = opcWrq) ∧ NamesMode s.buf.stuff) := by
  rw [serve_eq, Option.map_eq_some_iff] at h
  obtain ⟨⟨u, acts'⟩, hdispatch, heq⟩ := h
  rw [Prod.mk.injEq] at heq
  obtain ⟨rfl, rfl⟩ := heq
  change u.req.mode = .unset ↔ _
  have hparsed : ∀ {ret}, tftpReqParse s.buf.stuff s.req = some (ret, u.req) →
      (u.req.mode = .unset ↔ s.req.mode = .unset ∧ ¬NamesMode s.buf.stuff) := by
    intro ret hparse
    rcases tftpReqParse_spec hparse with ⟨hnames, hset⟩ | ⟨hnames, hreq⟩
    · simp [hnames, hset]
    · simp [hnames, hreq]
  rw [dispatch] at hdispatch
  by_cases hrrq : s.buf.field 0 = opcRrq
  · simp only [hrrq, if_true] at hdispatch
    obtain ⟨ret, hparse⟩ := readRequest_req hdispatch
    simp only [hrrq, true_or, true_and]
    exact hparsed hparse
  · by_cases hwrq : s.buf.field 0 = opcWrq
    · rw [if_neg hrrq, if_pos hwrq] at hdispatch
      obtain ⟨ret, hparse⟩ := writeRequest_req hdispatch
      simp only [hwrq, or_true, true_and]
      exact hparsed hparse
    · have hreq : u.req = s.req := by
        simp only [hrrq, hwrq, if_false] at hdispatch
        split at hdispatch
        · rw [Option.some.injEq] at hdispatch
          have hfst : _ = u := congrArg Prod.fst hdispatch
          rw [← hfst]
          exact ackPacket_req
        · split at hdispatch
          · exact dataPacket_req hdispatch
          · cases hdispatch
            rfl
      simp [hreq, hrrq, hwrq]

/-- A step leaves the mode unset exactly if it was and the event names none. -/
theorem task_mode (h : tftpDaemonTask t s e = some (s', acts)) :
    s'.req.mode = .unset ↔ s.req.mode = .unset ∧ ¬Names s e := by
  cases e with
  | failed =>
      cases h
      simp [Names]
  | datagram d =>
      simp only [tftpDaemonTask] at h
      by_cases hconnected : s.connected = true
      · have hconnected' : (s.load d).connected = true := hconnected
        rw [if_pos hconnected'] at h
        rw [serve_mode h, Names]
        simp only [hconnected, true_or, true_and]
        rfl
      · have hconnected' : ¬(s.load d).connected = true := hconnected
        rw [if_neg hconnected'] at h
        by_cases hother : (s.load d).buf.field 0 ≠ opcRrq ∧ (s.load d).buf.field 0 ≠ opcWrq
        · rw [if_pos hother] at h
          cases h
          have hnames : ¬Names s (.datagram d) := by
            rintro ⟨hrrq | hwrq, -⟩
            · exact hother.1 hrrq
            · exact hother.2 hwrq
          simp [hnames, Server.load]
        · rw [if_neg hother] at h
          by_cases hconnect : d.connect < 0
          · rw [if_pos hconnect] at h
            cases h
            simp [Names, hconnected, hconnect, Server.load]
          · rw [if_neg hconnect] at h
            rw [serve_mode h, Names]
            simp only [hconnected, Int.not_lt.mp hconnect, or_true, true_and]
            rfl

/-- In every run of the task, a request without a known mode or without a zero at its end is refused
exactly if it is read inside the datagram, the server is idle before it, and either its name is a
bad range or no request up to it has named a mode. -/
theorem malformed_refused_iff (t : Target σ) {buf : Buf} {req : Req} {dbg : Debugger σ}
    {es : List Event}
    (hrun : respond (tftpDaemonTask t) (Server.init buf req dbg) es = some (s, acts))
    (hbad : Malformed pkt) : Refused t s pkt ↔
      Contained (body pkt) ∧ s.state = .idle ∧
        (BadRange (body pkt) ∨ ¬NamesMode (body pkt) ∧ req.mode = .unset ∧
          ∀ v ∈ visits (tftpDaemonTask t) (Server.init buf req dbg) es, ¬Names v.1 v.2) := by
  have hmode : s.req.mode = .unset ↔ req.mode = .unset ∧
      ∀ v ∈ visits (tftpDaemonTask t) (Server.init buf req dbg) es, ¬Names v.1 v.2 :=
    respond_keeps_iff (fun _ _ _ _ h => task_mode h) hrun
  rw [refused_request_iff hbad.request, hmode]

/-- A read request with a mode of the client's own. -/
def modePkt (fname mode : String) : List Byte :=
  be16 opcRrq ++ text fname ++ 0 :: text mode ++ [0]

theorem malformed_mail : Malformed (modePkt "0x100.4" "mail") := by
  constructor <;> decide

theorem not_names_mail : ¬Names ramServer (client (modePkt "0x100.4" "mail")) := by
  rintro ⟨-, -, hnames⟩
  exact absurd hnames (by decide)

/-- At the start a request in the mode `mail` is refused as often as it comes. -/
theorem malformed_refused_iff_mail : ∃ s acts,
    respond (tftpDaemonTask ram) ramServer [client (modePkt "0x100.4" "mail")] = some (s, acts) ∧
      Refused ram s (modePkt "0x100.4" "mail") := by
  have hrequest : Refused ram ramServer (modePkt "0x100.4" "mail") :=
    (refused_request_iff malformed_mail.request).mpr
      ⟨by decide, rfl, .inr ⟨by decide, rfl⟩⟩
  obtain ⟨s, code, msg, hstep, hidle⟩ := hrequest.reply
  have hrun : respond (tftpDaemonTask ram) ramServer [client (modePkt "0x100.4" "mail")] =
      some (s, [tftpError code msg] ++ []) := respond_cons hstep rfl
  have hvisits : visits (tftpDaemonTask ram) ramServer [client (modePkt "0x100.4" "mail")] =
      [(ramServer, client (modePkt "0x100.4" "mail"))] := by
    rw [visits, hstep]
    rfl
  have hnames : ∀ v ∈ visits (tftpDaemonTask ram) ramServer [client (modePkt "0x100.4" "mail")],
      ¬Names v.1 v.2 := by
    intro v hv
    rw [hvisits] at hv
    obtain rfl := List.mem_singleton.mp hv
    exact not_names_mail
  exact ⟨s, _, hrun, (malformed_refused_iff ram hrun malformed_mail).mpr
    ⟨by decide, hidle, .inr ⟨by decide, rfl, hnames⟩⟩⟩

/-- After a download in octet mode has ended, the same request is not refused. -/
theorem not_refused_after_download : ∃ s acts,
    respond (tftpDaemonTask ram) ramServer [client (requestPkt opcRrq "0x100.10" 4),
      client (ackPkt 0), client (ackPkt 1), client (ackPkt 2), client (ackPkt 3)] =
        some (s, acts) ∧
      s.state = .idle ∧ Malformed (modePkt "0x100.4" "mail") ∧
      ¬Refused ram s (modePkt "0x100.4" "mail") := by
  obtain ⟨s, acts, hrun, hdown⟩ := downloads_of_short (ram_reads ramBytes) rfl
    octetRequest_rrq_four (by decide) (fun _ => 0) (by decide)
  refine ⟨s, acts, hrun, hdown.idle, malformed_mail, ?_⟩
  rw [refused_request_iff malformed_mail.request]
  rintro ⟨-, -, hrange | ⟨-, hmode⟩⟩
  · exact absurd hrange (by decide)
  · have hnames := ((respond_keeps_iff (fun _ _ _ _ h => task_mode h) hrun).mp hmode).2
    exact hnames _ List.mem_cons_self ⟨by decide, .inr (by decide), by decide⟩

end Modes

end YardIce.Tftp
