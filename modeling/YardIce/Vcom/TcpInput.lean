import YardIce.Lib.Runs
import YardIce.Lib.Windows
import YardIce.Telnet.Service

/-!
# The input task of the virtual serial port

`tcp_input_task` takes the TELNET commands out of what it receives and sends the rest to the serial
port. Both stand in one buffer: the bytes that are kept are written through `dst`, behind the
cursor `src` that reads. The count `cnt` is cleared for every connection, `dst` only where
`serial_send` succeeded.

## Implementation notes

`buf` is indexed from its first byte; it has 128. A byte is an unsigned `char`. `tcp_recv` returns
up to 128 bytes, or a value that is not positive, and then the connection is closed. The results
of `tcp_send` are not used.
-/

namespace YardIce.Vcom

open YardIce.Lib
open Telnet (Byte iac cmdDont cmdDo cmdWont cmdWill cmdSb cmdSe teloptBinary teloptEcho teloptSga)

/-- `COM_PORT_OPTION` -/
def comPortOption : Byte := 44

/-! ## Options -/

/-- `struct tn_opt`, and the commands sent -/
structure TnOpt where
  localOpts : BitVec 32
  remoteOpts : BitVec 32
  sent : List (List Byte)

namespace TnOpt

/-- `1 << opt` -/
def optBit (opt : Byte) : BitVec 32 := 1#32 <<< opt.toNat

/-- `cpc_opt_will` -/
def cpcOptWill (t : TnOpt) (opt : Byte) : TnOpt :=
  if 31 < opt.toNat then t
  else if t.localOpts &&& optBit opt ≠ 0 then t
  else { t with
    localOpts := t.localOpts ||| optBit opt, sent := t.sent ++ [[iac, cmdWill, opt]] }

/-- `cpc_opt_do` -/
def cpcOptDo (t : TnOpt) (opt : Byte) : TnOpt :=
  if 31 < opt.toNat then t
  else if t.remoteOpts &&& optBit opt ≠ 0 then t
  else { t with
    remoteOpts := t.remoteOpts ||| optBit opt, sent := t.sent ++ [[iac, cmdDo, opt]] }

/-- `cpc_opt_wont` -/
def cpcOptWont (t : TnOpt) (opt : Byte) : TnOpt :=
  if 31 < opt.toNat then t
  else if t.localOpts &&& optBit opt = 0 then t
  else { t with
    localOpts := t.localOpts &&& ~~~optBit opt, sent := t.sent ++ [[iac, cmdWont, opt]] }

/-- `cpc_opt_dont`, which leaves the option in the set. -/
def cpcOptDont (t : TnOpt) (opt : Byte) : TnOpt :=
  if 31 < opt.toNat then t
  else if t.remoteOpts &&& optBit opt = 0 then t
  else { t with sent := t.sent ++ [[iac, cmdDont, opt]] }

end TnOpt

/-! ## The state machine -/

inductive CpcState where
  | data
  | iacRcvd
  | dontRcvd
  | doRcvd
  | wontRcvd
  | willRcvd
  | suboptionId
  | suboption
  | sbIacRcvd
  | invalidSuboption
  | invalidSbIacRcvd
  deriving DecidableEq

/-- The variables `state`, `binary` and `opt` of the task -/
structure Cpc where
  state : CpcState
  binary : Bool
  opt : TnOpt

namespace Cpc

/-- The state behind `IAC` and a byte. -/
def afterIac (c : Byte) : CpcState :=
  if c = iac then .data
  else if c = cmdDont then .dontRcvd
  else if c = cmdDo then .doRcvd
  else if c = cmdWont then .wontRcvd
  else if c = cmdWill then .willRcvd
  else if c = cmdSb then .suboptionId
  else .data

/-- The byte is kept. -/
def stores (m : Cpc) (c : Byte) : Bool :=
  m.state = .data && c != iac && (m.binary || (3 ≤ c.toNat && c.toNat < 127))

/-- A byte is processed. -/
def input (m : Cpc) (c : Byte) : Cpc :=
  match m.state with
  | .data => if c = iac then { m with state := .iacRcvd } else m
  | .iacRcvd => { m with state := afterIac c }
  | .dontRcvd => { m with state := .data, opt := m.opt.cpcOptWont c }
  | .doRcvd =>
      { m with
        state := .data
        opt :=
          if c = teloptSga ∨ c = teloptEcho ∨ c = teloptBinary then m.opt.cpcOptWill c
          else m.opt.cpcOptWont c }
  | .wontRcvd => { m with state := .data, opt := m.opt.cpcOptDont c }
  | .willRcvd =>
      if c = teloptEcho then { m with state := .data, opt := m.opt.cpcOptDont c }
      else if c = teloptSga then { m with state := .data, opt := m.opt.cpcOptDo c }
      else if c = teloptBinary then
        { m with state := .data, opt := m.opt.cpcOptDo c, binary := true }
      else { m with state := .data, opt := m.opt.cpcOptDont c }
  | .suboptionId =>
      { m with state := if c = comPortOption then .suboption else .invalidSuboption }
  | .suboption => if c = iac then { m with state := .sbIacRcvd } else m
  | .sbIacRcvd => { m with state := if c = cmdSe then .data else .suboption }
  | .invalidSuboption => if c = iac then { m with state := .invalidSbIacRcvd } else m
  | .invalidSbIacRcvd => { m with state := if c = cmdSe then .data else .invalidSuboption }

/-- The bytes kept of a chunk. -/
def kept (m : Cpc) : List Byte → List Byte
  | [] => []
  | c :: l => (if m.stores c then [c] else []) ++ (m.input c).kept l

/-- The state in which a connection begins, with the negotiations of the task. -/
def fresh : Cpc where
  state := .data
  binary := false
  opt := ((((TnOpt.mk 0 0 []).cpcOptWill teloptSga).cpcOptDo teloptSga).cpcOptWill
    teloptEcho).cpcOptWill teloptBinary |>.cpcOptDo teloptBinary

end Cpc

/-! ## The task -/

/-- The place in the task: at `tcp_accept`, at the top of the inner loop, or at a byte. -/
inductive Pc where
  | accept
  | top
  | bytes
  deriving DecidableEq

/-- The variables of `tcp_input_task`, and three more for the statements: the latest chunk of the
connection, the state in which it was received, and whether a `serial_send` has failed. -/
structure Task where
  pc : Pc
  buf : Nat → Byte
  dst : Nat
  cnt : Nat
  src : Nat
  rem : Nat
  cpc : Cpc
  chunk : List Byte
  atRecv : Cpc
  failed : Bool

inductive Act where
  | accept
  | serialSend (sent : Bool)
  | tcpRecv (data : List Byte)
  | byte

namespace Task

/-- The task at its start; `buf` and most variables are not initialised. -/
def init (buf : Nat → Byte) (cnt src rem : Nat) (cpc : Cpc) : Task :=
  ⟨.accept, buf, 0, cnt, src, rem, cpc, [], cpc, false⟩

/-- The byte that is read next. -/
def c (s : Task) : Byte := s.buf s.src

/-- `c = *src++; rem--;`, and what is done with the byte -/
def input (s : Task) : Task :=
  { s with
    pc := if s.rem = 1 then .top else .bytes
    buf := if s.cpc.stores s.c then store s.buf s.dst [s.c] else s.buf
    dst := if s.cpc.stores s.c then s.dst + 1 else s.dst
    cnt := if s.cpc.stores s.c then s.cnt + 1 else s.cnt
    src := s.src + 1
    rem := s.rem - 1
    cpc := s.cpc.input s.c }

def step (s : Task) : Act → Option Task
  | .accept =>
      match s.pc with
      | .accept => some { s with pc := .top, cnt := 0, cpc := .fresh, chunk := [] }
      | _ => none
  | .serialSend sent =>
      match s.pc with
      | .top =>
          if s.cnt = 0 then none
          else if sent then some { s with dst := 0, cnt := 0 }
          else some { s with pc := .accept, failed := true }
      | _ => none
  | .tcpRecv data =>
      match s.pc with
      | .top =>
          if s.cnt ≠ 0 ∨ 128 < data.length then none
          else if data = [] then some { s with pc := .accept }
          else
            some { s with
              pc := .bytes, buf := store s.buf 0 data, src := 0, rem := data.length
              chunk := data, atRecv := s.cpc }
      | _ => none
  | .byte =>
      match s.pc with
      | .bytes => some s.input
      | _ => none

/-- What is written stays inside of the buffer and does not pass the byte that is read; what is
sent to the serial port are the bytes kept of the latest chunk. -/
def Intact (s : Task) : Act → Prop
  | .byte => s.cpc.stores s.c = true → s.dst < 128 ∧ s.dst ≤ s.src
  | .serialSend true => window s.buf 0 s.cnt = s.atRecv.kept s.chunk
  | _ => True

/-! ## Runs -/

/-- Nothing is kept once a `serial_send` has failed. -/
def Clean (s : Task) : Act → Prop
  | .byte => s.failed = true → s.cpc.stores s.c = false
  | _ => True

instance (s : Task) : (a : Act) → Decidable (s.Clean a)
  | .accept => isTrue trivial
  | .serialSend _ => isTrue trivial
  | .tcpRecv _ => isTrue trivial
  | .byte => inferInstanceAs (Decidable (s.failed = true → s.cpc.stores s.c = false))

/-- What the cursors and the buffer are at a place of the task. -/
def Good (s : Task) : Prop :=
  match s.pc with
  | .accept => s.dst = 0
  | .top => s.dst = s.cnt ∧ (0 < s.cnt → window s.buf 0 s.cnt = s.atRecv.kept s.chunk)
  | .bytes =>
      s.dst = s.cnt ∧ s.cnt ≤ s.src ∧ 0 < s.rem ∧ s.src + s.rem = s.chunk.length ∧
        s.chunk.length ≤ 128 ∧ window s.buf s.src s.rem = s.chunk.drop s.src ∧
        window s.buf 0 s.cnt ++ s.cpc.kept (s.chunk.drop s.src) = s.atRecv.kept s.chunk

/-- What holds in every state of a run. -/
structure Inv (s : Task) : Prop where
  good : s.failed = false → s.Good
  empty : s.failed = true → s.pc ≠ .accept → s.cnt = 0

variable {s t : Task}

/-- The bytes kept so far, and those that are still to be read. -/
theorem input_windows (hdst : s.dst = s.cnt) (hcnt : s.cnt ≤ s.src) (n : Nat) :
    window s.input.buf 0 s.input.cnt =
        window s.buf 0 s.cnt ++ (if s.cpc.stores s.c then [s.c] else []) ∧
      window s.input.buf (s.src + 1) n = window s.buf (s.src + 1) n := by
  rcases hstores : s.cpc.stores s.c with _ | _
  · simp only [input, hstores, Bool.false_eq_true, if_false, List.append_nil, and_self]
  · simp only [input, hstores, if_true, hdst]
    refine ⟨?_, window_store_apart (Or.inr (by rw [List.length_singleton]; omega))⟩
    have hbehind := @window_store_behind _ s.buf 0 s.cnt [s.c] 1 rfl
    rwa [Nat.zero_add] at hbehind

/-- A byte that is kept is written over one that has been read. -/
theorem input_good (h : s.Good) (hpc : s.pc = .bytes) : s.input.Good := by
  rw [Good, hpc] at h
  obtain ⟨hdst, hcnt, hrem, hsum, hlen, hahead, hkept⟩ := h
  obtain ⟨r, hr⟩ : ∃ r, s.rem = r + 1 := ⟨s.rem - 1, by omega⟩
  obtain ⟨hfront, hrest⟩ := input_windows hdst hcnt r
  have hdrop : s.chunk.drop s.src = s.c :: window s.buf (s.src + 1) r := by
    rw [← hahead, hr, window_succ]
    rfl
  have hnext : s.chunk.drop (s.src + 1) = window s.buf (s.src + 1) r := by
    rw [← List.drop_drop, hdrop, List.drop_one, List.tail_cons]
  have hkept' : window s.input.buf 0 s.input.cnt ++ s.input.cpc.kept (s.chunk.drop (s.src + 1)) =
      s.atRecv.kept s.chunk := by
    rw [← hkept, hdrop, Cpc.kept, hfront, List.append_assoc, hnext]
    rfl
  have hdst' : s.input.dst = s.input.cnt := by
    simp only [input, hdst]
  have hrem' : s.input.rem = r := by
    show s.rem - 1 = r
    omega
  rw [Good]
  rcases Nat.eq_zero_or_pos r with rfl | hpos
  · have htop : s.input.pc = .top := if_pos hr
    rw [htop]
    refine ⟨hdst', fun _ => ?_⟩
    have hend : s.chunk.drop (s.src + 1) = [] := by rw [hnext, window_zero]
    rw [hend, Cpc.kept, List.append_nil] at hkept'
    exact hkept'
  · have hbytes : s.input.pc = .bytes := if_neg (by omega)
    have hcnt' : s.input.cnt ≤ s.src + 1 := by
      show (if s.cpc.stores s.c then s.cnt + 1 else s.cnt) ≤ s.src + 1
      split <;> omega
    rw [hbytes]
    refine ⟨hdst', hcnt', by rw [hrem']; exact hpos, ?_, hlen, ?_, hkept'⟩
    · show s.src + 1 + s.input.rem = s.chunk.length
      omega
    · rw [hrem']
      exact hrest.trans hnext.symm

theorem tcpRecv_good {data : List Byte} (hdst : s.dst = s.cnt) (hcnt : s.cnt = 0)
    (hlen : data.length ≤ 128) (hdata : data ≠ []) :
    ({ s with
      pc := .bytes, buf := store s.buf 0 data, src := 0, rem := data.length
      chunk := data, atRecv := s.cpc } : Task).Good := by
  refine ⟨hdst, Nat.le_of_eq hcnt, List.length_pos_iff.mpr hdata, Nat.zero_add _, hlen, ?_, ?_⟩
  · show window (store s.buf 0 data) 0 data.length = data
    exact window_store rfl
  · show window _ 0 s.cnt ++ s.cpc.kept data = s.cpc.kept data
    rw [hcnt, window_zero, List.nil_append]

/-- Every step keeps the invariant. -/
theorem Inv.step {a : Act} (h : s.Inv) (hclean : s.Clean a) (hstep : s.step a = some t) :
    t.Inv := by
  cases a with
  | accept =>
      rcases hpc : s.pc with _ | _ | _
      case accept =>
        simp only [Task.step, hpc, Option.some.injEq] at hstep
        subst hstep
        refine ⟨fun hfailed => ⟨?_, fun hpos => absurd hpos (Nat.lt_irrefl 0)⟩, fun _ _ => rfl⟩
        have hgood := h.good hfailed
        rw [Good, hpc] at hgood
        exact hgood
      all_goals simp [Task.step, hpc] at hstep
  | serialSend sent =>
      rcases hpc : s.pc with _ | _ | _
      case top =>
        simp only [Task.step, hpc] at hstep
        split at hstep
        · cases hstep
        · split at hstep
          · cases hstep
            refine ⟨fun _ => ?_, fun _ _ => rfl⟩
            rw [Good]
            exact ⟨rfl, fun hpos => absurd hpos (Nat.lt_irrefl 0)⟩
          · cases hstep
            exact ⟨nofun, fun _ hne => absurd rfl hne⟩
      all_goals simp [Task.step, hpc] at hstep
  | tcpRecv data =>
      rcases hpc : s.pc with _ | _ | _
      case top =>
        simp only [Task.step, hpc] at hstep
        split at hstep
        · cases hstep
        next hroom =>
          rw [not_or, not_not, Nat.not_lt] at hroom
          have hdst : s.failed = false → s.dst = s.cnt := by
            intro hfailed
            have hgood := h.good hfailed
            rw [Good, hpc] at hgood
            exact hgood.1
          split at hstep
          · cases hstep
            exact ⟨fun hfailed => (hdst hfailed).trans hroom.1, fun _ hne => absurd rfl hne⟩
          next hdata =>
            cases hstep
            exact ⟨fun hfailed => tcpRecv_good (hdst hfailed) hroom.1 hroom.2 hdata,
              fun _ _ => hroom.1⟩
      all_goals simp [Task.step, hpc] at hstep
  | byte =>
      rcases hpc : s.pc with _ | _ | _
      case bytes =>
        simp only [Task.step, hpc, Option.some.injEq] at hstep
        subst hstep
        refine ⟨fun hfailed => input_good (h.good hfailed) hpc, fun hfailed _ => ?_⟩
        have hcnt := h.empty hfailed (by rw [hpc]; decide)
        show (if s.cpc.stores s.c then s.cnt + 1 else s.cnt) = 0
        rw [hclean hfailed, if_neg Bool.false_ne_true, hcnt]
      all_goals simp [Task.step, hpc] at hstep

theorem init_inv (buf : Nat → Byte) (cnt src rem : Nat) (cpc : Cpc) :
    (init buf cnt src rem cpc).Inv :=
  ⟨fun _ => rfl, nofun⟩

theorem Inv.intact {a : Act} (h : s.Inv) (hclean : s.Clean a) (hstep : s.step a = some t) :
    s.Intact a := by
  cases a with
  | accept => trivial
  | serialSend sent =>
      cases sent with
      | false => trivial
      | true =>
          rcases hpc : s.pc with _ | _ | _
          case top =>
            have hcnt : s.cnt ≠ 0 := by
              intro hzero
              simp [Task.step, hpc, hzero] at hstep
            have hfailed : s.failed = false := by
              rw [← Bool.not_eq_true]
              exact fun hfailed => hcnt (h.empty hfailed (by rw [hpc]; decide))
            have hgood := h.good hfailed
            rw [Good, hpc] at hgood
            exact hgood.2 (Nat.pos_of_ne_zero hcnt)
          all_goals simp [Task.step, hpc] at hstep
  | tcpRecv data => trivial
  | byte =>
      intro hstores
      rcases hpc : s.pc with _ | _ | _
      case bytes =>
        have hfailed : s.failed = false := by
          rw [← Bool.not_eq_true]
          intro hfailed
          rw [hclean hfailed] at hstores
          cases hstores
        have hgood := h.good hfailed
        rw [Good, hpc] at hgood
        obtain ⟨hdst, hcnt, hrem, hsum, hlen, -⟩ := hgood
        omega
      all_goals simp [Task.step, hpc] at hstep

/-- Every step of a run is intact when nothing is kept behind a failure of `serial_send`. -/
theorem tcpInput_intact (buf : Nat → Byte) (cnt src rem : Nat) (cpc : Cpc) (as : List Act) (a : Act)
    (s t : Task) (hclean : Along step Clean (init buf cnt src rem cpc) (as ++ [a]))
    (hrun : exec step (init buf cnt src rem cpc) as = some s) (hstep : s.step a = some t) :
    s.Intact a := by
  have hinv : s.Inv := @exec_invariant _ _ _ _ Inv (fun _ _ _ h ha hs => h.step ha hs)
    _ _ _ (init_inv buf cnt src rem cpc) (along_append_left hclean) hrun
  exact hinv.intact (along_last hclean hrun) hstep

/-- Two connections, each with a chunk. -/
def twoConnections (sent : Bool) : List Act :=
  [.accept, .tcpRecv [0x41, 0x42], .byte, .byte, .serialSend sent] ++
    (if sent then [.tcpRecv []] else []) ++ [.accept, .tcpRecv [1, 0x43, 0x44], .byte]

theorem tcpInput_intact_twoConnections :
    ∃ s t, exec step (init (fun _ => 0) 0 0 0 .fresh) (twoConnections true) = some s ∧
      s.step .byte = some t ∧ s.cpc.stores s.c = true ∧ s.Intact .byte := by
  have hrun : ((exec step (init (fun _ => 0) 0 0 0 .fresh) (twoConnections true)).any fun s =>
      (s.step .byte).isSome && s.cpc.stores s.c) = true := by decide
  obtain ⟨s, hs, hboth⟩ := (Option.any_eq_true _ _).mp hrun
  obtain ⟨hsome, hstores⟩ := (Bool.and_eq_true_iff).mp hboth
  obtain ⟨t, ht⟩ := Option.isSome_iff_exists.mp hsome
  have hclean : Along step Clean (init (fun _ => 0) 0 0 0 .fresh) (twoConnections true ++ [.byte]) :=
    by decide
  exact ⟨s, t, hs, ht, hstores, tcpInput_intact _ 0 0 0 .fresh _ .byte s t hclean hs ht⟩

/-- The first connection ends with a failure, and the second one writes where the first one left
off: past the byte that it reads. -/
theorem failedSend_not_intact :
    ¬ ∀ (as : List Act) (a : Act) (s t : Task),
      exec step (init (fun _ => 0) 0 0 0 .fresh) as = some s → s.step a = some t → s.Intact a := by
  intro h
  have hrun : ((exec step (init (fun _ => 0) 0 0 0 .fresh) (twoConnections false)).any fun s =>
      (s.step .byte).isSome && (s.cpc.stores s.c && decide (s.src < s.dst))) = true := by
    decide
  obtain ⟨s, hs, hboth⟩ := (Option.any_eq_true _ _).mp hrun
  obtain ⟨hsome, hwrite⟩ := (Bool.and_eq_true_iff).mp hboth
  obtain ⟨hstores, hpast⟩ := (Bool.and_eq_true_iff).mp hwrite
  obtain ⟨t, ht⟩ := Option.isSome_iff_exists.mp hsome
  exact absurd (h _ .byte s t hs ht hstores).2 (Nat.not_le_of_lt (of_decide_eq_true hpast))

end Task

end YardIce.Vcom
