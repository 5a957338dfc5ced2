import YardIce.Tftp.Packets
import Mathlib.Data.List.GetD

/-!
# The hexadecimal dump in place

`tftp_hex` reads the bytes of a block behind the first half of the data and converts them from its
start on. The digits catch up with the bytes, and reach the last one only as it is converted.
-/

namespace YardIce.Tftp

open IceDrv (Word)

variable {σ : Type}

/-- The digits of bytes in lower case. -/
def dump (bytes : List Byte) : List Byte :=
  bytes.flatMap fun c : Byte => [hextab ((c >>> 4) &&& 0xf), hextab (c &&& 0xf)]

/-- The digit of a dump at a position. -/
def digitAt (src : Nat → Byte) (p : Nat) : Byte :=
  if p % 2 = 0 then hextab ((src (p / 2) >>> 4) &&& 0xf) else hextab (src (p / 2) &&& 0xf)

/-! ## One turn -/

/-- The first store of a turn. -/
def hexHigh (i : Nat) (buf : Buf) : Buf :=
  buf.store (4 + 2 * i) [hextab ((buf.data.getD (256 + i) 0 >>> 4) &&& 0xf)]

/-- The second one. -/
def hexLow (i : Nat) (buf : Buf) : Buf :=
  buf.store (4 + (2 * i + 1)) [hextab (buf.data.getD (256 + i) 0 &&& 0xf)]

theorem hexLoop_turn (left i : Nat) (buf : Buf) :
    hexLoop (left + 1) i buf = hexLoop left (i + 1) (hexLow i (hexHigh i buf)) := rfl

theorem hexLoop_last (left i : Nat) (buf : Buf) :
    hexLoop (left + 1) i buf = hexLow (i + left) (hexHigh (i + left) (hexLoop left i buf)) := by
  induction left generalizing i buf with
  | zero => rfl
  | succ left ih =>
      have hidx : i + 1 + left = i + (left + 1) := by omega
      rw [hexLoop_turn, ih, hidx]
      rfl

theorem Buf.store_byte (buf : Buf) {pos : Nat} (c : Byte) (h : pos < maxTftpMsg) :
    (buf.store pos [c]).bytes = buf.bytes.set pos c := by
  have hlen := buf.length_eq
  rw [Buf.bytes_store, List.set_eq_take_append_cons_drop, if_pos (by omega)]
  apply List.take_of_length_le
  simp only [List.length_append, List.length_take, List.length_cons, List.length_drop,
    List.length_nil]
  omega

theorem Buf.getD_store (buf : Buf) {p : Nat} (c : Byte) (h : p < maxTftpSegsize) (q : Nat) :
    (buf.store (4 + p) [c]).data.getD q 0 = if q = p then c else buf.data.getD q 0 := by
  have hlen := buf.length_eq
  have hmax : maxTftpMsg = maxTftpSegsize + 4 := rfl
  rw [Buf.data, Buf.store_byte buf c (by omega), Buf.data]
  simp only [List.getD_eq_getElem?_getD, List.getElem?_drop, List.getElem?_set]
  by_cases hq : q = p
  · subst hq
    rw [if_pos rfl, if_pos (by omega), if_pos rfl]
    rfl
  · rw [if_neg (by omega), if_neg hq]

/-! ## The loop -/

/-- After `i` turns: the digits of the bytes converted, and the bytes to convert. -/
structure Converted (src : Nat → Byte) (i : Nat) (buf : Buf) : Prop where
  done : ∀ p < 2 * i, buf.data.getD p 0 = digitAt src p
  left : ∀ j, i ≤ j → buf.data.getD (256 + j) 0 = src j

section Turn

variable {src : Nat → Byte} {i : Nat} {buf : Buf}

/-- The first store of a turn leaves the byte that it converts. -/
theorem Converted.high (h : Converted src i buf) (hi : i < 256) {j : Nat} (hj : i ≤ j) :
    (hexHigh i buf).data.getD (256 + j) 0 = src j := by
  have hmax : maxTftpSegsize = 1428 := rfl
  rw [hexHigh, Buf.getD_store buf _ (by omega), if_neg (by omega)]
  exact h.left j hj

theorem Converted.turn (h : Converted src i buf) (hi : i < 256) :
    Converted src (i + 1) (hexLow i (hexHigh i buf)) := by
  have hmax : maxTftpSegsize = 1428 := rfl
  have hsrc : buf.data.getD (256 + i) 0 = src i := h.left i le_rfl
  have hsrc' : (hexHigh i buf).data.getD (256 + i) 0 = src i := h.high hi le_rfl
  constructor
  case done =>
    intro p hp
    rw [hexLow, Buf.getD_store _ _ (by omega), hsrc']
    by_cases hlow : p = 2 * i + 1
    · have hmod : ¬p % 2 = 0 := by omega
      have hdiv : p / 2 = i := by omega
      rw [if_pos hlow, digitAt, if_neg hmod, hdiv]
    · rw [if_neg hlow, hexHigh, Buf.getD_store _ _ (by omega), hsrc]
      by_cases hhigh : p = 2 * i
      · have hmod : p % 2 = 0 := by omega
        have hdiv : p / 2 = i := by omega
        rw [if_pos hhigh, digitAt, if_pos hmod, hdiv]
      · rw [if_neg hhigh]
        exact h.done p (by omega)
  case left =>
    intro j hj
    rw [hexLow, Buf.getD_store _ _ (by omega), if_neg (by omega)]
    exact h.high hi (by omega)

theorem hexLoop_converted (buf : Buf) {n : Nat} (hn : n ≤ 256) :
    Converted (fun j => buf.data.getD (256 + j) 0) n (hexLoop n 0 buf) := by
  induction n with
  | zero => exact ⟨fun p hp => absurd hp (Nat.not_lt_zero p), fun _ _ => rfl⟩
  | succ n ih =>
      rw [hexLoop_last, Nat.zero_add]
      exact (ih (by omega)).turn (by omega)

end Turn

/-- No store of the conversion of `n` bytes changes a byte that is still to be converted. -/
def KeepsUnconverted (n : Nat) (buf : Buf) : Prop :=
  ∀ i < n, ∀ j, i ≤ j → j < n →
    (hexLoop i 0 buf).data.getD (256 + j) 0 = buf.data.getD (256 + j) 0 ∧
      (hexHigh i (hexLoop i 0 buf)).data.getD (256 + j) 0 = buf.data.getD (256 + j) 0

theorem keepsUnconverted {n : Nat} (hn : n ≤ 256) (buf : Buf) : KeepsUnconverted n buf := by
  intro i hi j hij _
  have h := hexLoop_converted buf (show i ≤ 256 by omega)
  exact ⟨h.left j hij, h.high (by omega) hij⟩

/-! ## The dump -/

theorem length_dump (bytes : List Byte) : (dump bytes).length = 2 * bytes.length := by
  induction bytes with
  | nil => rfl
  | cons c bytes ih =>
      rw [dump, List.flatMap_cons, List.length_append]
      change 2 + (dump bytes).length = 2 * (bytes.length + 1)
      omega

theorem getD_dump (bytes : List Byte) {p : Nat} (hp : p < 2 * bytes.length) :
    (dump bytes).getD p 0 = digitAt (fun j => bytes.getD j 0) p := by
  induction bytes generalizing p with
  | nil => exact absurd hp (Nat.not_lt_zero p)
  | cons c bytes ih =>
      rw [List.length_cons] at hp
      have hcons : dump (c :: bytes) =
          hextab ((c >>> 4) &&& 0xf) :: hextab (c &&& 0xf) :: dump bytes := rfl
      rw [hcons]
      match p with
      | 0 => rfl
      | 1 => rfl
      | p + 2 =>
          rw [List.getD_cons_succ, List.getD_cons_succ, ih (by omega), digitAt, digitAt]
          have hmod : (p + 2) % 2 = p % 2 := by omega
          have hdiv : (p + 2) / 2 = p / 2 + 1 := by omega
          rw [hmod, hdiv]
          rfl

theorem Buf.getD_stored (buf : Buf) {p : Nat} {bs : List Byte} (h : 4 + p + bs.length ≤ maxTftpMsg)
    {j : Nat} (hj : j < bs.length) : (buf.store (4 + p) bs).data.getD (p + j) 0 = bs.getD j 0 := by
  have hlen := buf.length_eq
  have htake : (buf.bytes.take (4 + p)).length = 4 + p := List.length_take_of_le (by omega)
  rw [Buf.data, Buf.bytes_store, List.take_of_length_le]
  · simp only [List.getD_eq_getElem?_getD, List.getElem?_drop]
    rw [List.getElem?_append_right (by omega), htake, List.getElem?_append_left (by omega)]
    congr 2
    omega
  · simp only [List.length_append, List.length_drop, htake]
    omega

/-- The conversion of the bytes behind the first half. -/
theorem hexLoop_dump (buf : Buf) {bytes : List Byte} (hn : bytes.length ≤ 256) :
    (hexLoop bytes.length 0 (buf.store (4 + 256) bytes)).data.take (2 * bytes.length) =
      dump bytes := by
  have hmax : maxTftpMsg = 1432 := rfl
  have hconv := hexLoop_converted (buf.store (4 + 256) bytes) hn
  have hlen := (hexLoop bytes.length 0 (buf.store (4 + 256) bytes)).length_eq
  apply List.ext_getElem
  · rw [List.length_take, Buf.data, List.length_drop, length_dump]
    omega
  · intro p hp hp'
    rw [length_dump] at hp'
    have hdone := hconv.done p hp'
    have hdump := getD_dump bytes hp'
    have hsrc : ∀ j < bytes.length,
        (buf.store (4 + 256) bytes).data.getD (256 + j) 0 = bytes.getD j 0 :=
      fun j hj => Buf.getD_stored buf (by omega) hj
    have hdigit : digitAt (fun j => (buf.store (4 + 256) bytes).data.getD (256 + j) 0) p =
        digitAt (fun j => bytes.getD j 0) p := by
      rw [digitAt, digitAt, hsrc (p / 2) (by omega)]
    have hdata : p < (hexLoop bytes.length 0 (buf.store (4 + 256) bytes)).data.length := by
      rw [Buf.data, List.length_drop]
      omega
    have hlength : p < (dump bytes).length := by rwa [length_dump]
    rw [hdigit, ← hdump, List.getD_eq_getElem _ _ hdata, List.getD_eq_getElem _ _ hlength] at hdone
    rw [List.getElem_take]
    exact hdone

end YardIce.Tftp
