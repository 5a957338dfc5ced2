import Mathlib.Data.BitVec
import Mathlib.Data.List.Basic

/-!
# Frames of the BACnet point-to-point link

`bacnet_ptp_frame_send` puts a header, the PDU and two checksums into a buffer, with an escape
before every byte that the line uses for itself; `bacnet_ptp_frame_recv` takes the escapes out in
place and keeps what comes behind a frame for the next call.

## Implementation notes

The serial line is the list of the pieces that `serial_recv` will return. A piece that is longer
than what was asked is no result of the call, and such a run is refused. `memcpy` copies upwards.
-/

namespace YardIce.Bacnet

abbrev Byte := BitVec 8

/-- `BACNET_PTP_MTU` -/
def bacnetPtpMtu : Nat := 512

/-- `DLE` -/
def dle : Byte := 0x10
/-- `XON` -/
def xon : Byte := 0x11
/-- `XOFF` -/
def xoff : Byte := 0x13

/-! ## Checksums -/

/-- `bacnet_crc8_lut` -/
def bacnetCrc8Lut : List Byte :=
  [
    0x00, 0xfe, 0xff, 0x01, 0xfd, 0x03, 0x02, 0xfc,
    0xf9, 0x07, 0x06, 0xf8, 0x04, 0xfa, 0xfb, 0x05,
    0xf1, 0x0f, 0x0e, 0xf0, 0x0c, 0xf2, 0xf3, 0x0d,
    0x08, 0xf6, 0xf7, 0x09, 0xf5, 0x0b, 0x0a, 0xf4,
    0xe1, 0x1f, 0x1e, 0xe0, 0x1c, 0xe2, 0xe3, 0x1d,
    0x18, 0xe6, 0xe7, 0x19, 0xe5, 0x1b, 0x1a, 0xe4,
    0x10, 0xee, 0xef, 0x11, 0xed, 0x13, 0x12, 0xec,
    0xe9, 0x17, 0x16, 0xe8, 0x14, 0xea, 0xeb, 0x15,
    0xc1, 0x3f, 0x3e, 0xc0, 0x3c, 0xc2, 0xc3, 0x3d,
    0x38, 0xc6, 0xc7, 0x39, 0xc5, 0x3b, 0x3a, 0xc4,
    0x30, 0xce, 0xcf, 0x31, 0xcd, 0x33, 0x32, 0xcc,
    0xc9, 0x37, 0x36, 0xc8, 0x34, 0xca, 0xcb, 0x35,
    0x20, 0xde, 0xdf, 0x21, 0xdd, 0x23, 0x22, 0xdc,
    0xd9, 0x27, 0x26, 0xd8, 0x24, 0xda, 0xdb, 0x25,
    0xd1, 0x2f, 0x2e, 0xd0, 0x2c, 0xd2, 0xd3, 0x2d,
    0x28, 0xd6, 0xd7, 0x29, 0xd5, 0x2b, 0x2a, 0xd4,
    0x81, 0x7f, 0x7e, 0x80, 0x7c, 0x82, 0x83, 0x7d,
    0x78, 0x86, 0x87, 0x79, 0x85, 0x7b, 0x7a, 0x84,
    0x70, 0x8e, 0x8f, 0x71, 0x8d, 0x73, 0x72, 0x8c,
    0x89, 0x77, 0x76, 0x88, 0x74, 0x8a, 0x8b, 0x75,
    0x60, 0x9e, 0x9f, 0x61, 0x9d, 0x63, 0x62, 0x9c,
    0x99, 0x67, 0x66, 0x98, 0x64, 0x9a, 0x9b, 0x65,
    0x91, 0x6f, 0x6e, 0x90, 0x6c, 0x92, 0x93, 0x6d,
    0x68, 0x96, 0x97, 0x69, 0x95, 0x6b, 0x6a, 0x94,
    0x40, 0xbe, 0xbf, 0x41, 0xbd, 0x43, 0x42, 0xbc,
    0xb9, 0x47, 0x46, 0xb8, 0x44, 0xba, 0xbb, 0x45,
    0xb1, 0x4f, 0x4e, 0xb0, 0x4c, 0xb2, 0xb3, 0x4d,
    0x48, 0xb6, 0xb7, 0x49, 0xb5, 0x4b, 0x4a, 0xb4,
    0xa1, 0x5f, 0x5e, 0xa0, 0x5c, 0xa2, 0xa3, 0x5d,
    0x58, 0xa6, 0xa7, 0x59, 0xa5, 0x5b, 0x5a, 0xa4,
    0x50, 0xae, 0xaf, 0x51, 0xad, 0x53, 0x52, 0xac,
    0xa9, 0x57, 0x56, 0xa8, 0x54, 0xaa, 0xab, 0x55]

/-- `bacnet_crc16_lut` -/
def bacnetCrc16Lut : List (BitVec 16) :=
  [
    0x0000, 0x1189, 0x2312, 0x329b, 0x4624, 0x57ad, 0x6536, 0x74bf,
    0x8c48, 0x9dc1, 0xaf5a, 0xbed3, 0xca6c, 0xdbe5, 0xe97e, 0xf8f7,
    0x1081, 0x0108, 0x3393, 0x221a, 0x56a5, 0x472c, 0x75b7, 0x643e,
    0x9cc9, 0x8d40, 0xbfdb, 0xae52, 0xdaed, 0xcb64, 0xf9ff, 0xe876,
    0x2102, 0x308b, 0x0210, 0x1399, 0x6726, 0x76af, 0x4434, 0x55bd,
    0xad4a, 0xbcc3, 0x8e58, 0x9fd1, 0xeb6e, 0xfae7, 0xc87c, 0xd9f5,
    0x3183, 0x200a, 0x1291, 0x0318, 0x77a7, 0x662e, 0x54b5, 0x453c,
    0xbdcb, 0xac42, 0x9ed9, 0x8f50, 0xfbef, 0xea66, 0xd8fd, 0xc974,
    0x4204, 0x538d, 0x6116, 0x709f, 0x0420, 0x15a9, 0x2732, 0x36bb,
    0xce4c, 0xdfc5, 0xed5e, 0xfcd7, 0x8868, 0x99e1, 0xab7a, 0xbaf3,
    0x5285, 0x430c, 0x7197, 0x601e, 0x14a1, 0x0528, 0x37b3, 0x263a,
    0xdecd, 0xcf44, 0xfddf, 0xec56, 0x98e9, 0x8960, 0xbbfb, 0xaa72,
    0x6306, 0x728f, 0x4014, 0x519d, 0x2522, 0x34ab, 0x0630, 0x17b9,
    0xef4e, 0xfec7, 0xcc5c, 0xddd5, 0xa96a, 0xb8e3, 0x8a78, 0x9bf1,
    0x7387, 0x620e, 0x5095, 0x411c, 0x35a3, 0x242a, 0x16b1, 0x0738,
    0xffcf, 0xee46, 0xdcdd, 0xcd54, 0xb9eb, 0xa862, 0x9af9, 0x8b70,
    0x8408, 0x9581, 0xa71a, 0xb693, 0xc22c, 0xd3a5, 0xe13e, 0xf0b7,
    0x0840, 0x19c9, 0x2b52, 0x3adb, 0x4e64, 0x5fed, 0x6d76, 0x7cff,
    0x9489, 0x8500, 0xb79b, 0xa612, 0xd2ad, 0xc324, 0xf1bf, 0xe036,
    0x18c1, 0x0948, 0x3bd3, 0x2a5a, 0x5ee5, 0x4f6c, 0x7df7, 0x6c7e,
    0xa50a, 0xb483, 0x8618, 0x9791, 0xe32e, 0xf2a7, 0xc03c, 0xd1b5,
    0x2942, 0x38cb, 0x0a50, 0x1bd9, 0x6f66, 0x7eef, 0x4c74, 0x5dfd,
    0xb58b, 0xa402, 0x9699, 0x8710, 0xf3af, 0xe226, 0xd0bd, 0xc134,
    0x39c3, 0x284a, 0x1ad1, 0x0b58, 0x7fe7, 0x6e6e, 0x5cf5, 0x4d7c,
    0xc60c, 0xd785, 0xe51e, 0xf497, 0x8028, 0x91a1, 0xa33a, 0xb2b3,
    0x4a44, 0x5bcd, 0x6956, 0x78df, 0x0c60, 0x1de9, 0x2f72, 0x3efb,
    0xd68d, 0xc704, 0xf59f, 0xe416, 0x90a9, 0x8120, 0xb3bb, 0xa232,
    0x5ac5, 0x4b4c, 0x79d7, 0x685e, 0x1ce1, 0x0d68, 0x3ff3, 0x2e7a,
    0xe70e, 0xf687, 0xc41c, 0xd595, 0xa12a, 0xb0a3, 0x8238, 0x93b1,
    0x6b46, 0x7acf, 0x4854, 0x59dd, 0x2d62, 0x3ceb, 0x0e70, 0x1ff9,
    0xf78f, 0xe606, 0xd49d, 0xc514, 0xb1ab, 0xa022, 0x92b9, 0x8330,
    0x7bc7, 0x6a4e, 0x58d5, 0x495c, 0x3de3, 0x2c6a, 0x1ef1, 0x0f78]

/-- `bacnet_crc8` -/
def bacnetCrc8 (crc : Byte) (buf : List Byte) : Byte :=
  buf.foldl (fun crc c => bacnetCrc8Lut.getD (crc ^^^ c).toNat 0) crc

/-- `bacnet_crc16` -/
def bacnetCrc16 (crc : BitVec 16) (buf : List Byte) : BitVec 16 :=
  buf.foldl
    (fun crc c => (crc >>> 8) ^^^ bacnetCrc16Lut.getD (crc.setWidth 8 ^^^ c).toNat 0) crc

/-! ## Sending -/

/-- A frame: the type code, and a PDU that the receive buffer has room for. -/
structure Frame where
  typ : Byte
  pdu : List Byte
  fits : pdu.length ≤ bacnetPtpMtu - 8

namespace Frame

variable (f : Frame)

/-- The type and the length, which are under the checksum of the header. -/
def checked : List Byte :=
  [f.typ, BitVec.ofNat 8 (f.pdu.length / 256), BitVec.ofNat 8 f.pdu.length]

/-- `hdr` -/
def hdr : List Byte := [0x55, 0xff] ++ f.checked ++ [~~~bacnetCrc8 0xff f.checked]

/-- The PDU and its checksum, low byte first. -/
def data : List Byte :=
  let crc := ~~~bacnetCrc16 0xffff f.pdu
  f.pdu ++ [crc.setWidth 8, (crc >>> 8).setWidth 8]

/-- The bytes of the frame without the escapes. -/
def bytes : List Byte := if f.pdu.length > 0 then f.hdr ++ f.data else f.hdr

end Frame

/-- A byte that is escaped. -/
def Special (c : Byte) : Prop := c = dle ∨ c = xon ∨ c = xoff

instance : DecidablePred Special := fun c =>
  inferInstanceAs (Decidable (c = dle ∨ c = xon ∨ c = xoff))

/-- What is put into the buffer for a byte. -/
def stuff (c : Byte) : List Byte := if Special c then [dle, c ||| 0x80] else [c]

/-- `buf` of `bacnet_ptp_frame_send`, up to `cnt`. -/
def bacnetPtpFrameSend (f : Frame) : List Byte :=
  if f.pdu.length > 0 then f.hdr.flatMap stuff ++ f.data.flatMap stuff else f.hdr.flatMap stuff

/-- `uint8_t buf[9 + 2 * len]` -/
def Frame.room (f : Frame) : Nat := 9 + 2 * f.pdu.length

/-! ## Receiving -/

/-- `lnk->rx` -/
structure Rx where
  buf : Nat → Byte
  pduLen : Nat
  off : Nat
  cnt : Nat
  dle : Bool

/-- `bacnet_ptp_lnk_rx_rst` -/
def Rx.rst (rx : Rx) : Rx := { rx with off := 0, cnt := 0, dle := false }

/-- A byte of a buffer is written. -/
def setByte (buf : Nat → Byte) (i : Nat) (v : Byte) : Nat → Byte :=
  fun k => if k = i then v else buf k

/-- The bytes of a piece are written from `i` on. -/
def putBytes (buf : Nat → Byte) (i : Nat) (piece : List Byte) : Nat → Byte :=
  fun k => if i ≤ k ∧ k < i + piece.length then piece.getD (k - i) 0 else buf k

/-- The variables of the loop that takes out the escapes. -/
structure Destuff where
  dle : Bool
  j : Nat
  buf : Nat → Byte

/-- `for (i = 0, j = 0; i < n; ++i)` -/
def destuffLoop (cp : Nat) : Nat → Nat → Destuff → Destuff
  | 0, _, d => d
  | turns + 1, i, d =>
      let c := d.buf (cp + i)
      destuffLoop cp turns (i + 1)
        (if d.dle then
          { dle := false, j := d.j + 1, buf := setByte d.buf (cp + d.j) (c &&& 0x7f) }
        else if c = dle then { d with dle := true }
        else { d with j := d.j + 1, buf := setByte d.buf (cp + d.j) c })

/-- The bytes received so far, and the pieces that are still to come. -/
structure Stock where
  buf : Nat → Byte
  cnt : Nat
  dle : Bool
  src : List (List Byte)

/-- The remaining octets are moved to the beginning of the buffer. -/
def Stock.shift (s : Stock) (off : Nat) : Stock :=
  if off = 0 then { s with cnt := 0 }
  else
    let cnt := s.cnt - off
    { s with buf := fun k => if k < cnt then s.buf (off + k) else s.buf k, cnt := cnt }

/-- What a loop that receives ends with. -/
inductive Filled where
  | enough (s : Stock)
  | ended (s : Stock)
  | refused

/-- `while (cnt < need)`: `serial_recv`, and the escapes are taken out. -/
def recvLoop (need : Nat) : List (List Byte) → (Nat → Byte) → Nat → Bool → Filled
  | [], buf, cnt, esc =>
      if cnt < need then .ended ⟨buf, cnt, esc, []⟩ else .enough ⟨buf, cnt, esc, []⟩
  | piece :: src, buf, cnt, esc =>
      if cnt < need then
        if bacnetPtpMtu - cnt < piece.length then .refused
        else if piece = [] then .ended ⟨buf, cnt, esc, src⟩
        else
          let d := destuffLoop cnt piece.length 0 ⟨esc, 0, putBytes buf cnt piece⟩
          recvLoop need src d.buf (cnt + d.j) d.dle
      else .enough ⟨buf, cnt, esc, piece :: src⟩

/-- The local copies that a call starts with. -/
def Rx.stock (rx : Rx) (src : List (List Byte)) : Stock := ⟨rx.buf, rx.cnt, rx.dle, src⟩

/-- What a call ends with. -/
inductive Outcome where
  | frame (typ : Byte) (rx : Rx) (src : List (List Byte))
  | ended (rx : Rx) (src : List (List Byte))
  | crcError (rx : Rx) (src : List (List Byte))
  | wild
  | refused
  | stuck

/-- The bytes of a buffer from `i` on. -/
def slice (buf : Nat → Byte) (i n : Nat) : List Byte := (List.range n).map fun k => buf (i + k)

/-- `bacnet_ptp_frame_recv`, behind the header. -/
def recvData (rx : Rx) (s : Stock) : Outcome :=
  let len := (s.buf 3).toNat * 256 + (s.buf 4).toNat
  if len > 0 then
    match recvLoop (len + 8) s.src s.buf s.cnt s.dle with
    | .refused => .refused
    | .ended s => .ended { rx with buf := s.buf }.rst s.src
    | .enough s =>
        let chk := (s.buf (len + 7)).setWidth 16 <<< 8 + (s.buf (len + 6)).setWidth 16
        if ~~~bacnetCrc16 0xffff (slice s.buf 6 len) ≠ chk then
          .crcError { rx with buf := s.buf }.rst s.src
        else .frame (s.buf 2) ⟨s.buf, len, len + 8, s.cnt, s.dle⟩ s.src
  else .frame (s.buf 2) ⟨s.buf, 0, 6, s.cnt, s.dle⟩ s.src

/-- `for (;;)`: a header is searched. Each turn but the last takes at least one byte. -/
def headerLoop (rx : Rx) : Nat → Nat → Stock → Outcome
  | 0, _, _ => .stuck
  | turns + 1, off, s =>
      -- a negative count of `memcpy`
      if s.cnt < off then .wild
      else
        let s := s.shift off
        match recvLoop 5 s.src s.buf s.cnt s.dle with
        | .refused => .refused
        | .ended s => .ended { rx with buf := s.buf }.rst s.src
        | .enough s =>
            if s.buf 0 ≠ 0x55 then headerLoop rx turns 1 s
            else if s.buf 1 ≠ 0xff then headerLoop rx turns 2 s
            else if s.buf 5 ≠ ~~~bacnetCrc8 0xff (slice s.buf 2 3) then headerLoop rx turns 3 s
            else recvData rx s

/-- `bacnet_ptp_frame_recv` -/
def bacnetPtpFrameRecv (rx : Rx) (src : List (List Byte)) : Outcome :=
  headerLoop rx (rx.cnt + src.flatten.length + 1) rx.off (rx.stock src)

end YardIce.Bacnet
