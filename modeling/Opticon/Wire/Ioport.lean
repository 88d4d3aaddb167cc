import Opticon.Meter.Data

/-! Ports over buffers and files (`ioport.c`, `ioport_buffer.c`, `ioport_file.c`): the bytes
still to be read, the bytes written so far, and the bit position both directions share. -/

namespace Opticon

structure Ioport where
  unread : List UInt8
  written : List UInt8
  bitpos : Nat
  bitbuffer : BitVec 8
  /-- a file port consumes what is left when it is asked for more than that -/
  file : Bool
  deriving DecidableEq

namespace Ioport

def reader (bytes : List UInt8) : Ioport := ⟨bytes, [], 0, 0, false⟩
def fileReader (bytes : List UInt8) : Ioport := ⟨bytes, [], 0, 0, true⟩
def writer : Ioport := ⟨[], [], 0, 0, false⟩

end Ioport

def bitmask (bits : Nat) : BitVec 8 :=
  ([0x00, 0x01, 0x03, 0x07, 0x0f, 0x1f, 0x3f, 0x7f, 0xff] : List (BitVec 8)).getD bits 0

def ioportFlushBits (io : Ioport) : Ioport :=
  if io.bitpos = 0 then io
  else { io with
    written := io.written ++ [UInt8.ofBitVec io.bitbuffer]
    bitpos := 0
    bitbuffer := 0 }

def ioportWrite (io : Ioport) (data : List UInt8) : Ioport :=
  let io := ioportFlushBits io
  { io with written := io.written ++ data }

/-- A port with bytes written and no bits waiting. -/
def Ioport.port (w : List UInt8) : Ioport := { Ioport.writer with written := w }

@[simp] theorem ioportFlushBits_port (w : List UInt8) : ioportFlushBits (.port w) = .port w := rfl

@[simp] theorem ioportWrite_port (w data : List UInt8) :
    ioportWrite (.port w) data = .port (w ++ data) := rfl

/-- Formatted text goes through a buffer of 4096 bytes with a terminator. -/
def ioportPrintf (io : Ioport) (text : List UInt8) : Ioport := ioportWrite io (text.take 4095)

theorem ioportPrintf_port (w : List UInt8) {text : List UInt8} (h : text.length ≤ 4095) :
    ioportPrintf (.port w) text = .port (w ++ text) := by
  rw [ioportPrintf, List.take_of_length_le h, ioportWrite_port]

def ioportWriteByte (io : Ioport) (b : UInt8) : Ioport := ioportWrite io [b]

def ioportWriteBits (io : Ioport) (d : BitVec 8) (bits : Nat) : Bool × Ioport :=
  if 8 < bits then (false, io)
  else
    let bits1 := if io.bitpos + bits < 8 then bits else 8 - io.bitpos
    let bits2 := bits - bits1
    let shift := 8 - io.bitpos - bits1
    let data1 := ((d >>> bits2) &&& bitmask bits1) <<< shift
    let data2 := d &&& bitmask bits2
    let bitbuffer := io.bitbuffer ||| data1
    if 7 < io.bitpos + bits1 then
      (true, { io with
        written := io.written ++ [UInt8.ofBitVec bitbuffer]
        bitpos := bits2
        bitbuffer := if bits2 = 0 then 0 else data2 <<< (8 - bits2) })
    else (true, { io with bitpos := io.bitpos + bits1, bitbuffer := bitbuffer })

/-- The 64 characters that have a 6 bit code: the small letters, five signs, the digits,
the capitals without `I`, `O`, `R` and `Y`, and the dot. -/
def ENCSET : List UInt8 :=
  [97, 98, 99, 100, 101, 102, 103, 104, 105, 106, 107, 108, 109, 110, 111, 112, 113, 114, 115,
    116, 117, 118, 119, 120, 121, 122, 35, 47, 45, 95, 32, 48, 49, 50, 51, 52, 53, 54, 55, 56,
    57, 65, 66, 67, 68, 69, 70, 71, 72, 74, 75, 76, 77, 78, 80, 81, 83, 84, 85, 86, 87, 88, 90,
    46]

/-- The source initialises 127 of the 128 entries; the language zeroes the last one. -/
def DECSET : List (BitVec 8) :=
  [255, 255, 255, 255, 255, 255, 255, 255, 255, 255, 255, 255, 255, 255, 255, 255,
    255, 255, 255, 255, 255, 255, 255, 255, 255, 255, 255, 255, 255, 255, 255, 255,
    30, 255, 255, 26, 255, 255, 255, 255, 255, 255, 255, 255, 255, 28, 63, 27, 31,
    32, 33, 34, 35, 36, 37, 38, 39, 40, 255, 255, 255, 255, 255, 255, 255, 41, 42, 43,
    44, 45, 46, 47, 48, 255, 49, 50, 51, 52, 53, 255, 54, 55, 255, 56, 57, 58, 59, 60, 61,
    255, 62, 255, 255, 255, 255, 29, 255, 0, 1, 2, 3, 4, 5, 6, 7, 8, 9, 10, 11, 12, 13, 14,
    15, 16, 17, 18, 19, 20, 21, 22, 23, 24, 25, 255, 255, 255, 255, 0]

/-- Whether every character has a 6 bit code. A `char` is signed, so a byte from 128 on
indexes the table below its first entry. -/
def encodable : List UInt8 → Except Fault Bool
  | [] => .ok true
  | c :: cs =>
    if 128 ≤ c then .error .tableIndex
    else if DECSET.getD c.toNat 255 = 255 then .ok false
    else encodable cs

def writeCodes (io : Ioport) : List UInt8 → Ioport
  | [] => io
  | c :: cs => writeCodes (ioportWriteBits io (DECSET.getD c.toNat 255) 6).2 cs

def ioportWriteEncstring (io : Ioport) (str : List UInt8) : Except Fault (Bool × Ioport) :=
  let len := str.length
  if 127 < len then .ok (false, io)
  else do
    if ← encodable str then
      let io := ioportWriteByte io (UInt8.ofNat len ||| 0x80)
      return (true, ioportFlushBits (writeCodes io str))
    else
      return (true, ioportWrite (ioportWriteByte io (UInt8.ofNat len)) str)

/-- The halvings of a value from 192 on: `i` counts them and stops at 63. -/
def encfracScale : Nat → ℚ → Nat → ℚ × Nat
  | 0, wval, i => (wval, i)
  | n + 1, wval, i =>
    if 255 < wval ∧ i < 63 then encfracScale n (⌊wval / 2⌋ : ℤ) (i + 1) else (wval, i)

def ioportWriteEncfrac (io : Ioport) : Double → Ioport
  | .inf => ioportWriteByte (ioportWriteByte io 255) 255
  | .fin d =>
    if d ≤ 0 then ioportWrite io [0, 0]
    else if 192 ≤ d then
      let (wval, i) := encfracScale 63 (⌊d / 2⌋ : ℤ) 0
      if 255 < wval then ioportWriteByte (ioportWriteByte io 255) 255
      else ioportWriteByte (ioportWriteByte io (UInt8.ofNat (192 + i)))
        (UInt8.ofNat ⌊wval⌋.toNat)
    else
      let fl : ℚ := (⌊d⌋ : ℤ)
      let fr := (d - fl) * 255
      ioportWriteByte (ioportWriteByte io (UInt8.ofNat ⌊fl⌋.toNat)) (UInt8.ofNat ⌊fr⌋.toNat)

/-- `0x7f << bitpos` is computed in 32 bits, with the shift count modulo 32 as the target
takes it, and sign extended afterwards. -/
def encintMask (bitpos : Nat) : BitVec 64 := ((0x7f#32) <<< (bitpos % 32)).signExtend 64

def encintLoop (i : BitVec 64) : List Nat → Bool → Ioport → Ioport
  | [], _, io => io
  | p :: ps, started, io =>
    let byte := ((i &&& encintMask p) >>> p).setWidth 8
    if byte ≠ 0 ∨ started then
      let byte := if p ≠ 0 then byte ||| 0x80 else byte
      encintLoop i ps true (ioportWriteByte io (UInt8.ofBitVec byte))
    else encintLoop i ps false io

def ioportWriteEncint (io : Ioport) (i : BitVec 64) : Ioport :=
  if i = 0 then ioportWriteByte io 0
  else encintLoop i [56, 49, 42, 35, 28, 21, 14, 7, 0] false io

/-- The bytes of a big endian 64 bits word. -/
def be64 (i : BitVec 64) : List UInt8 :=
  [56, 48, 40, 32, 24, 16, 8, 0].map fun s => UInt8.ofBitVec ((i >>> s).setWidth 8)

def be64toh (bytes : List UInt8) : BitVec 64 :=
  bytes.foldl (fun acc b => acc <<< 8 ||| b.toBitVec.setWidth 64) 0

def ioportWriteU64 (io : Ioport) (i : BitVec 64) : Ioport := ioportWrite io (be64 i)

/-- Whether the read succeeded, and the bytes that were stored. -/
def ioportRead (io : Ioport) (sz : Nat) : Bool × List UInt8 × Ioport :=
  let io := { io with bitpos := 0, bitbuffer := 0 }
  if sz ≤ io.unread.length then
    (true, io.unread.take sz, { io with unread := io.unread.drop sz })
  else if io.file then (false, io.unread, { io with unread := [] })
  else (false, [], io)

def ioportReadByte (io : Ioport) : UInt8 × Ioport :=
  let (_, data, io) := ioportRead io 1
  (data.headD 0, io)

def ioportReadBits (io : Ioport) (numbits : Nat) : BitVec 8 × Ioport :=
  if 8 < numbits then (0, io)
  else if numbits = 0 then (0, io)
  else
    let io := if io.bitpos = 0 then
        let (b, io) := ioportReadByte io
        { io with bitbuffer := b.toBitVec }
      else io
    let bits1 := if 8 < numbits + io.bitpos then 8 - io.bitpos else numbits
    let shift := 8 - io.bitpos - bits1
    let mask1 := bitmask bits1 <<< shift
    let bits2 := numbits - bits1
    let res := ((io.bitbuffer &&& mask1) >>> shift) <<< bits2
    if bits2 = 0 then
      let bitpos := io.bitpos + bits1
      (res, { io with bitpos := if 8 < bitpos then 0 else bitpos })
    else
      let shift2 := 8 - bits2
      let mask2 := bitmask bits2 <<< shift2
      let (b, io) := ioportReadByte io
      (res ||| ((b.toBitVec &&& mask2) >>> shift2),
        { io with bitpos := bits2, bitbuffer := b.toBitVec })

def readCodes : Nat → Ioport → List UInt8 × Ioport
  | 0, io => ([], io)
  | n + 1, io =>
    let (c, io) := ioportReadBits io 6
    let (cs, io) := readCodes n io
    (ENCSET.getD c.toNat 0 :: cs, io)

/-- Store bytes at the start of a buffer. -/
def overwrite (into data : List UInt8) : List UInt8 := data ++ into.drop data.length

/-- `into` is a buffer of 128 bytes; the result holds what it was left with. -/
def ioportReadEncstring (io : Ioport) (into : List UInt8) : Bool × List UInt8 × Ioport :=
  let (sz, io) := ioportReadByte io
  if sz = 0 then (false, into, io)
  else if sz < 0x80 then
    let (ok, data, io) := ioportRead io sz.toNat
    if ok then (true, overwrite into (data ++ [0]), io)
    else (false, overwrite into data, io)
  else
    let (data, io) := readCodes (sz &&& 0x7f).toNat io
    (true, overwrite into (data ++ [0]), io)

def ioportReadU64 (io : Ioport) : BitVec 64 × Ioport :=
  let (ok, data, io) := ioportRead io 8
  (if ok then be64toh data else 0, io)

/-- A read past the end stores nothing, and the byte read counts as 0. -/
def readEncintLoop : List UInt8 → BitVec 64 → BitVec 64 × List UInt8
  | [], res => (if res ≠ 0 then res <<< 7 else res, [])
  | d :: rest, res =>
    let res := (if res ≠ 0 then res <<< 7 else res) ||| (d &&& 0x7f).toBitVec.setWidth 64
    if d &&& 0x80 ≠ 0 then readEncintLoop rest res else (res, rest)

def ioportReadEncint (io : Ioport) : BitVec 64 × Ioport :=
  let (res, rest) := readEncintLoop io.unread 0
  (res, { io with unread := rest, bitpos := 0, bitbuffer := 0 })

/-- `2 << n` in 32 bits, with the shift count modulo 32 as the target takes it. -/
def shlTwo (n : Nat) : ℤ := ((2#32) <<< (n % 32)).toInt

def ioportReadEncfrac (io : Ioport) : Double × Ioport :=
  let (intpart, io) := ioportReadByte io
  let (res, io) := ioportReadByte io
  if intpart < 192 then (.fin (intpart.toNat + res.toNat / 256), io)
  else if res = 255 ∧ intpart = 255 then (.inf, io)
  else (.fin (res.toNat * shlTwo (intpart.toNat - 192)), io)

end Opticon
