import Mathlib.Data.BitVec
import Opticon.Lib.BlockStream

/-! The message digest that the hashes of passwords are made with (`pwcrypt.c`). A `uint32` is an
`unsigned long int` there, which has 64 bits. -/

namespace Opticon

variable {w : ℕ}

structure Md5State (w : ℕ) where
  a : BitVec w
  b : BitVec w
  c : BitVec w
  d : BitVec w
  deriving DecidableEq

/-- The buffer is what lay in its place before, as far as nothing was copied there. -/
structure Md5Context where
  total0 : BitVec 64
  total1 : BitVec 64
  state : Md5State 64
  buffer : List UInt8

def md5Begin (ctx : Md5Context) : Md5Context :=
  { ctx with
    total0 := 0
    total1 := 0
    state := ⟨0x67452301, 0xEFCDAB89, 0x98BADCFE, 0x10325476⟩ }

/-- `GET_UINT32` -/
def getUint32 (b : List UInt8) (i : ℕ) : BitVec 64 :=
  let byte (j : ℕ) : BitVec 64 := (b.getD (i + j) 0).toBitVec.setWidth 64
  byte 0 ||| byte 1 <<< 8 ||| byte 2 <<< 16 ||| byte 3 <<< 24

/-- `PUT_UINT32` -/
def putUint32 (n : BitVec 64) : List UInt8 :=
  (List.range 4).map fun i => ⟨(n >>> (8 * i)).setWidth 8⟩

def md5F1 (x y z : BitVec w) : BitVec w := z ^^^ (x &&& (y ^^^ z))

def md5F2 (x y z : BitVec w) : BitVec w := y ^^^ (z &&& (x ^^^ y))

def md5F3 (x y z : BitVec w) : BitVec w := x ^^^ y ^^^ z

def md5F4 (x y z : BitVec w) : BitVec w := y ^^^ (x ||| ~~~z)

/-- The words, shifts and constants of the four rounds. -/
def md5Round1 : List (ℕ × ℕ × ℕ) :=
  [(0, 7, 0xD76AA478), (1, 12, 0xE8C7B756),
    (2, 17, 0x242070DB), (3, 22, 0xC1BDCEEE),
    (4, 7, 0xF57C0FAF), (5, 12, 0x4787C62A),
    (6, 17, 0xA8304613), (7, 22, 0xFD469501),
    (8, 7, 0x698098D8), (9, 12, 0x8B44F7AF),
    (10, 17, 0xFFFF5BB1), (11, 22, 0x895CD7BE),
    (12, 7, 0x6B901122), (13, 12, 0xFD987193),
    (14, 17, 0xA679438E), (15, 22, 0x49B40821)]

def md5Round2 : List (ℕ × ℕ × ℕ) :=
  [(1, 5, 0xF61E2562), (6, 9, 0xC040B340),
    (11, 14, 0x265E5A51), (0, 20, 0xE9B6C7AA),
    (5, 5, 0xD62F105D), (10, 9, 0x02441453),
    (15, 14, 0xD8A1E681), (4, 20, 0xE7D3FBC8),
    (9, 5, 0x21E1CDE6), (14, 9, 0xC33707D6),
    (3, 14, 0xF4D50D87), (8, 20, 0x455A14ED),
    (13, 5, 0xA9E3E905), (2, 9, 0xFCEFA3F8),
    (7, 14, 0x676F02D9), (12, 20, 0x8D2A4C8A)]

def md5Round3 : List (ℕ × ℕ × ℕ) :=
  [(5, 4, 0xFFFA3942), (8, 11, 0x8771F681),
    (11, 16, 0x6D9D6122), (14, 23, 0xFDE5380C),
    (1, 4, 0xA4BEEA44), (4, 11, 0x4BDECFA9),
    (7, 16, 0xF6BB4B60), (10, 23, 0xBEBFBC70),
    (13, 4, 0x289B7EC6), (0, 11, 0xEAA127FA),
    (3, 16, 0xD4EF3085), (6, 23, 0x04881D05),
    (9, 4, 0xD9D4D039), (12, 11, 0xE6DB99E5),
    (15, 16, 0x1FA27CF8), (2, 23, 0xC4AC5665)]

def md5Round4 : List (ℕ × ℕ × ℕ) :=
  [(0, 6, 0xF4292244), (7, 10, 0x432AFF97),
    (14, 15, 0xAB9423A7), (5, 21, 0xFC93A039),
    (12, 6, 0x655B59C3), (3, 10, 0x8F0CCC92),
    (10, 15, 0xFFEFF47D), (1, 21, 0x85845DD1),
    (8, 6, 0x6FA87E4F), (15, 10, 0xFE2CE6E0),
    (6, 15, 0xA3014314), (13, 21, 0x4E0811A1),
    (4, 6, 0xF7537E82), (11, 10, 0xBD3AF235),
    (2, 15, 0x2AD7D2BB), (9, 21, 0xEB86D391)]

/-- `S(x,n)` -/
def md5S (x : BitVec 64) (n : ℕ) : BitVec 64 := x <<< n ||| (x &&& 0xFFFFFFFF) >>> (32 - n)

/-- `P(a,b,c,d,k,s,t)`, and the variables in the order of the next one. -/
def md5P (F : BitVec 64 → BitVec 64 → BitVec 64 → BitVec 64) (X : ℕ → BitVec 64) (v : Md5State 64)
    (kst : ℕ × ℕ × ℕ) : Md5State 64 where
  a := v.d
  b := md5S (v.a + (F v.b v.c v.d + X kst.1 + BitVec.ofNat 64 kst.2.2)) kst.2.1 + v.b
  c := v.b
  d := v.c

def md5Process (state : Md5State 64) (data : List UInt8) : Md5State 64 :=
  let X (k : ℕ) : BitVec 64 := getUint32 data (4 * k)
  let v := md5Round1.foldl (md5P md5F1 X) state
  let v := md5Round2.foldl (md5P md5F2 X) v
  let v := md5Round3.foldl (md5P md5F3 X) v
  let v := md5Round4.foldl (md5P md5F4 X) v
  ⟨state.a + v.a, state.b + v.b, state.c + v.c, state.d + v.d⟩

/-- Memory from an offset on is overwritten, also where it ends before the data do. -/
def memcpy (buffer : List UInt8) (left : ℕ) (input : List UInt8) : List UInt8 :=
  buffer.take left ++ input ++ buffer.drop (left + input.length)

def md5Hash (ctx : Md5Context) (input : List UInt8) : Md5Context :=
  if input = [] then ctx
  else
    let left := (ctx.total0 &&& 0x3F).toNat
    let fill := 64 - left
    let length := BitVec.ofNat 64 input.length
    let total0 := (ctx.total0 + length) &&& 0xFFFFFFFF
    let total1 := if total0 < length then ctx.total1 + 1 else ctx.total1
    let filled := memcpy ctx.buffer left (input.take fill)
    let (state, buffer, input, left) :=
      if left ≠ 0 ∧ fill ≤ input.length then
        (md5Process ctx.state filled, filled, input.drop fill, 0)
      else (ctx.state, ctx.buffer, input, left)
    -- while( length >= 64 )
    let state := BlockStream.whole 64 md5Process state input
    let input := BlockStream.rest 64 input
    ⟨total0, total1, state, if input = [] then buffer else memcpy buffer left input⟩

def md5Padding : List UInt8 := 0x80 :: List.replicate 63 0

def md5End (ctx : Md5Context) : Md5Context × List UInt8 :=
  let high := ctx.total0 >>> 29 ||| ctx.total1 <<< 3
  let low := ctx.total0 <<< 3
  let msglen := putUint32 low ++ putUint32 high
  let last := (ctx.total0 &&& 0x3F).toNat
  let padn := if last < 56 then 56 - last else 120 - last
  let ctx := md5Hash (md5Hash ctx (md5Padding.take padn)) msglen
  (ctx,
    putUint32 ctx.state.a ++ putUint32 ctx.state.b ++ putUint32 ctx.state.c ++ putUint32 ctx.state.d)

end Opticon
