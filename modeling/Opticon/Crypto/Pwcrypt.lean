import Mathlib.Data.Nat.Bits
import Opticon.Crypto.Md5
import Opticon.Meter.Data

/-! The hash of a password (`pwcrypt.c`). -/

namespace Opticon

def i64c (i : BitVec 32) : UInt8 :=
  let i := (i &&& 0x3f).toNat
  UInt8.ofNat (
    if i = 0 then 46
    else if i = 1 then 47
    else if i < 12 then 48 - 2 + i
    else if i < 38 then 65 - 12 + i
    else 97 - 38 + i)

def to64 : ℕ → BitVec 32 → List UInt8
  | 0, _ => []
  | n + 1, v => i64c v :: to64 n (v >>> 6)

/-- The length of a salt, including "$1$". -/
def saltLength (salt : List UInt8) : ℕ :=
  3 + (((salt.drop 3).take 8).takeWhile (· != 36)).length

/-- Just as many characters of a digest: `for (pl = pw_len; pl > 0; pl -= 16)`. -/
def asManyPieces (final : List UInt8) (pw_len : ℕ) : List (List UInt8) :=
  (List.range ((pw_len + 15) / 16)).map fun turn =>
    let pl := pw_len - 16 * turn
    final.take (if pl > 16 then 16 else pl)

/-- The bits of the length: `for (i = pw_len; i; i >>= 1)`. -/
def lengthPieces (final pw : List UInt8) : List (List UInt8) :=
  pw.length.bits.map fun odd => (if odd then final else pw).take 1

def turnPieces (pw salt final : List UInt8) (i : ℕ) : List (List UInt8) :=
  [if i % 2 = 1 then pw else final] ++ (if i % 3 ≠ 0 then [salt] else []) ++
    (if i % 7 ≠ 0 then [pw] else []) ++ [if i % 2 = 1 then final else pw]

/-- The digest as text. -/
def digestText (final : List UInt8) : List UInt8 :=
  let at' (i : ℕ) : BitVec 32 := ((final ++ [final.getD 5 0]).getD i 0).toBitVec.setWidth 32
  (List.range 5).flatMap (fun i => to64 4 (at' i <<< 16 ||| at' (i + 6) <<< 8 ||| at' (i + 12))) ++
    to64 2 (at' 11)

/-- `ctx` and `ctx1` are on the stack, as whatever was there before. -/
def md5Pwcrypt (ctx ctx1 : Md5Context) (pw salt : List UInt8) : Except Fault (List UInt8) :=
  if salt.length < 3 then .error .outOfBounds
  else
    let sl := saltLength salt
    let ctx := md5Begin ctx
    let ctx := md5Hash ctx pw
    let ctx := md5Hash ctx (salt.take sl)
    let result := salt.take sl ++ [36]
    let salt := (salt.take sl).drop 3
    let ctx1 := md5Begin ctx1
    let ctx1 := md5Hash ctx1 pw
    let ctx1 := md5Hash ctx1 salt
    let ctx1 := md5Hash ctx1 pw
    let (ctx1, final) := md5End ctx1
    let ctx := (asManyPieces final pw.length).foldl md5Hash ctx
    -- memset(final, 0, sizeof(final))
    let ctx := (lengthPieces (List.replicate 17 0) pw).foldl md5Hash ctx
    let (_, final) := md5End ctx
    let (_, final) := (List.range 1000).foldl (fun (c : Md5Context × List UInt8) i =>
      md5End ((turnPieces pw salt c.2 i).foldl md5Hash (md5Begin c.1))) (ctx1, final)
    .ok (result ++ digestText final)

end Opticon
