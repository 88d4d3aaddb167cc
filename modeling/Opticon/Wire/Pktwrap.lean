import Opticon.Crypto.Aes
import Opticon.Lib.Decimal
import Opticon.Meter.Host
import Opticon.Wire.Ioport

/-! The outer layer of packets: encryption and compression (`aes.c`, `pktwrap.c`). -/

namespace Opticon

def be32toh (bytes : List UInt8) : BitVec 32 :=
  bytes.foldl (fun acc b => acc <<< 8 ||| b.toBitVec.setWidth 32) 0

def ioportReadU32 (io : Ioport) : BitVec 32 × Ioport :=
  let (ok, data, io) := ioportRead io 4
  (if ok then be32toh data else 0, io)

def ioportReadUuid (io : Ioport) : Uuid × Ioport :=
  let (ok, data, io) := ioportRead io 16
  (if ok then ⟨be64toh (data.take 8), be64toh (data.drop 8)⟩ else ⟨0, 0⟩, io)

/-- What the memory holds that a packet is unwrapped in: the array for one block, and the
buffers of the ports. -/
structure Leftover where
  block : List UInt8
  decrypted : List UInt8
  res : List UInt8
  deriving DecidableEq

/-- What can be read from an own buffer of a port: what was written, but all of the buffer
if nothing was. -/
def bufferContents (leftover written : List UInt8) : List UInt8 :=
  if written = [] then leftover else written

/-- The local variables of `ioport_decrypt`, and what it has written. -/
structure DecryptState where
  io : Ioport
  buf : List UInt8
  done : BitVec 64
  absorb_ts : Bool
  out : List UInt8
  deriving DecidableEq

/-- One round but for the first one takes at least 8 bytes off what is left, and all but the
last two take 16 bytes, so `sz / 16 + 3` rounds are enough. -/
def decryptLoop (k : AesKey) (sz : BitVec 64) (uts serial : BitVec 32) :
    Nat → DecryptState → Except Fault (Bool × List UInt8)
  | 0, s => .ok (true, s.out)
  | n + 1, s =>
    let left := sz - s.done
    if left = 0 then .ok (true, s.out)
    else
      let left := if 16 < left then 16 else left
      let (ok, data, io) := ioportRead s.io 16
      let buf := aes256DecryptEcb k (if ok then data else s.buf)
      if s.absorb_ts then
        let pts := be32toh (buf.take 4)
        let pserial := be32toh ((buf.drop 4).take 4)
        if pserial ≠ serial then .ok (false, s.out)
        else
          let diff := if pts < uts then uts - pts else pts - uts
          if 180 < diff then .ok (false, s.out)
          -- no buffer is large enough for the bytes that are to be written
          else if left < 8 then .error .endlessLoop
          else decryptLoop k sz uts serial n
            { io := io
              buf := buf
              done := s.done + (left - 8)
              absorb_ts := false
              out := s.out ++ (buf.drop 8).take (left - 8).toNat }
      else decryptLoop k sz uts serial n
        { s with
          io := io
          buf := buf
          done := s.done + left
          out := s.out ++ buf.take left.toNat }

/-- Whether the data was decrypted, and what was written. -/
def ioportDecrypt (k : AesKey) (io : Ioport) (block : List UInt8) (ts : Nat)
    (serial : BitVec 32) : Except Fault (Bool × List UInt8) :=
  let (sz, io) := ioportReadEncint io
  decryptLoop k sz (BitVec.ofNat 32 ts) serial (sz.toNat / 16 + 3) ⟨io, block, 0, true, []⟩

def be32 (i : BitVec 32) : List UInt8 :=
  [24, 16, 8, 0].map fun s => UInt8.ofBitVec ((i >>> s).setWidth 8)

def uuidBytes (u : Uuid) : List UInt8 := be64 u.msb ++ be64 u.lsb

/-- The first `n` of the bytes that come from the random number generator. -/
def randomBytes (rand : Nat → UInt8) (n : Nat) : List UInt8 := (List.range n).map rand

/-- The blocks of a payload behind the first bytes of the first block; the last block is filled
up with random bytes. Every round takes a byte of the payload at least. -/
def encryptLoop (k : AesKey) (rand : Nat → UInt8) :
    Nat → List UInt8 → List UInt8 → List UInt8
  | 0, _, _ => []
  | n + 1, head, payload =>
    if payload = [] then []
    else
      let block := head ++ payload.take (16 - head.length)
      aes256EncryptEcb k (block ++ randomBytes rand (16 - block.length)) ++
        encryptLoop k rand n [] (payload.drop (16 - head.length))

def ioportEncrypt (k : AesKey) (payload : List UInt8) (rand : Nat → UInt8) (out : Ioport)
    (ts : Nat) (serial : BitVec 32) : Ioport :=
  let out := ioportWriteEncint out (BitVec.ofNat 64 payload.length)
  ioportWrite out (encryptLoop k rand (payload.length + 1)
    (be32 (BitVec.ofNat 32 ts) ++ be32 serial) payload)

/-- The values of `unwrap_errno`. -/
inductive UnwrapError where
  | readError | typeError | keyresolveError | decryptError | decompressError
  deriving DecidableEq

/-- `inflate` is what the library makes of the bytes, in an output buffer of 2048 bytes. -/
def decompressData (inflate : List UInt8 → Option (List UInt8)) (bytes : List UInt8) :
    Option (List UInt8) :=
  if bytes = [] then none else inflate bytes

section Unwrap

variable {σ β : Type} (inflate : List UInt8 → Option (List UInt8))

/-- `resolve` looks up the key of a session; it may change the state, whatever becomes of
the packet. What it gives for the session is returned with the bytes to be decoded. -/
def ioportUnwrapMeterdata (networkid : BitVec 32) (bytes : List UInt8) (mem : Leftover)
    (tnow : Nat)
    (resolve : BitVec 32 → BitVec 32 → BitVec 32 → σ → Except Fault (Option (AesKey × β) × σ))
    (s : σ) : Except Fault (Except UnwrapError (β × List UInt8) × σ) :=
  let (ok, packettype, io) := ioportRead (.reader bytes) 4
  if ¬ ok then .ok (.error .readError, s)
  else if packettype ≠ asc "o6m1" then .ok (.error .typeError, s)
  else do
    let (sessid, io) := ioportReadU32 io
    let (serial, io) := ioportReadU32 io
    match ← resolve networkid sessid serial s with
    | (none, s) => return (.error .keyresolveError, s)
    | (some (k, S), s) =>
      let (ok, decrypted) ← ioportDecrypt k io mem.block tnow serial
      if ¬ ok then return (.error .decryptError, s)
      match decompressData inflate (bufferContents mem.decrypted decrypted) with
      | none => return (.error .decompressError, s)
      | some res => return (.ok (S, bufferContents mem.res res), s)

/-- Authentication information out of a packet; the tenant's key is left out. -/
structure Authinfo where
  sessionid : BitVec 32
  serial : BitVec 32
  tenantid : Uuid
  hostid : Uuid
  sessionkey : AesKey
  deriving DecidableEq

def ioportUnwrapAuthdata (bytes : List UInt8) (mem : Leftover) (tnow : Nat)
    (resolve : Uuid → BitVec 32 → σ → Option AesKey × σ) (s : σ) :
    Except Fault (Option Authinfo × σ) :=
  let (ok, packettype, io) := ioportRead (.reader bytes) 4
  if ¬ ok then .ok (none, s)
  else if packettype ≠ asc "o6a1" then .ok (none, s)
  else do
    let (tenantid, io) := ioportReadUuid io
    let (serial, io) := ioportReadU32 io
    match resolve tenantid serial s with
    | (none, s) => return (none, s)
    | (some k, s) =>
      let (ok, decrypted) ← ioportDecrypt k io mem.block tnow serial
      if ¬ ok then return (none, s)
      let io := Ioport.reader (bufferContents mem.decrypted decrypted)
      let (sessionid, io) := ioportReadU32 io
      let (hostid, io) := ioportReadUuid io
      let (ok, sessionkey, _) := ioportRead io 32
      if h : ok ∧ sessionkey.length = 32 then
        return (some ⟨sessionid, serial, tenantid, hostid, ⟨sessionkey, h.2⟩⟩, s)
      else return (none, s)

end Unwrap

/-- `pad` gives the 64 random bytes behind the session key. -/
def ioportWrapAuthdata (auth : Authinfo) (tenantkey : AesKey) (pad rand : Nat → UInt8)
    (tnow : Nat) : List UInt8 :=
  let payload := be32 auth.sessionid ++ uuidBytes auth.hostid ++ auth.sessionkey.data ++
    randomBytes pad 64
  let res := ioportWrite .writer (asc "o6a1" ++ uuidBytes auth.tenantid ++ be32 auth.serial)
  (ioportEncrypt tenantkey payload rand res tnow auth.serial).written

/-- `deflate` is the stream the library makes of the data; it is given up when the output
buffer of 2048 bytes is full. -/
def compressData (deflate : List UInt8 → List UInt8) (input : List UInt8) :
    Option (List UInt8) :=
  if input = [] then none
  else if (deflate input).length ≤ 2048 then some (deflate input)
  else none

def ioportWrapMeterdata (deflate : List UInt8 → List UInt8) (sessid serial : BitVec 32)
    (key : AesKey) (input : List UInt8) (rand : Nat → UInt8) (tnow : Nat) :
    Option (List UInt8) := do
  let gzipped ← compressData deflate input
  let res := ioportWrite .writer (asc "o6m1" ++ be32 sessid ++ be32 serial)
  return (ioportEncrypt key gzipped rand res tnow serial).written

end Opticon
