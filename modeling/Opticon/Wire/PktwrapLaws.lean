import Opticon.Crypto.AesLaws
import Opticon.Wire.IntCodec
import Opticon.Wire.Pktwrap

/-! What is wrapped is unwrapped. -/

namespace Opticon

@[simp] theorem be32toh_be32 (i : BitVec 32) : be32toh (be32 i) = i := by
  simp only [be32toh, be32, List.map_cons, List.map_nil, List.foldl_cons, List.foldl_nil]
  rw [← ushiftRight_all i (show 32 ≤ 24 + 8 by decide), bigEndian_step i 24, bigEndian_step i 16,
    bigEndian_step i 8, bigEndian_step i 0, BitVec.ushiftRight_zero]

@[simp] theorem be32_length (i : BitVec 32) : (be32 i).length = 4 := rfl

section Read

variable (rest w : List UInt8) (bitpos : Nat) (bitbuffer : BitVec 8) (file : Bool)

theorem ioportRead_append (data : List UInt8) :
    ioportRead ⟨data ++ rest, w, bitpos, bitbuffer, file⟩ data.length =
      (true, data, ⟨rest, w, 0, 0, file⟩) :=
  ioportRead_enough _ data rest rfl

@[simp] theorem ioportReadU32_be32 (i : BitVec 32) :
    ioportReadU32 ⟨be32 i ++ rest, w, bitpos, bitbuffer, file⟩ = (i, ⟨rest, w, 0, 0, file⟩) := by
  have hread := ioportRead_append rest w bitpos bitbuffer file (be32 i)
  rw [be32_length] at hread
  simp [ioportReadU32, hread]

@[simp] theorem ioportReadUuid_uuidBytes (u : Uuid) :
    ioportReadUuid ⟨uuidBytes u ++ rest, w, bitpos, bitbuffer, file⟩ =
      (u, ⟨rest, w, 0, 0, file⟩) := by
  have hread := ioportRead_append rest w bitpos bitbuffer file (uuidBytes u)
  rw [show (uuidBytes u).length = 16 from rfl] at hread
  have htake : (uuidBytes u).take 8 = be64 u.msb := rfl
  have hdrop : (uuidBytes u).drop 8 = be64 u.lsb := rfl
  simp [ioportReadUuid, hread, htake, hdrop]

end Read

@[simp] theorem randomBytes_length (rand : Nat → UInt8) (n : Nat) :
    (randomBytes rand n).length = n := by
  simp [randomBytes]

section Decrypt

variable {k : AesKey} {rand : Nat → UInt8} {sz : BitVec 64} {uts serial : BitVec 32}

/-- The blocks behind the first one give what they were made of. -/
theorem decryptLoop_blocks {rest tail : List UInt8} {n m : Nat} {s : DecryptState}
    (hn : rest.length ≤ 16 * n) (hm : rest.length ≤ m) (habsorb : s.absorb_ts = false)
    (hunread : s.io.unread = encryptLoop k rand m [] rest ++ tail)
    (hleft : sz - s.done = BitVec.ofNat 64 rest.length) (hlt : rest.length < 2 ^ 64) :
    decryptLoop k sz uts serial n s = .ok (true, s.out ++ rest) := by
  induction n generalizing rest m s with
  | zero =>
    obtain rfl := List.length_eq_zero_iff.mp (by omega : rest.length = 0)
    simp [decryptLoop]
  | succ n ih =>
    rw [decryptLoop, hleft]
    by_cases hnil : rest = []
    · subst hnil
      simp
    have hpos := List.length_pos_iff.mpr hnil
    obtain ⟨m, rfl⟩ := Nat.exists_eq_succ_of_ne_zero (show m ≠ 0 by omega)
    rw [encryptLoop, if_neg hnil] at hunread
    simp only [List.nil_append, List.length_nil, Nat.sub_zero, List.append_assoc] at hunread
    have hne : BitVec.ofNat 64 rest.length ≠ 0 := by
      intro h
      have := congrArg BitVec.toNat h
      simp only [BitVec.toNat_ofNat, Nat.mod_eq_of_lt hlt, BitVec.ofNat_eq_ofNat] at this
      omega
    have hblock : (rest.take 16 ++ randomBytes rand (16 - (rest.take 16).length)).length = 16 := by
      rw [List.length_append, randomBytes_length, List.length_take]
      omega
    have hread := ioportRead_enough s.io _ _ hunread
    rw [aes256EncryptEcb_length] at hread
    simp only [if_neg hne, hread, habsorb, if_true, Bool.false_eq_true, if_false,
      aes256DecryptEcb_encryptEcb hblock]
    have htake : (if 16 < BitVec.ofNat 64 rest.length then 16 else BitVec.ofNat 64 rest.length) =
        BitVec.ofNat 64 (rest.take 16).length := by
      rw [List.length_take]
      split
      · rename_i h
        rw [BitVec.lt_def, BitVec.toNat_ofNat, Nat.mod_eq_of_lt hlt] at h
        rw [Nat.min_eq_left (show 16 ≤ rest.length from h.le)]
        rfl
      · rename_i h
        rw [BitVec.lt_def, BitVec.toNat_ofNat, Nat.mod_eq_of_lt hlt] at h
        rw [Nat.min_eq_right (show rest.length ≤ 16 from Nat.not_lt.mp h)]
    have htoNat : (BitVec.ofNat 64 (rest.take 16).length).toNat = (rest.take 16).length := by
      rw [BitVec.toNat_ofNat, Nat.mod_eq_of_lt (by rw [List.length_take]; omega)]
    have hdrop : rest.length = (rest.take 16).length + (rest.drop 16).length := by
      rw [← List.length_append, List.take_append_drop]
    rw [htake, htoNat, List.take_left]
    refine (ih ?_ ?_ rfl rfl ?_ (by omega)).trans ?_
    · rw [List.length_drop]
      omega
    · rw [List.length_drop]
      omega
    · rw [← BitVec.sub_sub, hleft, hdrop, BitVec.ofNat_add, BitVec.add_comm, BitVec.add_sub_cancel]
    · rw [List.append_assoc, List.take_append_drop]

/-- Whether a time stamp is within 180 seconds of the clock. -/
def stampFresh (pts uts : BitVec 32) : Bool := (if pts < uts then uts - pts else pts - uts) ≤ 180

/-- The first block holds the stamp, the serial and 8 bytes of the payload. -/
theorem decryptLoop_first {pts : BitVec 32} {data rest : List UInt8} {n : Nat} {s : DecryptState}
    (hsz : 16 ≤ sz.toNat) (hdata : data.length = 8) (habsorb : s.absorb_ts = true)
    (hdone : s.done = 0)
    (hunread : s.io.unread = aes256EncryptEcb k (be32 pts ++ be32 serial ++ data) ++ rest) :
    decryptLoop k sz uts serial (n + 1) s =
      if stampFresh pts uts then
        decryptLoop k sz uts serial n
          { io := { s.io with unread := rest, bitpos := 0, bitbuffer := 0 }
            buf := be32 pts ++ be32 serial ++ data
            done := 8
            absorb_ts := false
            out := s.out ++ data }
      else .ok (false, s.out) := by
  have hsub : sz - s.done = sz := by
    rw [hdone]
    exact BitVec.sub_zero sz
  have hne : sz ≠ 0 := by
    rintro rfl
    simp at hsz
  have hleft : (if 16 < sz then 16 else sz) = 16 := by
    split
    · rfl
    · rename_i h
      rw [BitVec.lt_def, Nat.not_lt] at h
      exact BitVec.eq_of_toNat_eq (Nat.le_antisymm h hsz)
  have hblock : (be32 pts ++ be32 serial ++ data).length = 16 := by
    rw [List.length_append, hdata]
    rfl
  have hread := ioportRead_enough s.io _ _ hunread
  rw [aes256EncryptEcb_length] at hread
  have hpts : (be32 pts ++ be32 serial ++ data).take 4 = be32 pts := rfl
  have hserial : ((be32 pts ++ be32 serial ++ data).drop 4).take 4 = be32 serial := rfl
  have hpayload : ((be32 pts ++ be32 serial ++ data).drop 8).take 8 = data := by
    exact List.take_of_length_le hdata.le
  have hfresh : (180 < if pts < uts then uts - pts else pts - uts) ↔ ¬ stampFresh pts uts := by
    rw [stampFresh, decide_eq_true_eq, BitVec.not_le]
  rw [decryptLoop, hsub, if_neg hne, hleft]
  simp only [hread, habsorb, if_true, aes256DecryptEcb_encryptEcb hblock, hpts, hserial,
    be32toh_be32, ne_eq, not_true_eq_false, if_false, hfresh, ite_not]
  rw [if_neg (show ¬ (16 : BitVec 64) < 8 by decide), hdone,
    show (16 - 8 : BitVec 64).toNat = 8 from rfl, hpayload]
  rfl

/-- A payload of a block or more that was encrypted is decrypted, if its time stamp passes. -/
theorem ioportDecrypt_encrypt {payload : List UInt8} (hge : 16 ≤ payload.length)
    (hlt : payload.length < 2 ^ 35) (k : AesKey) (rand : Nat → UInt8) (serial : BitVec 32)
    (ts tnow : Nat) (block w : List UInt8) :
    ∃ bytes, ioportEncrypt k payload rand (.port w) ts serial = .port (w ++ bytes) ∧
      ∀ io : Ioport, io.unread = bytes →
        ioportDecrypt k io block tnow serial =
          .ok (if stampFresh (.ofNat 32 ts) (.ofNat 32 tnow) then (true, payload) else (false, [])) := by
  have hsz : (BitVec.ofNat 64 payload.length).toNat = payload.length := by
    rw [BitVec.toNat_ofNat, Nat.mod_eq_of_lt (by omega)]
  obtain ⟨bs, hbs, hread⟩ := ioportWriteEncint_written (i := .ofNat 64 payload.length) (by omega)
  refine ⟨bs ++ encryptLoop k rand (payload.length + 1)
    (be32 (.ofNat 32 ts) ++ be32 serial) payload, ?_, fun io hio => ?_⟩
  · rw [ioportEncrypt, hbs, ioportWrite_port, List.append_assoc]
  have hnil : payload ≠ [] := by
    rintro rfl
    simp at hge
  have htake : (payload.take 8).length = 8 := by
    rw [List.length_take]
    omega
  have hfirst : encryptLoop k rand (payload.length + 1) (be32 (.ofNat 32 ts) ++ be32 serial) payload =
      aes256EncryptEcb k (be32 (.ofNat 32 ts) ++ be32 serial ++ payload.take 8) ++
        encryptLoop k rand payload.length [] (payload.drop 8) := by
    rw [encryptLoop, if_neg hnil]
    simp [htake, randomBytes]
  simp only [ioportDecrypt, ioportReadEncint, hio, hread, hsz]
  rw [decryptLoop_first (by rw [hsz]; exact hge) htake rfl rfl hfirst]
  split
  · refine (decryptLoop_blocks ?_ ?_ rfl (List.append_nil _).symm ?_ ?_).trans ?_
    · rw [List.length_drop]
      omega
    · rw [List.length_drop]
      omega
    · have hle : (8 : BitVec 64) ≤ .ofNat 64 payload.length := by
        rw [BitVec.le_def, hsz]
        exact le_trans (by decide) hge
      apply BitVec.eq_of_toNat_eq
      rw [List.length_drop, BitVec.toNat_sub_of_le hle, hsz, BitVec.toNat_ofNat,
        Nat.mod_eq_of_lt (by omega)]
      rfl
    · rw [List.length_drop]
      omega
    · rw [List.nil_append, List.take_append_drop]
  · rfl

end Decrypt

theorem port_written (w : List UInt8) : (Ioport.port w).written = w := rfl

section Unwrap

variable {σ β : Type} {inflate : List UInt8 → Option (List UInt8)} {mem : Leftover} {ts tnow : Nat}
  {s s' : σ}

@[simp] theorem uuidBytes_length (u : Uuid) : (uuidBytes u).length = 16 := rfl

section Auth

variable {auth : Authinfo} {tenantkey : AesKey} {pad rand : Nat → UInt8}

/-- What is in the encrypted part of an auth packet. -/
def authPayload (auth : Authinfo) (pad : Nat → UInt8) : List UInt8 :=
  be32 auth.sessionid ++ (uuidBytes auth.hostid ++ (auth.sessionkey.data ++ randomBytes pad 64))

theorem authPayload_length (auth : Authinfo) (pad : Nat → UInt8) :
    (authPayload auth pad).length = 116 := by
  simp [authPayload, auth.sessionkey.length_eq]

theorem ioportWrapAuthdata_eq (auth : Authinfo) (tenantkey : AesKey) (pad rand : Nat → UInt8)
    (ts tnow : Nat) (block : List UInt8) :
    ∃ bytes, ioportWrapAuthdata auth tenantkey pad rand ts =
        asc "o6a1" ++ (uuidBytes auth.tenantid ++ (be32 auth.serial ++ bytes)) ∧
      ∀ io : Ioport, io.unread = bytes →
        ioportDecrypt tenantkey io block tnow auth.serial =
          .ok (if stampFresh (.ofNat 32 ts) (.ofNat 32 tnow) then (true, authPayload auth pad)
            else (false, [])) := by
  have hlen := authPayload_length auth pad
  obtain ⟨bytes, hbytes, hdecrypt⟩ := ioportDecrypt_encrypt (by rw [hlen]; decide)
    (by rw [hlen]; decide) tenantkey rand auth.serial ts tnow block
    (asc "o6a1" ++ uuidBytes auth.tenantid ++ be32 auth.serial)
  have hwriter : ioportWrite .writer (asc "o6a1" ++ uuidBytes auth.tenantid ++ be32 auth.serial) =
    .port (asc "o6a1" ++ uuidBytes auth.tenantid ++ be32 auth.serial) := rfl
  refine ⟨bytes, ?_, hdecrypt⟩
  simp only [authPayload, ← List.append_assoc] at hbytes
  simp only [ioportWrapAuthdata, hwriter, hbytes, port_written]
  simp only [List.append_assoc]

theorem take_ioportWrapAuthdata :
    (ioportWrapAuthdata auth tenantkey pad rand ts).take 4 = asc "o6a1" := by
  obtain ⟨bytes, hbytes, -⟩ := ioportWrapAuthdata_eq auth tenantkey pad rand ts 0 []
  rw [hbytes]
  rfl

theorem ioportUnwrapAuthdata_wrap {resolve : Uuid → BitVec 32 → σ → Option AesKey × σ}
    (hresolve : resolve auth.tenantid auth.serial s = (some tenantkey, s'))
    (hfresh : stampFresh (.ofNat 32 ts) (.ofNat 32 tnow)) :
    ioportUnwrapAuthdata (ioportWrapAuthdata auth tenantkey pad rand ts) mem tnow resolve s =
      .ok (some auth, s') := by
  obtain ⟨bytes, hwrap, hdecrypt⟩ :=
    ioportWrapAuthdata_eq auth tenantkey pad rand ts tnow mem.block
  have htype := ioportRead_append (uuidBytes auth.tenantid ++ (be32 auth.serial ++ bytes)) [] 0 0
    false (asc "o6a1")
  have hkey := ioportRead_append (randomBytes pad 64) [] 0 0 false auth.sessionkey.data
  have hkeylen : auth.sessionkey.data.length = 32 := auth.sessionkey.length_eq
  rw [hkeylen] at hkey
  have hcontents : bufferContents mem.decrypted (authPayload auth pad) = be32 auth.sessionid ++
      (uuidBytes auth.hostid ++ (auth.sessionkey.data ++ randomBytes pad 64)) := by
    refine if_neg fun h => ?_
    have hlen := authPayload_length auth pad
    rw [h] at hlen
    cases hlen
  specialize hdecrypt ⟨bytes, [], 0, 0, false⟩ rfl
  rw [ioportUnwrapAuthdata, hwrap, Ioport.reader, show (4 : Nat) = (asc "o6a1").length from rfl, htype]
  simp only [not_true_eq_false, if_false, ne_eq, ioportReadUuid_uuidBytes, ioportReadU32_be32,
    hresolve, hdecrypt, if_pos hfresh, Outcome.ok_bind, hcontents, Ioport.reader, hkey, hkeylen,
    and_self, dite_true, Outcome.pure_ok]

end Auth

section Meterdata

variable {deflate : List UInt8 → List UInt8} {sessid serial : BitVec 32} {key : AesKey}
  {input bytes : List UInt8} {rand : Nat → UInt8}
  (hwrap : ioportWrapMeterdata deflate sessid serial key input rand ts = some bytes)
  (hge : 16 ≤ (deflate input).length)
include hwrap hge

theorem ioportWrapMeterdata_eq (tnow : Nat) (block : List UInt8) :
    ∃ rest, bytes = asc "o6m1" ++ (be32 sessid ++ (be32 serial ++ rest)) ∧
      ∀ io : Ioport, io.unread = rest →
        ioportDecrypt key io block tnow serial =
          .ok (if stampFresh (.ofNat 32 ts) (.ofNat 32 tnow) then (true, deflate input)
            else (false, [])) := by
  unfold ioportWrapMeterdata compressData at hwrap
  split at hwrap
  · cases hwrap
  split at hwrap
  case isFalse => cases hwrap
  case isTrue hle =>
    obtain ⟨rest, hrest, hdecrypt⟩ := ioportDecrypt_encrypt hge (by omega) key rand serial ts
      tnow block (asc "o6m1" ++ be32 sessid ++ be32 serial)
    have hwriter : ioportWrite .writer (asc "o6m1" ++ be32 sessid ++ be32 serial) =
      .port (asc "o6m1" ++ be32 sessid ++ be32 serial) := rfl
    simp only [Option.bind_eq_bind, Option.bind_some, hwriter, hrest, port_written] at hwrap
    have hpacket := Option.some.inj hwrap
    rw [List.append_assoc, List.append_assoc] at hpacket
    exact ⟨rest, hpacket.symm, hdecrypt⟩

/-- Data that was wrapped gets to decompression, if the key is found and the time stamp passes. -/
theorem ioportUnwrapMeterdata_wrap {netid : BitVec 32} {S : β}
    {resolve : BitVec 32 → BitVec 32 → BitVec 32 → σ → Except Fault (Option (AesKey × β) × σ)}
    (hresolve : resolve netid sessid serial s = .ok (some (key, S), s')) :
    ioportUnwrapMeterdata inflate netid bytes mem tnow resolve s =
      if stampFresh (.ofNat 32 ts) (.ofNat 32 tnow) then
        match inflate (deflate input) with
        | none => .ok (.error .decompressError, s')
        | some res => .ok (.ok (S, bufferContents mem.res res), s')
      else .ok (.error .decryptError, s') := by
  have hnil : deflate input ≠ [] := by
    intro h
    rw [h] at hge
    simp at hge
  obtain ⟨rest, rfl, hdecrypt⟩ := ioportWrapMeterdata_eq hwrap hge tnow mem.block
  have htype := ioportRead_append (be32 sessid ++ (be32 serial ++ rest)) [] 0 0 false (asc "o6m1")
  specialize hdecrypt ⟨rest, [], 0, 0, false⟩ rfl
  rw [ioportUnwrapMeterdata, Ioport.reader, show (4 : Nat) = (asc "o6m1").length from rfl, htype]
  simp only [not_true_eq_false, if_false, ne_eq, ioportReadU32_be32, hresolve, hdecrypt,
    Outcome.ok_bind]
  split
  · have hdecompress : decompressData inflate (bufferContents mem.decrypted (deflate input)) =
        inflate (deflate input) := by
      rw [bufferContents, if_neg hnil, decompressData, if_neg hnil]
    cases hinflate : inflate (deflate input) with
    | none => simp only [not_true_eq_false, if_false, hdecompress, hinflate, Outcome.pure_ok]
    | some res => simp only [not_true_eq_false, if_false, hdecompress, hinflate, Outcome.pure_ok]
  · rfl

end Meterdata

end Unwrap

/-! ### The round trip of meter data -/

/-- A compression library: in a buffer that is large enough the compressed data is inflated to
what it was, in a smaller one it is not; a stream has a header of ten bytes and a trailer of
eight. -/
structure Zlib where
  deflate : List UInt8 → List UInt8
  inflate : Nat → List UInt8 → Option (List UInt8)
  inflate_deflate : ∀ n input, input.length ≤ n → inflate n (deflate input) = some input
  inflate_full : ∀ n input, n < input.length → inflate n (deflate input) = none
  length_deflate : ∀ input, 18 ≤ (deflate input).length

theorem stampFresh_toNat {pts uts : BitVec 32} :
    stampFresh pts uts ↔ pts.toNat ≤ uts.toNat + 180 ∧ uts.toNat ≤ pts.toNat + 180 := by
  have h180 : (180 : BitVec 32).toNat = 180 := rfl
  rw [stampFresh, decide_eq_true_eq, BitVec.le_def, h180]
  split
  · rename_i h
    rw [BitVec.lt_def] at h
    rw [BitVec.toNat_sub]
    omega
  · rename_i h
    rw [BitVec.lt_def] at h
    rw [BitVec.toNat_sub]
    omega

/-- The 32 bits of a time stamp start over every 2³² seconds. -/
theorem stampFresh_iff {ts tnow : Nat} (hts : ts ≤ tnow + 180) (htnow : tnow ≤ ts + 180) :
    stampFresh (.ofNat 32 ts) (.ofNat 32 tnow) ↔ ts / 2 ^ 32 = tnow / 2 ^ 32 := by
  rw [stampFresh_toNat, BitVec.toNat_ofNat, BitVec.toNat_ofNat]
  omega

theorem input_ne_nil {deflate : List UInt8 → List UInt8} {sessid serial : BitVec 32} {key : AesKey}
    {input bytes : List UInt8} {rand : Nat → UInt8} {ts : Nat}
    (h : ioportWrapMeterdata deflate sessid serial key input rand ts = some bytes) :
    input ≠ [] := by
  rintro rfl
  simp [ioportWrapMeterdata, compressData] at h

/-- Meter data for which there is a packet is unwrapped within 180 seconds to what it was, if
and only if it fits in the buffer it is inflated to, and the two clocks are in the same era
of the time stamps. -/
theorem meterdata_round_trip (z : Zlib) {sessid serial : BitVec 32} {key : AesKey}
    {input bytes : List UInt8} {rand : Nat → UInt8} {ts tnow : Nat}
    (hwrap : ioportWrapMeterdata z.deflate sessid serial key input rand ts = some bytes)
    (hts : ts ≤ tnow + 180) (htnow : tnow ≤ ts + 180) {σ β : Type} {netid : BitVec 32}
    {mem : Leftover}
    {resolve : BitVec 32 → BitVec 32 → BitVec 32 → σ → Except Fault (Option (AesKey × β) × σ)}
    {s s' : σ} {S : β} (hresolve : resolve netid sessid serial s = .ok (some (key, S), s')) :
    ioportUnwrapMeterdata (z.inflate 2048) netid bytes mem tnow resolve s =
        .ok (.ok (S, input), s') ↔
      input.length ≤ 2048 ∧ ts / 2 ^ 32 = tnow / 2 ^ 32 := by
  have hlength := z.length_deflate input
  rw [ioportUnwrapMeterdata_wrap hwrap (by omega) hresolve, ← stampFresh_iff hts htnow]
  by_cases hfit : input.length ≤ 2048
  · rw [z.inflate_deflate 2048 input hfit]
    simp [hfit, bufferContents, input_ne_nil hwrap]
  · rw [z.inflate_full 2048 input (by omega)]
    simp only [hfit, false_and, iff_false]
    split
    · simp
    · simp

@[irreducible] def zeros : List UInt8 := List.replicate 2049 0

theorem length_zeros : zeros.length = 2049 := by
  rw [zeros, List.length_replicate]

/-- What `deflate` makes of 2049 zeros, and of a single one. -/
def gzipZeros : List UInt8 :=
  [31, 139, 8, 0, 0, 0, 0, 0, 0, 3, 99, 96, 24, 5, 163, 96, 20, 140, 130, 81, 48, 10, 70, 193, 136,
    3, 0, 116, 185, 68, 197, 1, 8, 0, 0]

def gzipZero : List UInt8 :=
  [31, 139, 8, 0, 0, 0, 0, 0, 0, 3, 99, 0, 0, 141, 239, 2, 210, 1, 0, 0, 0]

def tableDeflate (input : List UInt8) : List UInt8 :=
  if input = zeros then gzipZeros
  else if input = [0] then gzipZero
  else List.replicate 18 0 ++ input

def tableInflate (bytes : List UInt8) : List UInt8 :=
  if bytes = gzipZeros then zeros
  else if bytes = gzipZero then [0]
  else bytes.drop 18

theorem tableInflate_tableDeflate (input : List UInt8) :
    tableInflate (tableDeflate input) = input := by
  unfold tableDeflate
  split
  · rename_i h
    rw [h]
    rfl
  split
  · rename_i h
    rw [h]
    rfl
  · have hhead : ∀ bytes : List UInt8, bytes.head? = some 31 →
        List.replicate 18 0 ++ input ≠ bytes := by
      rintro bytes hbytes rfl
      simp at hbytes
    rw [tableInflate, if_neg (hhead _ rfl), if_neg (hhead _ rfl)]
    rfl

/-- A library that works on zeros as the real one does. -/
def tableZlib : Zlib where
  deflate := tableDeflate
  inflate n bytes :=
    if (tableInflate bytes).length ≤ n then some (tableInflate bytes) else none
  inflate_deflate n input h := by rw [tableInflate_tableDeflate, if_pos h]
  inflate_full n input h := by rw [tableInflate_tableDeflate, if_neg (by omega)]
  length_deflate input := by
    unfold tableDeflate
    split
    · decide
    split
    · decide
    · simp

theorem exists_ioportWrapMeterdata {deflate : List UInt8 → List UInt8} {sessid serial : BitVec 32}
    {key : AesKey} {input : List UInt8} {rand : Nat → UInt8} {ts : Nat} (hne : input ≠ [])
    (hle : (deflate input).length ≤ 2048) :
    ∃ bytes, ioportWrapMeterdata deflate sessid serial key input rand ts = some bytes := by
  rw [ioportWrapMeterdata, compressData, if_neg hne, if_pos hle]
  exact ⟨_, rfl⟩

/-- The key of 32 equal bytes. -/
def plainKey (b : UInt8) : AesKey := ⟨List.replicate 32 b, List.length_replicate⟩

/-- Every session has this key. -/
def resolvePlain (_netid _sessid _serial : BitVec 32) (s : Unit) :
    Except Fault (Option (AesKey × Unit) × Unit) :=
  .ok (some (plainKey 1, ()), s)

theorem meterdata_round_trip_zero :
    ∃ bytes,
      ioportWrapMeterdata tableZlib.deflate 7 100 (plainKey 1) [0] (fun _ => 0) 1000 = some bytes ∧
      ioportUnwrapMeterdata (tableZlib.inflate 2048) 1 bytes ⟨[], [], []⟩ 1100 resolvePlain () =
        .ok (.ok ((), [0]), ()) := by
  obtain ⟨bytes, hwrap⟩ := @exists_ioportWrapMeterdata tableZlib.deflate 7 100 (plainKey 1) [0]
    (fun _ => 0) 1000 (by decide) (by decide +kernel)
  refine ⟨bytes, hwrap, ?_⟩
  exact (meterdata_round_trip tableZlib hwrap (by decide) (by decide) rfl).mpr
    ⟨by decide, by decide⟩

/-- 2049 zeros are wrapped, and they are not unwrapped again. -/
theorem meterdata_too_long :
    ∃ bytes,
      ioportWrapMeterdata tableZlib.deflate 7 100 (plainKey 1) zeros (fun _ => 0) 1000 =
        some bytes ∧
      ioportUnwrapMeterdata (tableZlib.inflate 2048) 1 bytes ⟨[], [], []⟩ 1000 resolvePlain () =
        .ok (.error .decompressError, ()) := by
  have hdeflate : tableZlib.deflate zeros = gzipZeros := by
    show tableDeflate zeros = gzipZeros
    rw [tableDeflate, if_pos rfl]
  have hnone : tableZlib.inflate 2048 (tableZlib.deflate zeros) = none :=
    tableZlib.inflate_full 2048 zeros (by rw [length_zeros]; omega)
  have hne : zeros ≠ [] := by
    intro h
    have hlength := length_zeros
    rw [h] at hlength
    cases hlength
  obtain ⟨bytes, hwrap⟩ := @exists_ioportWrapMeterdata tableZlib.deflate 7 100 (plainKey 1) zeros
    (fun _ => 0) 1000 hne (by simp [hdeflate, gzipZeros])
  refine ⟨bytes, hwrap, ?_⟩
  refine (ioportUnwrapMeterdata_wrap hwrap ?_ rfl).trans ?_
  · rw [hdeflate]
    decide
  · rw [hnone]
    rfl

end Opticon
