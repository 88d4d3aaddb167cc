import Opticon.Wire.Cipher

/-! What of a payload comes back from its encryption. -/

namespace Opticon

/-- Whatever port the encrypted payload is read from, and whatever is in the array for a block,
the payload comes back. -/
def CipherRoundTrips (k : AesKey) (payload : List UInt8) (rand : Nat → UInt8)
    (serial : BitVec 32) (ts tnow : Nat) : Prop :=
  ∀ (io : Ioport) (block : List UInt8),
    io.unread = (ioportEncrypt k payload rand .writer ts serial).written →
      ioportDecrypt k io block tnow serial = .ok (true, payload)

/-- What the first block is encrypted from. -/
def firstBlock (payload : List UInt8) (rand : Nat → UInt8) (serial : BitVec 32) (ts : Nat) :
    List UInt8 :=
  be32 (.ofNat 32 ts) ++ be32 serial ++
    (payload.take 8 ++ randomBytes rand (8 - (payload.take 8).length))

section First

variable {k : AesKey} {payload : List UInt8} {rand : Nat → UInt8} {serial pserial uts : BitVec 32}
  {ts tnow : Nat} {io : Ioport} {block : List UInt8}

theorem firstBlock_length : (firstBlock payload rand serial ts).length = 16 := by
  simp [firstBlock]

theorem headerPasses_firstBlock : headerPasses uts pserial (firstBlock payload rand serial ts) =
    (decide (serial = pserial) && stampFresh (.ofNat 32 ts) uts) := by
  have hpts : (firstBlock payload rand serial ts).take 4 = be32 (.ofNat 32 ts) := rfl
  have hserial : ((firstBlock payload rand serial ts).drop 4).take 4 = be32 serial := rfl
  rw [headerPasses, hpts, hserial, be32toh_be32, be32toh_be32]

theorem encryptLoop_first (hne : payload ≠ []) (n : Nat) :
    encryptLoop k rand (n + 1) (be32 (.ofNat 32 ts) ++ be32 serial) payload =
      aes256EncryptEcb k (firstBlock payload rand serial ts) ++
        encryptLoop k rand n [] (payload.drop 8) := by
  have hhead : (be32 (.ofNat 32 ts) ++ be32 serial).length = 8 := rfl
  rw [encryptLoop, if_neg hne]
  dsimp only
  rw [hhead, firstBlock, List.append_assoc, List.length_append, hhead, Nat.sub_add_eq]

/-- An encrypted payload is decrypted from its first block on. -/
theorem decrypt_started (hne : payload ≠ []) (hlt : payload.length < 2 ^ 35)
    (hio : io.unread = (ioportEncrypt k payload rand .writer ts serial).written) :
    ∃ rd : Ioport, rd.unread = aes256EncryptEcb k (firstBlock payload rand serial ts) ++
        encryptLoop k rand payload.length [] (payload.drop 8) ∧
      ioportDecrypt k io block tnow pserial =
        decryptLoop k (.ofNat 64 payload.length) (.ofNat 32 tnow) pserial
          (payload.length / 16 + 3) (decryptStart rd block) := by
  have hsz : (BitVec.ofNat 64 payload.length).toNat = payload.length := by
    rw [BitVec.toNat_ofNat, Nat.mod_eq_of_lt (by omega)]
  obtain ⟨bs, hbs, hread⟩ := ioportWriteEncint_written (i := .ofNat 64 payload.length) (by omega)
  have hunread : io.unread = bs ++ encryptLoop k rand (payload.length + 1)
      (be32 (.ofNat 32 ts) ++ be32 serial) payload := by
    have hwriter : Ioport.writer = .port [] := rfl
    rw [hio, ioportEncrypt, hwriter, hbs, ioportWrite_port, List.nil_append, port_written]
  refine ⟨(ioportReadEncint io).2, ?_, ?_⟩
  · simp only [ioportReadEncint, hunread, hread]
    exact encryptLoop_first hne payload.length
  · simp only [ioportDecrypt, ioportReadEncint, hunread, hread, hsz]
    rfl

/-- The first block is there, and it is decrypted to what it was. -/
theorem firstBlock_read {rd : Ioport} {rest : List UInt8}
    (hrd : rd.unread = aes256EncryptEcb k (firstBlock payload rand serial ts) ++ rest) :
    16 ≤ rd.unread.length ∧
      aes256DecryptEcb k (rd.unread.take 16) = firstBlock payload rand serial ts := by
  have hlen : (aes256EncryptEcb k (firstBlock payload rand serial ts)).length = 16 :=
    aes256EncryptEcb_length _
  constructor
  · rw [hrd, List.length_append, hlen]
    exact Nat.le_add_right _ _
  · rw [hrd, ← hlen, List.take_left, aes256DecryptEcb_encryptEcb firstBlock_length]

/-- A first round that goes on gives what there is in its block behind the header. -/
theorem decryptRound_first {sz : BitVec 64} {rd : Ioport} {rest : List UInt8} {s' : DecryptState}
    (hrd : rd.unread = aes256EncryptEcb k (firstBlock payload rand serial ts) ++ rest)
    (hround : decryptRound k sz uts serial (decryptStart rd block) = .ok (some s')) :
    s'.io.unread = rest ∧
      s'.out = (payload.take 8 ++ randomBytes rand (8 - (payload.take 8).length)).take
        (min 16 sz.toNat - 8) := by
  obtain ⟨hlong, hblock⟩ := firstBlock_read hrd
  have habsorb : (decryptStart rd block).absorb_ts = true := rfl
  have hleft := toNat_min_sixteen sz
  have hread := ioportRead_enough rd _ _ hrd
  rw [aes256EncryptEcb_length] at hread
  unfold decryptRound at hround
  rw [roundBlock_start hlong, hblock, start_left] at hround
  dsimp only at hround
  generalize (if 16 < sz then 16 else sz) = left at hround hleft
  rw [if_pos habsorb] at hround
  split at hround
  · cases hround
  split at hround
  · cases hround
  · rename_i hnot
    have h8' : (8 : BitVec 64) ≤ left := BitVec.not_lt.mp hnot
    cases hround
    have hstart : (decryptStart rd block).io = rd := rfl
    refine ⟨?_, ?_⟩
    · rw [hstart, hread]
    · have hsub : (left - 8).toNat = min 16 sz.toNat - 8 := by
        rw [BitVec.toNat_sub_of_le h8', hleft]
        rfl
      dsimp only
      rw [hsub]
      rfl

theorem ofNat_length_ne_zero (hne : payload ≠ []) (hlt : payload.length < 2 ^ 35) :
    BitVec.ofNat 64 payload.length ≠ 0 := by
  have hpos := List.length_pos_iff.mpr hne
  intro hzero
  have hnat := congrArg BitVec.toNat hzero
  rw [BitVec.toNat_ofNat, Nat.mod_eq_of_lt (by omega)] at hnat
  exact hpos.ne' hnat

/-- What is known where a payload comes back. -/
theorem CipherRoundTrips.first (h : CipherRoundTrips k payload rand serial ts tnow)
    (hne : payload ≠ []) (hlt : payload.length < 2 ^ 35) :
    stampFresh (.ofNat 32 ts) (.ofNat 32 tnow) ∧ 8 ≤ payload.length ∧ ∃ s',
      s'.absorb_ts = false ∧ s'.io.unread = encryptLoop k rand payload.length [] (payload.drop 8) ∧
      (BitVec.ofNat 64 payload.length - s'.done).toNat =
        payload.length - (min 16 payload.length - 8) ∧
      s'.out = (payload.take 8 ++ randomBytes rand (8 - (payload.take 8).length)).take
        (min 16 payload.length - 8) ∧
      decryptLoop k (.ofNat 64 payload.length) (.ofNat 32 tnow) serial
        (payload.length / 16 + 2) s' = .ok (true, payload) := by
  obtain ⟨rd, hrd, hrun⟩ := @decrypt_started k payload rand serial serial ts tnow (.reader _) []
    hne hlt rfl
  obtain ⟨hlong, hblock⟩ := firstBlock_read hrd
  have hsz : (BitVec.ofNat 64 payload.length).toNat = payload.length := by
    rw [BitVec.toNat_ofNat, Nat.mod_eq_of_lt (by omega)]
  rw [h _ _ rfl, decryptLoop_succ, start_left, if_neg (ofNat_length_ne_zero hne hlt)] at hrun
  obtain ⟨-, hround⟩ | ⟨hpass, ⟨-, hround⟩ | ⟨h8, s', hround⟩⟩ := decryptRound_start k
    (.ofNat 64 payload.length) (.ofNat 32 tnow) serial [] hlong
  · rw [hround] at hrun
    cases hrun
  · rw [hround] at hrun
    cases hrun
  · rw [hround] at hrun
    obtain ⟨hunread, hout⟩ := decryptRound_first hrd hround
    obtain ⟨habsorb, -, hdone, -⟩ := decryptRound_some hround
    rw [start_left, hsz] at hdone
    rw [hsz] at h8 hout
    rw [hblock, headerPasses_firstBlock, decide_eq_true rfl, Bool.true_and] at hpass
    exact ⟨hpass, h8, s', habsorb, hunread, hdone, hout, hrun.symm⟩

/-- Of a payload between a half and a whole block only so much comes back of the first block as
there is in the second one, and of that 8 bytes whatever they are. -/
theorem CipherRoundTrips.short (h : CipherRoundTrips k payload rand serial ts tnow)
    (h8 : 8 < payload.length) (hlt : payload.length < 16) :
    payload = payload.take (payload.length - 8) ++
      (payload.drop 8 ++ randomBytes rand (24 - payload.length)).take 8 := by
  have hne : payload ≠ [] := List.length_pos_iff.mp (by omega)
  obtain ⟨-, -, s, habsorb, hunread, hleft, hout, hrun⟩ := h.first hne (by omega)
  have hrounds : payload.length / 16 + 2 = 1 + 1 := by omega
  rw [Nat.min_eq_right hlt.le, Nat.sub_sub_self h8.le] at hleft
  have hsub : BitVec.ofNat 64 payload.length - s.done = 8 := BitVec.eq_of_toNat_eq hleft
  have hblock : roundBlock k s = payload.drop 8 ++ randomBytes rand (24 - payload.length) := by
    have hcut : (payload.drop 8).take 16 = payload.drop 8 :=
      List.take_of_length_le (by rw [List.length_drop]; omega)
    have hnext : payload.drop 8 ≠ [] := List.length_pos_iff.mp (by rw [List.length_drop]; omega)
    have hpad : 16 - (payload.drop 8).length = 24 - payload.length := by
      rw [List.length_drop]
      omega
    have hlen : (payload.drop 8 ++ randomBytes rand (24 - payload.length)).length = 16 := by
      rw [List.length_append, randomBytes_length, List.length_drop]
      omega
    obtain ⟨m, hm⟩ := Nat.exists_eq_succ_of_ne_zero (show payload.length ≠ 0 by omega)
    rw [hm, encryptLoop, if_neg hnext] at hunread
    simp only [List.nil_append, List.length_nil, Nat.sub_zero, hcut, hpad] at hunread
    have hread := ioportRead_enough s.io _ _ hunread
    rw [aes256EncryptEcb_length] at hread
    rw [roundBlock, hread, if_pos rfl, aes256DecryptEcb_encryptEcb hlen]
  have hfirst : s.out = payload.take (payload.length - 8) := by
    rw [hout, Nat.min_eq_right hlt.le, List.take_append_of_le_length, List.take_take,
      Nat.min_eq_left (by omega)]
    rw [List.length_take]
    omega
  have hsmall : ¬ (16 : BitVec 64) < 8 := by decide
  have htoNat : (8 : BitVec 64).toNat = 8 := rfl
  rw [hrounds, decryptLoop_succ, hsub, if_neg (by decide)] at hrun
  simp only [decryptRound, habsorb, Bool.false_eq_true, if_false, hsub, if_neg hsmall, htoNat,
    hblock, hfirst] at hrun
  rw [decryptLoop_succ] at hrun
  dsimp only at hrun
  have hend : BitVec.ofNat 64 payload.length - (s.done + 8) = 0 := by
    rw [← BitVec.sub_sub, hsub]
    rfl
  rw [if_pos hend] at hrun
  exact (Prod.mk.inj (Except.ok.inj hrun)).2.symm

theorem ioportDecrypt_length_le {ok : Bool} {out : List UInt8}
    (h : ioportDecrypt k io block tnow serial = .ok (ok, out)) :
    out.length ≤ (ioportReadEncint io).1.toNat := by
  have hlength := decryptLoop_length_le h
  have hsub : (readEncintLoop io.unread 0).1 - 0 = (readEncintLoop io.unread 0).1 :=
    BitVec.sub_zero _
  dsimp only at hlength
  rwa [hsub, List.length_nil, Nat.zero_add] at hlength

end First

/-! ### Payloads that get lost -/

/-- The rest of the block that is encrypted to zeros. -/
def vanishing : List UInt8 := [139, 9, 203, 147, 75, 30, 1, 35]

theorem vanishing_encrypted :
    aes256EncryptEcb (plainKey 1) (be32 0x7bd3fb90 ++ be32 0x65569f39 ++ vanishing) =
      List.replicate 16 0 := by
  decide +kernel

def longPayload (n : Nat) : List UInt8 := vanishing ++ List.replicate (n - 8) 0

/-- No length from 2³⁵ on can be read back, and where none is written one is read all the same. -/
theorem long_lost {n : Nat} (hn : 2 ^ 35 ≤ n) : (longPayload n).length = n ∧
    ¬ CipherRoundTrips (plainKey 1) (longPayload n) (fun _ => 0) 0x65569f39 0x7bd3fb90
      0x7bd3fb90 := by
  have hlength : (longPayload n).length = n := by
    rw [longPayload, List.length_append, List.length_replicate, show vanishing.length = 8 from rfl]
    omega
  refine ⟨hlength, fun h => ?_⟩
  have hback := ioportDecrypt_length_le (h (.reader (ioportEncrypt (plainKey 1) (longPayload n)
    (fun _ => 0) .writer 0x7bd3fb90 0x65569f39).written) [] rfl)
  rw [hlength] at hback
  have hwriter : Ioport.writer = .port [] := rfl
  obtain ⟨-, -, hnone⟩ | ⟨bs, hbs, hgives⟩ := ioportWriteEncint_gives (.ofNat 64 n)
  · have hne : longPayload n ≠ [] := List.append_ne_nil_of_left_ne_nil (by decide) _
    have hfirst : firstBlock (longPayload n) (fun _ => 0) 0x65569f39 0x7bd3fb90 =
        be32 0x7bd3fb90 ++ be32 0x65569f39 ++ vanishing := rfl
    rw [ioportEncrypt, hlength, hwriter, hnone, ioportWrite_port, encryptLoop_first hne, hfirst,
      vanishing_encrypted] at hback
    have hzero (rest : List UInt8) :
      (ioportReadEncint (.reader ([] ++ (List.replicate 16 0 ++ rest)))).1 = 0 := rfl
    rw [port_written, hzero] at hback
    exact absurd (hn.trans hback) (by decide)
  · rw [ioportEncrypt, hlength, hwriter, hbs, ioportWrite_port] at hback
    simp only [ioportReadEncint, Ioport.reader, port_written, List.nil_append, hgives _] at hback
    rw [BitVec.toNat_ofNat] at hback
    omega

/-- 8 bytes are in the first block, and a second one is decrypted all the same. -/
theorem eight_zeros_lost :
    ¬ CipherRoundTrips (plainKey 1) (List.replicate 8 0) (fun _ => 0) 0 0 0 := by
  intro h
  have hlost : ioportDecrypt (plainKey 1) (.reader (ioportEncrypt (plainKey 1)
      (List.replicate 8 0) (fun _ => 0) .writer 0 0).written) [] 0 0 ≠
        .ok (true, List.replicate 8 0) := by
    decide +kernel
  exact hlost (h _ _ rfl)

/-- Between 8 and 16 bytes some of the padding comes back. -/
theorem padding_decrypted {n : Nat} (h8 : 8 < n) (hlt : n < 16) :
    ¬ CipherRoundTrips (plainKey 1) (List.replicate n 0) (fun _ => 1) 0 0 0 := by
  intro h
  have hshort := h.short (by rwa [List.length_replicate]) (by rwa [List.length_replicate])
  have hpad (m : Nat) : randomBytes (fun _ => 1) m = List.replicate m 1 := by
    simp [randomBytes]
  have hone : (1 : UInt8) ∈ List.replicate n 0 := by
    rw [hshort, List.drop_replicate, hpad, List.take_append]
    simp only [List.take_replicate, List.length_replicate]
    exact List.mem_append_right _
      (List.mem_append_right _ (List.mem_replicate.mpr ⟨by omega, rfl⟩))
  exact absurd (List.eq_of_mem_replicate hone) (by decide)

theorem empty_comes_back (k : AesKey) (rand : Nat → UInt8) (serial : BitVec 32) (ts tnow : Nat) :
    CipherRoundTrips k [] rand serial ts tnow := by
  intro io block hio
  have hwritten : (ioportEncrypt k [] rand .writer ts serial).written = [0] := rfl
  rw [hwritten] at hio
  simp [ioportDecrypt, ioportReadEncint, hio, readEncintLoop, decryptLoop]

/-- Within 180 seconds all payloads of a length come back, if and only if it is zero, or a block
at least and less than 2³⁵, as long as the two clocks are in the same era of the time stamps;
across the eras no payload comes back but the empty one. -/
theorem cipher_round_trips_iff (n : Nat) :
    ((∀ (k : AesKey) (payload : List UInt8) (rand : Nat → UInt8) (serial : BitVec 32)
        (ts tnow : Nat), payload.length = n → ts ≤ tnow + 180 → tnow ≤ ts + 180 →
        ts / 2 ^ 32 = tnow / 2 ^ 32 → CipherRoundTrips k payload rand serial ts tnow) ↔
      n = 0 ∨ 16 ≤ n ∧ n < 2 ^ 35) ∧
    (0 < n → n < 2 ^ 35 →
      ∀ (k : AesKey) (payload : List UInt8) (rand : Nat → UInt8) (serial : BitVec 32)
        (ts tnow : Nat), payload.length = n → ts ≤ tnow + 180 → tnow ≤ ts + 180 →
        ts / 2 ^ 32 ≠ tnow / 2 ^ 32 → ¬ CipherRoundTrips k payload rand serial ts tnow) := by
  refine ⟨⟨fun h => ?_, ?_⟩, ?_⟩
  · by_contra hn
    have hzeros : (List.replicate n (0 : UInt8)).length = n := List.length_replicate
    by_cases hlong : 2 ^ 35 ≤ n
    · obtain ⟨hlength, hlost⟩ := long_lost hlong
      exact hlost (h _ _ _ _ _ _ hlength (by omega) (by omega) rfl)
    by_cases h8 : n ≤ 8
    · obtain rfl | hless := Nat.eq_or_lt_of_le h8
      · exact eight_zeros_lost (h _ _ _ _ _ _ hzeros (by omega) (by omega) rfl)
      · have hsome := h (plainKey 1) (List.replicate n 0) (fun _ => 0) 0 0 0 hzeros (by omega)
          (by omega) rfl
        obtain ⟨-, hge, -⟩ := hsome.first (List.length_pos_iff.mp (by omega)) (by omega)
        omega
    · exact padding_decrypted (by omega) (by omega)
        (h _ _ _ _ _ _ hzeros (by omega) (by omega) rfl)
  · rintro (rfl | ⟨hge, hlt⟩) k payload rand serial ts tnow hlength hts htnow hera
    · rw [List.length_eq_zero_iff.mp hlength]
      exact empty_comes_back k rand serial ts tnow
    · intro io block hio
      obtain ⟨bytes, hbytes, hdecrypt⟩ := ioportDecrypt_encrypt (show 16 ≤ payload.length by omega)
        (by omega) k rand serial ts tnow block []
      have hwriter : Ioport.writer = .port [] := rfl
      rw [hwriter, hbytes, port_written, List.nil_append] at hio
      rw [hdecrypt io hio, if_pos ((stampFresh_iff hts htnow).mpr hera)]
  · intro hpos hlt k payload rand serial ts tnow hlength hts htnow hera h
    have hne : payload ≠ [] := List.length_pos_iff.mp (by omega)
    exact hera ((stampFresh_iff hts htnow).mp (h.first hne (by omega)).1)

theorem cipher_round_trips_sixteen :
    CipherRoundTrips (plainKey 1) (List.replicate 16 0) (fun _ => 0) 0 1000 1100 :=
  (cipher_round_trips_iff 16).1.mpr (.inr ⟨by decide, by decide⟩) _ _ _ _ _ _
    List.length_replicate (by decide) (by decide) (by decide)

/-- A single byte is encrypted, and its decryption does not come to an end. -/
theorem one_byte_lost :
    ioportDecrypt (plainKey 1) (.reader (ioportEncrypt (plainKey 1) [0] (fun _ => 0) .writer 0
      0).written) [] 0 0 = .error .endlessLoop ∧
    ¬ CipherRoundTrips (plainKey 1) [0] (fun _ => 0) 0 0 0 := by
  refine ⟨by decide +kernel, fun h => ?_⟩
  obtain ⟨-, hge, -⟩ := h.first (by decide) (by decide)
  exact absurd hge (by decide)

end Opticon
