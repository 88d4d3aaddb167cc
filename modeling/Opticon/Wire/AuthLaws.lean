import Opticon.Wire.CipherRoundTrip

/-! Authentication packets: which of them are unwrapped, and to what. -/

namespace Opticon

/-- No more than 180 seconds apart. -/
def Near (ts tnow : Nat) : Prop := ts ≤ tnow + 180 ∧ tnow ≤ ts + 180

instance (ts tnow : Nat) : Decidable (Near ts tnow) := by
  unfold Near
  infer_instance

/-- The packet with another serial in clear text. -/
def withSerial (bytes : List UInt8) (serial : BitVec 32) : List UInt8 :=
  bytes.take 20 ++ be32 serial ++ bytes.drop 24

/-- A packet that was wrapped at `ts` is unwrapped at `tnow` as long as these are near, and
neither later nor with another serial in clear text, whatever the tenant's key is. -/
structure AuthExact (ts tnow : Nat) : Prop where
  accepts : Near ts tnow → ∀ (auth : Authinfo) (tenantkey : AesKey) (pad rand : Nat → UInt8)
    (mem : Leftover) (σ : Type) (resolve : Uuid → BitVec 32 → σ → Option AesKey × σ) (s s' : σ),
    resolve auth.tenantid auth.serial s = (some tenantkey, s') →
      ioportUnwrapAuthdata (ioportWrapAuthdata auth tenantkey pad rand ts) mem tnow resolve s =
        .ok (some auth, s')
  rejectsStale : ¬ Near ts tnow → ∀ (auth : Authinfo) (tenantkey : AesKey)
    (pad rand : Nat → UInt8) (mem : Leftover) (σ : Type)
    (resolve : Uuid → BitVec 32 → σ → Option AesKey × σ) (s s' : σ),
    resolve auth.tenantid auth.serial s = (some tenantkey, s') →
      ioportUnwrapAuthdata (ioportWrapAuthdata auth tenantkey pad rand ts) mem tnow resolve s =
        .ok (none, s')
  rejectsSerial : ∀ (auth : Authinfo) (tenantkey : AesKey) (pad rand : Nat → UInt8)
    (mem : Leftover) (σ : Type) (resolve : Uuid → BitVec 32 → σ → Option AesKey × σ) (s s' : σ)
    (serial : BitVec 32), serial ≠ auth.serial →
    resolve auth.tenantid serial s = (some tenantkey, s') →
      ioportUnwrapAuthdata (withSerial (ioportWrapAuthdata auth tenantkey pad rand ts) serial)
        mem tnow resolve s = .ok (none, s')

/-- What is compared are the low 32 bits of the two times. -/
theorem stampFresh_eq_near (ts tnow : Nat) :
    stampFresh (.ofNat 32 ts) (.ofNat 32 tnow) = decide (Near (ts % 2 ^ 32) (tnow % 2 ^ 32)) := by
  rw [Bool.eq_iff_iff, decide_eq_true_eq, stampFresh_toNat, BitVec.toNat_ofNat,
    BitVec.toNat_ofNat, Near]

section Auth

variable {auth : Authinfo} {tenantkey : AesKey} {pad rand : Nat → UInt8} {mem : Leftover}
  {ts tnow : Nat} {σ : Type} {resolve : Uuid → BitVec 32 → σ → Option AesKey × σ} {s s' : σ}

/-- What is behind the clear text of a packet. -/
theorem ioportWrapAuthdata_parts : ∃ bytes,
    ioportWrapAuthdata auth tenantkey pad rand ts =
      asc "o6a1" ++ (uuidBytes auth.tenantid ++ (be32 auth.serial ++ bytes)) ∧
    bytes = (ioportEncrypt tenantkey (authPayload auth pad) rand .writer ts auth.serial).written := by
  have hlen := authPayload_length auth pad
  obtain ⟨bs, hbs, -⟩ := ioportWriteEncint_written (i := .ofNat 64 (authPayload auth pad).length)
    (by rw [hlen]; decide)
  have hwriter : Ioport.writer = .port [] := rfl
  refine ⟨_, ?_, rfl⟩
  simp only [authPayload, ← List.append_assoc] at hbs
  simp only [ioportWrapAuthdata, authPayload, ← List.append_assoc, ioportEncrypt, hwriter, hbs,
    ioportWrite_port, port_written, List.nil_append]

/-- Data that is refused by decryption is not unwrapped. -/
theorem ioportUnwrapAuthdata_refused {tenantid : Uuid} {serial : BitVec 32} {bytes : List UInt8}
    {out : List UInt8} (hresolve : resolve tenantid serial s = (some tenantkey, s'))
    (hdecrypt : ioportDecrypt tenantkey (.reader bytes) mem.block tnow serial = .ok (false, out)) :
    ioportUnwrapAuthdata (asc "o6a1" ++ (uuidBytes tenantid ++ (be32 serial ++ bytes))) mem tnow
      resolve s = .ok (none, s') := by
  have htype := ioportRead_append (uuidBytes tenantid ++ (be32 serial ++ bytes)) [] 0 0 false
    (asc "o6a1")
  rw [Ioport.reader] at hdecrypt
  rw [ioportUnwrapAuthdata, Ioport.reader, show (4 : Nat) = (asc "o6a1").length from rfl, htype]
  simp only [not_true_eq_false, if_false, ne_eq, ioportReadUuid_uuidBytes, ioportReadU32_be32,
    hresolve, hdecrypt, Outcome.ok_bind, Bool.false_eq_true, not_false_eq_true, if_true,
    Outcome.pure_ok]

/-- A payload is refused with another serial, and with a time stamp that is not fresh. -/
theorem ioportDecrypt_refused {k : AesKey} {payload : List UInt8} {serial pserial : BitVec 32}
    {io : Ioport} {block : List UInt8} (hne : payload ≠ []) (hlt : payload.length < 2 ^ 35)
    (hio : io.unread = (ioportEncrypt k payload rand .writer ts serial).written)
    (h : serial ≠ pserial ∨ stampFresh (.ofNat 32 ts) (.ofNat 32 tnow) = false) :
    ioportDecrypt k io block tnow pserial = .ok (false, []) := by
  obtain ⟨rd, hrd, hrun⟩ := @decrypt_started k payload rand serial pserial ts tnow io block hne hlt hio
  obtain ⟨hlong, hblock⟩ := firstBlock_read hrd
  have hleft : (BitVec.ofNat 64 payload.length) ≠ 0 := ofNat_length_ne_zero hne hlt
  have hfails : headerPasses (.ofNat 32 tnow) pserial (firstBlock payload rand serial ts) = false := by
    rw [headerPasses_firstBlock, Bool.and_eq_false_iff, decide_eq_false_iff_not]
    exact h
  rw [hrun, decryptLoop_succ, start_left, if_neg hleft]
  obtain ⟨-, hround⟩ | ⟨hpass, -⟩ := decryptRound_start k (.ofNat 64 payload.length)
    (.ofNat 32 tnow) pserial block hlong
  · rw [hround]
    rfl
  · rw [hblock, hfails] at hpass
    cases hpass

theorem authPayload_ne_nil : authPayload auth pad ≠ [] := by
  intro h
  have hlen := authPayload_length auth pad
  rw [h] at hlen
  cases hlen

theorem ioportUnwrapAuthdata_stale
    (hresolve : resolve auth.tenantid auth.serial s = (some tenantkey, s'))
    (hstale : stampFresh (.ofNat 32 ts) (.ofNat 32 tnow) = false) :
    ioportUnwrapAuthdata (ioportWrapAuthdata auth tenantkey pad rand ts) mem tnow resolve s =
      .ok (none, s') := by
  obtain ⟨bytes, hwrap, hbytes⟩ := @ioportWrapAuthdata_parts auth tenantkey pad rand ts
  rw [hwrap]
  exact ioportUnwrapAuthdata_refused hresolve (ioportDecrypt_refused authPayload_ne_nil
    (by rw [authPayload_length]; decide) hbytes (.inr hstale))

/-- The serial in the first block is another one than that in clear text. -/
theorem ioportUnwrapAuthdata_withSerial {serial : BitVec 32} (hserial : serial ≠ auth.serial)
    (hresolve : resolve auth.tenantid serial s = (some tenantkey, s')) :
    ioportUnwrapAuthdata (withSerial (ioportWrapAuthdata auth tenantkey pad rand ts) serial) mem
      tnow resolve s = .ok (none, s') := by
  obtain ⟨bytes, hwrap, hbytes⟩ := @ioportWrapAuthdata_parts auth tenantkey pad rand ts
  have hpacket : withSerial (ioportWrapAuthdata auth tenantkey pad rand ts) serial =
      asc "o6a1" ++ (uuidBytes auth.tenantid ++ (be32 serial ++ bytes)) := by
    rw [hwrap]
    rfl
  rw [hpacket]
  exact ioportUnwrapAuthdata_refused hresolve (ioportDecrypt_refused authPayload_ne_nil
    (by rw [authPayload_length]; decide) hbytes (.inl hserial.symm))

end Auth

def plainAuth : Authinfo := ⟨7, 100, ⟨1, 2⟩, ⟨3, 4⟩, plainKey 2⟩

/-- Every tenant has this key. -/
def resolveAll (_tenantid : Uuid) (_serial : BitVec 32) (s : Unit) : Option AesKey × Unit :=
  (some (plainKey 1), s)

/-- At two points in time authentication packets are taken and refused as they should be, if and
only if those are near in the low 32 bits just when they are near. -/
theorem authExact_iff (ts tnow : Nat) :
    AuthExact ts tnow ↔ (Near ts tnow ↔ Near (ts % 2 ^ 32) (tnow % 2 ^ 32)) := by
  have hstamp := stampFresh_eq_near ts tnow
  constructor
  · intro h
    have hresolve : resolveAll plainAuth.tenantid plainAuth.serial () = (some (plainKey 1), ()) := rfl
    constructor
    · intro hnear
      by_contra hfar
      have haccept := h.accepts hnear plainAuth (plainKey 1) (fun _ => 0) (fun _ => 0) ⟨[], [], []⟩
        Unit resolveAll () () hresolve
      rw [ioportUnwrapAuthdata_stale hresolve (by rw [hstamp, decide_eq_false hfar])] at haccept
      cases haccept
    · intro hlow
      by_contra hfar
      have hreject := h.rejectsStale hfar plainAuth (plainKey 1) (fun _ => 0) (fun _ => 0)
        ⟨[], [], []⟩ Unit resolveAll () () hresolve
      rw [ioportUnwrapAuthdata_wrap hresolve (by rw [hstamp, decide_eq_true hlow])] at hreject
      cases hreject
  · intro h
    refine ⟨fun hnear => ?_, fun hfar => ?_, ?_⟩
    · intro auth tenantkey pad rand mem σ resolve s s' hresolve
      exact ioportUnwrapAuthdata_wrap hresolve (by rw [hstamp, decide_eq_true (h.mp hnear)])
    · intro auth tenantkey pad rand mem σ resolve s s' hresolve
      exact ioportUnwrapAuthdata_stale hresolve
        (by rw [hstamp, decide_eq_false fun hlow => hfar (h.mpr hlow)])
    · intro auth tenantkey pad rand mem σ resolve s s' serial hserial hresolve
      exact ioportUnwrapAuthdata_withSerial hserial hresolve

/-- An authentication packet that is 2³² seconds old is taken. -/
theorem era_old_auth_taken : ¬ Near 0 0x100000000 ∧
    ioportUnwrapAuthdata (ioportWrapAuthdata plainAuth (plainKey 1) (fun _ => 0) (fun _ => 0) 0)
      ⟨[], [], []⟩ 0x100000000 resolveAll () = .ok (some plainAuth, ()) ∧
    ¬ AuthExact 0 0x100000000 := by
  have hfar : ¬ Near 0 0x100000000 := by decide
  have htaken : ioportUnwrapAuthdata
      (ioportWrapAuthdata plainAuth (plainKey 1) (fun _ => 0) (fun _ => 0) 0)
      ⟨[], [], []⟩ 0x100000000 resolveAll () = .ok (some plainAuth, ()) :=
    ioportUnwrapAuthdata_wrap rfl (by decide)
  refine ⟨hfar, htaken, fun h => ?_⟩
  have hreject := h.rejectsStale hfar plainAuth (plainKey 1) (fun _ => 0) (fun _ => 0)
    ⟨[], [], []⟩ Unit resolveAll () () rfl
  rw [htaken] at hreject
  cases hreject

end Opticon
