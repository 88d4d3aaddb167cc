import Mathlib.Data.List.GetD
import Opticon.Crypto.Md5Laws
import Opticon.Crypto.Pwcrypt

/-! A password is accepted by its hash, which also is the salt it is hashed with then. -/

namespace Opticon

variable {pw salt : List UInt8}

/-! ## The hash of a password -/

/-- What is kept of a password, by the salt as far as it is used. -/
def passwordDigest (pw salt : List UInt8) : List UInt8 :=
  let final := messageDigest (pw ++ salt.drop 3 ++ pw)
  let final := messageDigest (pw ++ salt ++ (asManyPieces final pw.length).flatten ++
    (lengthPieces (List.replicate 17 0) pw).flatten)
  (List.range 1000).foldl (fun final i => messageDigest (turnPieces pw (salt.drop 3) final i).flatten)
    final

@[simp] theorem length_messageDigest (msg : List UInt8) : (messageDigest msg).length = 16 := by
  simp [messageDigest, wordBytes]

theorem saltLength_le (salt : List UInt8) : saltLength salt ≤ 11 := by
  have h := (List.takeWhile_sublist (l := (salt.drop 3).take 8) (· != 36)).length_le
  rw [List.length_take] at h
  simp only [saltLength]
  omega

theorem length_asManyPieces {final : List UInt8} {n : ℕ} :
    ∀ piece ∈ asManyPieces final n, piece.length < 2 ^ 32 := by
  intro piece hpiece
  obtain ⟨turn, -, rfl⟩ := List.mem_map.mp hpiece
  rw [List.length_take]
  split <;> omega

theorem length_lengthPieces {final : List UInt8} :
    ∀ piece ∈ lengthPieces final pw, piece.length < 2 ^ 32 := by
  intro piece hpiece
  obtain ⟨odd, -, rfl⟩ := List.mem_map.mp hpiece
  rw [List.length_take]
  omega

theorem length_turnPieces {final : List UInt8} (hpw : pw.length < 2 ^ 32) (hsalt : salt.length < 2 ^ 32)
    (hfinal : final.length < 2 ^ 32) (i : ℕ) :
    ∀ piece ∈ turnPieces pw salt final i, piece.length < 2 ^ 32 := by
  intro piece hpiece
  simp only [turnPieces, List.mem_append, List.mem_singleton] at hpiece
  obtain ((rfl | h) | h) | rfl := hpiece
  · split <;> assumption
  · split at h
    · rwa [List.mem_singleton.mp h]
    · cases h
  · split at h
    · rwa [List.mem_singleton.mp h]
    · cases h
  · split <;> assumption

/-- The turns that take time. -/
theorem turns_eq (hpw : pw.length < 2 ^ 32) (hsalt : salt.length < 2 ^ 32) (turns : List ℕ)
    {ctx1 : Md5Context} (hbuffer : ctx1.buffer.length = 64) {final : List UInt8}
    (hfinal : final.length < 2 ^ 32) :
    (turns.foldl (fun (c : Md5Context × List UInt8) i =>
      md5End ((turnPieces pw salt c.2 i).foldl md5Hash (md5Begin c.1))) (ctx1, final)).2 =
      turns.foldl (fun final i => messageDigest (turnPieces pw salt final i).flatten) final := by
  induction turns generalizing ctx1 final with
  | nil => rfl
  | cons i turns ih =>
    obtain ⟨hbuffer', hdigest⟩ := digest_pieces hbuffer (length_turnPieces hpw hsalt hfinal i)
    rw [List.foldl_cons, List.foldl_cons]
    generalize md5End ((turnPieces pw salt final i).foldl md5Hash (md5Begin ctx1)) = c at hbuffer' hdigest ⊢
    obtain ⟨ctx1', final'⟩ := c
    obtain rfl : final' = messageDigest (turnPieces pw salt final i).flatten := hdigest
    exact ih hbuffer' (by rw [length_messageDigest]; decide)

theorem md5Pwcrypt_eq {ctx ctx1 : Md5Context} (hctx : ctx.buffer.length = 64)
    (hctx1 : ctx1.buffer.length = 64) (hpw : pw.length < 2 ^ 31) (hsalt : 3 ≤ salt.length) :
    md5Pwcrypt ctx ctx1 pw salt = .ok (salt.take (saltLength salt) ++ 36 ::
      digestText (passwordDigest pw (salt.take (saltLength salt)))) := by
  have hsl := saltLength_le salt
  have hpw' : pw.length < 2 ^ 32 := by omega
  have htake : (salt.take (saltLength salt)).length < 2 ^ 32 := by
    rw [List.length_take]
    omega
  have hdrop : ((salt.take (saltLength salt)).drop 3).length < 2 ^ 32 := by
    rw [List.length_drop]
    omega
  have hthree : ∀ piece ∈ [pw, (salt.take (saltLength salt)).drop 3, pw], piece.length < 2 ^ 32 := by
    simp only [List.mem_cons, List.not_mem_nil, or_false]
    rintro piece (rfl | rfl | rfl) <;> assumption
  obtain ⟨hbuffer, hdigest⟩ := digest_pieces hctx1 hthree
  simp only [List.foldl_cons, List.foldl_nil, List.flatten_cons, List.flatten_nil, List.append_nil]
    at hbuffer hdigest
  have hpieces (final : List UInt8) : ∀ piece ∈ [pw, salt.take (saltLength salt)] ++
      asManyPieces final pw.length ++ lengthPieces (List.replicate 17 0) pw, piece.length < 2 ^ 32 := by
    simp only [List.mem_append, List.mem_cons, List.not_mem_nil, or_false]
    rintro piece (((rfl | rfl) | h) | h)
    · exact hpw'
    · exact htake
    · exact length_asManyPieces piece h
    · exact length_lengthPieces piece h
  have hfirst (final : List UInt8) := (digest_pieces hctx (hpieces final)).2
  simp only [List.foldl_append, List.foldl_cons, List.foldl_nil, List.flatten_append,
    List.flatten_cons, List.flatten_nil, List.append_nil] at hfirst
  rw [md5Pwcrypt, if_neg (by omega), passwordDigest]
  simp only
  rw [hdigest, hfirst, turns_eq hpw' hdrop _ hbuffer (by rw [length_messageDigest]; decide)]
  simp only [List.append_assoc, List.singleton_append]

/-! ## The salt in a hash -/

/-- Six bits are looked at. -/
theorem i64c_low (z : BitVec 32) : i64c (BitVec.ofNat 32 (z.toNat % 64)) = i64c z := by
  have hmask : (0x3f : BitVec 32).toNat = 2 ^ 6 - 1 := rfl
  have hsix : BitVec.ofNat 32 (z.toNat % 64) &&& 0x3f = z &&& 0x3f := by
    apply BitVec.eq_of_toNat_eq
    rw [BitVec.toNat_and, BitVec.toNat_and, hmask, Nat.and_two_pow_sub_one_eq_mod,
      Nat.and_two_pow_sub_one_eq_mod, BitVec.toNat_ofNat]
    omega
  rw [i64c, i64c, hsix]

@[simp] theorem length_to64 (n : ℕ) (v : BitVec 32) : (to64 n v).length = n := by
  induction n generalizing v with
  | zero => rfl
  | succ n ih => rw [to64, List.length_cons, ih]

theorem i64c_ne_zero (x : BitVec 32) : i64c x ≠ 0 := by
  have hcodes : ∀ a < 64, i64c (BitVec.ofNat 32 a) ≠ 0 := by decide +kernel
  have hlow := i64c_low x
  exact hlow ▸ hcodes _ (Nat.mod_lt _ (by decide))

theorem nul_to64 (n : ℕ) (v : BitVec 32) : 0 ∉ to64 n v := by
  induction n generalizing v with
  | zero => simp [to64]
  | succ n ih =>
    rw [to64, List.mem_cons, not_or]
    exact ⟨(i64c_ne_zero v).symm, ih _⟩

theorem nul_digestText (final : List UInt8) : 0 ∉ digestText final := by
  rw [digestText, List.mem_append, not_or]
  refine ⟨fun hmem => ?_, nul_to64 _ _⟩
  obtain ⟨i, -, hi⟩ := List.mem_flatMap.mp hmem
  exact nul_to64 _ _ hi

theorem length_digestText (final : List UInt8) : (digestText final).length = 22 := by
  simp only [digestText, List.length_append, List.length_flatMap, length_to64]
  rfl

/-- The hash of a password, as it is stored. -/
def storedHash (pw salt : List UInt8) : List UInt8 :=
  salt.take (saltLength salt) ++ 36 :: digestText (passwordDigest pw (salt.take (saltLength salt)))

end Opticon
