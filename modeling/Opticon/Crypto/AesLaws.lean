import Mathlib.Logic.Function.Iterate
import Opticon.Crypto.Aes

/-! The block functions are inverse to each other. -/

namespace Opticon

theorem xor_cancel (a b : UInt8) : a ^^^ (a ^^^ b) = b := by
  rw [← UInt8.xor_assoc, UInt8.xor_self, UInt8.zero_xor]

theorem xor_left_comm (a b c : UInt8) : a ^^^ (b ^^^ c) = b ^^^ (a ^^^ c) := by
  rw [← UInt8.xor_assoc, UInt8.xor_comm a b, UInt8.xor_assoc]

theorem forall_uint8 {p : UInt8 → Bool} (h : (List.range 256).all fun n => p (UInt8.ofNat n)) (x : UInt8) :
    p x := by
  have hx := List.all_eq_true.mp h x.toNat (List.mem_range.mpr x.toNat_lt)
  simpa using hx

theorem rjSboxInv_rjSbox (x : UInt8) : rjSboxInv (rjSbox x) = x := by
  have h := forall_uint8 (p := fun x => rjSboxInv (rjSbox x) == x) (by decide +kernel) x
  simpa using h

theorem rconPrev_rconNext (x : UInt8) : rconPrev (rconNext x) = x := by
  have h := forall_uint8 (p := fun x => rconPrev (rconNext x) == x) (by decide +kernel) x
  simpa using h

/-- Multiplication in the field: a shift, and a constant for the bit that is shifted out. -/
theorem rjXtime_eq (x : UInt8) :
    rjXtime x = x <<< 1 ^^^ (bif x.toBitVec.getLsbD 7 then 0x1b else 0) := by
  have h := forall_uint8 (p := fun x =>
    rjXtime x == (x <<< 1 ^^^ (bif x.toBitVec.getLsbD 7 then 0x1b else 0))) (by decide +kernel) x
  simpa using h

theorem rjXtime_xor (a b : UInt8) : rjXtime (a ^^^ b) = rjXtime a ^^^ rjXtime b := by
  have hshift : (a ^^^ b) <<< 1 = a <<< 1 ^^^ b <<< 1 := by
    apply UInt8.toBitVec_inj.mp
    simp [BitVec.shiftLeft_xor_distrib]
  rw [rjXtime_eq, rjXtime_eq, rjXtime_eq, hshift, UInt8.toBitVec_xor, BitVec.getLsbD_xor]
  cases a.toBitVec.getLsbD 7 <;> cases b.toBitVec.getLsbD 7 <;>
    simp [UInt8.xor_assoc, UInt8.xor_comm, xor_left_comm]

/-- What two bytes of a column have in common cancels out. -/
theorem xor_shared (p q r t e : UInt8) :
    (p ^^^ (e ^^^ q)) ^^^ (r ^^^ (e ^^^ t)) = (p ^^^ r) ^^^ (q ^^^ t) := by
  simp only [UInt8.xor_assoc, xor_left_comm, xor_cancel]

theorem xor_undo (p q r e : UInt8) :
    (p ^^^ (e ^^^ q)) ^^^ ((e ^^^ r) ^^^ (q ^^^ r)) = p := by
  simp only [UInt8.xor_comm, xor_left_comm, xor_cancel, UInt8.xor_self, UInt8.xor_zero]

theorem xor_around (a b c : UInt8) : (a ^^^ b) ^^^ (b ^^^ c) = a ^^^ c := by
  simp only [UInt8.xor_assoc, xor_cancel]

/-- One byte of a column, mixed and mixed back; `b` is the byte behind it, `c` the one opposite. -/
theorem mix_byte (a b c e : UInt8) :
    (a ^^^ (e ^^^ rjXtime (a ^^^ b))) ^^^
      ((e ^^^ rjXtime (rjXtime (a ^^^ c))) ^^^ rjXtime ((a ^^^ b) ^^^ rjXtime (a ^^^ c))) = a := by
  rw [rjXtime_xor (a ^^^ b)]
  exact xor_undo _ _ _ _

theorem mixColumn_inv (a b c d : UInt8) (rest : List UInt8) :
    aesMixColumnsInv (aesMixColumns (a :: b :: c :: d :: rest)) =
      a :: b :: c :: d :: aesMixColumnsInv (aesMixColumns rest) := by
  simp only [aesMixColumns, aesMixColumnsInv]
  generalize he : a ^^^ b ^^^ c ^^^ d = e
  -- sums of opposite and of neighbouring bytes of the mixed column
  have hac : (a ^^^ (e ^^^ rjXtime (a ^^^ b))) ^^^ (c ^^^ (e ^^^ rjXtime (c ^^^ d))) =
      (a ^^^ c) ^^^ rjXtime e := by
    rw [xor_shared, ← rjXtime_xor, ← he]
    simp only [UInt8.xor_assoc]
  have hbd : (b ^^^ (e ^^^ rjXtime (b ^^^ c))) ^^^ (d ^^^ (e ^^^ rjXtime (d ^^^ a))) =
      (b ^^^ d) ^^^ rjXtime e := by
    rw [xor_shared, ← rjXtime_xor, ← he]
    simp only [UInt8.xor_assoc, UInt8.xor_comm, xor_left_comm]
  have hne (p q r : UInt8) :
      (p ^^^ (e ^^^ rjXtime (p ^^^ q))) ^^^ (q ^^^ (e ^^^ rjXtime (q ^^^ r))) =
        (p ^^^ q) ^^^ rjXtime (p ^^^ r) := by
    rw [xor_shared, ← rjXtime_xor, xor_around]
  have hab := hne a b c
  have hbc := hne b c d
  have hcd := hne c d a
  have hda := hne d a b
  generalize ha' : a ^^^ (e ^^^ rjXtime (a ^^^ b)) = a' at *
  generalize hb' : b ^^^ (e ^^^ rjXtime (b ^^^ c)) = b' at *
  generalize hc' : c ^^^ (e ^^^ rjXtime (c ^^^ d)) = c' at *
  generalize hd' : d ^^^ (e ^^^ rjXtime (d ^^^ a)) = d' at *
  have he' : a' ^^^ b' ^^^ c' ^^^ d' = e := by
    calc a' ^^^ b' ^^^ c' ^^^ d' = (a' ^^^ c') ^^^ (b' ^^^ d') := by
          simp only [UInt8.xor_assoc, xor_left_comm]
      _ = (a ^^^ c) ^^^ (b ^^^ d) := by
          rw [hac, hbd]
          simp only [UInt8.xor_assoc, UInt8.xor_comm, xor_left_comm, UInt8.xor_self,
            UInt8.xor_zero]
      _ = e := by
          rw [← he]
          simp only [UInt8.xor_assoc, xor_left_comm]
  have hx : rjXtime e ^^^ a' ^^^ c' = a ^^^ c := by
    rw [UInt8.xor_assoc, hac, xor_left_comm, UInt8.xor_self, UInt8.xor_zero]
  have hy : rjXtime e ^^^ b' ^^^ d' = b ^^^ d := by
    rw [UInt8.xor_assoc, hbd, xor_left_comm, UInt8.xor_self, UInt8.xor_zero]
  rw [he', hx, hy, hab, hbc, hcd, hda, ← ha', ← hb', ← hc', ← hd', mix_byte a b c, mix_byte b c d,
    UInt8.xor_comm a c, mix_byte c d a, UInt8.xor_comm b d, mix_byte d a b]

theorem aesMixColumnsInv_aesMixColumns (buf : List UInt8) :
    aesMixColumnsInv (aesMixColumns buf) = buf := by
  fun_induction aesMixColumns buf with
  | case1 a b c d rest _ ih =>
    have h := mixColumn_inv a b c d rest
    rw [aesMixColumns] at h
    rw [h, ih]
  | case2 rest h =>
    rw [aesMixColumnsInv.eq_def]
    split
    · exact absurd rfl (h _ _ _ _ _)
    · rfl

theorem aesShiftRowsInv_aesShiftRows {buf : List UInt8} (h : buf.length = 16) :
    aesShiftRowsInv (aesShiftRows buf) = buf := by
  have hrange : aesShiftRowsInv (aesShiftRows buf) = (List.range 16).map (buf.getD · 0) := rfl
  rw [hrange]
  apply List.ext_getElem (by simp [h])
  intro n hn hbuf
  simp [hbuf]

theorem aesSubBytesInv_aesSubBytes (buf : List UInt8) : aesSubBytesInv (aesSubBytes buf) = buf := by
  have hid : rjSboxInv ∘ rjSbox = id := funext rjSboxInv_rjSbox
  rw [aesSubBytes, aesSubBytesInv, List.map_map, hid, List.map_id]

theorem aesAddRoundKey_twice {buf key : List UInt8} (h : buf.length ≤ key.length) :
    aesAddRoundKey (aesAddRoundKey buf key) key = buf := by
  apply List.ext_getElem
  · simp only [aesAddRoundKey, List.length_zipWith]
    omega
  · intro n hn hbuf
    simp only [aesAddRoundKey, List.getElem_zipWith, UInt8.xor_assoc, UInt8.xor_self, UInt8.xor_zero]

@[simp] theorem aesSubBytes_length (buf : List UInt8) : (aesSubBytes buf).length = buf.length := by
  simp [aesSubBytes]

@[simp] theorem aesShiftRows_length (buf : List UInt8) : (aesShiftRows buf).length = 16 := rfl

@[simp] theorem aesMixColumns_length (buf : List UInt8) :
    (aesMixColumns buf).length = buf.length := by
  fun_induction aesMixColumns buf with
  | case1 a b c d rest e ih => simp [ih]
  | case2 => rfl

@[simp] theorem aesAddRoundKey_length {buf key : List UInt8} (h : buf.length ≤ key.length) :
    (aesAddRoundKey buf key).length = buf.length := by
  simp only [aesAddRoundKey, List.length_zipWith]
  omega

/-! ### The key schedule -/

section Words

variable {a b c w : List UInt8}

theorem keyWord_append (hb : b.length = 4) : keyWord (a ++ (b ++ c)) a.length = b := by
  simp [keyWord, ← hb]

theorem xorWord_append (hb : b.length = 4) :
    xorWord (a ++ (b ++ c)) a.length w = a ++ (List.zipWith (· ^^^ ·) b w ++ c) := by
  have hdrop : (a ++ (b ++ c)).drop (a.length + 4) = c := by
    rw [← hb, ← List.append_assoc, ← List.length_append, List.drop_left]
  rw [xorWord, keyWord_append hb, List.take_left, hdrop]

/-- A word of the schedule, and what is around it. -/
theorem exists_word {k : List UInt8} {i : Nat} (h : i + 4 ≤ k.length) :
    ∃ a b c : List UInt8, a.length = i ∧ b.length = 4 ∧ k = a ++ (b ++ c) := by
  refine ⟨k.take i, (k.drop i).take 4, (k.drop i).drop 4, ?_, ?_, ?_⟩
  · simp only [List.length_take]
    omega
  · simp only [List.length_take, List.length_drop]
    omega
  · rw [List.take_append_drop, List.take_append_drop]

@[simp] theorem xorWord_length {k : List UInt8} {i : Nat} (h : i + 4 ≤ k.length)
    (hw : w.length = 4) : (xorWord k i w).length = k.length := by
  obtain ⟨a, b, c, rfl, hb, rfl⟩ := exists_word h
  simp [xorWord_append hb, hb, hw]

theorem keyWord_length {k : List UInt8} {i : Nat} (h : i + 4 ≤ k.length) :
    (keyWord k i).length = 4 := by
  simp only [keyWord, List.length_take, List.length_drop]
  omega

theorem xorWord_twice {k : List UInt8} {i : Nat} (h : i + 4 ≤ k.length) (hw : w.length = 4) :
    xorWord (xorWord k i w) i w = k := by
  obtain ⟨a, b, c, rfl, hb, rfl⟩ := exists_word h
  have hlength : (List.zipWith (· ^^^ ·) b w).length = 4 := by simp [hb, hw]
  rw [xorWord_append hb, xorWord_append hlength]
  have hkey := @aesAddRoundKey_twice b w (by omega)
  rw [aesAddRoundKey, aesAddRoundKey] at hkey
  rw [hkey]

theorem keyWord_xorWord {k : List UInt8} {i j : Nat} (hij : i + 4 ≤ j) (hj : j ≤ k.length) :
    keyWord (xorWord k j w) i = keyWord k i := by
  have htake : (k.take j).length = j := by simp [hj]
  rw [xorWord, keyWord, List.drop_append_of_le_length (by omega), List.take_append_of_le_length
    (by simp only [List.length_drop]; omega), List.drop_take, List.take_take, keyWord]
  congr 1
  omega

/-- A word is taken into the one after it, and the core into the first. -/
def nextWord (f : UInt8 → UInt8) (i : Nat) (k : List UInt8) : List UInt8 :=
  xorWord k (i + 4) ((keyWord k i).map f)

def firstWord (rc : UInt8) (k : List UInt8) : List UInt8 := xorWord k 0 (keyCore k rc)

theorem aesExpandEncKey_eq (k : List UInt8) (rc : UInt8) :
    aesExpandEncKey k rc =
      (nextWord id 24 (nextWord id 20 (nextWord id 16 (nextWord rjSbox 12 (nextWord id 8
        (nextWord id 4 (nextWord id 0 (firstWord rc k))))))), rconNext rc) := by
  simp only [aesExpandEncKey, nextWord, firstWord, List.map_id]

theorem aesExpandDecKey_eq (k : List UInt8) (rc : UInt8) :
    aesExpandDecKey k rc =
      (firstWord (rconPrev rc) (nextWord id 0 (nextWord id 4 (nextWord id 8 (nextWord rjSbox 12
        (nextWord id 16 (nextWord id 20 (nextWord id 24 k))))))), rconPrev rc) := by
  simp only [aesExpandDecKey, nextWord, firstWord, List.map_id]

variable {k : List UInt8}

theorem nextWord_length (f : UInt8 → UInt8) (i : Nat) (hi : i + 8 ≤ 32) (h : k.length = 32) :
    (nextWord f i k).length = 32 := by
  rw [nextWord, xorWord_length (by omega) (by rw [List.length_map, keyWord_length (by omega)]), h]

theorem nextWord_twice (f : UInt8 → UInt8) (i : Nat) (hi : i + 8 ≤ 32) (h : k.length = 32) :
    nextWord f i (nextWord f i k) = k := by
  rw [nextWord, nextWord, keyWord_xorWord (by omega) (by omega)]
  exact xorWord_twice (by omega) (by rw [List.length_map, keyWord_length (by omega)])

theorem keyCore_xorWord (h : k.length = 32) (hw : w.length = 4) (rc : UInt8) :
    keyCore (xorWord k 0 w) rc = keyCore k rc := by
  have hget (n : Nat) (hn : 4 ≤ n) : (xorWord k 0 w).getD n 0 = k.getD n 0 := by
    have hlength : (List.zipWith (· ^^^ ·) (keyWord k 0) w).length = 4 := by
      rw [List.length_zipWith, keyWord_length (by omega), hw]
      rfl
    rw [xorWord, List.take_zero, List.nil_append, List.getD_eq_getElem?_getD,
      List.getElem?_append_right (by omega), hlength, List.getElem?_drop, List.getD_eq_getElem?_getD]
    congr 2
    omega
  simp only [keyCore, hget 28 (by omega), hget 29 (by omega), hget 30 (by omega), hget 31 (by omega)]

theorem firstWord_length (rc : UInt8) (h : k.length = 32) : (firstWord rc k).length = 32 :=
  (xorWord_length (by omega) rfl).trans h

theorem firstWord_twice (rc : UInt8) (h : k.length = 32) : firstWord rc (firstWord rc k) = k := by
  rw [firstWord, firstWord, keyCore_xorWord h rfl]
  exact xorWord_twice (by omega) rfl

end Words

/-- One step of the schedule, on the key and the round constant. -/
def keyStep (s : List UInt8 × UInt8) : List UInt8 × UInt8 := aesExpandEncKey s.1 s.2

section Step

variable {s : List UInt8 × UInt8} (h : s.1.length = 32)
include h

theorem keyStep_length : (keyStep s).1.length = 32 := by
  rw [keyStep, aesExpandEncKey_eq]
  apply nextWord_length id 24 (by decide)
  apply nextWord_length id 20 (by decide)
  apply nextWord_length id 16 (by decide)
  apply nextWord_length rjSbox 12 (by decide)
  apply nextWord_length id 8 (by decide)
  apply nextWord_length id 4 (by decide)
  apply nextWord_length id 0 (by decide)
  exact firstWord_length s.2 h

theorem aesExpandDecKey_keyStep : aesExpandDecKey (keyStep s).1 (keyStep s).2 = s := by
  have h0 := firstWord_length s.2 h
  have h1 := nextWord_length id 0 (by decide) h0
  have h2 := nextWord_length id 4 (by decide) h1
  have h3 := nextWord_length id 8 (by decide) h2
  have h4 := nextWord_length rjSbox 12 (by decide) h3
  have h5 := nextWord_length id 16 (by decide) h4
  have h6 := nextWord_length id 20 (by decide) h5
  rw [keyStep, aesExpandEncKey_eq, aesExpandDecKey_eq, nextWord_twice id 24 (by decide) h6,
    nextWord_twice id 20 (by decide) h5, nextWord_twice id 16 (by decide) h4,
    nextWord_twice rjSbox 12 (by decide) h3, nextWord_twice id 8 (by decide) h2,
    nextWord_twice id 4 (by decide) h1, nextWord_twice id 0 (by decide) h0, rconPrev_rconNext,
    firstWord_twice s.2 h]

end Step

theorem aesSchedule_eq (n : Nat) (s : List UInt8 × UInt8) :
    aesSchedule n s.1 s.2 = (keyStep^[n] s).1 := by
  induction n generalizing s with
  | zero => rfl
  | succ n ih => exact ih (keyStep s)

/-! ### The rounds -/

section Rounds

variable (key : AesKey)

/-- Key and round constant after `n` steps. -/
def keyState (n : Nat) : List UInt8 × UInt8 := keyStep^[n] (key.data, 1)

def roundKey (i : Nat) : List UInt8 :=
  if i % 2 = 1 then (keyState key (i / 2)).1.drop 16 else (keyState key (i / 2)).1

/-- The block after `n` rounds. -/
def encrypted (buf : List UInt8) : Nat → List UInt8
  | 0 => buf
  | n + 1 =>
    aesAddRoundKey (aesMixColumns (aesShiftRows (aesSubBytes (encrypted buf n)))) (roundKey key (n + 1))

variable {key}

theorem keyState_succ (n : Nat) : keyState key (n + 1) = keyStep (keyState key n) :=
  Function.iterate_succ_apply' _ _ _

@[simp] theorem keyState_length (n : Nat) : (keyState key n).1.length = 32 := by
  induction n with
  | zero => exact key.length_eq
  | succ n ih => rw [keyState_succ, keyStep_length ih]

theorem roundKey_length (i : Nat) : 16 ≤ (roundKey key i).length := by
  rw [roundKey]
  split <;> simp

theorem encrypted_length {buf : List UInt8} (h : buf.length = 16) (n : Nat) :
    (encrypted key buf n).length = 16 := by
  cases n with
  | zero => exact h
  | succ n =>
    have hlength := @roundKey_length key (n + 1)
    rw [encrypted, aesAddRoundKey_length (by simpa using hlength)]
    simp

theorem encryptRounds_eq (buf : List UInt8) (n i : Nat) :
    encryptRounds n (i + 1) (encrypted key buf i) (keyState key (i / 2)).1 (keyState key (i / 2)).2 =
      (encrypted key buf (i + n), keyState key ((i + n) / 2)) := by
  induction n generalizing i with
  | zero => simp [encryptRounds]
  | succ n ih =>
    specialize ih (i + 1)
    rw [encrypted, roundKey, Nat.add_assoc i 1 n, Nat.add_comm 1 n] at ih
    rw [encryptRounds]
    split
    case isTrue hodd =>
      rw [if_pos hodd, show (i + 1) / 2 = i / 2 by omega] at ih
      exact ih
    case isFalse heven =>
      rw [if_neg heven, show (i + 1) / 2 = i / 2 + 1 by omega, keyState_succ] at ih
      exact ih

/-- Going back through the rounds, with the key of the round that was last. -/
theorem decryptRounds_encrypted {buf : List UInt8} (h : buf.length = 16) (n : Nat) :
    decryptRounds n (encrypted key buf n) (keyState key ((n + 1) / 2)).1
      (keyState key ((n + 1) / 2)).2 = (buf, key.data) := by
  induction n with
  | zero => rfl
  | succ n ih =>
    have hundo : aesSubBytesInv (aesShiftRowsInv (aesMixColumnsInv
        (aesAddRoundKey (encrypted key buf (n + 1)) (roundKey key (n + 1))))) =
        encrypted key buf n := by
      have hlength := @roundKey_length key (n + 1)
      rw [encrypted, aesAddRoundKey_twice (by simpa using hlength), aesMixColumnsInv_aesMixColumns,
        aesShiftRowsInv_aesShiftRows (by simp [encrypted_length h]), aesSubBytesInv_aesSubBytes]
    rw [roundKey] at hundo
    rw [decryptRounds]
    split
    case isTrue hodd =>
      rw [if_pos hodd, show (n + 1) / 2 = n / 2 by omega] at hundo
      rw [show (n + 1 + 1) / 2 = n / 2 + 1 by omega, keyState_succ,
        aesExpandDecKey_keyStep (keyState_length _)]
      rw [show (n + 1) / 2 = n / 2 by omega] at ih
      simp only [hundo]
      exact ih
    case isFalse heven =>
      rw [if_neg heven] at hundo
      rw [show (n + 1 + 1) / 2 = (n + 1) / 2 by omega]
      simp only [hundo]
      exact ih

theorem keyState_rcon (n : Nat) : (keyState key n).2 = rconNext^[n] 1 := by
  induction n with
  | zero => rfl
  | succ n ih =>
    rw [keyState_succ, Function.iterate_succ_apply', ← ih]
    rfl

theorem aes256Deckey_eq : aes256Deckey key = (keyState key 7).1 := aesSchedule_eq 7 (key.data, 1)

theorem aes256EncryptEcb_eq (buf : List UInt8) :
    aes256EncryptEcb key buf = aesAddRoundKey (aesShiftRows (aesSubBytes
      (encrypted key (aesAddRoundKey buf key.data) 13))) (keyState key 7).1 := by
  have hrounds : encryptRounds 13 1 (aesAddRoundKey buf key.data) key.data 1 =
      (encrypted key (aesAddRoundKey buf key.data) 13, keyState key 6) :=
    encryptRounds_eq _ 13 0
  rw [aes256EncryptEcb, hrounds, keyState_succ]
  rfl

theorem aes256EncryptEcb_length (buf : List UInt8) : (aes256EncryptEcb key buf).length = 16 := by
  rw [aes256EncryptEcb_eq, aesAddRoundKey_length (by simp), aesShiftRows_length]

/-- A block that was encrypted is decrypted to what it was. -/
theorem aes256DecryptEcb_encryptEcb {buf : List UInt8} (h : buf.length = 16) :
    aes256DecryptEcb key (aes256EncryptEcb key buf) = buf := by
  have hkey : buf.length ≤ key.data.length := by
    rw [h, key.length_eq]
    decide
  have hlength : (aesAddRoundKey buf key.data).length = 16 := by
    rw [aesAddRoundKey_length hkey, h]
  have hrounds := @decryptRounds_encrypted key _ hlength 13
  rw [keyState_rcon, show rconNext^[(13 + 1) / 2] 1 = 0x80 from rfl] at hrounds
  rw [aes256DecryptEcb, aes256EncryptEcb_eq, aes256Deckey_eq, aesAddRoundKey_twice (by simp)]
  simp only [aesShiftRowsInv_aesShiftRows, aesSubBytesInv_aesSubBytes, aesSubBytes_length,
    encrypted_length hlength, hrounds]
  exact aesAddRoundKey_twice hkey

end Rounds

end Opticon
