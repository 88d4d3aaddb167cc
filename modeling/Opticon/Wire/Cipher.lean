import Opticon.Wire.PktwrapLaws

/-! How long decryption goes on. -/

namespace Opticon

section Rounds

variable (k : AesKey) (sz : BitVec 64) (uts serial : BitVec 32)

/-- The block that a round decrypts: the one that is read, or else the one before. -/
def roundBlock (s : DecryptState) : List UInt8 :=
  aes256DecryptEcb k (if (ioportRead s.io 16).1 then (ioportRead s.io 16).2.1 else s.buf)

/-- The first block is for this packet, and it is fresh. -/
def headerPasses (buf : List UInt8) : Bool :=
  be32toh ((buf.drop 4).take 4) = serial && stampFresh (be32toh (buf.take 4)) uts

/-- One round of the loop of `ioport_decrypt`: it refuses the data, or goes on. -/
def decryptRound (s : DecryptState) : Except Fault (Option DecryptState) :=
  let left := sz - s.done
  let left := if 16 < left then 16 else left
  if s.absorb_ts then
    if ¬ headerPasses uts serial (roundBlock k s) then .ok none
    else if left < 8 then .error .endlessLoop
    else .ok (some
      { io := (ioportRead s.io 16).2.2
        buf := roundBlock k s
        done := s.done + (left - 8)
        absorb_ts := false
        out := s.out ++ ((roundBlock k s).drop 8).take (left - 8).toNat })
  else .ok (some
    { s with
      io := (ioportRead s.io 16).2.2
      buf := roundBlock k s
      done := s.done + left
      out := s.out ++ (roundBlock k s).take left.toNat })

theorem decryptLoop_succ (n : Nat) (s : DecryptState) :
    decryptLoop k sz uts serial (n + 1) s =
      if sz - s.done = 0 then .ok (true, s.out)
      else match decryptRound k sz uts serial s with
        | .error e => .error e
        | .ok none => .ok (false, s.out)
        | .ok (some s') => decryptLoop k sz uts serial n s' := by
  have hfresh (pts : BitVec 32) :
      (180 < if pts < uts then uts - pts else pts - uts) ↔ ¬ stampFresh pts uts := by
    rw [stampFresh, decide_eq_true_eq, BitVec.not_le]
  by_cases hleft : sz - s.done = 0
  · rw [decryptLoop, if_pos hleft, if_pos hleft]
  rw [decryptLoop, if_neg hleft, if_neg hleft]
  have hblock : aes256DecryptEcb k
    (if (ioportRead s.io 16).1 then (ioportRead s.io 16).2.1 else s.buf) = roundBlock k s := rfl
  simp only [decryptRound, hfresh, hblock]
  by_cases habsorb : s.absorb_ts = true
  · simp only [if_pos habsorb]
    by_cases hserial : be32toh (((roundBlock k s).drop 4).take 4) = serial
    · by_cases hstale : stampFresh (be32toh ((roundBlock k s).take 4)) uts = true
      · have hpass : headerPasses uts serial (roundBlock k s) = true := by
          rw [headerPasses, hstale, decide_eq_true hserial, Bool.and_self]
        simp only [hserial, hstale, hpass, ne_eq, not_true_eq_false, if_false]
        by_cases hshort : (if 16 < sz - s.done then 16 else sz - s.done) < 8
        · simp only [if_pos hshort]
        · simp only [if_neg hshort]
      · have hpass : headerPasses uts serial (roundBlock k s) = false := by simp [headerPasses, hstale]
        simp only [hserial, hstale, hpass, ne_eq, not_true_eq_false, if_false,
          Bool.false_eq_true, not_false_eq_true, if_true]
    · have hpass : headerPasses uts serial (roundBlock k s) = false := by simp [headerPasses, hserial]
      simp only [hserial, hpass, ne_eq, not_false_eq_true, if_true, Bool.false_eq_true]
  · simp only [if_neg habsorb]

/-- The rounds that are begun, and the bytes they read. -/
def decryptWork : Nat → DecryptState → Nat × Nat
  | 0, _ => (0, 0)
  | n + 1, s =>
    if sz - s.done = 0 then (0, 0)
    else
      let read := s.io.unread.length - (ioportRead s.io 16).2.2.unread.length
      match decryptRound k sz uts serial s with
      | .ok (some s') => ((decryptWork n s').1 + 1, (decryptWork n s').2 + read)
      | _ => (1, read)

variable {k sz uts serial}

theorem toNat_min_sixteen (left : BitVec 64) :
    (if 16 < left then 16 else left).toNat = min 16 left.toNat := by
  have h16 : (16 : BitVec 64).toNat = 16 := rfl
  split
  · rename_i h
    rw [BitVec.lt_def, h16] at h
    rw [h16]
    omega
  · rename_i h
    rw [BitVec.lt_def, h16] at h
    omega

/-- What a round takes off what is left. -/
theorem toNat_left_sub {s : DecryptState} {b : BitVec 64} (hb : b.toNat ≤ (sz - s.done).toNat) :
    (sz - (s.done + b)).toNat = (sz - s.done).toNat - b.toNat := by
  rw [← BitVec.sub_sub, BitVec.toNat_sub_of_le (BitVec.le_def.mpr hb)]

/-- A round that goes on: the first one takes 8 bytes less than those behind it. -/
theorem decryptRound_some {s s' : DecryptState} (h : decryptRound k sz uts serial s = .ok (some s')) :
    s'.absorb_ts = false ∧ s'.io = (ioportRead s.io 16).2.2 ∧
      (sz - s'.done).toNat = (sz - s.done).toNat -
        (min 16 (sz - s.done).toNat - if s.absorb_ts then 8 else 0) ∧
      s'.out.length ≤ s.out.length + ((sz - s.done).toNat - (sz - s'.done).toNat) := by
  have hleft := toNat_min_sixteen (sz - s.done)
  simp only [decryptRound] at h
  generalize (if 16 < sz - s.done then 16 else sz - s.done) = left at h hleft
  by_cases habsorb : s.absorb_ts = true
  · rw [if_pos habsorb] at h
    split at h
    · cases h
    split at h
    · cases h
    · rename_i hlong
      have hsub : (left - 8).toNat = min 16 (sz - s.done).toNat - 8 := by
        rw [BitVec.toNat_sub_of_le (BitVec.not_lt.mp hlong), hleft]
        rfl
      cases h
      have hdone : (sz - (s.done + (left - 8))).toNat = (sz - s.done).toNat - (left - 8).toNat :=
        toNat_left_sub (by omega)
      refine ⟨rfl, rfl, ?_, ?_⟩
      · rw [hdone, hsub, if_pos habsorb]
      · dsimp only
        rw [hdone, hsub, List.length_append, List.length_take]
        omega
  · rw [if_neg habsorb] at h
    cases h
    have hdone : (sz - (s.done + left)).toNat = (sz - s.done).toNat - left.toNat :=
      toNat_left_sub (by omega)
    refine ⟨by simpa using habsorb, rfl, ?_, ?_⟩
    · rw [hdone, hleft, if_neg habsorb, Nat.sub_zero]
    · dsimp only
      rw [hdone, hleft, List.length_append, List.length_take]
      omega

/-- No more is written than was announced. -/
theorem decryptLoop_length_le {n : Nat} {s : DecryptState} {ok : Bool} {out : List UInt8}
    (h : decryptLoop k sz uts serial n s = .ok (ok, out)) :
    out.length ≤ s.out.length + (sz - s.done).toNat := by
  induction n generalizing s with
  | zero =>
    cases h
    exact Nat.le_add_right _ _
  | succ n ih =>
    rw [decryptLoop_succ] at h
    split at h
    · cases h
      exact Nat.le_add_right _ _
    · split at h
      · cases h
      · cases h
        exact Nat.le_add_right _ _
      · rename_i s' hround
        have hlen := ih h
        obtain ⟨-, -, hleft, hout⟩ := decryptRound_some hround
        omega

/-- Behind the first round nothing ends the loop but that nothing is left. -/
theorem decryptRound_body (k : AesKey) (sz : BitVec 64) (uts serial : BitVec 32)
    {s : DecryptState} (habsorb : s.absorb_ts = false) :
    ∃ s', decryptRound k sz uts serial s = .ok (some s') := by
  simp only [decryptRound, habsorb, Bool.false_eq_true, if_false]
  exact ⟨_, rfl⟩

theorem decryptLoop_body (k : AesKey) (sz : BitVec 64) (uts serial : BitVec 32) (n : Nat)
    {s : DecryptState} (habsorb : s.absorb_ts = false) :
    ∃ out, decryptLoop k sz uts serial n s = .ok (true, out) := by
  induction n generalizing s with
  | zero => exact ⟨s.out, rfl⟩
  | succ n ih =>
    rw [decryptLoop_succ]
    split
    · exact ⟨s.out, rfl⟩
    · obtain ⟨s', hround⟩ := decryptRound_body k sz uts serial habsorb
      rw [hround]
      exact ih (decryptRound_some hround).1

theorem decryptWork_body {n : Nat} {s : DecryptState} (habsorb : s.absorb_ts = false)
    (hn : ((sz - s.done).toNat + 15) / 16 ≤ n) :
    (decryptWork k sz uts serial n s).1 = ((sz - s.done).toNat + 15) / 16 := by
  induction n generalizing s with
  | zero =>
    rw [decryptWork]
    omega
  | succ n ih =>
    rw [decryptWork]
    split
    · rename_i hleft
      rw [hleft]
      rfl
    · rename_i hleft
      have hpos : (sz - s.done).toNat ≠ 0 := fun h => hleft (BitVec.eq_of_toNat_eq h)
      obtain ⟨s', hround⟩ := decryptRound_body k sz uts serial habsorb
      obtain ⟨habsorb', -, hleft', -⟩ := decryptRound_some hround
      rw [habsorb] at hleft'
      simp only [Bool.false_eq_true, if_false, Nat.sub_zero] at hleft'
      rw [hround]
      dsimp only
      rw [ih habsorb' (by omega)]
      omega

theorem decryptWork_pos {n : Nat} {s : DecryptState} (hleft : sz - s.done ≠ 0) :
    1 ≤ (decryptWork k sz uts serial (n + 1) s).1 := by
  rw [decryptWork, if_neg hleft]
  split
  · exact Nat.le_add_left _ _
  · exact le_rfl

/-- As long as there are blocks, a round reads one. -/
theorem decryptWork_read {n : Nat} {s : DecryptState}
    (h : 16 * (decryptWork k sz uts serial n s).1 ≤ s.io.unread.length) :
    (decryptWork k sz uts serial n s).2 = 16 * (decryptWork k sz uts serial n s).1 := by
  induction n generalizing s with
  | zero => rfl
  | succ n ih =>
    rw [decryptWork] at h ⊢
    split
    · rfl
    · rename_i hleft
      rw [if_neg hleft] at h
      have hlong : 16 ≤ s.io.unread.length := by
        split at h <;> dsimp only at h <;> omega
      have hread : (ioportRead s.io 16).2.2.unread.length = s.io.unread.length - 16 := by
        simp [ioportRead, hlong]
      cases hround : decryptRound k sz uts serial s with
      | error e =>
        dsimp only
        omega
      | ok r =>
        cases r with
        | none =>
          dsimp only
          omega
        | some s' =>
          rw [hround] at h
          dsimp only at h ⊢
          have hio := (decryptRound_some hround).2.1
          rw [ih (by rw [hio]; omega), hread]
          omega

end Rounds

/-! ### What bounds the loop -/

/-- The length that is announced, and the port behind it. -/
def announced (bytes : List UInt8) : BitVec 64 := (ioportReadEncint (.reader bytes)).1

def behindLength (bytes : List UInt8) : Ioport := (ioportReadEncint (.reader bytes)).2

/-- The state in which the loop is entered. -/
def decryptStart (io : Ioport) (block : List UInt8) : DecryptState := ⟨io, block, 0, true, []⟩

def decryptWorkOf (k : AesKey) (bytes block : List UInt8) (ts : Nat) (serial : BitVec 32) :
    Nat × Nat :=
  decryptWork k (announced bytes) (.ofNat 32 ts) serial ((announced bytes).toNat / 16 + 3)
    (decryptStart (behindLength bytes) block)

/-- Decryption begins no more rounds than there are blocks behind the announced length, it comes
to an end having written no more bytes than it read, and it refuses data of which there is less
than was announced. -/
structure DecryptBounded (k : AesKey) (bytes block : List UInt8) (ts : Nat) (serial : BitVec 32) :
    Prop where
  rounds : (decryptWorkOf k bytes block ts serial).1 ≤ (behindLength bytes).unread.length / 16
  written : ∃ ok out, ioportDecrypt k (.reader bytes) block ts serial = .ok (ok, out) ∧
    out.length ≤ bytes.length - (behindLength bytes).unread.length +
      (decryptWorkOf k bytes block ts serial).2
  refuses : (behindLength bytes).unread.length < (announced bytes).toNat →
    ∃ out, ioportDecrypt k (.reader bytes) block ts serial = .ok (false, out)

/-- The blocks of a payload with a header of 8 bytes; for less than a block, the loop takes two
all the same. -/
def blocksNeeded (n : Nat) : Nat := if n < 16 then 2 else (n + 23) / 16

/-- Nothing is announced, or there is a block and it is refused, or the announced length is that
of the header at least and its blocks are all there. -/
def LengthSound (k : AesKey) (bytes : List UInt8) (ts : Nat) (serial : BitVec 32) : Prop :=
  announced bytes = 0 ∨ 16 ≤ (behindLength bytes).unread.length ∧
    (headerPasses (.ofNat 32 ts) serial
        (aes256DecryptEcb k ((behindLength bytes).unread.take 16)) = false ∨
      8 ≤ (announced bytes).toNat ∧
        blocksNeeded (announced bytes).toNat ≤ (behindLength bytes).unread.length / 16)

section Bounded

variable {k : AesKey} {sz : BitVec 64} {uts serial : BitVec 32} {io : Ioport}
  {block : List UInt8} {n : Nat}

theorem start_left : sz - (decryptStart io block).done = sz := BitVec.sub_zero sz

theorem roundBlock_start (hlong : 16 ≤ io.unread.length) :
    roundBlock k (decryptStart io block) = aes256DecryptEcb k (io.unread.take 16) := by
  simp [roundBlock, decryptStart, ioportRead, hlong]

/-- The first round, where there is a block to be read. -/
theorem decryptRound_start (k : AesKey) (sz : BitVec 64) (uts serial : BitVec 32)
    (block : List UInt8) (hlong : 16 ≤ io.unread.length) :
    (headerPasses uts serial (aes256DecryptEcb k (io.unread.take 16)) = false ∧
        decryptRound k sz uts serial (decryptStart io block) = .ok none) ∨
      headerPasses uts serial (aes256DecryptEcb k (io.unread.take 16)) = true ∧
        (sz.toNat < 8 ∧
            decryptRound k sz uts serial (decryptStart io block) = .error .endlessLoop ∨
          8 ≤ sz.toNat ∧
            ∃ s', decryptRound k sz uts serial (decryptStart io block) = .ok (some s')) := by
  have h8 : (8 : BitVec 64).toNat = 8 := rfl
  have hleft := toNat_min_sixteen sz
  have habsorb : (decryptStart io block).absorb_ts = true := rfl
  unfold decryptRound
  rw [roundBlock_start hlong, start_left]
  dsimp only
  generalize (if 16 < sz then 16 else sz) = left at hleft
  rw [if_pos habsorb]
  cases headerPasses uts serial (aes256DecryptEcb k (io.unread.take 16)) with
  | false => exact .inl ⟨rfl, rfl⟩
  | true =>
    refine .inr ⟨rfl, ?_⟩
    rw [if_neg (by simp)]
    by_cases hshort : left < 8
    · refine .inl ⟨?_, if_pos hshort⟩
      rw [BitVec.lt_def] at hshort
      omega
    · refine .inr ⟨?_, _, if_neg hshort⟩
      rw [BitVec.lt_def] at hshort
      omega

/-- All the blocks of an announced length that passes are asked for. -/
theorem decryptWork_start {s' : DecryptState} (hne : sz ≠ 0) (h8 : 8 ≤ sz.toNat)
    (hround : decryptRound k sz uts serial (decryptStart io block) = .ok (some s')) :
    (decryptWork k sz uts serial (sz.toNat / 16 + 3) (decryptStart io block)).1 =
      blocksNeeded sz.toNat := by
  obtain ⟨habsorb', -, hleft', -⟩ := decryptRound_some hround
  rw [start_left] at hleft'
  have habsorb : (decryptStart io block).absorb_ts = true := rfl
  rw [if_pos habsorb] at hleft'
  rw [decryptWork, start_left, if_neg hne, hround]
  dsimp only
  rw [decryptWork_body habsorb' (by omega), blocksNeeded]
  split <;> omega

theorem ioportDecrypt_eq (k : AesKey) (block : List UInt8) (serial : BitVec 32)
    (bytes : List UInt8) (ts : Nat) :
    ioportDecrypt k (.reader bytes) block ts serial =
      decryptLoop k (announced bytes) (.ofNat 32 ts) serial ((announced bytes).toNat / 16 + 3)
        (decryptStart (behindLength bytes) block) := rfl

/-- Decryption is bounded by its input if and only if the announced length is sound. -/
theorem decrypt_bounded_iff (k : AesKey) (bytes block : List UInt8) (ts : Nat)
    (serial : BitVec 32) :
    DecryptBounded k bytes block ts serial ↔ LengthSound k bytes ts serial := by
  have hrun := ioportDecrypt_eq k block serial bytes ts
  have hwork : decryptWorkOf k bytes block ts serial = decryptWork k (announced bytes)
    (.ofNat 32 ts) serial ((announced bytes).toNat / 16 + 3)
    (decryptStart (behindLength bytes) block) := rfl
  unfold LengthSound
  generalize hsz : announced bytes = sz at *
  generalize hio : behindLength bytes = io at *
  by_cases hzero : sz = 0
  · have hend : ioportDecrypt k (.reader bytes) block ts serial = .ok (true, []) := by
      rw [hrun, decryptLoop_succ, start_left, if_pos hzero]
      rfl
    have hnone : decryptWorkOf k bytes block ts serial = (0, 0) := by
      rw [hwork, decryptWork, start_left, if_pos hzero]
    refine ⟨fun _ => .inl hzero, fun _ => ⟨?_, ⟨true, [], hend, Nat.zero_le _⟩, ?_⟩⟩
    · rw [hnone]
      exact Nat.zero_le _
    · rw [hsz, hzero]
      exact fun h => absurd h (Nat.not_lt_zero _)
  by_cases hlong : 16 ≤ io.unread.length
  on_goal 2 =>
    -- a round is begun and there is no block
    have hpos : 1 ≤ (decryptWorkOf k bytes block ts serial).1 := by
      rw [hwork]
      exact decryptWork_pos (by rwa [start_left])
    refine ⟨fun h => ?_, fun h => ?_⟩
    · have hrounds := h.rounds
      rw [hio] at hrounds
      omega
    · obtain h | h := h
      · exact absurd h hzero
      · exact absurd h.1 hlong
  rw [decryptLoop_succ, start_left, if_neg hzero] at hrun
  obtain ⟨hrefused, hround⟩ | ⟨hpass, ⟨hshort, hround⟩ | ⟨h8, s', hround⟩⟩ :=
    decryptRound_start k sz (.ofNat 32 ts) serial block hlong
  · rw [hround] at hrun
    have hone : (decryptWorkOf k bytes block ts serial).1 = 1 := by
      rw [hwork, decryptWork, start_left, if_neg hzero, hround]
    refine ⟨fun _ => .inr ⟨hlong, .inl hrefused⟩,
      fun _ => ⟨?_, ⟨false, [], hrun, Nat.zero_le _⟩, fun _ => ⟨[], hrun⟩⟩⟩
    rw [hone, hio]
    omega
  · rw [hround] at hrun
    refine ⟨fun h => ?_, fun h => ?_⟩
    · obtain ⟨ok, out, hout, -⟩ := h.written
      rw [hrun] at hout
      cases hout
    · obtain h | ⟨-, h | h⟩ := h
      · exact absurd h hzero
      · rw [hpass] at h
        cases h
      · exact absurd hshort (not_lt.mpr h.1)
  · rw [hround] at hrun
    dsimp only at hrun
    have hneeded := decryptWork_start hzero h8 hround
    rw [← hwork] at hneeded
    refine ⟨fun h => .inr ⟨hlong, .inr ⟨h8, ?_⟩⟩, fun h => ?_⟩
    · have hrounds := h.rounds
      rwa [hneeded, hio] at hrounds
    · have hfits : blocksNeeded sz.toNat ≤ io.unread.length / 16 := by
        obtain h | ⟨-, h | h⟩ := h
        · exact absurd h hzero
        · rw [hpass] at h
          cases h
        · exact h.2
      have hsize : sz.toNat ≤ 16 * blocksNeeded sz.toNat := by
        unfold blocksNeeded
        split <;> omega
      have hread : (decryptWorkOf k bytes block ts serial).2 = 16 * blocksNeeded sz.toNat := by
        rw [← hneeded, hwork]
        apply decryptWork_read
        rw [← hwork, hneeded]
        show _ ≤ io.unread.length
        omega
      obtain ⟨out, hout⟩ := decryptLoop_body k sz (.ofNat 32 ts) serial (sz.toNat / 16 + 2)
        (decryptRound_some hround).1
      rw [hout] at hrun
      have hlength := decryptLoop_length_le hout
      obtain ⟨-, -, hleft, hfirst⟩ := decryptRound_some hround
      rw [start_left] at hleft hfirst
      refine ⟨?_, ⟨true, out, hrun, ?_⟩, fun hless => ?_⟩
      · rw [hneeded, hio]
        exact hfits
      · rw [hread]
        have hnil : (decryptStart io block).out = [] := rfl
        rw [hnil, List.length_nil] at hfirst
        omega
      · rw [hio, hsz] at hless
        omega

end Bounded

/-- A block with a good header, in front of which 24 bytes are announced. -/
def shortData : List UInt8 := 24 :: aes256EncryptEcb (plainKey 1) (List.replicate 16 0)

theorem behindLength_cons (bs : List UInt8) : (behindLength (24 :: bs)).unread = bs := rfl

/-- Of 16 bytes 24 are made. -/
theorem short_data_decrypted : (behindLength shortData).unread.length = 16 ∧
    (∃ out, ioportDecrypt (plainKey 1) (.reader shortData) [] 0 0 = .ok (true, out) ∧
      out.length = 24) ∧ ¬ DecryptBounded (plainKey 1) shortData [] 0 0 := by
  have hlength : (behindLength shortData).unread.length = 16 := by
    rw [shortData, behindLength_cons, aes256EncryptEcb_length]
  have hrun : (ioportDecrypt (plainKey 1) (.reader shortData) [] 0 0).map
      (fun r => (r.1, r.2.length)) = .ok (true, 24) := by decide +kernel
  obtain ⟨out, hout, hout24⟩ : ∃ out,
      ioportDecrypt (plainKey 1) (.reader shortData) [] 0 0 = .ok (true, out) ∧
        out.length = 24 := by
    cases h : ioportDecrypt (plainKey 1) (.reader shortData) [] 0 0 with
    | error e =>
      rw [h] at hrun
      cases hrun
    | ok r =>
      rw [h] at hrun
      obtain ⟨hok, hlen⟩ := Prod.mk.inj (Except.ok.inj hrun)
      exact ⟨r.2, by rw [← hok], hlen⟩
  refine ⟨hlength, ⟨out, hout, hout24⟩, fun h => ?_⟩
  obtain ⟨out', hout'⟩ := h.refuses (by rw [hlength]; decide)
  rw [hout] at hout'
  cases hout'

end Opticon
