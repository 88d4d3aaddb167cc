import Mathlib.Data.List.DropRight
import Mathlib.Data.List.GetD
import Mathlib.Data.List.Nodup
import Opticon.Meter.Id

/-! How the ids of meters split in type, name and count, and how prefixes relate to them. -/

namespace Opticon

def charMask (b : Nat) : MeterId := 31#64 <<< b

theorem charMask_name {b : Nat} (hb : b ∈ charShifts) : charMask b &&& MMASK_NAME = charMask b := by
  revert b
  decide

theorem charMask_disjoint : charShifts.Pairwise fun a b => charMask a &&& charMask b = 0 := by
  decide

theorem and_charMask_of_name {i j : MeterId} {b : Nat} (hb : b ∈ charShifts)
    (h : i &&& MMASK_NAME = j &&& MMASK_NAME) : i &&& charMask b = j &&& charMask b := by
  calc i &&& charMask b = (i &&& MMASK_NAME) &&& charMask b := by
        rw [BitVec.and_assoc, BitVec.and_comm MMASK_NAME, charMask_name hb]
    _ = (j &&& MMASK_NAME) &&& charMask b := by rw [h]
    _ = j &&& charMask b := by rw [BitVec.and_assoc, BitVec.and_comm MMASK_NAME, charMask_name hb]

@[simp] theorem requested_name (id : MeterId) :
    id &&& (MMASK_TYPE ||| MMASK_NAME) &&& MMASK_NAME = id &&& MMASK_NAME := by
  rw [BitVec.and_assoc]
  rfl

@[simp] theorem requested_type (id : MeterId) :
    id &&& (MMASK_TYPE ||| MMASK_NAME) &&& MMASK_TYPE = id &&& MMASK_TYPE := by
  rw [BitVec.and_assoc]
  rfl

theorem retyped_type (id mid : MeterId) :
    (id &&& (MMASK_NAME ||| MMASK_COUNT) ||| mid &&& MMASK_TYPE) &&& MMASK_TYPE =
      mid &&& MMASK_TYPE := by
  have h₁ : (MMASK_NAME ||| MMASK_COUNT) &&& MMASK_TYPE = 0 := by decide
  rw [BitVec.and_or_distrib_right, BitVec.and_assoc, h₁, BitVec.and_assoc, BitVec.and_self]
  simp

theorem retyped_name (id mid : MeterId) :
    (id &&& (MMASK_NAME ||| MMASK_COUNT) ||| mid &&& MMASK_TYPE) &&& MMASK_NAME =
      id &&& MMASK_NAME := by
  have h₁ : (MMASK_NAME ||| MMASK_COUNT) &&& MMASK_NAME = MMASK_NAME := by decide
  have h₂ : MMASK_TYPE &&& MMASK_NAME = 0 := by decide
  rw [BitVec.and_or_distrib_right, BitVec.and_assoc, h₁, BitVec.and_assoc, h₂]
  simp

/-- The code of the character at a shift. -/
def charCode (id : MeterId) (b : Nat) : MeterId := ((id &&& MMASK_NAME) >>> b) &&& 0x1f

theorem idChars_eq (id : MeterId) : idChars id = charShifts.map fun b => idChar (charCode id b) :=
  rfl

theorem charCode_lt (id : MeterId) (b : Nat) : (charCode id b).toNat < 32 := by
  rw [charCode, BitVec.toNat_and]
  exact lt_of_le_of_lt Nat.and_le_right (by decide)

theorem idChar_inj {c d : MeterId} (hc : c.toNat < 32) (hd : d.toNat < 32)
    (h : idChar c = idChar d) : c = d := by
  have hl : IDTABLE.length = 32 := rfl
  have hnodup : IDTABLE.Nodup := by decide
  rw [idChar, idChar, List.getD_eq_getElem _ _ (by omega), List.getD_eq_getElem _ _ (by omega),
    hnodup.getElem_inj_iff] at h
  exact BitVec.eq_of_toNat_eq h

theorem charMask_getLsbD (b i : Nat) :
    (charMask b).getLsbD i = (decide (i < 64) && decide (b ≤ i) && decide (i - b < 5)) := by
  have h31 : ∀ j, (31#64).getLsbD j = decide (j < 5) := by
    intro j
    by_cases hj : j < 64
    · revert j
      decide
    · rw [BitVec.getLsbD_of_ge _ _ (by omega)]
      simp only [Bool.false_eq, decide_eq_false_iff_not]
      omega
  rw [charMask, BitVec.getLsbD_shiftLeft, h31]
  by_cases hb : i < b
  · simp [hb, Nat.not_le.mpr hb]
  · simp [hb, Nat.not_lt.mp hb]

theorem shift_charMask (x : MeterId) (b : Nat) : (x &&& charMask b) >>> b = (x >>> b) &&& 0x1f := by
  apply BitVec.eq_of_getLsbD_eq
  intro i hi
  have h31 : (0x1f : MeterId).getLsbD i = decide (i < 5) := by
    revert i
    decide
  rw [BitVec.getLsbD_ushiftRight, BitVec.getLsbD_and, BitVec.getLsbD_and,
    BitVec.getLsbD_ushiftRight, charMask_getLsbD, h31]
  by_cases hlt : b + i < 64
  · simp [hlt]
  · rw [BitVec.getLsbD_of_ge x _ (by omega)]
    simp

theorem charMask_code {b : Nat} (hb : b ∈ charShifts) (id : MeterId) :
    (id &&& charMask b) >>> b = charCode id b := by
  rw [charCode, ← shift_charMask, BitVec.and_assoc, BitVec.and_comm MMASK_NAME, charMask_name hb]

theorem and_charMask_eq {b : Nat} (hb : b ∈ charShifts) {i j : MeterId} :
    i &&& charMask b = j &&& charMask b ↔ charCode i b = charCode j b := by
  rw [← charMask_code hb, ← charMask_code hb]
  constructor
  · intro h
    rw [h]
  · intro h
    have hback : ∀ x : MeterId, ((x &&& charMask b) >>> b) <<< b = x &&& charMask b := by
      intro x
      apply BitVec.eq_of_getLsbD_eq
      intro k hk
      rw [BitVec.getLsbD_shiftLeft, BitVec.getLsbD_ushiftRight]
      by_cases hkb : k < b
      · simp [hkb, charMask_getLsbD, Nat.not_le.mpr hkb]
      · simp [hk, hkb, show b + (k - b) = k by omega]
    rw [← hback i, ← hback j, h]

theorem and_charMask_eq_zero {b : Nat} (hb : b ∈ charShifts) {i : MeterId} :
    i &&& charMask b = 0 ↔ charCode i b = 0 := by
  have h := and_charMask_eq hb (i := i) (j := 0)
  simpa [charCode] using h

theorem idChars_of_name_eq {i j : MeterId} (h : i &&& MMASK_NAME = j &&& MMASK_NAME) :
    idChars i = idChars j := by
  simp only [idChars, h]

/-- What `idgetprefix` computes has the characters before the slash it stops at, and none
from there on. -/
theorem idgetprefixLoop_spec (id : MeterId) {bs : List Nat} {res : MeterId}
    (hd : bs.Pairwise fun a b => charMask a &&& charMask b = 0)
    (hr : ∀ b ∈ bs, res &&& charMask b = 0) (h : idgetprefixLoop id bs res ≠ 0) :
    (∃ bs₁ b bs₂, bs = bs₁ ++ b :: bs₂ ∧ idChar ((id &&& charMask b) >>> b) = 47 ∧
      (∀ b' ∈ bs₁, idgetprefixLoop id bs res &&& charMask b' = id &&& charMask b') ∧
      ∀ b' ∈ b :: bs₂, idgetprefixLoop id bs res &&& charMask b' = 0) ∧
    ∀ c, (∀ b ∈ bs, charMask b &&& c = 0) → idgetprefixLoop id bs res &&& c = res &&& c := by
  induction bs generalizing res with
  | nil => exact absurd rfl h
  | cons b bs ih =>
    simp only [idgetprefixLoop] at h ⊢
    by_cases hc : idChar ((id &&& 31#64 <<< b) >>> b) = 47
    · simp only [if_pos hc]
      exact ⟨⟨[], b, bs, rfl, hc, by simp, hr⟩, fun c _ => trivial⟩
    · simp only [if_neg hc] at h ⊢
      obtain ⟨hb, hd⟩ := List.pairwise_cons.mp hd
      have hres : ∀ b' ∈ bs, (res ||| id &&& charMask b) &&& charMask b' = 0 := by
        intro b' hb'
        rw [BitVec.and_or_distrib_right, hr b' (by simp [hb']), BitVec.and_assoc, hb b' hb']
        simp
      obtain ⟨⟨bs₁, b₀, bs₂, rfl, hslash, hbefore, hbehind⟩, houter⟩ := ih hd hres h
      refine ⟨⟨b :: bs₁, b₀, bs₂, rfl, hslash, ?_, hbehind⟩, ?_⟩
      · intro b' hb'
        obtain rfl | hb' := List.mem_cons.mp hb'
        · refine (houter (charMask b') fun a ha => ?_).trans ?_
          · rw [BitVec.and_comm, hb a ha]
          · rw [BitVec.and_or_distrib_right, hr b' (by simp), BitVec.and_assoc, BitVec.and_self]
            simp
        · exact hbefore b' hb'
      · intro c hcs
        refine (houter c fun a ha => hcs a (by simp [ha])).trans ?_
        rw [BitVec.and_or_distrib_right, BitVec.and_assoc, hcs b (by simp)]
        simp

/-- Two ids with the same characters at the first shifts, the first id being blank and the
second having a slash behind them. -/
theorem idChars_of_masks {i j : MeterId} {bs₁ bs₂ : List Nat} {b : Nat}
    (hbs : charShifts = bs₁ ++ b :: bs₂)
    (hbefore : ∀ b' ∈ bs₁, i &&& charMask b' = j &&& charMask b')
    (hbehind : ∀ b' ∈ b :: bs₂, i &&& charMask b' = 0) (hslash : idChar (charCode j b) = 47) :
    ∃ left n, idChars i = left ++ List.replicate n 32 ∧ left ++ [47] <+: idChars j := by
  have hmem : ∀ b' ∈ bs₁ ++ b :: bs₂, b' ∈ charShifts := by
    intro b' hb'
    rwa [hbs]
  refine ⟨bs₁.map fun b => idChar (charCode j b), (b :: bs₂).length, ?_, ?_⟩
  · rw [idChars_eq, hbs, List.map_append]
    congr 1
    · apply List.map_congr_left
      intro b' hb'
      rw [(and_charMask_eq (hmem b' (by simp [hb']))).mp (hbefore b' hb')]
    · rw [← List.map_const']
      apply List.map_congr_left
      intro b' hb'
      rw [(and_charMask_eq_zero (hmem b' (List.mem_append_right _ hb'))).mp (hbehind b' hb')]
      rfl
  · rw [idChars_eq, hbs, List.map_append, List.map_cons, hslash]
    exact ⟨bs₂.map fun b => idChar (charCode j b), by simp⟩

theorem idgetprefix_chars {id : MeterId} (h : idgetprefix id ≠ 0) :
    ∃ left n, idChars ( idgetprefix id) = left ++ List.replicate n 32 ∧
      left ++ [47] <+: idChars id := by
  have hloop : idgetprefix id = idgetprefixLoop id charShifts 0 := by
    by_cases h0 : id &&& MMASK_NAME = 0
    · exact absurd (by rw [ idgetprefix, if_pos h0]) h
    · rw [ idgetprefix, if_neg h0]
  rw [hloop] at h ⊢
  obtain ⟨⟨bs₁, b, bs₂, hbs, hslash, hbefore, hbehind⟩, -⟩ :=
    idgetprefixLoop_spec id charMask_disjoint (by simp) h
  rw [charMask_code (by simp [hbs])] at hslash
  exact idChars_of_masks hbs hbefore hbehind hslash

theorem idgetprefix_name_ne {id : MeterId} (h : idgetprefix id ≠ 0) :
    idgetprefix id &&& MMASK_NAME ≠ id &&& MMASK_NAME := by
  intro hname
  obtain ⟨left, n, hleft, t, hslash⟩ := idgetprefix_chars h
  rw [idChars_of_name_eq hname, ← hslash] at hleft
  have hmem : (47 : UInt8) ∈ List.replicate n (32 : UInt8) := by
    rw [← List.append_cancel_left ((List.append_assoc _ _ _).symm.trans hleft)]
    simp
  exact absurd (List.eq_of_mem_replicate hmem) (by decide)

/-- `id2mask` takes in the leading characters that are not blank. -/
theorem id2maskLoop_spec (id res : MeterId) {bs : List Nat}
    (hd : bs.Pairwise fun a b => charMask a &&& charMask b = 0)
    (hr : ∀ b ∈ bs, res &&& charMask b = 0) :
    (∃ bs₁ bs₂, bs = bs₁ ++ bs₂ ∧
      (∀ b ∈ bs₁, id &&& charMask b ≠ 0 ∧ id2maskLoop id bs res &&& charMask b = charMask b) ∧
      (∀ b ∈ bs₂, id2maskLoop id bs res &&& charMask b = 0) ∧
      ∀ b ∈ bs₂.head?, id &&& charMask b = 0) ∧
    ∀ c, (∀ b ∈ bs, charMask b &&& c = 0) → id2maskLoop id bs res &&& c = res &&& c := by
  induction bs generalizing res with
  | nil => exact ⟨⟨[], [], rfl, by simp, by simp, by simp⟩, fun c _ => rfl⟩
  | cons b bs ih =>
    simp only [id2maskLoop]
    split
    · rename_i hzero
      refine ⟨⟨[], b :: bs, rfl, by simp, hr, ?_⟩, fun c _ => rfl⟩
      rintro _ ⟨⟩
      exact hzero
    · rename_i hnonzero
      obtain ⟨hb, hd⟩ := List.pairwise_cons.mp hd
      have hres : ∀ b' ∈ bs, (res ||| charMask b) &&& charMask b' = 0 := by
        intro b' hb'
        rw [BitVec.and_or_distrib_right, hr b' (by simp [hb']), hb b' hb']
        simp
      obtain ⟨⟨bs₁, bs₂, rfl, hin, hout, hhead⟩, houter⟩ := ih _ hd hres
      refine ⟨⟨b :: bs₁, bs₂, rfl, ?_, hout, hhead⟩, ?_⟩
      · intro b' hb'
        obtain rfl | hb' := List.mem_cons.mp hb'
        · refine ⟨hnonzero, (houter (charMask b') fun a ha => ?_).trans ?_⟩
          · rw [BitVec.and_comm, hb a ha]
          · rw [BitVec.and_or_distrib_right, hr b' (by simp), BitVec.and_self]
            simp
        · exact hin b' hb'
      · intro c hcs
        refine (houter c fun a ha => hcs a (by simp [ha])).trans ?_
        rw [BitVec.and_or_distrib_right, hcs b (by simp)]
        simp

theorem charMask_ne_zero {b : Nat} (hb : b ∈ charShifts) : charMask b ≠ 0 := by
  revert b
  decide

/-- The slash `idisprefix` looks for stands at the first character outside of the mask. -/
theorem idisprefixLoop_slash {prefixfor mask : MeterId} {bs₁ bs₂ : List Nat}
    (hin : ∀ b ∈ bs₁, mask &&& charMask b ≠ 0) (hout : ∀ b ∈ bs₂, mask &&& charMask b = 0)
    (h : idisprefixLoop prefixfor mask (bs₁ ++ bs₂) = true) :
    ∃ b bs, bs₂ = b :: bs ∧ (prefixfor &&& charMask b) >>> b = asciiCode 47 := by
  induction bs₁ with
  | nil =>
    cases bs₂ with
    | nil => cases h
    | cons b bs =>
      simp only [List.nil_append, idisprefixLoop] at h
      change (if mask &&& charMask b = 0 then _ else _) = true at h
      rw [if_pos (hout b (by simp))] at h
      exact ⟨b, bs, rfl, eq_of_beq h⟩
  | cons b bs₁ ih =>
    simp only [List.cons_append, idisprefixLoop] at h
    change (if mask &&& charMask b = 0 then _ else _) = true at h
    rw [if_neg (hin b (by simp))] at h
    exact ih (fun b' hb' => hin b' (by simp [hb'])) h

/-- What `host_find_prefix` accepts as a child of `pfx`. -/
theorem idisprefix_chars {pfx id : MeterId} (hmask : id &&& id2mask pfx = pfx &&& MMASK_NAME)
    (h : idisprefix pfx id ( id2mask pfx) = true) :
    ∃ left n, idChars pfx = left ++ List.replicate n 32 ∧ left ++ [47] <+: idChars id := by
  obtain ⟨⟨bs₁, bs₂, hbs, hin, hout, -⟩, -⟩ :=
    id2maskLoop_spec pfx 0 charMask_disjoint (by simp)
  rw [← id2mask] at hin hout
  have hmem : ∀ b' ∈ bs₁ ++ bs₂, b' ∈ charShifts := by
    intro b' hb'
    rwa [hbs]
  have hloop : idisprefixLoop id ( id2mask pfx) charShifts = true := by
    rw [ idisprefix] at h
    split at h
    · cases h
    · exact h
  rw [hbs] at hloop
  obtain ⟨b, bs, rfl, hslash⟩ := idisprefixLoop_slash
    (fun b hb => by rw [(hin b hb).2]; exact charMask_ne_zero (hmem b (by simp [hb]))) hout hloop
  have hb : b ∈ charShifts := hmem b (by simp)
  rw [charMask_code hb] at hslash
  have hpfx : ∀ b' ∈ bs₁ ++ b :: bs, pfx &&& charMask b' = id &&& ( id2mask pfx &&& charMask b') := by
    intro b' hb'
    rw [← BitVec.and_assoc, hmask, BitVec.and_assoc, BitVec.and_comm MMASK_NAME,
      charMask_name (hmem b' hb')]
  refine idChars_of_masks hbs ?_ ?_ ?_
  · intro b' hb'
    rw [hpfx b' (by simp [hb']), (hin b' hb').2]
  · intro b' hb'
    rw [hpfx b' (List.mem_append_right _ hb'), hout b' hb']
    simp
  · rw [hslash]
    rfl

/-- The name of an id: its characters without the blanks at their end. -/
def idName (id : MeterId) : List UInt8 := (idChars id).rdropWhile (· == 32)

theorem rdropWhile_blanks (l : List UInt8) :
    ∃ k, l.rdropWhile (· == 32) ++ List.replicate k 32 = l := by
  refine ⟨(l.rtakeWhile (· == 32)).length, ?_⟩
  have hblank : l.rtakeWhile (· == 32) = List.replicate (l.rtakeWhile (· == 32)).length 32 := by
    apply List.eq_replicate_of_mem
    intro c hc
    simpa using List.mem_rtakeWhile_imp hc
  rw [← hblank]
  exact List.rdropWhile_append_rtakeWhile

/-- Unless its name is blank, `id2str` shows the name of an id. -/
theorem id2str_eq {id : MeterId} (h : idName id ≠ []) : id2str id = idName id := by
  have hsplit : idName id ++ (idChars id).rtakeWhile (· == 32) = idChars id :=
    List.rdropWhile_append_rtakeWhile
  have hlen := congrArg List.length hsplit
  have hpos := List.length_pos_iff.mpr h
  rw [List.length_append, List.rtakeWhile, List.length_reverse] at hlen
  have hend : idEnd (idChars id) + 1 = (idName id).length := by
    rw [idEnd]
    omega
  rw [id2str, hend]
  conv_lhs => rw [← hsplit]
  exact List.take_left

theorem idChar_ne_zero (tmp : BitVec 64) : idChar tmp ≠ 0 := by
  have htable : ∀ c ∈ IDTABLE, c ≠ 0 := by decide +kernel
  unfold idChar
  rw [List.getD_eq_getElem?_getD]
  cases hget : IDTABLE[tmp.toNat]? with
  | none => decide
  | some c => exact htable c (List.mem_of_getElem? hget)

/-- The text of an id is a C string of one character at least. -/
theorem id2str_text (id : MeterId) : id2str id ≠ [] ∧ (id2str id).length ≤ 11 ∧ 0 ∉ id2str id := by
  have hlen : (idChars id).length = 11 := rfl
  refine ⟨?_, ?_, fun h0 => ?_⟩
  · intro hnil
    have hnone := congrArg List.length hnil
    rw [id2str, List.length_take, hlen, List.length_nil] at hnone
    omega
  · rw [id2str, List.length_take, hlen]
    omega
  · obtain ⟨b, -, hb⟩ := List.mem_map.mp (List.mem_of_mem_take h0)
    exact idChar_ne_zero _ hb

theorem rdropWhile_replicate (l : List UInt8) (n : Nat) :
    (l ++ List.replicate n 32).rdropWhile (· == 32) = l.rdropWhile (· == 32) := by
  induction n with
  | zero => simp
  | succ n ih =>
    rw [List.replicate_succ', ← List.append_assoc, List.rdropWhile_concat_pos _ _ _ (by simp), ih]

/-- What ends in a slash in front of the blanks is in front of them all. -/
theorem isPrefix_idName {j : MeterId} {left : List UInt8} (h : left ++ [47] <+: idChars j) :
    left ++ [47] <+: idName j := by
  obtain ⟨t, ht⟩ := h
  obtain ⟨k', hk'⟩ := rdropWhile_blanks t
  have hlast : (left ++ [47] ++ t).rdropWhile (· == 32) =
      left ++ [47] ++ t.rdropWhile (· == 32) := by
    conv_lhs => rw [← hk', ← List.append_assoc, rdropWhile_replicate]
    rw [List.rdropWhile_eq_self_iff]
    intro hne
    by_cases ht0 : t.rdropWhile (· == 32) = []
    · simp [ht0]
    · rw [List.getLast_append_of_ne_nil _ ht0]
      exact List.rdropWhile_last_not _ _ ht0
  rw [idName, ← ht, hlast]
  exact List.prefix_append _ _

theorem idName_isPrefix {i j : MeterId} {left : List UInt8} {n : Nat}
    (hi : idChars i = left ++ List.replicate n 32) (hj : left ++ [47] <+: idChars j) :
    ∃ k, idName i ++ List.replicate k 32 ++ [47] <+: idName j := by
  obtain ⟨k, hk⟩ := rdropWhile_blanks left
  have hname : idName i = left.rdropWhile (· == 32) := by
    rw [idName, hi, rdropWhile_replicate]
  refine ⟨k, ?_⟩
  rw [hname, hk]
  exact isPrefix_idName hj

theorem asciiCode_shift (c : UInt8) (b : Nat) :
    asciiCode c <<< b = (asciiCode c <<< b) &&& charMask b := by
  have hall : ∀ n ∈ ASCIITABLE.map BitVec.toNat, n < 32 := by decide +kernel
  have hlt : (asciiCode c).toNat < 32 := by
    rw [asciiCode, List.getD_eq_getElem?_getD]
    cases h : ASCIITABLE[c.toNat]? with
    | none => decide
    | some d => exact hall _ (List.mem_map_of_mem (List.mem_of_getElem? h))
  have hmask : asciiCode c &&& 31#64 = asciiCode c := by
    apply BitVec.eq_of_toNat_eq
    rw [BitVec.toNat_and]
    exact Nat.and_two_pow_sub_one_of_lt_two_pow (n := 5) hlt
  rw [charMask, ← BitVec.shiftLeft_and_distrib, hmask]

/-- The characters of a label stay within those that are left. -/
theorem makeidLoop_and (label : List UInt8) (res M : MeterId) {bs : List Nat}
    (hM : ∀ b ∈ bs, charMask b &&& M = 0) : makeidLoop bs res label &&& M = res &&& M := by
  induction label generalizing bs res with
  | nil => cases bs <;> rfl
  | cons c crsr ih =>
    cases bs with
    | nil => rfl
    | cons b bs =>
      simp only [makeidLoop]
      split
      · rw [ih _ fun b' hb' => hM b' (by simp [hb']), BitVec.and_or_distrib_right,
          asciiCode_shift, BitVec.and_assoc, hM b (by simp)]
        simp
      · exact ih _ hM

theorem makeid_and (label : List UInt8) (type M : MeterId)
    (hM : ∀ b ∈ charShifts, charMask b &&& M = 0) : makeid label type &&& M = type &&& M :=
  makeidLoop_and label type M hM

theorem makeid_count (label : List UInt8) {type : MeterId} (h : type &&& MMASK_COUNT = 0) :
    makeid label type &&& MMASK_COUNT = 0 := by
  rw [makeid_and label type MMASK_COUNT (by decide), h]

theorem makeid_type (label : List UInt8) {type : MeterId} (h : type &&& MMASK_TYPE = type) :
    makeid label type &&& MMASK_TYPE = type := by
  rw [makeid_and label type MMASK_TYPE (by decide), h]

section Word

variable {id : MeterId} {count : Nat}

theorem word_count (hid : id &&& MMASK_COUNT = 0) (hc : count ≤ SZ_EMPTY_ARRAY) :
    ((id ||| BitVec.ofNat 64 count) &&& MMASK_COUNT).toNat = count := by
  have h : (BitVec.ofNat 64 count &&& MMASK_COUNT).toNat = count := by
    revert count
    decide
  rw [BitVec.and_or_distrib_right, hid]
  exact (congrArg BitVec.toNat BitVec.zero_or).trans h

theorem word_type (hc : count ≤ SZ_EMPTY_ARRAY) :
    (id ||| BitVec.ofNat 64 count) &&& MMASK_TYPE = id &&& MMASK_TYPE := by
  have h : BitVec.ofNat 64 count &&& MMASK_TYPE = 0 := by
    revert count
    decide
  rw [BitVec.and_or_distrib_right, h]
  simp

theorem word_name (hc : count ≤ SZ_EMPTY_ARRAY) :
    (id ||| BitVec.ofNat 64 count) &&& MMASK_NAME = id &&& MMASK_NAME := by
  have h : BitVec.ofNat 64 count &&& MMASK_NAME = 0 := by
    revert count
    decide
  rw [BitVec.and_or_distrib_right, h]
  simp

/-- A meter made for the word of an id has that id. -/
theorem word_requested (hid : id &&& MMASK_COUNT = 0) (hc : count ≤ SZ_EMPTY_ARRAY) :
    (id ||| BitVec.ofNat 64 count) &&& (MMASK_TYPE ||| MMASK_NAME) = id := by
  rw [BitVec.and_or_distrib_left, word_type hc, word_name hc]
  have hall : (MMASK_TYPE ||| MMASK_NAME) ||| MMASK_COUNT = BitVec.allOnes 64 := by decide
  calc id &&& MMASK_TYPE ||| id &&& MMASK_NAME
      = (id &&& (MMASK_TYPE ||| MMASK_NAME)) ||| (id &&& MMASK_COUNT) := by
        rw [hid, BitVec.and_or_distrib_left]
        simp
    _ = id &&& BitVec.allOnes 64 := by rw [← BitVec.and_or_distrib_left, hall]
    _ = id := BitVec.and_allOnes

theorem word_retyped (hc : count ≤ SZ_EMPTY_ARRAY) :
    id &&& (MMASK_NAME ||| MMASK_COUNT) |||
      (id ||| BitVec.ofNat 64 count) &&& MMASK_TYPE = id := by
  have hall : (MMASK_NAME ||| MMASK_COUNT) ||| MMASK_TYPE = BitVec.allOnes 64 := by decide
  rw [word_type hc, ← BitVec.and_or_distrib_left, hall, BitVec.and_allOnes]

end Word

end Opticon
