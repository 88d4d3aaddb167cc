import Opticon.Meter.HostLaws

/-! Which meters `host_find_prefix` finds. -/

namespace Opticon

/-- What the search compares each meter's id to. -/
def isUnder (pfx id : MeterId) : Bool :=
  id &&& id2mask pfx == pfx &&& MMASK_NAME && idisprefix pfx id ( id2mask pfx)

/-- The name starts with the other one and a slash. -/
def IsChild (pfx id : MeterId) : Prop := idName pfx ++ [47] <+: idName id

instance (pfx id : MeterId) : Decidable (IsChild pfx id) :=
  inferInstanceAs (Decidable (_ <+: _))

/-- An id with bits of the name outside of its characters, or with a blank in front of another
character: nothing is found under it. -/
def Unsearchable (pfx : MeterId) : Prop := pfx &&& 0x60 ≠ 0 ∨ 32 ∈ idName pfx

/-- The bits of an id outside of its characters. -/
def MMASK_OTHER : MeterId := 0xc00000000000007f

theorem eq_of_chars {x y : MeterId} (hchars : ∀ b ∈ charShifts, x &&& charMask b = y &&& charMask b)
    (hother : x &&& MMASK_OTHER = y &&& MMASK_OTHER) : x = y := by
  apply BitVec.eq_of_getLsbD_eq
  intro i hi
  have hcover : ∀ i < 64, MMASK_OTHER.getLsbD i = true ∨ ∃ b ∈ charShifts, (charMask b).getLsbD i = true := by
    decide
  have hbit {m : MeterId} (hm : m.getLsbD i = true) (heq : x &&& m = y &&& m) :
      x.getLsbD i = y.getLsbD i := by
    have hand := congrArg (·.getLsbD i) heq
    simpa [hm] using hand
  obtain hm | ⟨b, hb, hm⟩ := hcover i hi
  · exact hbit hm hother
  · exact hbit hm (hchars b hb)

theorem id2mask_other (pfx : MeterId) : id2mask pfx &&& MMASK_OTHER = 0 := by
  obtain ⟨-, houter⟩ := id2maskLoop_spec pfx 0 charMask_disjoint (by simp)
  exact (houter MMASK_OTHER (by decide)).trans (by simp)

/-- An id and what is found under it, character by character: the one is blank from a shift on, and
the other agrees with it in front of the shift and has a slash there. -/
structure UnderAt (pfx id : MeterId) (bs₁ : List Nat) (b : Nat) (bs₂ : List Nat) : Prop where
  split : charShifts = bs₁ ++ b :: bs₂
  agree : ∀ b' ∈ bs₁, charCode pfx b' ≠ 0 ∧ charCode id b' = charCode pfx b'
  blank : ∀ b' ∈ b :: bs₂, charCode pfx b' = 0
  slash : charCode id b = asciiCode 47

variable {pfx id : MeterId}

theorem UnderAt.of_isUnder (h : isUnder pfx id = true) :
    pfx &&& 0x60 = 0 ∧ ∃ bs₁ b bs₂, UnderAt pfx id bs₁ b bs₂ := by
  obtain ⟨hmask, hprefix⟩ := Bool.and_eq_true_iff.mp h
  have hmask := eq_of_beq hmask
  obtain ⟨⟨bs₁, bs₂, hbs, hin, hout, -⟩, -⟩ :=
    id2maskLoop_spec pfx 0 charMask_disjoint (by simp)
  rw [← id2mask] at hin hout
  have hmem : ∀ b ∈ bs₁ ++ bs₂, b ∈ charShifts := by
    intro b hb
    rwa [hbs]
  have hpfx : ∀ b ∈ charShifts, pfx &&& charMask b = id &&& ( id2mask pfx &&& charMask b) := by
    intro b hb
    rw [← BitVec.and_assoc, hmask, BitVec.and_assoc, BitVec.and_comm MMASK_NAME, charMask_name hb]
  have hloop : idisprefixLoop id ( id2mask pfx) charShifts = true := by
    rw [ idisprefix] at hprefix
    split at hprefix
    · cases hprefix
    · exact hprefix
  rw [hbs] at hloop
  obtain ⟨b, bs, rfl, hslash⟩ := idisprefixLoop_slash
    (fun b hb => by rw [(hin b hb).2]; exact charMask_ne_zero (hmem b (by simp [hb]))) hout hloop
  refine ⟨?_, bs₁, b, bs, hbs, ?_, ?_, ?_⟩
  · have hother : id2mask pfx &&& 0x60 = 0 := by
      have h60 : MMASK_OTHER &&& 0x60 = 0x60 := by decide
      rw [← h60, ← BitVec.and_assoc, id2mask_other]
      simp
    calc pfx &&& 0x60 = (pfx &&& MMASK_NAME) &&& 0x60 := by
          rw [BitVec.and_assoc]
          rfl
      _ = 0 := by rw [← hmask, BitVec.and_assoc, hother]; simp
  · intro b' hb'
    have hb := hmem b' (List.mem_append_left _ hb')
    refine ⟨fun hzero => (hin b' hb').1 ((and_charMask_eq_zero hb).mpr hzero), ?_⟩
    rw [← and_charMask_eq hb, hpfx b' hb, (hin b' hb').2]
  · intro b' hb'
    have hb := hmem b' (List.mem_append_right _ hb')
    rw [← and_charMask_eq_zero hb, hpfx b' hb, hout b' hb']
    simp
  · rw [← charMask_code (hmem b (by simp))]
    exact hslash

/-- The mask of an id ends where the id is blank. -/
theorem UnderAt.id2mask_eq {bs₁ bs₂ : List Nat} {b : Nat} (h : UnderAt pfx id bs₁ b bs₂) :
    (∀ b' ∈ bs₁, id2mask pfx &&& charMask b' = charMask b') ∧
      ∀ b' ∈ b :: bs₂, id2mask pfx &&& charMask b' = 0 := by
  obtain ⟨⟨cs₁, cs₂, hcs, hin, hout, hhead⟩, -⟩ :=
    id2maskLoop_spec pfx 0 charMask_disjoint (by simp)
  have hnonzero : ∀ c ∈ bs₁, pfx &&& charMask c ≠ 0 := by
    intro c hc
    rw [ne_eq, and_charMask_eq_zero (by simp [h.split, hc])]
    exact (h.agree c hc).1
  have hzero : pfx &&& charMask b = 0 :=
    (and_charMask_eq_zero (by simp [h.split])).mpr (h.blank b List.mem_cons_self)
  have hsame : cs₁ = bs₁ ∧ cs₂ = b :: bs₂ := by
    obtain ⟨a, rfl, ha⟩ | ⟨c, rfl, hc⟩ := List.append_eq_append_iff.mp (hcs.symm.trans h.split)
    · cases a with
      | nil => exact ⟨(List.append_nil _).symm, ha⟩
      | cons x a =>
        have hx : pfx &&& charMask x = 0 := hhead x (by rw [ha]; rfl)
        exact absurd hx (hnonzero x (by simp))
    · cases c with
      | nil => exact ⟨List.append_nil _, hc.symm⟩
      | cons x c =>
        obtain ⟨rfl, -⟩ := List.cons.inj hc
        exact absurd hzero (hin b (by simp)).1
  obtain ⟨rfl, rfl⟩ := hsame
  exact ⟨fun b' hb' => (hin b' hb').2, hout⟩

theorem idisprefixLoop_of_split {mask : MeterId} {bs₁ bs₂ : List Nat} {b : Nat}
    (hin : ∀ b' ∈ bs₁, mask &&& charMask b' ≠ 0) (hout : mask &&& charMask b = 0)
    (hslash : (id &&& charMask b) >>> b = asciiCode 47) :
    idisprefixLoop id mask (bs₁ ++ b :: bs₂) = true := by
  induction bs₁ with
  | nil =>
    simp only [List.nil_append, idisprefixLoop]
    change (if mask &&& charMask b = 0 then _ else _) = true
    rw [if_pos hout]
    exact beq_of_eq hslash
  | cons c bs₁ ih =>
    simp only [List.cons_append, idisprefixLoop]
    change (if mask &&& charMask c = 0 then _ else _) = true
    rw [if_neg (hin c List.mem_cons_self)]
    exact ih fun b' hb' => hin b' (List.mem_cons_of_mem _ hb')

theorem UnderAt.isUnder {bs₁ bs₂ : List Nat} {b : Nat} (h : UnderAt pfx id bs₁ b bs₂)
    (hother : pfx &&& 0x60 = 0) : isUnder pfx id = true := by
  obtain ⟨hin, hout⟩ := h.id2mask_eq
  have hmem : ∀ b' ∈ bs₁ ++ b :: bs₂, b' ∈ charShifts := by
    intro b' hb'
    rwa [h.split]
  have hchars (x : MeterId) (hx : ∀ b' ∈ bs₁, charCode x b' = charCode pfx b') :
      ∀ b' ∈ charShifts, x &&& id2mask pfx &&& charMask b' = pfx &&& charMask b' := by
    intro b' hb'
    rw [BitVec.and_assoc]
    rw [h.split] at hb'
    obtain hb' | hb' := List.mem_append.mp hb'
    · rw [hin b' hb', and_charMask_eq (hmem b' (List.mem_append_left _ hb')), hx b' hb']
    · rw [hout b' hb', (and_charMask_eq_zero (hmem b' (List.mem_append_right _ hb'))).mpr (h.blank b' hb')]
      simp
  have hagree := hchars id fun b' hb' => (h.agree b' hb').2
  have hother' (x : MeterId) : x &&& id2mask pfx &&& MMASK_OTHER = 0 := by
    rw [BitVec.and_assoc, id2mask_other]
    simp
  refine Bool.and_eq_true_iff.mpr ⟨beq_of_eq (eq_of_chars ?_ ?_), ?_⟩
  · intro b' hb'
    rw [hagree b' hb', BitVec.and_assoc, BitVec.and_comm MMASK_NAME, charMask_name hb']
  · have hrest : MMASK_NAME &&& MMASK_OTHER = 0x60 := by decide
    rw [hother', BitVec.and_assoc, hrest, hother]
  · have hsame : id &&& id2mask pfx = pfx &&& id2mask pfx := by
      refine eq_of_chars (fun b' hb' => ?_) ((hother' id).trans (hother' pfx).symm)
      rw [hagree b' hb', hchars pfx (fun _ _ => rfl) b' hb']
    rw [ idisprefix, if_neg (by simp [hsame]), h.split]
    refine idisprefixLoop_of_split (fun b' hb' => ?_) (hout b List.mem_cons_self) ?_
    · rw [hin b' hb']
      exact charMask_ne_zero (hmem b' (List.mem_append_left _ hb'))
    · rw [charMask_code (hmem b (by simp))]
      exact h.slash

theorem UnderAt.isChild {bs₁ bs₂ : List Nat} {b : Nat} (h : UnderAt pfx id bs₁ b bs₂) :
    32 ∉ idName pfx ∧ IsChild pfx id := by
  set left := bs₁.map fun b => idChar (charCode pfx b)
  have hblank : 32 ∉ left := by
    intro hmem
    obtain ⟨b', hb', hchar⟩ := List.mem_map.mp hmem
    exact (h.agree b' hb').1 (idChar_inj (charCode_lt pfx b') (by decide) hchar)
  have hpfx : idChars pfx = left ++ List.replicate (b :: bs₂).length 32 := by
    rw [idChars_eq, h.split, List.map_append, ← List.map_const']
    congr 1
    apply List.map_congr_left
    intro b' hb'
    rw [h.blank b' hb']
    rfl
  have hname : idName pfx = left := by
    rw [idName, hpfx, rdropWhile_replicate, List.rdropWhile_eq_self_iff]
    intro hne hlast
    have hmem := List.getLast_mem hne
    rw [eq_of_beq hlast] at hmem
    exact hblank hmem
  have hid : left ++ [47] <+: idChars id := by
    refine ⟨bs₂.map fun b => idChar (charCode id b), ?_⟩
    have hagree : left = bs₁.map fun b => idChar (charCode id b) :=
      List.map_congr_left fun b' hb' => congrArg idChar (h.agree b' hb').2.symm
    have hslash : idChar (charCode id b) = 47 := by
      rw [h.slash]
      rfl
    rw [idChars_eq, h.split, List.map_append, List.map_cons, hslash, hagree]
    simp
  rw [IsChild, hname]
  exact ⟨hblank, isPrefix_idName hid⟩

theorem UnderAt.of_isChild (hblank : 32 ∉ idName pfx) (h : IsChild pfx id) :
    ∃ bs₁ b bs₂, UnderAt pfx id bs₁ b bs₂ := by
  obtain ⟨k, hpfx⟩ := rdropWhile_blanks (idChars pfx)
  change idName pfx ++ List.replicate k 32 = idChars pfx at hpfx
  obtain ⟨t, hid⟩ := h.trans (List.rdropWhile_prefix (p := (· == 32)) (l := idChars id))
  rw [idChars_eq] at hpfx hid
  rw [List.append_assoc] at hid
  obtain ⟨bs₁, bs₂, hsplit, hname, hrest⟩ := List.map_eq_append_iff.mp hpfx.symm
  obtain ⟨cs₁, cs₂, hsplit', hname', hrest'⟩ := List.map_eq_append_iff.mp hid.symm
  have hlen : bs₁.length = cs₁.length := by
    rw [← List.length_map, hname, ← hname', List.length_map]
  obtain ⟨rfl, rfl⟩ := List.append_inj (hsplit.symm.trans hsplit') hlen
  obtain ⟨b, bs₂, rfl, hslash, -⟩ := List.map_eq_cons_iff.mp hrest'
  refine ⟨bs₁, b, bs₂, hsplit, ?_, ?_, ?_⟩
  · intro b' hb'
    have hchar : idChar (charCode pfx b') = idChar (charCode id b') :=
      List.map_inj_left.mp (hname.trans hname'.symm) b' hb'
    refine ⟨?_, (idChar_inj (charCode_lt _ _) (charCode_lt _ _) hchar).symm⟩
    intro hzero
    have hmem : idChar (charCode pfx b') ∈ idName pfx := hname ▸ List.mem_map_of_mem hb'
    rw [hzero] at hmem
    exact hblank hmem
  · intro b' hb'
    have hchar : idChar (charCode pfx b') = 32 := by
      have hmem := List.mem_map_of_mem (f := fun b => idChar (charCode pfx b)) hb'
      rw [hrest] at hmem
      exact List.eq_of_mem_replicate hmem
    exact idChar_inj (charCode_lt _ _) (by decide) hchar
  · exact idChar_inj (charCode_lt _ _) (by decide) hslash

/-- What is found under an id are its children, unless nothing is. -/
theorem isUnder_iff : isUnder pfx id = true ↔ ¬ Unsearchable pfx ∧ IsChild pfx id := by
  unfold Unsearchable
  rw [not_or, not_not]
  constructor
  · intro h
    obtain ⟨hother, bs₁, b, bs₂, hat⟩ := UnderAt.of_isUnder h
    obtain ⟨hblank, hchild⟩ := hat.isChild
    exact ⟨⟨hother, hblank⟩, hchild⟩
  · rintro ⟨⟨hother, hblank⟩, hchild⟩
    obtain ⟨bs₁, b, bs₂, hat⟩ := UnderAt.of_isChild hblank hchild
    exact hat.isUnder hother

end Opticon
