import Opticon.Meter.PrefixLaws

/-! The names that ids are made of, and what the functions on ids make of them again. -/

namespace Opticon

/-- The characters of names: those of the table but the blank. -/
def nameChars : List UInt8 := IDTABLE.tail

structure IsName (name : List UInt8) : Prop where
  nonempty : name ≠ []
  short : name.length ≤ 11
  chars : ∀ c ∈ name, c ∈ nameChars

/-- A type has no bits besides those of the types. -/
def IsType (type : MeterId) : Prop := type &&& MMASK_TYPE = type

variable {name p q s : List UInt8} {type id : MeterId} {b : Nat}

theorem nameChars_coded : ∀ c ∈ nameChars, c < 128 ∧ idChar (asciiCode c) = c ∧ c ≠ 32 ∧
    (asciiCode c).toNat < 32 ∧ asciiCode c ≠ 0 := by
  decide +kernel

theorem shift_back {x : MeterId} (hx : x.toNat < 32) (hb : b ∈ charShifts) : x <<< b >>> b = x := by
  have hle : 2 ^ b ≤ 2 ^ 57 := by
    have hall : ∀ b ∈ charShifts, b ≤ 57 := by decide
    exact Nat.pow_le_pow_right (by decide) (hall b hb)
  have hlt : x.toNat * 2 ^ b < 2 ^ 64 := by
    calc x.toNat * 2 ^ b ≤ 31 * 2 ^ 57 := Nat.mul_le_mul (by omega) hle
      _ < 2 ^ 64 := by decide
  apply BitVec.eq_of_toNat_eq
  rw [BitVec.toNat_ushiftRight, BitVec.toNat_shiftLeft, Nat.shiftLeft_eq, Nat.mod_eq_of_lt hlt,
    Nat.shiftRight_eq_div_pow, Nat.mul_div_cancel _ (Nat.two_pow_pos b)]

/-- The codes of a label stand at the shifts in their order, with nothing behind them. -/
theorem makeidLoop_codes {bs : List Nat} {res : MeterId} (hbs : ∀ b ∈ bs, b ∈ charShifts)
    (hd : bs.Pairwise fun a b => charMask a &&& charMask b = 0) (hr : ∀ b ∈ bs, res &&& charMask b = 0)
    (hlen : name.length ≤ bs.length) (hname : ∀ c ∈ name, c ∈ nameChars) :
    bs.map (fun b => (makeidLoop bs res name &&& charMask b) >>> b) =
      name.map asciiCode ++ List.replicate (bs.length - name.length) 0 := by
  induction name generalizing bs res with
  | nil =>
    have hzero : ∀ b ∈ bs, (res &&& charMask b) >>> b = 0 := by
      intro b hb
      rw [hr b hb]
      exact BitVec.zero_ushiftRight
    have hres : makeidLoop bs res [] = res := by cases bs <;> rfl
    rw [hres, List.map_congr_left hzero]
    exact List.map_const'
  | cons c crsr ih =>
    cases bs with
    | nil => cases hlen
    | cons b bs =>
      obtain ⟨hb, hd⟩ := List.pairwise_cons.mp hd
      obtain ⟨h128, -, -, h32, -⟩ := nameChars_coded c (hname c List.mem_cons_self)
      have hstep : makeidLoop (b :: bs) res (c :: crsr) =
          makeidLoop bs (res ||| asciiCode c <<< b) crsr := if_pos h128
      have hother : ∀ b' ∈ bs, charMask b' &&& charMask b = 0 := by
        intro b' hb'
        rw [BitVec.and_comm, hb b' hb']
      have hhead : (res ||| asciiCode c <<< b) &&& charMask b = asciiCode c <<< b := by
        rw [BitVec.and_or_distrib_right, hr b List.mem_cons_self, ← asciiCode_shift]
        exact BitVec.zero_or
      have hres : ∀ b' ∈ bs, (res ||| asciiCode c <<< b) &&& charMask b' = 0 := by
        intro b' hb'
        rw [BitVec.and_or_distrib_right, hr b' (List.mem_cons_of_mem _ hb'), asciiCode_shift,
          BitVec.and_assoc, hb b' hb']
        simp
      rw [hstep, List.map_cons, makeidLoop_and _ _ _ hother, hhead,
        shift_back h32 (hbs b List.mem_cons_self),
        ih (fun b' hb' => hbs b' (List.mem_cons_of_mem _ hb')) hd hres (Nat.le_of_succ_le_succ hlen)
          fun c' hc' => hname c' (List.mem_cons_of_mem _ hc')]
      rw [List.map_cons, List.length_cons, List.length_cons, Nat.add_sub_add_right, List.cons_append]

theorem makeid_codes (hname : IsName name) (htype : IsType type) :
    charShifts.map (charCode (makeid name type)) =
      name.map asciiCode ++ List.replicate (11 - name.length) 0 := by
  have hzero : ∀ b ∈ charShifts, type &&& charMask b = 0 := by
    intro b hb
    have hall : ∀ b ∈ charShifts, MMASK_TYPE &&& charMask b = 0 := by decide
    rw [← htype, BitVec.and_assoc, hall b hb]
    simp
  have hcode : ∀ b ∈ charShifts, charCode (makeid name type) b =
      (makeidLoop charShifts type name &&& charMask b) >>> b := fun b hb => (charMask_code hb _).symm
  rw [List.map_congr_left hcode]
  exact makeidLoop_codes (fun _ hb => hb) charMask_disjoint hzero hname.short hname.chars

theorem idChars_makeid (hname : IsName name) (htype : IsType type) :
    idChars (makeid name type) = name ++ List.replicate (11 - name.length) 32 := by
  have hback : ∀ c ∈ name, idChar (asciiCode c) = c := fun c hc => (nameChars_coded c (hname.chars c hc)).2.1
  have hsplit : charShifts.map (fun b => idChar (charCode (makeid name type) b)) =
      (charShifts.map (charCode (makeid name type))).map idChar := by
    rw [List.map_map]
    rfl
  rw [idChars_eq, hsplit, makeid_codes hname htype, List.map_append, List.map_map, List.map_replicate]
  congr 1
  exact (List.map_congr_left hback).trans (List.map_id _)

theorem idName_makeid (hname : IsName name) (htype : IsType type) : idName (makeid name type) = name := by
  rw [idName, idChars_makeid hname htype, rdropWhile_replicate, List.rdropWhile_eq_self_iff]
  intro hne
  have hlast := nameChars_coded _ (hname.chars _ (List.getLast_mem hne))
  simpa using hlast.2.2.1

theorem id2str_makeid (hname : IsName name) (htype : IsType type) : id2str (makeid name type) = name := by
  have hidname := idName_makeid hname htype
  have hne : idName (makeid name type) ≠ [] := by
    rw [hidname]
    exact hname.nonempty
  rw [id2str_eq hne, hidname]

theorem makeid_injective {type' : MeterId} (hp : IsName p) (hq : IsName q) (htype : IsType type)
    (htype' : IsType type') (h : makeid p type = makeid q type') : p = q := by
  rw [← id2str_makeid hp htype, h, id2str_makeid hq htype']

/-! ### Names with a path -/

/-- A name of a parent and a node under it, with nothing under that. -/
structure IsPath (p s : List UInt8) : Prop where
  name : IsName (p ++ 47 :: s)
  parent : p ≠ []
  node : s ≠ []
  parent_slash : 47 ∉ p
  node_slash : 47 ∉ s

theorem IsPath.isName (h : IsPath p s) : IsName p :=
  ⟨h.parent, (List.length_append ▸ h.name.short).trans' (Nat.le_add_right _ _),
    fun c hc => h.name.chars c (List.mem_append_left _ hc)⟩

theorem isType_int : IsType MTYPE_INT := rfl

/-- A name is the whole text up to the blanks behind it. -/
theorem take_idEnd (hs : s ≠ []) (hlast : ∀ c ∈ s, c ≠ 32) (n : Nat) :
    (s ++ List.replicate n 32).take (idEnd (s ++ List.replicate n 32) + 1) = s := by
  have hpos := List.length_pos_iff.mpr hs
  have hblanks : ((s ++ List.replicate n 32).reverse.takeWhile (· == 32)).length = n := by
    rw [List.reverse_append, List.reverse_replicate, List.takeWhile_append_of_pos (by simp)]
    have hnone : s.reverse.takeWhile (· == 32) = [] := by
      rw [List.takeWhile_eq_nil_iff]
      intro h
      simpa using hlast _ (List.mem_reverse.mp (List.getElem_mem h))
    rw [hnone, List.append_nil, List.length_replicate]
  have hend : idEnd (s ++ List.replicate n 32) + 1 = s.length := by
    rw [idEnd, hblanks, List.length_append, List.length_replicate]
    omega
  rw [hend]
  exact List.take_left

theorem nodeid2str_makeid (h : IsPath p s) (htype : IsType type) :
    nodeid2str (makeid (p ++ 47 :: s) type) = s := by
  have hp : ∀ c ∈ p, (c != 47) = true := fun c hc => bne_iff_ne.mpr fun h47 => h.parent_slash (h47 ▸ hc)
  have hs : ∀ c ∈ s, (c != 47) = true := fun c hc => bne_iff_ne.mpr fun h47 => h.node_slash (h47 ▸ hc)
  have hblank : ∀ c ∈ s, c ≠ 32 := fun c hc =>
    (nameChars_coded c (h.name.chars c (List.mem_append_right _ (List.mem_cons_of_mem _ hc)))).2.2.1
  have hnode : ((idChars (makeid (p ++ 47 :: s) type)).dropWhile (· != 47)).filter (· != 47) =
      s ++ List.replicate (11 - (p ++ 47 :: s).length) 32 := by
    rw [idChars_makeid h.name htype, List.append_assoc, List.dropWhile_append_of_pos hp, List.cons_append,
      List.dropWhile_cons_of_neg (by simp), List.filter_cons_of_neg (by simp), List.filter_append,
      List.filter_eq_self.mpr hs, List.filter_eq_self.mpr (by simp)]
  rw [nodeid2str, hnode]
  exact take_idEnd h.node hblank _

theorem and_charMask_of_code {c : UInt8} (hc : c ∈ nameChars) (hb : b ∈ charShifts)
    (h : charCode id b = asciiCode c) : id &&& charMask b = asciiCode c <<< b := by
  rw [asciiCode_shift, and_charMask_eq hb, h, ← charMask_code hb, ← asciiCode_shift]
  exact (shift_back (nameChars_coded c hc).2.2.2.1 hb).symm

/-- The prefix is built as its own id is, character by character up to the slash. -/
theorem idgetprefixLoop_eq {bs : List Nat} {res : MeterId} {rest : List MeterId}
    (hbs : ∀ b ∈ bs, b ∈ charShifts) (hp : ∀ c ∈ p, c ∈ nameChars) (h47 : 47 ∉ p)
    (hcodes : bs.map (charCode id) = p.map asciiCode ++ asciiCode 47 :: rest) :
    idgetprefixLoop id bs res = makeidLoop bs res p := by
  induction p generalizing bs res with
  | nil =>
    cases bs with
    | nil => cases hcodes
    | cons b bs =>
      have hcode : charCode id b = asciiCode 47 := (List.cons.inj hcodes).1
      have hslash : idChar ((id &&& charMask b) >>> b) = 47 := by
        rw [charMask_code (hbs b List.mem_cons_self), hcode]
        rfl
      exact if_pos hslash
  | cons c p ih =>
    cases bs with
    | nil => cases hcodes
    | cons b bs =>
      have hb := hbs b List.mem_cons_self
      have hc := hp c List.mem_cons_self
      obtain ⟨h128, hback, -⟩ := nameChars_coded c hc
      obtain ⟨hcode, hcodes⟩ := List.cons.inj hcodes
      have hne : ¬ idChar ((id &&& charMask b) >>> b) = 47 := by
        rw [charMask_code hb, hcode, hback]
        exact fun h => h47 (h ▸ List.mem_cons_self)
      have hleft : idgetprefixLoop id (b :: bs) res = idgetprefixLoop id bs (res ||| (id &&& charMask b)) :=
        if_neg hne
      have hright : makeidLoop (b :: bs) res (c :: p) = makeidLoop bs (res ||| asciiCode c <<< b) p := if_pos h128
      rw [hleft, hright, and_charMask_of_code hc hb hcode]
      exact ih (fun b' hb' => hbs b' (List.mem_cons_of_mem _ hb')) (fun c' hc' => hp c' (List.mem_cons_of_mem _ hc'))
        (fun h => h47 (List.mem_cons_of_mem _ h)) hcodes

theorem idgetprefix_makeid (h : IsPath p s) (htype : IsType type) :
    idgetprefix (makeid (p ++ 47 :: s) type) = makeid p MTYPE_INT := by
  have hname : makeid (p ++ 47 :: s) type &&& MMASK_NAME ≠ 0 := by
    intro h0
    have hchars : idChars (makeid (p ++ 47 :: s) type) = idChars 0 :=
      idChars_of_name_eq (h0.trans BitVec.zero_and.symm)
    have hnone : idName (makeid (p ++ 47 :: s) type) = [] := by
      rw [idName, hchars]
      decide
    exact h.name.nonempty ((idName_makeid h.name htype).symm.trans hnone)
  have hcodes := makeid_codes h.name htype
  rw [List.map_append, List.map_cons, List.append_assoc, List.cons_append] at hcodes
  rw [ idgetprefix, if_neg hname]
  exact idgetprefixLoop_eq (fun _ hb => hb) h.isName.chars h.parent_slash hcodes

/-- An id of which only the first characters are left. -/
theorem idChars_and_idmask {k : Nat} (hk : k ≤ 11) (id : MeterId) :
    idChars (id &&& idmask k) = (idChars id).take k ++ List.replicate (11 - k) 32 := by
  have hall : ∀ k ∈ List.range 12, (∀ b ∈ charShifts.take k, idmask k &&& charMask b = charMask b) ∧
      ∀ b ∈ charShifts.drop k, idmask k &&& charMask b = 0 := by
    decide +kernel
  obtain ⟨hin, hout⟩ := hall k (List.mem_range.mpr (Nat.lt_succ_of_le hk))
  have hleft : ∀ b ∈ charShifts.take k, idChar (charCode (id &&& idmask k) b) = idChar (charCode id b) := by
    intro b hb
    have hmem := List.mem_of_mem_take hb
    rw [← charMask_code hmem, BitVec.and_assoc, hin b hb, charMask_code hmem]
  have hright : ∀ b ∈ charShifts.drop k, idChar (charCode (id &&& idmask k) b) = 32 := by
    intro b hb
    rw [← charMask_code (List.mem_of_mem_drop hb), BitVec.and_assoc, hout b hb]
    simp [idChar, IDTABLE]
  have hlen : (charShifts.drop k).length = 11 - k := List.length_drop
  calc idChars (id &&& idmask k)
      = (charShifts.take k ++ charShifts.drop k).map fun b => idChar (charCode (id &&& idmask k) b) := by
        rw [List.take_append_drop, idChars_eq]
    _ = (charShifts.take k).map (fun b => idChar (charCode id b)) ++ List.replicate (11 - k) 32 := by
        rw [List.map_append, List.map_congr_left hleft, List.map_congr_left hright, List.map_const', hlen]
    _ = (idChars id).take k ++ List.replicate (11 - k) 32 := by
        rw [idChars_eq, List.map_take]

theorem idhaspath_makeid (h : IsPath p s) (htype : IsType type) :
    idhaspath (makeid (p ++ 47 :: s) type) = idmask p.length := by
  have hfind : (idChars (makeid (p ++ 47 :: s) type)).findIdx? (· == 47) = some p.length := by
    have hnone : p.findIdx? (· == 47) = none := by
      rw [List.findIdx?_eq_none_iff]
      intro c hc
      simpa using fun h47 : c = 47 => h.parent_slash (h47 ▸ hc)
    rw [idChars_makeid h.name htype, List.append_assoc, List.findIdx?_append, hnone, List.cons_append,
      List.findIdx?_cons]
    simp
  rw [idhaspath, hfind]

theorem id2str_parent (h : IsPath p s) (htype : IsType type) :
    id2str (makeid (p ++ 47 :: s) type &&& idhaspath (makeid (p ++ 47 :: s) type)) = p := by
  have hblank : ∀ c ∈ p, c ≠ 32 := fun c hc => (nameChars_coded c (h.isName.chars c hc)).2.2.1
  rw [idhaspath_makeid h htype, id2str, idChars_and_idmask h.isName.short, idChars_makeid h.name htype,
    List.append_assoc, List.take_left]
  exact take_idEnd h.parent hblank _

/-- The mask of a name's own id takes in the whole name. -/
theorem id2mask_self (hq : IsName q) (htype : IsType type) :
    makeid q type &&& id2mask (makeid q type) = makeid q type &&& MMASK_NAME := by
  set pfx := makeid q type
  obtain ⟨⟨bs₁, bs₂, hbs, hin, hout, hhead⟩, -⟩ := id2maskLoop_spec pfx 0 charMask_disjoint (by simp)
  have hmem : ∀ b ∈ bs₁ ++ bs₂, b ∈ charShifts := fun b hb => hbs ▸ hb
  have hcodes := makeid_codes hq htype
  rw [hbs, List.map_append] at hcodes
  -- the mask ends where the codes are 0, so behind the name
  have hlen : bs₂ ≠ [] → q.length ≤ bs₁.length := by
    intro hne
    obtain ⟨b, bs, rfl⟩ := List.exists_cons_of_ne_nil hne
    by_contra hlt
    have hcode : charCode pfx b = 0 :=
      (and_charMask_eq_zero (hmem b (List.mem_append_right _ List.mem_cons_self))).mp (hhead b rfl)
    have hget : (bs₁.map (charCode pfx) ++ (b :: bs).map (charCode pfx))[bs₁.length]? =
        (q.map asciiCode ++ List.replicate (11 - q.length) 0)[bs₁.length]? := by rw [hcodes]
    rw [List.getElem?_append_right (by rw [List.length_map]), List.length_map, Nat.sub_self, List.map_cons,
      List.getElem?_cons_zero, List.getElem?_append_left (by rw [List.length_map]; omega), hcode] at hget
    obtain ⟨c, hc, hzero⟩ := List.mem_map.mp (List.mem_of_getElem? hget.symm)
    exact (nameChars_coded c (hq.chars c hc)).2.2.2.2 hzero
  have hbehind : ∀ b ∈ bs₂, pfx &&& charMask b = 0 := by
    intro b hb
    have hle := hlen (List.ne_nil_of_mem hb)
    have hdrop := congrArg (List.drop bs₁.length) hcodes
    rw [List.drop_left' (List.length_map _), List.drop_append,
      List.drop_of_length_le (by rw [List.length_map]; exact hle), List.nil_append] at hdrop
    have hcode : charCode pfx b ∈ bs₂.map (charCode pfx) := List.mem_map_of_mem hb
    rw [hdrop] at hcode
    exact (and_charMask_eq_zero (hmem b (List.mem_append_right _ hb))).mpr
      (List.eq_of_mem_replicate (List.mem_of_mem_drop hcode))
  apply eq_of_chars
  · intro b hb
    rw [BitVec.and_assoc, BitVec.and_assoc, BitVec.and_comm MMASK_NAME, charMask_name hb]
    rw [hbs] at hb
    obtain hb | hb := List.mem_append.mp hb
    · rw [id2mask, (hin b hb).2]
    · rw [id2mask, hout b hb, hbehind b hb]
      simp
  · have hother : MMASK_NAME &&& MMASK_OTHER = 0x60 := by decide
    have htype' : type &&& 0x60 = 0 := by
      rw [← htype, BitVec.and_assoc]
      exact BitVec.and_zero
    rw [BitVec.and_assoc, BitVec.and_assoc, id2mask_other, hother]
    exact BitVec.and_zero.trans ((makeid_and q type 0x60 (by decide)).trans htype').symm

/-- Only its own parent is found to be the prefix of a name. -/
theorem idisprefix_makeid {type' : MeterId} (h : IsPath p s) (htype : IsType type) (hq : IsName q)
    (htype' : IsType type') :
    idisprefix (makeid q type') (makeid (p ++ 47 :: s) type) (id2mask (makeid q type')) = true ↔ q = p := by
  set pfx := makeid q type'
  set id := makeid (p ++ 47 :: s) type
  have hunder : idisprefix pfx id ( id2mask pfx) = true ↔ isUnder pfx id = true := by
    refine ⟨fun hpre => ?_, fun hunder => (Bool.and_eq_true_iff.mp hunder).2⟩
    have hmask : id &&& id2mask pfx = pfx &&& id2mask pfx := by
      by_contra hne
      rw [ idisprefix, if_pos hne] at hpre
      cases hpre
    exact Bool.and_eq_true_iff.mpr ⟨beq_iff_eq.mpr (hmask.trans (id2mask_self hq htype')), hpre⟩
  have hsearch : ¬ Unsearchable pfx := by
    rintro (hbits | hblank)
    · refine hbits ((makeid_and q type' 0x60 (by decide)).trans ?_)
      rw [← htype', BitVec.and_assoc]
      exact BitVec.and_zero
    · rw [idName_makeid hq htype'] at hblank
      exact (nameChars_coded 32 (hq.chars 32 hblank)).2.2.1 rfl
  rw [hunder, isUnder_iff, IsChild, idName_makeid hq htype', idName_makeid h.name htype]
  constructor
  · rintro ⟨-, t, ht⟩
    rw [List.append_assoc, List.singleton_append] at ht
    obtain ⟨a, hp, hs⟩ | ⟨a, hq', ht'⟩ := List.append_eq_append_iff.mp ht
    · cases a with
      | nil => rw [hp, List.append_nil]
      | cons c a =>
        obtain rfl := (List.cons.inj hs).1
        exact absurd (hp ▸ List.mem_append_right _ List.mem_cons_self) h.parent_slash
    · cases a with
      | nil => rw [hq', List.append_nil]
      | cons c a =>
        have hin : 47 ∈ s := by
          rw [(List.cons.inj ht').2]
          exact List.mem_append_right _ List.mem_cons_self
        exact absurd hin h.node_slash
  · rintro rfl
    exact ⟨hsearch, s, by rw [List.append_assoc, List.singleton_append]⟩

/-- Every name is read back from its id, whatever its type, and ids of different names are different.
An id of two levels has the id of its parent as its prefix, the two levels are shown as the texts they
are, and of all names only the parent is found to be its prefix. -/
theorem meter_names :
    (∀ name type, IsName name → IsType type → id2str (makeid name type) = name) ∧
      (∀ p q type type', IsName p → IsName q → IsType type → IsType type' →
        makeid p type = makeid q type' → p = q) ∧
      ∀ p s type, IsPath p s → IsType type →
        idgetprefix (makeid (p ++ 47 :: s) type) = makeid p MTYPE_INT ∧
          id2str (makeid (p ++ 47 :: s) type &&& idhaspath (makeid (p ++ 47 :: s) type)) = p ∧
          nodeid2str (makeid (p ++ 47 :: s) type) = s ∧
          ∀ q type', IsName q → IsType type' →
            ( idisprefix (makeid q type') (makeid (p ++ 47 :: s) type) ( id2mask (makeid q type')) = true ↔
              q = p) :=
  ⟨fun _ _ hname htype => id2str_makeid hname htype,
    fun _ _ _ _ hp hq htype htype' h => makeid_injective hp hq htype htype' h,
    fun _ _ _ h htype => ⟨idgetprefix_makeid h htype, id2str_parent h htype, nodeid2str_makeid h htype,
      fun _ _ hq htype' => idisprefix_makeid h htype hq htype'⟩⟩

/-- The names `top/pcpu` and `top`, a fraction and a text. -/
theorem meter_names_top : id2str (makeid [116, 111, 112] MTYPE_STR) = [116, 111, 112] ∧
    (makeid [116, 111, 112] MTYPE_STR = makeid [116, 111, 112] MTYPE_STR →
      ([116, 111, 112] : List UInt8) = [116, 111, 112]) ∧
    idgetprefix (makeid ([116, 111, 112] ++ 47 :: [112, 99, 112, 117]) MTYPE_FRAC) =
      makeid [116, 111, 112] MTYPE_INT ∧
    ( idisprefix (makeid [116, 111, 112] MTYPE_STR)
        (makeid ([116, 111, 112] ++ 47 :: [112, 99, 112, 117]) MTYPE_FRAC)
        ( id2mask (makeid [116, 111, 112] MTYPE_STR)) = true ↔
      ([116, 111, 112] : List UInt8) = [116, 111, 112]) := by
  obtain ⟨hshown, hinj, hpath⟩ := meter_names
  have htop : IsName [116, 111, 112] := ⟨by decide +kernel, by decide +kernel, by decide +kernel⟩
  have hpcpu : IsPath [116, 111, 112] [112, 99, 112, 117] :=
    ⟨⟨by decide +kernel, by decide +kernel, by decide +kernel⟩, by decide +kernel,
      by decide +kernel, by decide +kernel, by decide +kernel⟩
  obtain ⟨hbelow, -, -, hself⟩ := hpath _ _ MTYPE_FRAC hpcpu rfl
  exact ⟨hshown _ _ htop rfl, hinj _ _ _ _ htop htop rfl rfl, hbelow, hself _ MTYPE_STR htop rfl⟩

end Opticon
