import Opticon.Api.TenantCmds
import Opticon.Lib.Outcome
import Opticon.Var.Slots

/-! What the edits of the metadata work on, and what they leave alone. -/

namespace Opticon

variable {ihash : BitVec 32} {key k : List UInt8}

theorem inDictForkey_eq (f : Option Var → Except Halt (Option Var)) (self : Option Var) :
    inDictForkey ihash key f self =
      f (dictSlot ihash key self) >>= fun child' => .ok (dictPlaced ihash key self child') := by
  cases self with
  | none => rfl
  | some v =>
    simp only [inDictForkey, dictSlot, dictPlaced, varGetDict]
    cases varGetDictForkey ihash v key with
    | mk v r => cases r <;> rfl

/-- The definition of a meter is in a slot of a slot. -/
theorem meterIn_eq (ctx : MetaCtx) (id : UrlText) (doc : Var) : meterIn ctx id doc =
    dictSlot ctx.ihash id (dictSlot ctx.ihash (asc "meter") (some doc)) := by
  unfold meterIn
  change _ = dictSlot ctx.ihash id (varGetDict ctx.ihash doc (asc "meter")).2
  cases (varGetDict ctx.ihash doc (asc "meter")).2 <;> rfl

section Keys

theorem put_root (v : Var) (place : Option Nat) (c : Var) :
    (v.put place c).id = v.id ∧ (v.put place c).hashcode = v.hashcode := by
  cases place <;> cases v <;> exact ⟨rfl, rfl⟩

theorem varFindKey_root (v : Var) (key : List UInt8) :
    (varFindKey ihash v key).1.id = v.id ∧ (varFindKey ihash v key).1.hashcode = v.hashcode := by
  cases v with
  | leaf id h val => cases val <;> exact ⟨rfl, rfl⟩
  | dict _ _ _ => exact ⟨rfl, rfl⟩
  | array _ _ _ => exact ⟨rfl, rfl⟩

theorem varLink_root (self parent : Var) : (varLink ihash self parent).2.1.id = parent.id ∧
    (varLink ihash self parent).2.1.hashcode = parent.hashcode := by
  simp only [varLink]
  cases parent with
  | leaf id h val => cases val <;> split <;> split <;> exact ⟨rfl, rfl⟩
  | dict _ _ _ => split <;> split <;> exact ⟨rfl, rfl⟩
  | array _ _ _ => split <;> split <;> exact ⟨rfl, rfl⟩

theorem varForkey_root (v : Var) (key : List UInt8) (make : FString → BitVec 32 → Var) :
    (varForkey ihash v key make).1.id = v.id ∧ (varForkey ihash v key make).1.hashcode = v.hashcode := by
  have hfind := @varFindKey_root ihash v key
  simp only [varForkey]
  split
  · exact hfind
  · have hlink := @varLink_root ihash (make (FString.strncpy key) (hashToken ihash key))
      (varFindKey ihash v key).1
    exact ⟨hlink.1.trans hfind.1, hlink.2.trans hfind.2⟩

theorem varSetForkey_root (v : Var) (key : List UInt8) (val : VarValue) :
    (varSetForkey ihash v key val).id = v.id ∧ (varSetForkey ihash v key val).hashcode = v.hashcode := by
  have hroot (v : Var) := @varForkey_root ihash v key fun id h => .leaf id h .null
  have hput := put_root (varGetOrMake ihash v key).1 (varGetOrMake ihash v key).2.1
    (varSet (varGetOrMake ihash v key).2.2 val)
  have hmake : (varGetOrMake ihash v key).1.id = v.id ∧ (varGetOrMake ihash v key).1.hashcode = v.hashcode := by
    cases v with
    | leaf id h old =>
      cases old with
      | null => exact hroot (.dict id h [])
      | int _ => exact hroot _
      | double _ => exact hroot _
      | str _ => exact hroot _
    | dict _ _ _ => exact hroot _
    | array _ _ _ => exact hroot _
  exact ⟨hput.1.trans hmake.1, hput.2.trans hmake.2⟩

theorem varDeleteKey_root (v : Var) (key : List UInt8) :
    (varDeleteKey ihash v key).id = v.id ∧ (varDeleteKey ihash v key).hashcode = v.hashcode := by
  cases v with
  | leaf _ _ _ => exact ⟨rfl, rfl⟩
  | array _ _ _ => exact ⟨rfl, rfl⟩
  | dict id h cs =>
    simp only [varDeleteKey, varFindKey]
    cases (findKeyIn ihash key cs).2 <;> exact ⟨rfl, rfl⟩

/-- An edit that leaves the key of a var as it is. -/
def KeepsKey (f : Option Var → Except Halt (Option Var)) : Prop :=
  ∀ v v', f (some v) = .ok v' → ∃ w, v' = some w ∧ w.id = v.id ∧ w.hashcode = v.hashcode

theorem KeepsKey.same {f : Option Var → Except Halt (Option Var)} (hf : KeepsKey f) {slot v' : Option Var}
    (h : f slot = .ok v') : SameKey slot v' := by
  rintro c c' rfl rfl
  obtain ⟨w, hw, hid, hhash⟩ := hf c _ h
  obtain rfl := Option.some.inj hw
  exact ⟨hid, hhash⟩

theorem KeepsKey.bind {f g : Option Var → Except Halt (Option Var)} (hf : KeepsKey f) (hg : KeepsKey g) :
    KeepsKey fun v => f v >>= g := by
  intro v v' h
  obtain ⟨w, hw, h⟩ := Outcome.bind_ok_iff.mp h
  obtain ⟨w, rfl, hid, hhash⟩ := hf v w hw
  obtain ⟨w', rfl, hid', hhash'⟩ := hg w v' h
  exact ⟨w', rfl, hid'.trans hid, hhash'.trans hhash⟩

theorem KeepsKey.foldlM {f : Option Var → List UInt8 → Except Halt (Option Var)} {ls : List (List UInt8)}
    (hf : ∀ l, KeepsKey fun v => f v l) : KeepsKey fun v => ls.foldlM f v := by
  induction ls with
  | nil =>
    intro v v' h
    exact ⟨v, (Except.ok.inj h).symm, rfl, rfl⟩
  | cons l ls ih => exact (hf l).bind ih

theorem inDictForkey_keepsKey (f : Option Var → Except Halt (Option Var)) :
    KeepsKey (inDictForkey ihash key f) := by
  intro v v' h
  rw [inDictForkey_eq] at h
  obtain ⟨c, -, h⟩ := Outcome.bind_ok_iff.mp h
  obtain rfl := Except.ok.inj h
  have hroot := @varForkey_root ihash v key fun i h => Var.node true i h []
  rw [← varGetDictForkey_fst] at hroot
  simp only [dictPlaced]
  generalize varGetDictForkey ihash v key = r at hroot ⊢
  obtain ⟨w, slot⟩ := r
  cases slot with
  | none => exact ⟨w, rfl, hroot⟩
  | some p =>
    have hput := put_root w p.1 (c.getD p.2)
    exact ⟨_, rfl, hput.1.trans hroot.1, hput.2.trans hroot.2⟩

variable {ctx : MetaCtx}

theorem copystr_keepsKey (req : Option Var) (x : String) : KeepsKey (copystr ctx req x) := by
  intro v v' h
  unfold copystr at h
  split at h
  · split at h
    · cases h
    · obtain rfl := Except.ok.inj h
      exact ⟨_, rfl, varSetForkey_root v _ _⟩
  · cases h
  · rename_i heq
    obtain rfl := Option.some.inj heq
    obtain rfl := Except.ok.inj h
    exact ⟨_, rfl, varDeleteKey_root _ _⟩

theorem setMeterFields_keepsKey (req : Option Var) : KeepsKey (setMeterFields ctx req) := by
  refine (copystr_keepsKey req "type").bind ((copystr_keepsKey req "description").bind ?_)
  intro v v' h
  split at h
  · cases h
  · split at h
    · exact copystr_keepsKey req "unit" v v' h
    · exact ⟨v, (Except.ok.inj h).symm, rfl, rfl⟩

theorem deleteKey_keepsKey (key : List UInt8) : KeepsKey (deleteKey ctx key) := by
  intro v v' h
  obtain rfl := Except.ok.inj h
  exact ⟨_, rfl, varDeleteKey_root v key⟩

theorem setLevels_keepsKey (watcher : Option Var) : KeepsKey (setLevels ctx watcher) := by
  have hlevel (level : List UInt8) : KeepsKey fun meter => setLevel ctx watcher level meter := by
    intro v v' h
    simp only [setLevel] at h
    split at h
    · exact ⟨v, (Except.ok.inj h).symm, rfl, rfl⟩
    · exact inDictForkey_keepsKey _ v v' h
  intro v v' h
  simp only [setLevels] at h
  split at h
  · cases h
  · exact KeepsKey.foldlM hlevel v v' h

theorem deleteLevels_keepsKey : KeepsKey fun meter =>
    watcherLevels.foldlM (fun meter level => deleteKey ctx level meter) meter :=
  KeepsKey.foldlM fun level => deleteKey_keepsKey level

end Keys

section Meters

variable {ctx : MetaCtx} {doc doc' : Var} {meterid : UrlText}
  {f : Option Var → Except Halt (Option Var)}

/-- A document is edited like a dict. -/
theorem Var.Content.asDict {doc : Var} (hdoc : doc.Content true) : ∃ cs,
    (∀ key c, dictPlaced ihash key (some doc) c =
      dictPlaced ihash key (some (.dict doc.id doc.hashcode cs)) c) ∧
    (∀ key, dictSlot ihash key (some doc) = dictSlot ihash key (some (.dict doc.id doc.hashcode cs))) ∧
    ∀ k, varChild ihash doc k = childIn ihash k cs := by
  cases hdoc with
  | null => exact ⟨[], fun _ _ => rfl, fun _ => rfl, fun _ => rfl⟩
  | @dict id h cs _ => exact ⟨cs, fun _ _ => rfl, fun _ => rfl, fun _ => rfl⟩

/-- What becomes of the metadata when something is edited below the meters. -/
structure UnderMeters (ctx : MetaCtx) (f : Option Var → Except Halt (Option Var)) (doc doc' : Var) :
    Prop where
  other : ∀ k, k ≠ asc "meter" →
    Option.Rel (Var.Rehashed ctx.ihash) (varChild ctx.ihash doc k) (varChild ctx.ihash doc' k)
  edited : ∀ m, dictSlot ctx.ihash (asc "meter") (some doc) = some m →
    ∃ m', f (some m) = .ok (some m') ∧ varChild ctx.ihash doc' (asc "meter") = some m'
  blocked : dictSlot ctx.ihash (asc "meter") (some doc) = none →
    Option.Rel (Var.Rehashed ctx.ihash) (varChild ctx.ihash doc (asc "meter"))
      (varChild ctx.ihash doc' (asc "meter"))

theorem fitsKey_meter : FitsKey (asc "meter") :=
  fitsKey_of_short (by decide) (by decide) (by decide)

theorem inDictForkey_underMeters (hdoc : doc.Content true) (hf : KeepsKey f) {v : Option Var}
    (h : inDictForkey ctx.ihash (asc "meter") f (some doc) = .ok v) :
    ∃ doc', v = some doc' ∧ UnderMeters ctx f doc doc' := by
  rw [inDictForkey_eq] at h
  obtain ⟨child', hchild, h⟩ := Outcome.bind_ok_iff.mp h
  obtain rfl := Except.ok.inj h
  obtain ⟨cs, hplaced, hslot, hcs⟩ := @Var.Content.asDict ctx.ihash doc hdoc
  have hsame := hf.same hchild
  rw [hslot] at hsame
  obtain ⟨ds, hds, hother, hown, hnone⟩ := dictPlaced_dict doc.id doc.hashcode cs fitsKey_meter hsame
  rw [← hslot] at hown hnone
  refine ⟨_, (hplaced _ _).trans hds, ?_, ?_, ?_⟩
  · intro k hk
    rw [hcs]
    exact hother k hk
  · intro m hm
    rw [hm] at hchild
    obtain ⟨w, rfl, -, -⟩ := hf m child' hchild
    exact ⟨w, hchild, hown m hm⟩
  · intro hn
    rw [hcs]
    exact hnone hn

/-- The dict under a key of a dict is edited. -/
theorem inDictForkey_placed (hf : KeepsKey f) (hkey : FitsKey key) {id : FString} {h : BitVec 32}
    {cs : List Var} {v : Option Var} (hr : inDictForkey ihash key f (some (.dict id h cs)) = .ok v) :
    ∃ ds child', v = some (.dict id h ds) ∧
      f (dictSlot ihash key (some (.dict id h cs))) = .ok child' ∧
      Placed ihash key cs child' (dictSlot ihash key (some (.dict id h cs))) ds := by
  rw [inDictForkey_eq] at hr
  obtain ⟨child', hchild, hr⟩ := Outcome.bind_ok_iff.mp hr
  obtain ⟨ds, hds, hplaced⟩ := dictPlaced_dict id h cs hkey (hf.same hchild)
  exact ⟨ds, child', (Except.ok.inj hr).symm.trans hds, hchild, hplaced⟩

/-- Only the definition under one id is edited. -/
structure EditsOnly (ihash : BitVec 32) (meterid : UrlText) (doc doc' : Var) : Prop where
  metadata : ∀ k, k ≠ asc "meter" → (varChild ihash doc' k).map Var.bare = (varChild ihash doc k).map Var.bare
  meters : ∀ k, k ≠ meterid →
    ((varChild ihash doc' (asc "meter")).bind fun m => varChild ihash m k).map Var.bare =
      ((varChild ihash doc (asc "meter")).bind fun m => varChild ihash m k).map Var.bare

/-- An edit of the meters that leaves all but one of them. -/
theorem UnderMeters.editsOnly (h : UnderMeters ctx f doc doc')
    (hf : ∀ id hash ms m', f (some (.dict id hash ms)) = .ok (some m') → ∀ k, k ≠ meterid →
      Option.Rel (Var.Rehashed ctx.ihash) (childIn ctx.ihash k ms) (varChild ctx.ihash m' k)) :
    EditsOnly ctx.ihash meterid doc doc' := by
  refine ⟨fun k hk => map_bare_of_rel (h.other k hk), fun k hk => ?_⟩
  have hslot := @dictSlot_eq ctx.ihash (asc "meter") doc
  cases hm : dictSlot ctx.ihash (asc "meter") (some doc) with
  | none =>
    have hrel := h.blocked hm
    generalize varChild ctx.ihash doc (asc "meter") = o at hrel ⊢
    generalize varChild ctx.ihash doc' (asc "meter") = o' at hrel ⊢
    cases hrel with
    | none => rfl
    | some hc => exact congrArg (Option.map Var.bare) hc.varChild
  | some m =>
    obtain ⟨id, hash, ms, rfl⟩ := dictSlot_dict hm
    obtain ⟨m', hm', hchild⟩ := h.edited _ hm
    have hrel := hf id hash ms m' hm' k hk
    rw [hchild, Option.bind_some, map_bare_of_rel hrel]
    rw [hm] at hslot
    cases hold : varChild ctx.ihash doc (asc "meter") with
    | none =>
      rw [hold] at hslot
      obtain rfl : ms = [] := by injection Option.some.inj hslot
      rfl
    | some c =>
      rw [hold] at hslot
      dsimp only at hslot
      split at hslot
      · obtain rfl := Option.some.inj hslot
        rfl
      · cases hslot

/-- An edit below a meter id. -/
theorem inMeter_editsOnly {a : MeterPath} (hdoc : doc.Content true) (hf : KeepsKey f)
    (hid : FitsKey (ctx.meterid a)) (h : inMeter ctx a f doc = .ok doc') :
    EditsOnly ctx.ihash (ctx.meterid a) doc doc' := by
  obtain ⟨v, hv, h⟩ := Outcome.bind_ok_iff.mp h
  obtain ⟨w, rfl, hw⟩ := inDictForkey_underMeters hdoc (inDictForkey_keepsKey f) hv
  obtain rfl := Except.ok.inj h
  refine hw.editsOnly fun id hash ms m' hm' k hk => ?_
  obtain ⟨ns, child', heq, -, hplaced⟩ := inDictForkey_placed hf hid hm'
  obtain rfl := Option.some.inj heq
  exact hplaced.other k hk

end Meters

end Opticon
