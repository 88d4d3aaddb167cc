import Opticon.Var.Document

/-! Dictionaries of texts: what holds of every key and its text is kept when a text is set, and
when the dictionary is stored and read again. -/

namespace Opticon

variable {ihash : BitVec 32} {P : FString → List UInt8 → Prop}

/-- A text under a key. -/
def Var.IsText (P : FString → List UInt8 → Prop) (c : Var) : Prop :=
  ∃ id h s, c = .leaf id h (.str s) ∧ P id s

/-- A dict of texts. -/
def Var.Texts (P : FString → List UInt8 → Prop) (v : Var) : Prop :=
  ∃ h cs, v = .dict FString.empty h cs ∧ ∀ c ∈ cs, c.IsText P

/-- A key and a text that can be stored. -/
structure StorableText (id : FString) (s : List UInt8) : Prop where
  key : id.IsKey
  nul : 0 ∉ s
  length_le : s.length ≤ 2046

theorem Var.IsText.setHashcode {c : Var} (hc : c.IsText P) (h : BitVec 32) :
    (c.setHashcode h).IsText P := by
  obtain ⟨id, h', s, rfl, hs⟩ := hc
  exact ⟨id, h, s, rfl, hs⟩

theorem forall_mem_set {α : Type} {Q : α → Prop} {cs : List α} {i : Nat} {c : α}
    (hcs : ∀ x ∈ cs, Q x) (hc : Q c) : ∀ x ∈ cs.set i c, Q x := by
  intro x hx
  obtain hx | rfl := List.mem_or_eq_of_mem_set hx
  · exact hcs x hx
  · exact hc

theorem forall_isText_rehashed {cs cs' : List Var} (h : List.Forall₂ (Var.Rehashed ihash) cs cs')
    (hcs : ∀ c ∈ cs, c.IsText P) : ∀ c ∈ cs', c.IsText P :=
  Var.forall_rehashed (P := Var.IsText P) (fun _ h hc => hc.setHashcode h) h hcs

variable (ihash) in
/-- What is found in a dict of texts is a text. -/
theorem Var.Texts.findKey {v : Var} (hv : v.Texts P) (key : List UInt8) :
    (varFindKey ihash v key).1.Texts P ∧
      ∀ p, (varFindKey ihash v key).2 = some p →
        ∃ id h s, p.2 = .leaf id h (.str s) ∧ id.str = key ∧ P id s := by
  obtain ⟨h, cs, rfl, hcs⟩ := hv
  refine ⟨⟨h, _, rfl, forall_isText_rehashed (findKeyIn_rehashed ihash key cs) hcs⟩, ?_⟩
  rintro ⟨i, c⟩ hfound
  obtain ⟨-, hmem, hkey⟩ := findKeyIn_some hfound
  obtain ⟨id, h', s, rfl, hs⟩ := hcs c hmem
  exact ⟨id, h', s, rfl, hkey, hs⟩

theorem Var.IsText.printable {c : Var} (hc : c.IsText P) (hP : ∀ id s, P id s → StorableText id s) :
    c.Printable := by
  obtain ⟨id, h, s, rfl, hs⟩ := hc
  have hlen := length_varEscapeStr_le s
  have hle := (hP id s hs).length_le
  refine .leaf ?_
  simp only [valueText, List.length_append, show (asc "\"").length = 1 from rfl]
  omega

theorem Var.Texts.printable {v : Var} (hv : v.Texts P) (hP : ∀ id s, P id s → StorableText id s) :
    v.Printable := by
  obtain ⟨h, cs, rfl, hcs⟩ := hv
  exact .dict fun c hc => (hcs c hc).printable hP

theorem Var.Texts.mono {v : Var} {Q : FString → List UInt8 → Prop} (hv : v.Texts P)
    (hPQ : ∀ c id h s, c ∈ v.children → c = .leaf id h (.str s) → P id s → Q id s) : v.Texts Q := by
  obtain ⟨h, cs, rfl, hcs⟩ := hv
  refine ⟨h, cs, rfl, fun c hc => ?_⟩
  obtain ⟨id, h', s, rfl, hs⟩ := hcs c hc
  exact ⟨id, h', s, rfl, hPQ _ id h' s hc rfl hs⟩

variable (ihash) in
/-- A text is set in a dict of texts. -/
theorem Var.Texts.setForkey {v : Var} (hv : v.Texts P) (key : List UInt8) {s : List UInt8}
    (hkey : (FString.strncpy key).str ≠ []) (hs : P (FString.strncpy key) s) :
    ∃ w, varSetForkey ihash v key (.str s) = w ∧ w.Texts P ∧ w.children ≠ [] := by
  obtain ⟨h, cs, rfl, hcs⟩ := hv
  have hr := varGetOrMake_dict ihash key FString.empty h cs
  refine ⟨_, rfl, ?_⟩
  unfold varSetForkey
  generalize varGetOrMake ihash (.dict FString.empty h cs) key = r at hr ⊢
  cases hr with
  | @found cs' i res hre hget hmem hid =>
    have hcs' := forall_isText_rehashed hre hcs
    obtain ⟨id, h', old, rfl, -⟩ := hcs' res (List.mem_of_getElem? hget)
    have hstr : FString.strncpy key = id := by
      rw [← hid]
      exact FString.strncpy_str id
    rw [hstr] at hs
    refine ⟨⟨h, _, rfl, forall_mem_set hcs' ⟨id, h', s, rfl, hs⟩⟩, fun hnil => ?_⟩
    have hlen : (cs'.set i (.leaf id h' (.str s))).length = 0 := congrArg List.length hnil
    rw [List.length_set] at hlen
    rw [List.eq_nil_of_length_eq_zero hlen] at hget
    cases hget
  | @linked cs' i hre _ _ hi =>
    subst hi
    have hcs' := forall_isText_rehashed hre hcs
    have hput := put_last true FString.empty h cs'
      (.leaf (FString.strncpy key) (hashToken ihash key) .null)
      (.leaf (FString.strncpy key) (hashToken ihash key) (.str s))
    change Texts P ((Var.node true FString.empty h _).put _ _) ∧
      ((Var.node true FString.empty h _).put _ _).children ≠ []
    dsimp only [varSet]
    rw [hput]
    refine ⟨⟨h, _, rfl, forall_mem_append_singleton hcs' ⟨_, _, s, rfl, hs⟩⟩, ?_⟩
    simp [Var.node, Var.children]
  | orphan _ hnil => exact absurd hnil hkey

variable (ihash) in
/-- A dict of texts is read back text by text. -/
theorem Var.Texts.rereadTexts {v : Var} (hv : v.Texts P) (hP : ∀ id s, P id s → StorableText id s)
    {cs : List Var} (hcs : ∀ c ∈ cs, c.IsText P) :
    ∃ w, rereadItems ihash true 0 v cs = some w ∧ w.Texts P ∧
      (v.children ≠ [] ∨ cs ≠ [] → w.children ≠ []) := by
  induction cs generalizing v with
  | nil => exact ⟨v, rfl, hv, fun h => h.resolve_right fun h => h rfl⟩
  | cons c cs ih =>
    obtain ⟨id, h, s, rfl, hs⟩ := hcs c List.mem_cons_self
    have hkey := (hP id s hs).key
    obtain ⟨v', hset, hv', hne⟩ := hv.setForkey ihash id.str
      (by rw [FString.strncpy_str]; exact hkey.ne) (by rw [FString.strncpy_str]; exact hs)
    obtain ⟨w, hw, htexts, hchildren⟩ := ih hv' fun c hc => hcs c (List.mem_cons_of_mem _ hc)
    refine ⟨w, ?_, htexts, fun _ => hchildren (.inl hne)⟩
    have hitem : rereadItem ihash true 0 v (.leaf id h (.str s)) = some v' := by
      rw [← hset, rereadItem, rereadKey_eq hkey.newline]
      rfl
    rw [rereadItems, hitem]
    exact hw

variable (ihash) in
/-- A dict of texts that is not empty is stored, and what is read again is a document of texts. -/
theorem Var.Texts.reread {v : Var} (hv : v.Texts P) (hP : ∀ id s, P id s → StorableText id s)
    (hne : v.children ≠ []) :
    (varDump v).1 = true ∧ ∃ w, varLoadJson ihash (some (varDump v).2) = .ok (some w) ∧
      w.Document ihash ∧ w.Texts P := by
  obtain ⟨h, cs, rfl, hcs⟩ := hv
  have hformed : (Var.dict FString.empty h cs).Formed := by
    refine .dict (fun c hc => ?_) fun c hc => ?_
    · obtain ⟨id, h', s, rfl, hs⟩ := hcs c hc
      exact (hP id s hs).key.ne
    · obtain ⟨id, h', s, rfl, hs⟩ := hcs c hc
      exact .leaf (hP id s hs).nul
  have hp : (Var.dict FString.empty h cs).Printable := .dict fun c hc => (hcs c hc).printable hP
  have hcontent : (Var.dict FString.empty h cs).Content true := .dict hformed
  constructor
  · change (varWriteIndented (.dict FString.empty h cs) (.port _) 4).1 = true
    rw [hp.written]
  · have hread := reading_documentText ihash hcontent hp
    have hstart : (Var.dict FString.empty 0 []).Texts P := ⟨0, [], rfl, by simp⟩
    obtain ⟨w, hw, htexts, hchildren⟩ := hstart.rereadTexts ihash hP hcs
    obtain ⟨c, ds, rfl⟩ := List.exists_cons_of_ne_nil hne
    change _ = rereadItems ihash true 0 (varAlloc .null) (c :: ds) at hread
    rw [rereadItems_null, hw] at hread
    obtain ⟨bs, rfl, htidy⟩ := rereadItems_tidy (n := default_max_json_depth)
      (fun x hx => (hformed.child x hx).keepsTidy) true (Var.Tidy.node_nil _ true _ _) rfl hw
    have hparse := varParseJson_finish ihash (varAlloc .null)
      (.ofBytes (varDump (.dict FString.empty h (c :: ds))).2)
    rw [varDump_eq hp, CString.ofBytes_bytes hcontent.nul_documentText] at hparse
    obtain ⟨⟨res, w'⟩, hfin, hres⟩ := Option.bind_eq_some_iff.mp hread
    rw [hfin] at hparse
    obtain ⟨error, line, hparse⟩ := hparse
    simp only at hres
    split at hres
    case isFalse => cases hres
    case isTrue htrue =>
      obtain rfl := Option.some.inj hres
      rw [htrue] at hparse
      rw [varDump_eq hp]
      refine ⟨_, by simp only [varLoadJson, hparse]; rfl, ⟨?_, ⟨0, bs, rfl⟩, hchildren (.inr hne)⟩,
        htexts⟩
      exact htidy.clean ((varParseJson_formed hparse).1.formed fun hl => hl) (htexts.printable hP)

/-- What is in a clean dict is found under its key. -/
theorem Var.Clean.varChild_self {n : Nat} {id : FString} {h : BitVec 32} {cs : List Var}
    (hv : (Var.dict id h cs).Clean ihash (n + 1)) {c : Var} (hc : c ∈ cs) :
    varChild ihash (.dict id h cs) c.id.str = some c := by
  have hnodup : (cs.map Var.id).Nodup := by
    cases hv with
    | dict hnd _ _ => exact hnd
  obtain ⟨i, d, hget, hid, hr⟩ | ⟨hnew, -⟩ := varFindKey_clean hv c.id.str
  · have hsame : d = c := List.inj_on_of_nodup_map hnodup (List.mem_of_getElem? hget) hc
      (FString.ext hid)
    rw [varChild, hr, hsame]
    rfl
  · exact absurd rfl (hnew c hc)

theorem Var.Document.varChild_self {v c : Var} (hv : v.Document ihash) (hc : c ∈ v.children) :
    varChild ihash v c.id.str = some c := by
  obtain ⟨hclean, ⟨h, cs, rfl⟩, -⟩ := hv
  exact hclean.varChild_self hc

end Opticon
