import Opticon.Var.CopyLaws

/-! Trees that are stored as files, edited, and stored again. -/

namespace Opticon

variable {ihash : BitVec 32}

theorem valueText_of_shown {val val' : VarValue} (h : val'.shown = val.shown) :
    valueText val' = valueText val := by
  cases val' <;> cases val <;> simp only [VarValue.shown, reduceCtorEq] at h
  case double.double dval' dval =>
    have h := VarValue.double.inj h
    have hn : (Decimal.roundEven (dval' * 10 ^ 6)).toNat =
        (Decimal.roundEven (dval * 10 ^ 6)).toNat := by
      rw [sixDecimals, sixDecimals, div_left_inj' (by norm_num)] at h
      exact_mod_cast h
    simp only [valueText, Decimal.writeFixed, hn]
  case null.null => rfl
  all_goals rw [h]

/-- Only the decimals of doubles are lost. -/
theorem VarValue.eq_of_shown {x y : VarValue} (h : x.shown = y.shown)
    (hy : ∀ dval, y ≠ .double dval) : x = y := by
  cases y with
  | double dval => exact absurd rfl (hy dval)
  | null => cases x <;> simp_all [VarValue.shown]
  | int ival => cases x <;> simp_all [VarValue.shown]
  | str sval => cases x <;> simp_all [VarValue.shown]

theorem Var.Printable.of_shown {v w : Var} (hv : v.Printable) (h : w.shown = v.shown) :
    w.Printable := by
  induction hv generalizing w with
  | leaf hlen =>
    cases w with
    | leaf _ _ _ =>
      refine .leaf ?_
      rwa [valueText_of_shown (Var.leaf.inj h).2.2]
    | dict _ _ _ => cases h
    | array _ _ _ => cases h
  | @dict id hash cs _ ih =>
    cases w with
    | leaf _ _ _ => cases h
    | array _ _ _ => cases h
    | dict id' h' cs' =>
      have hmap : cs'.map Var.shown = cs.map Var.shown := by
        simpa [Var.shown, Var.shownAll_eq_map] using (Var.dict.inj h).2.2
      refine .dict fun c' hc' => ?_
      obtain ⟨c, hc, heq⟩ := List.mem_map.mp (hmap ▸ List.mem_map_of_mem hc')
      exact ih c hc heq.symm
  | @array id hash cs _ ih =>
    cases w with
    | leaf _ _ _ => cases h
    | dict _ _ _ => cases h
    | array id' h' cs' =>
      have hmap : cs'.map Var.shown = cs.map Var.shown := by
        simpa [Var.shown, Var.shownAll_eq_map] using (Var.array.inj h).2.2
      refine .array fun c' hc' => ?_
      obtain ⟨c, hc, heq⟩ := List.mem_map.mp (hmap ▸ List.mem_map_of_mem hc')
      exact ih c hc heq.symm

/-- A document: a clean dict that is not empty. -/
structure Var.Document (ihash : BitVec 32) (v : Var) : Prop where
  clean : v.Clean ihash (default_max_json_depth + 1)
  dict : ∃ h cs, v = .dict FString.empty h cs
  nonempty : v.children ≠ []

/-- A document is written as a whole, and what is read again is the same document. -/
theorem Var.Document.reread {v : Var} (hv : v.Document ihash) :
    (varDump v).1 = true ∧ ∃ w, varLoadJson ihash (some (varDump v).2) = .ok (some w) ∧
      w.Document ihash ∧ w.shown = v.shown := by
  obtain ⟨hclean, ⟨h, cs, rfl⟩, hne⟩ := hv
  have hcontent : (Var.dict FString.empty h cs).Content true := .dict hclean.formed
  have hp := hclean.printable
  constructor
  · change (varWriteIndented (.dict FString.empty h cs) (.port _) 4).1 = true
    rw [hp.written]
  · have hround : (Var.dict FString.empty h cs).RoundTrips ihash :=
      (hcontent.roundTrips_iff rfl hp).mpr ⟨.inr hne, hclean.plain⟩
    obtain ⟨w, error, line, hparse, hshown⟩ := hround
    refine ⟨w, by simp only [varLoadJson, hparse]; rfl, ?_, hshown⟩
    have hread := reading_documentText ihash hcontent hp
    have hfin := varParseJson_returned_finish hparse
    rw [varDump_eq hp, CString.ofBytes_bytes hcontent.nul_documentText] at hfin
    rw [hfin] at hread
    obtain ⟨c, cs, rfl⟩ := List.exists_cons_of_ne_nil hne
    change some w = rereadItems ihash true 0 (varAlloc .null) (c :: cs) at hread
    rw [rereadItems_null] at hread
    obtain ⟨bs, rfl, htidy⟩ := rereadItems_tidy (n := default_max_json_depth)
      (fun x hx => (hclean.formed.child x hx).keepsTidy) true (Var.Tidy.node_nil _ true _ _) rfl
      hread.symm
    have hform := (varParseJson_formed hparse).1.formed (fun hl => hl)
    refine ⟨htidy.clean hform (hp.of_shown hshown), ⟨0, bs, rfl⟩, ?_⟩
    intro hnil
    obtain rfl : bs = [] := hnil
    cases hshown

mutual

theorem itemText_bare (dict : Bool) (indent : Nat) (c : Var) :
    itemText dict indent c.bare = itemText dict indent c := by
  match c with
  | .leaf _ _ _ => rw [Var.bare, itemText, itemText]
  | .dict _ _ cs => rw [Var.bare, itemText, itemText, itemsText_bare true _ cs]
  | .array _ _ cs => rw [Var.bare, itemText, itemText, itemsText_bare false _ cs]

theorem itemsText_bare (dict : Bool) (indent : Nat) (cs : List Var) :
    itemsText dict indent (Var.bareAll cs) = itemsText dict indent cs := by
  match cs with
  | [] => rfl
  | c :: cs =>
    have hnil : Var.bareAll cs = [] ↔ cs = [] := by
      rw [Var.bareAll_eq_map, List.map_eq_nil_iff]
    rw [Var.bareAll, itemsText, itemsText, itemText_bare dict indent c,
      itemsText_bare dict indent cs]
    simp only [hnil]

end

/-- The hashes of the keys are not written. -/
theorem documentText_bare (v : Var) : documentText v.bare = documentText v := by
  cases v with
  | leaf _ _ _ => rfl
  | dict _ _ cs => simp only [Var.bare, documentText, bodyText, itemsText_bare]
  | array _ _ cs => simp only [Var.bare, documentText, bodyText, itemsText_bare]

/-- What of a document is seen under a key survives in what looks the same. -/
theorem Var.at_shown {v w : Var} {h h' : BitVec 32} {cs ds : List Var} {id id' : FString}
    (hv : v = .dict id h cs) (hw : w = .dict id' h' ds) (hs : w.shown = v.shown) (k : List UInt8) :
    (w.at k).map Var.shown = (v.at k).map Var.shown := by
  subst hv hw
  have hmap : ds.map Var.shown = cs.map Var.shown := by
    simpa [Var.shown, Var.shownAll_eq_map] using (Var.dict.inj hs).2.2
  have hfind (es : List Var) : (es.find? fun c => c.id.str = k).map Var.shown =
      (es.map Var.shown).find? fun c => c.id.str = k := by
    rw [List.find?_map]
    simp [Function.comp_def]
  change (ds.find? _).map _ = (cs.find? _).map _
  rw [hfind, hfind, hmap]

end Opticon
