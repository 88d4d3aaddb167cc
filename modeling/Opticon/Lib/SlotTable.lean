import Opticon.Lib.UpdateFirst

/-! Tables of slots: each slot has a key, and one key says that its slot is free. -/

universe u v w

namespace SlotTable

variable {α : Type u} {κ : Type v} {key : α → κ} {free k l : κ}
  {slots slots₁ slots₂ : List α} {a x : α}

/-- No key but the free one stands in two slots. -/
def Distinct (key : α → κ) (free : κ) (slots : List α) : Prop :=
  slots.Pairwise fun a b => key a ≠ free → key a ≠ key b

theorem distinct_middle : Distinct key free (slots₁ ++ x :: slots₂) ↔
    Distinct key free (slots₁ ++ slots₂) ∧
      ∀ b ∈ slots₁ ++ slots₂, key x ≠ free → key x ≠ key b := by
  have hsymm : ∀ {a b : α}, (key a ≠ free → key a ≠ key b) → key b ≠ free → key b ≠ key a :=
    fun h hb hab => h (hab ▸ hb) hab.symm
  rw [Distinct, List.pairwise_middle hsymm, List.pairwise_cons, and_comm]
  rfl

/-- Slots that keep their key or are freed stay distinct. -/
theorem Distinct.map (h : Distinct key free slots) {f : α → α}
    (hf : ∀ a, key (f a) = key a ∨ key (f a) = free) : Distinct key free (slots.map f) := by
  rw [Distinct, List.pairwise_map]
  refine h.imp fun {a b} hab hfree hkeys => ?_
  have ha := (hf a).resolve_right hfree
  have hb := (hf b).resolve_right (hkeys ▸ hfree)
  rw [ha, hb] at hkeys
  exact hab (ha ▸ hfree) hkeys

variable [DecidableEq κ]

def slot (key : α → κ) (slots : List α) (k : κ) : Option α := slots.find? (key · = k)

/-- The slot with the key `k` is updated; else the first free one is taken, or one more. -/
def put (key : α → κ) (free k : κ) (upd : Option α → α) (slots : List α) : List α :=
  if k ∈ slots.map key then updateFirst (key · = k) (fun a => upd (some a)) slots
  else if free ∈ slots.map key then updateFirst (key · = free) (fun _ => upd none) slots
  else slots ++ [upd none]

theorem slot_eq_none_iff : slot key slots k = none ↔ ∀ a ∈ slots, key a ≠ k := by
  simp [slot]

theorem mem_of_slot (h : slot key slots k = some a) : a ∈ slots ∧ key a = k :=
  ⟨List.mem_of_find?_eq_some h, by simpa using List.find?_some h⟩

theorem slot_middle (h₁ : ∀ a ∈ slots₁, key a ≠ k) (hx : key x = k) :
    slot key (slots₁ ++ x :: slots₂) k = some x := by
  rw [slot, List.find?_append, List.find?_eq_none.mpr (by simpa using h₁),
    List.find?_cons_of_pos (by simpa using hx)]
  rfl

theorem slot_middle_ne (hx : key x ≠ l) :
    slot key (slots₁ ++ x :: slots₂) l = slot key (slots₁ ++ slots₂) l := by
  rw [slot, slot, List.find?_append, List.find?_append, List.find?_cons_of_neg (by simpa using hx)]

/-- In a table of distinct slots the slot of a key is the one that has it. -/
theorem slot_eq_some_iff (h : Distinct key free slots) (hk : k ≠ free) :
    slot key slots k = some a ↔ a ∈ slots ∧ key a = k := by
  refine ⟨mem_of_slot, fun ⟨ha, hak⟩ => ?_⟩
  obtain ⟨slots₁, slots₂, rfl⟩ := List.append_of_mem ha
  refine slot_middle (fun b hb hbk => ?_) hak
  exact (distinct_middle.mp h).2 b (List.mem_append_left _ hb) (hak ▸ hk) (hak.trans hbk.symm)

/-- Slots that keep their key or are freed are found where they were. -/
theorem slot_map (h : Distinct key free slots) {f : α → α}
    (hf : ∀ a, key (f a) = key a ∨ key (f a) = free) (hk : k ≠ free)
    (ha : slot key slots k = some a) (hkept : key (f a) = key a) :
    slot key (slots.map f) k = some (f a) := by
  obtain ⟨hmem, hak⟩ := mem_of_slot ha
  exact (slot_eq_some_iff (h.map hf) hk).mpr ⟨List.mem_map_of_mem hmem, hkept.trans hak⟩

/-- The first slot with a key, and those before and behind it. -/
theorem split_at_key (h : k ∈ slots.map key) :
    ∃ slots₁ a slots₂, slots = slots₁ ++ a :: slots₂ ∧ key a = k ∧ ∀ b ∈ slots₁, key b ≠ k := by
  obtain ⟨b, hb, hbk⟩ := List.mem_map.mp h
  cases hfind : slots.find? (key · = k) with
  | none => exact absurd hbk (by simpa using List.find?_eq_none.mp hfind b hb)
  | some a =>
    obtain ⟨ha, slots₁, slots₂, hs, hbefore⟩ := List.find?_eq_some_iff_append.mp hfind
    exact ⟨slots₁, a, slots₂, hs, by simpa using ha, by simpa using hbefore⟩

variable {upd : Option α → α}

theorem put_found (ha : key a = k) (hbefore : ∀ b ∈ slots₁, key b ≠ k) :
    put key free k upd (slots₁ ++ a :: slots₂) = slots₁ ++ upd (some a) :: slots₂ := by
  rw [put, if_pos (by simp [ha])]
  exact updateFirst_append (by simpa using hbefore) (by simpa using ha)

theorem put_free (hk : k ∉ (slots₁ ++ a :: slots₂).map key) (ha : key a = free)
    (hbefore : ∀ b ∈ slots₁, key b ≠ free) :
    put key free k upd (slots₁ ++ a :: slots₂) = slots₁ ++ upd none :: slots₂ := by
  rw [put, if_neg hk, if_pos (by simp [ha])]
  exact updateFirst_append (by simpa using hbefore) (by simpa using ha)

theorem put_new (hk : k ∉ slots.map key) (hfree : free ∉ slots.map key) :
    put key free k upd slots = slots ++ [upd none] := by
  rw [put, if_neg hk, if_neg hfree]

/-- The slot that is written has the key, or was free while no slot had it, or is new. -/
theorem put_middle (key : α → κ) (free k : κ) (upd : Option α → α) (slots : List α) :
    ∃ slots₁ slots₂, put key free k upd slots = slots₁ ++ upd (slot key slots k) :: slots₂ ∧
      (slots = slots₁ ++ slots₂ ∧ slot key slots k = none ∨
        ∃ a, slots = slots₁ ++ a :: slots₂ ∧
          (key a = k ∨ key a = free ∧ slot key slots k = none)) := by
  by_cases hk : k ∈ slots.map key
  · obtain ⟨slots₁, a, slots₂, rfl, ha, hbefore⟩ := split_at_key hk
    refine ⟨slots₁, slots₂, ?_, .inr ⟨a, rfl, .inl ha⟩⟩
    rw [put_found ha hbefore, slot_middle hbefore ha]
  · have hnone : slot key slots k = none :=
      slot_eq_none_iff.mpr fun b hb hbk => hk (List.mem_map.mpr ⟨b, hb, hbk⟩)
    by_cases hfree : free ∈ slots.map key
    · obtain ⟨slots₁, a, slots₂, rfl, ha, hbefore⟩ := split_at_key hfree
      refine ⟨slots₁, slots₂, ?_, .inr ⟨a, rfl, .inr ⟨ha, hnone⟩⟩⟩
      rw [put_free hk ha hbefore, hnone]
    · refine ⟨slots, [], ?_, .inl ⟨(List.append_nil _).symm, hnone⟩⟩
      rw [put_new hk hfree, hnone]

/-- A write keeps the slots distinct, and the other keys theirs. -/
theorem Distinct.put (h : Distinct key free slots) (hk : k ≠ free)
    (hkey : key (upd (slot key slots k)) = k) :
    Distinct key free (put key free k upd slots) ∧
      slot key (SlotTable.put key free k upd slots) k = some (upd (slot key slots k)) ∧
      ∀ l, l ≠ k → l ≠ free →
        slot key (SlotTable.put key free k upd slots) l = slot key slots l := by
  obtain ⟨slots₁, slots₂, hput, hslots⟩ := put_middle key free k upd slots
  have hrest : Distinct key free (slots₁ ++ slots₂) ∧ (∀ b ∈ slots₁ ++ slots₂, key b ≠ k) ∧
      ∀ l, l ≠ k → l ≠ free → slot key slots l = slot key (slots₁ ++ slots₂) l := by
    rcases hslots with ⟨rfl, hnone⟩ | ⟨a, rfl, ha⟩
    · exact ⟨h, slot_eq_none_iff.mp hnone, fun _ _ _ => rfl⟩
    · obtain ⟨hrest, hdiff⟩ := distinct_middle.mp h
      rcases ha with rfl | ⟨rfl, hnone⟩
      · exact ⟨hrest, fun b hb => (hdiff b hb hk).symm, fun l hl _ => slot_middle_ne hl.symm⟩
      · refine ⟨hrest, fun b hb => slot_eq_none_iff.mp hnone b ?_,
          fun l _ hl => slot_middle_ne hl.symm⟩
        rcases List.mem_append.mp hb with hb | hb
        · exact List.mem_append_left _ hb
        · exact List.mem_append_right _ (List.mem_cons_of_mem _ hb)
  obtain ⟨hdist, hne, hother⟩ := hrest
  rw [hput]
  refine ⟨distinct_middle.mpr ⟨hdist, fun b hb _ => ?_⟩, ?_, fun l hl hfree => ?_⟩
  · rw [hkey]
    exact (hne b hb).symm
  · exact slot_middle (fun b hb => hne b (List.mem_append_left _ hb)) hkey
  · rw [hother l hl hfree]
    exact slot_middle_ne (by rw [hkey]; exact hl.symm)

variable {β : Type w} {keyOf : β → κ} {update : β → Option α → α} {b : β} {records : List β}

/-- Every record is put into the slot of its key. -/
def putAll (key : α → κ) (free : κ) (keyOf : β → κ) (update : β → Option α → α)
    (records : List β) (slots : List α) : List α :=
  records.foldl (fun slots b => put key free (keyOf b) (update b) slots) slots

/-- An update gives a slot the key of the record. -/
structure Keyed (key : α → κ) (keyOf : β → κ) (update : β → Option α → α) : Prop where
  new : ∀ b, key (update b none) = keyOf b
  old : ∀ b a, key (update b (some a)) = key a

theorem Keyed.slot (h : Keyed key keyOf update) (slots : List α) (b : β) :
    key (update b (slot key slots (keyOf b))) = keyOf b := by
  cases hslot : SlotTable.slot key slots (keyOf b) with
  | none => exact h.new b
  | some a => exact (h.old b a).trans (mem_of_slot hslot).2

theorem Distinct.putAll (hkeyed : Keyed key keyOf update) (h : Distinct key free slots)
    (hfree : ∀ b ∈ records, keyOf b ≠ free) :
    Distinct key free (putAll key free keyOf update records slots) := by
  induction records generalizing slots with
  | nil => exact h
  | cons b records ih =>
    have hput := h.put (hfree b List.mem_cons_self) (hkeyed.slot slots b)
    exact ih hput.1 fun c hc => hfree c (List.mem_cons_of_mem _ hc)

theorem slot_putAll_other (hkeyed : Keyed key keyOf update) (h : Distinct key free slots)
    (hfree : ∀ b ∈ records, keyOf b ≠ free) (hk : k ≠ free) (hother : k ∉ records.map keyOf) :
    slot key (putAll key free keyOf update records slots) k = slot key slots k := by
  induction records generalizing slots with
  | nil => rfl
  | cons b records ih =>
    rw [List.map_cons, List.mem_cons, not_or] at hother
    have hput := h.put (hfree b List.mem_cons_self) (hkeyed.slot slots b)
    exact (ih hput.1 (fun c hc => hfree c (List.mem_cons_of_mem _ hc)) hother.2).trans
      (hput.2.2 k hother.1 hk)

/-- Where no two records have one key, each updates the slot that its key had before. -/
theorem slot_putAll (hkeyed : Keyed key keyOf update) (h : Distinct key free slots)
    (hfree : ∀ b ∈ records, keyOf b ≠ free) (hnodup : (records.map keyOf).Nodup)
    (hb : b ∈ records) :
    slot key (putAll key free keyOf update records slots) (keyOf b) =
      some (update b (slot key slots (keyOf b))) := by
  induction records generalizing slots with
  | nil => exact absurd hb List.not_mem_nil
  | cons c records ih =>
    rw [List.map_cons, List.nodup_cons] at hnodup
    have hfree' : ∀ d ∈ records, keyOf d ≠ free := fun d hd => hfree d (List.mem_cons_of_mem _ hd)
    have hput := h.put (hfree c List.mem_cons_self) (hkeyed.slot slots c)
    rcases List.mem_cons.mp hb with rfl | hb
    · exact (slot_putAll_other hkeyed hput.1 hfree' (hfree b List.mem_cons_self) hnodup.1).trans
        hput.2.1
    · have hne : keyOf b ≠ keyOf c := fun hbc => hnodup.1 (hbc ▸ List.mem_map_of_mem hb)
      have hsame := hput.2.2 _ hne (hfree' b hb)
      have hlater := ih hput.1 hfree' hnodup.2 hb
      rw [hsame] at hlater
      exact hlater

end SlotTable
