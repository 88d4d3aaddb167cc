import Mathlib.Data.List.Basic

/-! Writing to the first element of a list that a search stops at. -/

universe u v

variable {α : Type u} {β : Type v}

def updateFirst (p : α → Bool) (f : α → α) : List α → List α
  | [] => []
  | a :: l => if p a then f a :: l else a :: updateFirst p f l

theorem mem_updateFirst {p : α → Bool} {f : α → α} {l : List α} {b : α}
    (h : b ∈ updateFirst p f l) : b ∈ l ∨ ∃ a, l.find? p = some a ∧ b = f a := by
  induction l with
  | nil => cases h
  | cons a l ih =>
    simp only [updateFirst] at h
    split at h
    · rename_i hp
      obtain rfl | h := List.mem_cons.mp h
      · exact .inr ⟨a, by simp [hp], rfl⟩
      · exact .inl (List.mem_cons_of_mem a h)
    · rename_i hp
      obtain rfl | h := List.mem_cons.mp h
      · exact .inl List.mem_cons_self
      · obtain h | ⟨a', hfind, rfl⟩ := ih h
        · exact .inl (List.mem_cons_of_mem a h)
        · exact .inr ⟨a', by simpa [hp] using hfind, rfl⟩

/-- What a write leaves alone is the same all along the list. -/
theorem map_updateFirst {p : α → Bool} {f : α → α} {g : α → β} (h : ∀ a, g (f a) = g a)
    (l : List α) : (updateFirst p f l).map g = l.map g := by
  induction l with
  | nil => rfl
  | cons a l ih =>
    simp only [updateFirst]
    split <;> simp [h, ih]

@[simp] theorem length_updateFirst {p : α → Bool} {f : α → α} (l : List α) :
    (updateFirst p f l).length = l.length := by
  simpa using congrArg List.length (map_updateFirst (g := fun _ => ()) (fun _ => rfl) l)

theorem find?_updateFirst {p : α → Bool} {f : α → α} (h : ∀ a, p a → p (f a)) (l : List α) :
    (updateFirst p f l).find? p = (l.find? p).map f := by
  induction l with
  | nil => rfl
  | cons a l ih =>
    simp only [updateFirst]
    split
    · rename_i hp
      simp [hp, h a hp]
    · rename_i hp
      simp [hp, ih]

theorem updateFirst_append {p : α → Bool} {f : α → α} {l₁ l₂ : List α} {a : α}
    (h : ∀ b ∈ l₁, p b = false) (ha : p a = true) :
    updateFirst p f (l₁ ++ a :: l₂) = l₁ ++ f a :: l₂ := by
  induction l₁ with
  | nil => simp [updateFirst, ha]
  | cons b l₁ ih =>
    obtain ⟨hb, hl⟩ := List.forall_mem_cons.mp h
    simp [updateFirst, hb, ih hl]

theorem modify_findIdx? {p : α → Bool} {f : α → α} {l : List α} {i : ℕ}
    (h : l.findIdx? p = some i) : l.modify i f = updateFirst p f l := by
  induction l generalizing i with
  | nil => simp at h
  | cons a l ih =>
    rw [List.findIdx?_cons] at h
    simp only [updateFirst]
    split
    · rename_i ha
      rw [if_pos ha] at h
      cases h
      rfl
    · rename_i ha
      rw [if_neg ha] at h
      obtain ⟨j, hj, rfl⟩ := Option.map_eq_some_iff.mp h
      rw [List.modify_succ_cons, ih hj]
