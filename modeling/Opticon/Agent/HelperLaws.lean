import Opticon.Agent.Helper

/-! What the setuid helper lets through, against the lines of its policy. -/

namespace Opticon

open Words

variable {argv1 : List UInt8} {args : List (List UInt8)} {content line rest last word : List UInt8}

/-! ## One text -/

theorem cutSpace_of_not_mem {s : List UInt8} (h : 32 ∉ s) : cutSpace s = (s, none) := by
  have hdrop : s.dropWhile (· ≠ 32) = [] := by
    rw [List.dropWhile_eq_nil_iff]
    exact fun c hc => by simpa using fun hs : c = 32 => h (hs ▸ hc)
  rw [cutSpace, hdrop]

theorem cutSpace_append {w : List UInt8} (h : 32 ∉ w) (s : List UInt8) :
    cutSpace (w ++ 32 :: s) = (w, some s) := by
  have hw : ∀ c ∈ w, decide (c ≠ 32) = true := by
    exact fun c hc => by simpa using fun hs : c = 32 => h (hs ▸ hc)
  rw [cutSpace, List.dropWhile_append_of_pos hw, List.dropWhile_cons_of_neg (by simp),
    List.takeWhile_append_of_pos hw, List.takeWhile_cons_of_neg (by simp), List.append_nil]

/-- What the first space cuts a text into. -/
theorem cutSpace_cases (s : List UInt8) :
    (cutSpace s = (s, none) ∧ s.splitOn 32 = [s]) ∨
      ∃ w t, cutSpace s = (w, some t) ∧ s.splitOn 32 = w :: t.splitOn 32 := by
  by_cases h : 32 ∈ s
  · obtain ⟨w, t, rfl, hw⟩ := List.eq_append_cons_of_mem h
    exact .inr ⟨w, t, cutSpace_append hw t, splitOn_append hw t⟩
  · exact .inl ⟨cutSpace_of_not_mem h, splitOn_of_not_mem h⟩

/-- The words are compared with the arguments one by one. -/
theorem argsLoop_iff {args : List (List UInt8)} {crsr : List UInt8} :
    argsLoop args (some crsr) = true ↔ Permits args crsr := by
  rw [Permits]
  induction args generalizing crsr with
  | nil =>
    rw [argsLoop]
    rcases cutSpace_cases crsr with ⟨-, hs⟩ | ⟨w, t, -, hs⟩
    · simp [hs]
    · simp [hs]
  | cons arg args ih =>
    rw [argsLoop]
    rcases cutSpace_cases crsr with ⟨hc, hs⟩ | ⟨w, t, hc, hs⟩
    · rw [hc, hs, List.cons_prefix_cons, eq_comm (a := crsr)]
      simp [argsLoop]
    · rw [hc, hs, List.cons_prefix_cons, ← ih, eq_comm (a := w)]
      simp

theorem helperLine_iff {buf : List UInt8} :
    (helperLine argv1 args buf).1 = true ↔ Permits (argv1 :: args) buf.dropLast := by
  rw [helperLine, Permits]
  rcases cutSpace_cases buf.dropLast with ⟨hc, hs⟩ | ⟨w, t, hc, hs⟩
  · rw [hc, hs, List.cons_prefix_cons]
    simp [argsLoop]
  · have h : argsLoop args (some t) = true ↔ t.splitOn 32 <+: args := argsLoop_iff
    rw [hc, hs, List.cons_prefix_cons, ← h]
    simp

/-! ## One turn -/

theorem takeLine_newline (h : 10 ∉ line) {n : ℕ} (hlen : line.length < n) :
    takeLine n (line ++ 10 :: rest) = (line ++ [10], rest, false) := by
  induction line generalizing n with
  | nil =>
    obtain ⟨n, rfl⟩ := Nat.exists_eq_add_of_lt hlen
    simp [takeLine]
  | cons c line ih =>
    rw [List.mem_cons, not_or] at h
    obtain ⟨n, rfl⟩ : ∃ m, n = m + 1 := ⟨n - 1, by omega⟩
    rw [List.cons_append, takeLine, if_neg (Ne.symm h.1), ih h.2 (by simpa using hlen)]
    rfl

theorem takeLine_end (h : 10 ∉ line) {n : ℕ} (hlen : line.length < n) :
    takeLine n line = (line, [], true) := by
  induction line generalizing n with
  | nil =>
    obtain ⟨n, rfl⟩ := Nat.exists_eq_add_of_lt hlen
    rfl
  | cons c line ih =>
    rw [List.mem_cons, not_or] at h
    obtain ⟨n, rfl⟩ : ∃ m, n = m + 1 := ⟨n - 1, by omega⟩
    rw [takeLine, if_neg (Ne.symm h.1), ih h.2 (by simpa using hlen)]

theorem takeLine_full (h : 10 ∉ line) :
    takeLine line.length (line ++ rest) = (line, rest, false) := by
  induction line with
  | nil => cases rest <;> rfl
  | cons c line ih =>
    rw [List.mem_cons, not_or] at h
    rw [List.length_cons, List.cons_append, takeLine, if_neg (Ne.symm h.1), ih h.2]

/-- The loop ends, and allows the command when `P` holds. -/
def Decides (argv1 : List UInt8) (args : List (List UInt8)) (s : HelperState) (P : Prop) : Prop :=
  ∃ fuel b, Loop.run (helperStep argv1 args) fuel s = some (.ok b) ∧ (b = true ↔ P)

theorem Decides.eof {buf : Option (List UInt8)} :
    Decides argv1 args ⟨rest, true, buf⟩ False :=
  ⟨1, false, rfl, by simp⟩

/-- A turn compares one text, and leaves its first word in the buffer. -/
theorem Decides.turn {s s' : HelperState} {buf : List UInt8} {P : Prop} (hs : s.eof = false)
    (hread : fgets 1023 s = s') (hbuf : s'.buf = some buf)
    (h : Decides argv1 args { s' with buf := some (leadWord buf.dropLast) } P) :
    Decides argv1 args s (Permits (argv1 :: args) buf.dropLast ∨ P) := by
  obtain ⟨fuel, b, hrun, hb⟩ := h
  subst hread
  by_cases hp : (helperLine argv1 args buf).1 = true
  · refine ⟨1, true, ?_, iff_of_true rfl (.inl (helperLine_iff.mp hp))⟩
    rw [Loop.run_inr]
    rw [helperStep, if_neg (by simp [hs])]
    simp only [hbuf, if_pos hp]
  · refine ⟨fuel + 1, b, ?_, ?_⟩
    · rw [Loop.run_inl, hrun]
      rw [helperStep, if_neg (by simp [hs])]
      simp only [hbuf, if_neg hp]
      rfl
    · rw [hb, or_iff_right]
      exact fun h => hp (helperLine_iff.mpr h)

/-! ## The file -/

theorem Decides.congr {s : HelperState} {P Q : Prop} (h : Decides argv1 args s P)
    (hpq : P ↔ Q) : Decides argv1 args s Q := by
  obtain ⟨fuel, b, hrun, hb⟩ := h
  exact ⟨fuel, b, hrun, hb.trans hpq⟩

theorem fgets_newline (h : 10 ∉ line) (hlen : line.length < 1022) {buf : Option (List UInt8)} :
    fgets 1023 ⟨line ++ 10 :: rest, false, buf⟩ =
      ⟨rest, false, some (cstring (line ++ [10]))⟩ := by
  rw [fgets, takeLine_newline h hlen]
  simp

theorem fgets_full (h : 10 ∉ line) (hlen : line.length = 1022) {buf : Option (List UInt8)} :
    fgets 1023 ⟨line ++ rest, false, buf⟩ = ⟨rest, false, some (cstring line)⟩ := by
  have hne : line ≠ [] := by
    rintro rfl
    cases hlen
  have htake : takeLine line.length (line ++ rest) = (line, rest, false) := takeLine_full h
  rw [hlen] at htake
  rw [fgets, htake]
  simp [hne]

theorem fgets_end (h : 10 ∉ line) (hlen : line.length < 1022) (hne : line ≠ [])
    {buf : Option (List UInt8)} :
    fgets 1023 ⟨line, false, buf⟩ = ⟨[], true, some (cstring line)⟩ := by
  rw [fgets, takeLine_end h hlen]
  simp [hne]

/-- At the end of the file nothing is read, and the buffer is compared again. -/
theorem decides_nil :
    Decides argv1 args ⟨[], false, some word⟩
      (∃ t ∈ lastTexts word [], Permits (argv1 :: args) t) := by
  have h : Decides argv1 args ⟨[], false, some word⟩
      (Permits (argv1 :: args) word.dropLast ∨ False) :=
    Decides.turn rfl rfl rfl Decides.eof
  exact h.congr (by simp [lastTexts])

/-- What is compared behind the last newline. -/
theorem decides_last (h : 10 ∉ last) (hlen : last.length < 1023) {buf : Option (List UInt8)}
    (hbuf : last = [] → buf = some word) :
    Decides argv1 args ⟨last, false, buf⟩
      (∃ t ∈ lastTexts word last, Permits (argv1 :: args) t) := by
  by_cases hne : last = []
  · subst hne
    rw [hbuf rfl]
    exact decides_nil
  · by_cases hfit : last.length < 1022
    · have hturn : Decides argv1 args ⟨last, false, buf⟩
          (Permits (argv1 :: args) (cstring last).dropLast ∨ False) :=
        Decides.turn rfl (fgets_end h hfit hne) rfl Decides.eof
      exact hturn.congr (by simp [lastTexts, hne, hfit])
    · have hfull : fgets 1023 ⟨last ++ [], false, buf⟩ =
          ⟨[], false, some (cstring last)⟩ := fgets_full h (by omega)
      rw [List.append_nil] at hfull
      refine (Decides.turn rfl hfull rfl decides_nil).congr ?_
      simp [lastTexts, hne, hfit]

/-- All texts that are compared of a file, in order. -/
def readTexts : (word : List UInt8) → List (List UInt8) → (last : List UInt8) → List (List UInt8)
  | word, [], last => lastTexts word last
  | _, line :: lines, last =>
    lineTexts line ++ readTexts (leadWord ((lineTexts line).getLastD [])) lines last

theorem fullLines_last (h : 10 ∉ last) : fullLines last = [] ∧ lastPart last = last := by
  rw [fullLines, lastPart, splitOn_of_not_mem h]
  exact ⟨rfl, rfl⟩

theorem fullLines_more (h : 10 ∉ line) (content : List UInt8) :
    fullLines (line ++ 10 :: content) = line :: fullLines content ∧
      lastPart (line ++ 10 :: content) = lastPart content := by
  have hne : content.splitOn 10 ≠ [] := List.splitOn_ne_nil _ _
  obtain ⟨part, parts, hparts⟩ := List.exists_cons_of_ne_nil hne
  rw [fullLines, fullLines, lastPart, lastPart, splitOn_append h, hparts]
  exact ⟨rfl, rfl⟩

theorem decides_content (content : List UInt8) : ∀ {word : List UInt8}
    {buf : Option (List UInt8)}, (∀ line ∈ content.splitOn 10, line.length < 1023) →
    (content = [] → buf = some word) →
    Decides argv1 args ⟨content, false, buf⟩
      (∃ t ∈ readTexts word (fullLines content) (lastPart content),
        Permits (argv1 :: args) t) := by
  induction content using split_induction (10 : UInt8) with
  | last last h =>
    intro word buf hlen hbuf
    obtain ⟨hfull, hlast⟩ := fullLines_last h
    rw [splitOn_of_not_mem h] at hlen
    rw [hfull, hlast]
    exact decides_last h (hlen last (by simp)) hbuf
  | more line content h ih =>
    intro word buf hlen hbuf
    obtain ⟨hfull, hlast⟩ := fullLines_more h content
    rw [splitOn_append h] at hlen
    have hrest := fun line hl => hlen line (List.mem_cons_of_mem _ hl)
    rw [hfull, hlast, readTexts]
    by_cases hfit : line.length < 1022
    · have hnext : Decides argv1 args
          ⟨content, false, some (leadWord (cstring (line ++ [10])).dropLast)⟩ _ :=
        ih hrest fun _ => rfl
      refine (Decides.turn rfl (fgets_newline h hfit) rfl hnext).congr ?_
      rw [lineTexts, if_pos hfit]
      simp
    · have hline : line.length = 1022 := by
        have := hlen line List.mem_cons_self
        omega
      have hnext : Decides argv1 args ⟨content, false, some (leadWord [])⟩ _ :=
        ih hrest fun _ => rfl
      have hread : ∀ buf, fgets 1023 ⟨[] ++ 10 :: content, false, buf⟩ =
          ⟨content, false, some (cstring ([] ++ [10]))⟩ :=
        fun _ => fgets_newline (by simp) (by simp)
      have hsecond : Decides argv1 args
          ⟨10 :: content, false, some (leadWord (cstring line).dropLast)⟩ _ :=
        Decides.turn rfl (hread _) rfl hnext
      refine (Decides.turn rfl (fgets_full h hline) rfl hsecond).congr ?_
      rw [lineTexts, if_neg hfit]
      simp [cstring]

/-! ## When the decision is right -/

/-- The lines that are not read as they stand. -/
def broken (content : List UInt8) : List (List UInt8) :=
  (fullLines content).filter (¬ Whole ·) ++
    if lastPart content = [] then [] else [lastPart content]

theorem lineTexts_whole (h : Whole line) : lineTexts line = [line] := by
  have hline : cstring (line ++ [10]) = line ++ [10] := by
    rw [cstring, List.takeWhile_eq_self_iff]
    intro c hc
    rcases List.mem_append.mp hc with hc | hc
    · simpa using fun hs : c = 0 => h.2 (hs ▸ hc)
    · obtain rfl := List.mem_singleton.mp hc
      rfl
  rw [lineTexts, if_pos h.1, hline, List.dropLast_concat]

theorem exists_append_iff {P : List UInt8 → Prop} {xs ys : List (List UInt8)} :
    (∃ t ∈ xs ++ ys, P t) ↔ (∃ t ∈ xs, P t) ∨ ∃ t ∈ ys, P t := by
  simp only [List.mem_append, or_and_right, exists_or]

/-- A text that is compared is a line that is read as it stands, or a stray one. -/
theorem readTexts_iff {P : List UInt8 → Prop} (lines : List (List UInt8)) :
    (∃ t ∈ readTexts word lines last, P t) ↔
      (∃ line ∈ lines, Whole line ∧ P line) ∨ ∃ t ∈ strays word lines last, P t := by
  induction lines generalizing word with
  | nil => simp [readTexts, strays]
  | cons line lines ih =>
    have hcons : (∃ l ∈ line :: lines, Whole l ∧ P l) ↔
        (Whole line ∧ P line) ∨ ∃ l ∈ lines, Whole l ∧ P l := by
      simp
    rw [readTexts, strays, exists_append_iff, exists_append_iff, ih, hcons]
    by_cases hw : Whole line
    · rw [if_pos hw, lineTexts_whole hw]
      simp [hw, or_assoc]
    · rw [if_neg hw, iff_false_intro hw, false_and, false_or]
      exact or_left_comm

theorem fileLines_iff {P : List UInt8 → Prop} (content : List UInt8) :
    (∃ line ∈ fileLines content, P line) ↔
      (∃ line ∈ fullLines content, Whole line ∧ P line) ∨ ∃ line ∈ broken content, P line := by
  have hfull : (∃ line ∈ fullLines content, P line) ↔
      (∃ line ∈ fullLines content, Whole line ∧ P line) ∨
        ∃ line ∈ (fullLines content).filter (¬ Whole ·), P line := by
    constructor
    · rintro ⟨line, hl, hp⟩
      by_cases hw : Whole line
      · exact .inl ⟨line, hl, hw, hp⟩
      · exact .inr ⟨line, List.mem_filter.mpr ⟨hl, by simpa using hw⟩, hp⟩
    · rintro (⟨line, hl, -, hp⟩ | ⟨line, hl, hp⟩)
      · exact ⟨line, hl, hp⟩
      · exact ⟨line, (List.mem_filter.mp hl).1, hp⟩
  rw [fileLines, broken, exists_append_iff, exists_append_iff, hfull, or_assoc]

theorem not_permits_nil : ¬ Permits [] line := by
  rw [Permits, List.prefix_nil]
  exact List.splitOn_ne_nil _ _

/-- The lines of the file are shorter than 1023 characters. -/
def ShortLines (content : List UInt8) : Prop := ∀ line ∈ fileLines content, line.length < 1023

instance : Decidable (ShortLines content) :=
  inferInstanceAs (Decidable (∀ line ∈ fileLines content, line.length < 1023))

theorem ShortLines.parts (h : ShortLines content) :
    ∀ line ∈ content.splitOn 10, line.length < 1023 := by
  intro line hl
  have hne : content.splitOn 10 ≠ [] := List.splitOn_ne_nil _ _
  have hlast : (content.splitOn 10).getLast hne = lastPart content := by
    rw [lastPart, List.getLastD_eq_getLast?, List.getLast?_eq_getLast_of_ne_nil hne]
    rfl
  rw [← List.dropLast_append_getLast hne, hlast] at hl
  rcases List.mem_append.mp hl with hl | hl
  · exact h line (List.mem_append_left _ hl)
  · obtain rfl := List.mem_singleton.mp hl
    by_cases hempty : lastPart content = []
    · simp [hempty]
    · refine h _ (List.mem_append_right _ ?_)
      rw [if_neg hempty]
      exact List.mem_singleton_self _

/-- Without arguments nothing is executed, and no line permits it. -/
theorem helperRight_alone {argv : List (List UInt8)} (h : argv.tail = []) :
    HelperRight content argv := by
  refine ⟨0, false, ?_, ?_⟩
  · match argv, h with
    | [], _ => rfl
    | [_], _ => rfl
  · rw [h]
    simp [not_permits_nil]

/-- An empty file leaves the buffer as it is. -/
theorem not_helperRight_nil {argv0 : List UInt8} : ¬ HelperRight [] (argv0 :: argv1 :: args) := by
  rintro ⟨fuel, b, hrun, -⟩
  have hfault : Loop.run (helperStep argv1 args) 1 ⟨[], false, none⟩ =
      some (.error .uninitialised) := rfl
  exact absurd (Loop.run_unique hrun hfault) (by simp)

/-- The helper decides as its policy says when a line that is read as it stands permits the
arguments, or when the stray texts permit them as the lines do that are misread. -/
theorem helperRight_iff {content : List UInt8} (h : ShortLines content)
    (argv : List (List UInt8)) : HelperRight content argv ↔
      argv.tail = [] ∨ content ≠ [] ∧
        ((∃ line ∈ fullLines content, Whole line ∧ Permits argv.tail line) ∨
          ((∃ line ∈ broken content, Permits argv.tail line) ↔
            ∃ t ∈ strays [] (fullLines content) (lastPart content), Permits argv.tail t)) := by
  match argv with
  | [] | [_] => exact iff_of_true (helperRight_alone rfl) (.inl rfl)
  | argv0 :: argv1 :: args =>
    rw [List.tail_cons, or_iff_right (by simp)]
    by_cases hempty : content = []
    · subst hempty
      exact iff_of_false not_helperRight_nil (by simp)
    · have hdec : Decides argv1 args ⟨content, false, none⟩
          (∃ t ∈ readTexts [] (fullLines content) (lastPart content),
            Permits (argv1 :: args) t) :=
        decides_content content h.parts fun hnil => absurd hnil hempty
      obtain ⟨fuel, b, hrun, hb⟩ := hdec
      rw [readTexts_iff] at hb
      have hright : HelperRight content (argv0 :: argv1 :: args) ↔
          (b = true ↔ ∃ line ∈ fileLines content, Permits (argv1 :: args) line) := by
        constructor
        · rintro ⟨fuel', b', hrun', hb'⟩
          cases Loop.run_unique hrun hrun'
          exact hb'
        · intro hb'
          exact ⟨fuel, b, hrun, hb'⟩
      rw [hright, hb, fileLines_iff, and_iff_right hempty]
      by_cases hwhole : ∃ line ∈ fullLines content, Whole line ∧ Permits (argv1 :: args) line
      · simp only [hwhole, true_or]
      · simp only [hwhole, false_or]
        exact Iff.comm

theorem fullLines_flatMap {lines : List (List UInt8)} (h : ∀ line ∈ lines, 10 ∉ line) :
    fullLines (lines.flatMap (· ++ [10])) = lines ∧
      lastPart (lines.flatMap (· ++ [10])) = [] := by
  induction lines with
  | nil => exact fullLines_last (by simp)
  | cons line lines ih =>
    obtain ⟨hfull, hlast⟩ := ih fun line hl => h line (List.mem_cons_of_mem _ hl)
    have hmore := fullLines_more (h line List.mem_cons_self) (lines.flatMap (· ++ [10]))
    rw [hfull, hlast] at hmore
    rw [List.flatMap_cons, List.append_assoc]
    exact hmore

theorem strays_whole {lines : List (List UInt8)} (hlines : lines ≠ [])
    (h : ∀ line ∈ lines, Whole line) (left : List UInt8) :
    strays left lines [] = [(leadWord (lines.getLast hlines)).dropLast] := by
  induction lines generalizing left with
  | nil => exact absurd rfl hlines
  | cons line lines ih =>
    rw [strays, if_pos (h line List.mem_cons_self), lineTexts_whole (h line List.mem_cons_self)]
    cases lines with
    | nil => rfl
    | cons next lines =>
      rw [List.getLast_cons (by simp)]
      have hrest := fun line hl => h line (List.mem_cons_of_mem _ hl)
      exact ih (by simp) hrest []

/-- In a file of whole lines that ends with a newline, the one stray text is the first word of
the last line without its last character. -/
theorem helperRight_ordinary {lines : List (List UInt8)} (hlines : lines ≠ [])
    (h : ∀ line ∈ lines, Whole line ∧ 10 ∉ line) (argv : List (List UInt8)) :
    HelperRight (lines.flatMap (· ++ [10])) argv ↔ argv.tail = [] ∨
      (∃ line ∈ lines, Permits argv.tail line) ∨
        ¬ Permits argv.tail (leadWord (lines.getLast hlines)).dropLast := by
  obtain ⟨hfull, hlast⟩ := fullLines_flatMap fun line hl => (h line hl).2
  have hshort : ShortLines (lines.flatMap (· ++ [10])) := by
    intro line hl
    rw [fileLines, hfull, hlast, if_pos rfl, List.append_nil] at hl
    exact Nat.lt_succ_of_lt (h line hl).1.1
  have hbroken : broken (lines.flatMap (· ++ [10])) = [] := by
    rw [broken, hfull, hlast, if_pos rfl, List.append_nil, List.filter_eq_nil_iff]
    intro line hl
    simpa using (h line hl).1
  have hne : lines.flatMap (· ++ [10]) ≠ [] := by
    intro hnil
    rw [hnil] at hfull
    exact hlines (hfull.symm.trans (fullLines_last (by simp)).1)
  have hwhole : (∃ line ∈ lines, Whole line ∧ Permits argv.tail line) ↔
      ∃ line ∈ lines, Permits argv.tail line := by
    constructor
    · rintro ⟨line, hl, -, hp⟩
      exact ⟨line, hl, hp⟩
    · rintro ⟨line, hl, hp⟩
      exact ⟨line, hl, (h line hl).1, hp⟩
  rw [helperRight_iff hshort, hfull, hlast, hbroken, strays_whole hlines (fun l hl => (h l hl).1),
    and_iff_right hne, hwhole]
  simp

/-- When the helper decides as its policy says, for any file and for ordinary ones. -/
theorem helper_right_iff (argv : List (List UInt8)) :
    (∀ content, ShortLines content → (HelperRight content argv ↔
      argv.tail = [] ∨ content ≠ [] ∧
        ((∃ line ∈ fullLines content, Whole line ∧ Permits argv.tail line) ∨
          ((∃ line ∈ broken content, Permits argv.tail line) ↔
            ∃ t ∈ strays [] (fullLines content) (lastPart content), Permits argv.tail t)))) ∧
    ∀ lines, ∀ hlines : lines ≠ [], (∀ line ∈ lines, Whole line ∧ 10 ∉ line) →
      (HelperRight (lines.flatMap (· ++ [10])) argv ↔ argv.tail = [] ∨
        (∃ line ∈ lines, Permits argv.tail line) ∨
          ¬ Permits argv.tail (leadWord (lines.getLast hlines)).dropLast) :=
  ⟨fun _ h => helperRight_iff h argv,
    fun _ hlines h => helperRight_ordinary hlines h argv⟩

/-- A file with the line `ls -l`, and the command `ls -l`. -/
theorem helper_right_ls : HelperRight [108, 115, 32, 45, 108, 10]
    [[104], [108, 115], [45, 108]] := by
  refine ((helper_right_iff _).1 _ (by decide)).mpr (.inr ⟨by decide, .inl ?_⟩)
  exact ⟨[108, 115, 32, 45, 108], by decide, by decide, by decide⟩

/-- With the line `ls -l` alone the command `l` is allowed. -/
theorem helper_allows_stray : ¬ HelperRight [108, 115, 32, 45, 108, 10] [[104], [108]] ∧
    helperMain 2 0 [[104], [108]] helperGroup (some [108, 115, 32, 45, 108, 10]) =
      some (.ok true) := by
  have hallow : helperMain 2 0 [[104], [108]] helperGroup (some [108, 115, 32, 45, 108, 10]) =
      some (.ok true) := rfl
  refine ⟨?_, hallow⟩
  rintro ⟨fuel, b, hrun, hb⟩
  have hno : ¬ ∃ line ∈ fileLines [108, 115, 32, 45, 108, 10], Permits [[108]] line := by decide
  cases Loop.run_unique hrun hallow
  exact hno (hb.mp rfl)

end Opticon
