import Opticon.Agent.GlobLaws

/-! What `globcmp` answers, against what the pattern stands for. -/

namespace Opticon

open Wildcard

variable {str glob m n : List UInt8} {ma pm : Option (List UInt8 × List UInt8)}
  {just : Bool} {c d : UInt8} {ts : List GlobToken}

/-! ## Matching by tokens -/

@[simp] theorem globMatches_nil : GlobMatches [] n ↔ n = [] := matches_nil_iff

@[simp] theorem globMatches_char_cons :
    GlobMatches (.char c :: ts) (d :: n) ↔ d = c ∧ GlobMatches ts n := by
  rw [GlobMatches, List.map_cons, GlobToken.item, matches_one_cons, beq_iff_eq]
  rfl

@[simp] theorem globMatches_char_nil : ¬ GlobMatches (.char c :: ts) [] := not_matches_one_nil

@[simp] theorem globMatches_question_cons :
    GlobMatches (.question :: ts) (d :: n) ↔ GlobMatches ts n := by
  rw [GlobMatches, List.map_cons, GlobToken.item, matches_one_cons]
  simp only [true_and]
  rfl

@[simp] theorem globMatches_question_nil : ¬ GlobMatches (.question :: ts) [] :=
  not_matches_one_nil

@[simp] theorem globMatches_star_nil : GlobMatches (.star :: ts) [] ↔ GlobMatches ts [] :=
  matches_many_nil

@[simp] theorem globMatches_star_cons : GlobMatches (.star :: ts) (d :: n) ↔
    GlobMatches ts (d :: n) ∨ GlobMatches (.star :: ts) n := by
  rw [GlobMatches, List.map_cons, GlobToken.item, matches_many_cons]
  simp only [true_and]
  rfl

@[simp] theorem globMatches_percent_cons : GlobMatches (.percent :: ts) (d :: n) ↔
    GlobMatches ts (d :: n) ∨ d ≠ 32 ∧ GlobMatches (.percent :: ts) n := by
  rw [GlobMatches, List.map_cons, GlobToken.item, matches_many_cons]
  simp only [bne_iff_ne]
  rfl

theorem GlobMatches.star (h : GlobMatches ts n) : GlobMatches (.star :: ts) n := h.skip

theorem GlobMatches.percent (h : GlobMatches ts n) : GlobMatches (.percent :: ts) n := h.skip

theorem globMatches_any : GlobMatches [.star] n := by
  refine matches_any_iff.mpr ⟨n.length, ?_⟩
  rw [List.drop_length]
  exact .nil

/-! ## Parts of a pattern -/

/-- The tokens before the first question mark. -/
def beforeQuestion : List GlobToken → List GlobToken
  | [] => []
  | t :: ts => if t = .question then [] else t :: beforeQuestion ts

/-- The tokens up to the first question mark. -/
def throughQuestion : List GlobToken → List GlobToken
  | [] => []
  | t :: ts => if t = .question then [.question] else t :: throughQuestion ts

/-- The pattern with a star for all that follows from the first question mark on. -/
def relaxed : List GlobToken → List GlobToken
  | [] => []
  | t :: ts => if t = .question then [.star] else t :: relaxed ts

def GlobToken.isChar : GlobToken → Bool
  | .char _ => true
  | _ => false

def AllChars (ts : List GlobToken) : Prop := ∀ t ∈ ts, t.isChar = true

instance : Decidable (AllChars ts) := inferInstanceAs (Decidable (∀ t ∈ ts, t.isChar = true))

theorem relaxed_eq (h : .question ∉ ts) : relaxed ts = ts := by
  induction ts with
  | nil => rfl
  | cons t ts ih =>
    rw [List.mem_cons, not_or] at h
    rw [relaxed, if_neg (Ne.symm h.1), ih h.2]

theorem throughQuestion_eq (h : .question ∉ ts) : throughQuestion ts = ts := by
  induction ts with
  | nil => rfl
  | cons t ts ih =>
    rw [List.mem_cons, not_or] at h
    rw [throughQuestion, if_neg (Ne.symm h.1), ih h.2]

theorem beforeQuestion_eq (h : .question ∉ ts) : beforeQuestion ts = ts := by
  induction ts with
  | nil => rfl
  | cons t ts ih =>
    rw [List.mem_cons, not_or] at h
    rw [beforeQuestion, if_neg (Ne.symm h.1), ih h.2]

theorem split_question (h : .question ∈ ts) : ∃ q, ts = beforeQuestion ts ++ .question :: q ∧
    relaxed ts = beforeQuestion ts ++ [.star] := by
  induction ts with
  | nil => cases h
  | cons t ts ih =>
    by_cases ht : t = .question
    · subst ht
      exact ⟨ts, rfl, rfl⟩
    · obtain ⟨q, hq, hr⟩ := ih ((List.mem_cons.mp h).resolve_left (Ne.symm ht))
      rw [beforeQuestion, relaxed, if_neg ht, if_neg ht]
      exact ⟨q, congrArg (t :: ·) hq, congrArg (t :: ·) hr⟩

/-- What matches a pattern matches the relaxed one. -/
theorem GlobMatches.relaxed (h : GlobMatches ts n) : GlobMatches (relaxed ts) n := by
  by_cases hq : GlobToken.question ∈ ts
  · obtain ⟨q, hts, hr⟩ := split_question hq
    rw [hr, GlobMatches, List.map_append]
    rw [hts, GlobMatches, List.map_append] at h
    exact Wildcard.Matches.relax h
  · rwa [relaxed_eq hq]

/-! ## Strings that do not match the relaxed pattern -/

/-- Neither the rest nor any place that a mismatch goes back to can match. -/
def Hopeless : GlobState → Prop
  | .first m n => ¬ GlobMatches (relaxed (tokens m)) n
  | .second m n ma pm _ => ¬ GlobMatches (relaxed (tokens m)) n ∧
      (∀ a na, ma = some (a, na) → ¬ GlobMatches (.star :: relaxed (tokens a)) na) ∧
      (∀ p pn, pm = some (p, pn) → ¬ GlobMatches (.percent :: relaxed (tokens p)) pn)

theorem Hopeless.step {s s' : GlobState} (hw : Within glob s) (h : Hopeless s)
    (hs : globStep s = .inl s') : Hopeless s' := by
  cases s with
  | first m n =>
    have ht := globStep_firstTurn m n
    generalize globStep (.first m n) = r at ht hs
    cases ht with
    | ended => cases hs
    | question => cases hs
    | differ => cases hs
    | wild =>
      cases hs
      exact ⟨h, by simp, by simp⟩
    | same hn hm hlen htok =>
      cases hs
      subst hn
      intro hrest
      exact h (by simpa [htok, relaxed] using hrest)
  | second m n ma pm just =>
    have ht := globStep_turn m n ma pm just
    generalize globStep (.second m n ma pm just) = r at ht hs
    obtain ⟨hm, hma, hpm⟩ := h
    cases ht with
    | found => cases hs
    | ended => cases hs
    | past => cases hs
    | star hstar =>
      cases hs
      subst hstar
      simp only [tokens_star, relaxed, reduceCtorEq, if_false] at hm
      refine ⟨fun h => hm h.star, fun a na ha => ?_, hpm⟩
      cases ha
      exact hm
    | percent hperc =>
      cases hs
      subst hperc
      simp only [tokens_percent, relaxed, reduceCtorEq, if_false] at hm
      refine ⟨fun h => hm h.percent, hma, fun p pn hp => ?_⟩
      cases (percentAt_some hp).1
      exact hm
    | same hn hsuf hlen htok =>
      cases hs
      subst hn
      refine ⟨fun h => hm ?_, hma, hpm⟩
      rcases htok with htok | ⟨-, r, rfl⟩
      · simpa [htok, relaxed] using h
      · rw [tokens_question, relaxed, if_pos rfl]
        exact globMatches_any
    | differ hn hdiff =>
      have hb := globBack_back hw (by simp [hn])
      generalize globBack ma pm = r at hb hs
      cases hb with
      | ended => cases hs
      | percent hp hc =>
        cases hs
        have hrest := hpm _ _ hp
        simp only [globMatches_percent_cons, not_or, not_and] at hrest
        refine ⟨fun h => hrest.2 hc h.percent, hma, fun p pn h => ?_⟩
        cases (percentAt_some h).1
        exact hrest.2 hc
      | star hp ha hna =>
        cases hs
        have hrest := hma _ _ ha
        simp only [globMatches_star_cons, not_or] at hrest
        refine ⟨fun h => hrest.2 h.star, fun a na h => ?_, by simp⟩
        cases h
        exact hrest.2

theorem Hopeless.end {s : GlobState} {r : Except Fault Bool} (hw : Within glob s)
    (h : Hopeless s) (hs : globStep s = .inr r) : r = .ok false := by
  cases s with
  | first m n =>
    have ht := globStep_firstTurn m n
    generalize globStep (.first m n) = x at ht hs
    cases ht with
    | wild => cases hs
    | same => cases hs
    | differ =>
      cases hs
      rfl
    | question hm =>
      subst hm
      rw [Hopeless, tokens_question, relaxed, if_pos rfl] at h
      exact absurd globMatches_any h
    | ended hm =>
      cases hs
      subst hm
      rw [Hopeless, tokens, relaxed, globMatches_nil] at h
      simpa using h
  | second m n ma pm just =>
    have ht := globStep_turn m n ma pm just
    generalize globStep (.second m n ma pm just) = x at ht hs
    cases ht with
    | star => cases hs
    | percent => cases hs
    | same => cases hs
    | found hm =>
      subst hm
      rw [Hopeless, tokens_question, relaxed, if_pos rfl] at h
      exact absurd globMatches_any h.1
    | ended =>
      cases hs
      rfl
    | past hm hn =>
      subst hm hn
      rw [Hopeless, tokens, relaxed, globMatches_nil] at h
      exact absurd rfl h.1
    | differ hn =>
      have hb := globBack_back hw (by simp [hn])
      generalize globBack ma pm = x at hb hs
      cases hb with
      | percent => cases hs
      | star => cases hs
      | ended =>
        cases hs
        rfl

theorem globcmp_hopeless (h : ¬ GlobMatches (relaxed (tokens glob)) str) {fuel : ℕ}
    {r : Except Fault Bool} (hr : globcmp fuel str glob = some r) : r = .ok false :=
  globcmp_inv Hopeless (· = .ok false) (fun _ _ hw hs hstep => hs.step hw hstep)
    (fun _ _ hw hs hstep => hs.end hw hstep) h hr

/-! ## Patterns with no wildcard before the first question mark -/

/-- The first loop carries on what is left of the question. -/
def Straight (glob str : List UInt8) : GlobState → Prop
  | .first m n => AllChars (beforeQuestion (tokens m)) ∧
      (GlobMatches (throughQuestion (tokens glob)) str ↔
        GlobMatches (throughQuestion (tokens m)) n)
  | .second .. => False

theorem Straight.step {s s' : GlobState} (h : Straight glob str s)
    (hs : globStep s = .inl s') : Straight glob str s' := by
  cases s with
  | second => exact h.elim
  | first m n =>
    have ht := globStep_firstTurn m n
    generalize globStep (.first m n) = r at ht hs
    obtain ⟨hplain, hiff⟩ := h
    cases ht with
    | ended => cases hs
    | question => cases hs
    | differ => cases hs
    | wild hm hc =>
      subst hm
      rcases hc with rfl | rfl
      · simp [tokens_star, beforeQuestion, AllChars, GlobToken.isChar] at hplain
      · simp [tokens_percent, beforeQuestion, AllChars, GlobToken.isChar] at hplain
    | same hn hm hlen htok =>
      cases hs
      subst hn
      simp only [htok, beforeQuestion, throughQuestion, reduceCtorEq, if_false,
        globMatches_char_cons, true_and] at hplain hiff
      exact ⟨fun t ht => hplain t (by simp [ht]), hiff⟩

theorem firstQuestion_iff : firstQuestion n = true ↔ GlobMatches [.question] n := by
  cases n with
  | nil => simp [firstQuestion]
  | cons c n => simp [firstQuestion]

theorem Straight.end {s : GlobState} {r : Except Fault Bool} (h : Straight glob str s)
    (hs : globStep s = .inr r) :
    ∃ b, r = .ok b ∧ (b = true ↔ GlobMatches (throughQuestion (tokens glob)) str) := by
  cases s with
  | second => exact h.elim
  | first m n =>
    have ht := globStep_firstTurn m n
    generalize globStep (.first m n) = x at ht hs
    rw [Straight] at h
    obtain ⟨-, hiff⟩ := h
    cases ht with
    | wild => cases hs
    | same => cases hs
    | ended hm =>
      cases hs
      subst hm
      exact ⟨_, rfl, by simpa [tokens, throughQuestion] using hiff.symm⟩
    | question hm =>
      cases hs
      subst hm
      rw [tokens_question, throughQuestion, if_pos rfl] at hiff
      exact ⟨_, rfl, firstQuestion_iff.trans hiff.symm⟩
    | @differ c r htok hn =>
      cases hs
      refine ⟨false, rfl, ?_⟩
      rw [hiff, htok, throughQuestion, if_neg (by simp)]
      cases n with
      | nil => simp
      | cons d n =>
        have hd : d ≠ c := by simpa using hn
        simp [hd]

theorem globcmp_plain (h : AllChars (beforeQuestion (tokens glob))) {fuel : ℕ}
    {r : Except Fault Bool} (hr : globcmp fuel str glob = some r) :
    ∃ b, r = .ok b ∧ (b = true ↔ GlobMatches (throughQuestion (tokens glob)) str) :=
  globcmp_inv (Straight glob str) _ (fun _ _ _ hs hstep => hs.step hstep)
    (fun _ _ _ hs hstep => hs.end hstep) ⟨h, Iff.rfl⟩ hr

/-! ## Patterns without question marks -/

/-- A wildcard is ahead of the first loop, and the second finds no question mark. -/
def NoQuestion : GlobState → Prop
  | .first m _ => .question ∉ tokens m ∧ ¬ AllChars (tokens m)
  | .second m _ ma pm _ => .question ∉ tokens m ∧
      (∀ a na, ma = some (a, na) → .question ∉ tokens a) ∧
      (∀ p pn, pm = some (p, pn) → .question ∉ tokens p)

theorem NoQuestion.step {s s' : GlobState} (hw : Within glob s) (h : NoQuestion s)
    (hs : globStep s = .inl s') : NoQuestion s' := by
  cases s with
  | first m n =>
    have ht := globStep_firstTurn m n
    generalize globStep (.first m n) = x at ht hs
    obtain ⟨hm, hwild⟩ := h
    cases ht with
    | ended => cases hs
    | question => cases hs
    | differ => cases hs
    | wild =>
      cases hs
      exact ⟨hm, by simp, by simp⟩
    | same hn hsuf hlen htok =>
      cases hs
      rw [htok] at hm hwild
      refine ⟨fun h => hm (List.mem_cons_of_mem _ h), fun h => hwild ?_⟩
      exact List.forall_mem_cons.mpr ⟨rfl, h⟩
  | second m n ma pm just =>
    have ht := globStep_turn m n ma pm just
    generalize globStep (.second m n ma pm just) = x at ht hs
    obtain ⟨hm, hma, hpm⟩ := h
    cases ht with
    | found => cases hs
    | ended => cases hs
    | past => cases hs
    | star hstar =>
      cases hs
      subst hstar
      rw [tokens_star] at hm
      have hm' := fun h => hm (List.mem_cons_of_mem _ h)
      refine ⟨hm', fun a na ha => ?_, hpm⟩
      cases ha
      exact hm'
    | percent hperc =>
      cases hs
      subst hperc
      rw [tokens_percent] at hm
      have hm' := fun h => hm (List.mem_cons_of_mem _ h)
      refine ⟨hm', hma, fun p pn hp => ?_⟩
      cases (percentAt_some hp).1
      exact hm'
    | same hn hsuf hlen htok =>
      cases hs
      refine ⟨fun h => hm ?_, hma, hpm⟩
      rcases htok with htok | ⟨-, r, rfl⟩
      · rw [htok]
        exact List.mem_cons_of_mem _ h
      · rw [tokens_question]
        exact List.mem_cons_self
    | differ hn =>
      have hb := globBack_back hw (by simp [hn])
      generalize globBack ma pm = x at hb hs
      cases hb with
      | ended => cases hs
      | percent hp =>
        cases hs
        refine ⟨hpm _ _ hp, hma, fun p pn h => ?_⟩
        cases (percentAt_some h).1
        exact hpm _ _ hp
      | star hp ha =>
        cases hs
        refine ⟨hma _ _ ha, fun a na h => ?_, by simp⟩
        cases h
        exact hma _ _ ha

theorem NoQuestion.end {s : GlobState} {r : Except Fault Bool} (hw : Within glob s)
    (h : NoQuestion s) (hs : globStep s = .inr r) : r ≠ .ok true := by
  cases s with
  | first m n =>
    have ht := globStep_firstTurn m n
    generalize globStep (.first m n) = x at ht hs
    obtain ⟨hm, hwild⟩ := h
    cases ht with
    | wild => cases hs
    | same => cases hs
    | differ =>
      cases hs
      simp
    | ended hnil =>
      subst hnil
      exact absurd (fun t ht => by cases ht) hwild
    | question hm' =>
      subst hm'
      rw [tokens_question] at hm
      exact absurd List.mem_cons_self hm
  | second m n ma pm just =>
    have ht := globStep_turn m n ma pm just
    generalize globStep (.second m n ma pm just) = x at ht hs
    cases ht with
    | star => cases hs
    | percent => cases hs
    | same => cases hs
    | found hm =>
      subst hm
      have hq := h.1
      rw [tokens_question] at hq
      exact absurd List.mem_cons_self hq
    | ended =>
      cases hs
      simp
    | past =>
      cases hs
      simp
    | differ hn =>
      have hb := globBack_back hw (by simp [hn])
      generalize globBack ma pm = x at hb hs
      cases hb with
      | percent => cases hs
      | star => cases hs
      | ended =>
        cases hs
        simp

theorem globcmp_noQuestion (hq : .question ∉ tokens glob) (hwild : ¬ AllChars (tokens glob))
    {fuel : ℕ} {r : Except Fault Bool} (hr : globcmp fuel str glob = some r) : r ≠ .ok true :=
  globcmp_inv NoQuestion (· ≠ .ok true) (fun _ _ hw hs hstep => hs.step hw hstep)
    (fun _ _ hw hs hstep => hs.end hw hstep) ⟨hq, hwild⟩ hr

/-! ## Stars before the first question mark -/

/-- A question mark is ahead and no percent sign before it. -/
def Asks (m : List UInt8) : Prop :=
  .question ∈ tokens m ∧ .percent ∉ beforeQuestion (tokens m)

instance : Decidable (Asks m) := inferInstanceAs (Decidable (_ ∧ _))

/-- The search for what stands before the question mark: `b` is what was compared since the
last star, and no other place behind that star is lost. -/
inductive Greedy (glob str : List UInt8) : GlobState → Prop
  | first {m n : List UInt8} : Asks m → ¬ AllChars (beforeQuestion (tokens m)) → 63 ∉ n →
      (GlobMatches (beforeQuestion (tokens glob)) str ↔
        GlobMatches (beforeQuestion (tokens m)) n) → Greedy glob str (.first m n)
  | enter {m n : List UInt8} : Asks (42 :: m) → 63 ∉ n →
      (GlobMatches (beforeQuestion (tokens glob)) str ↔
        GlobMatches (.star :: beforeQuestion (tokens m)) n) →
      Greedy glob str (.second (42 :: m) n none none false)
  | search {m n a na : List UInt8} {just : Bool} (b : List UInt8) : Asks m → Asks a → 63 ∉ na →
      (GlobMatches (beforeQuestion (tokens glob)) str ↔
        GlobMatches (.star :: beforeQuestion (tokens a)) na) →
      beforeQuestion (tokens a) = b.map .char ++ beforeQuestion (tokens m) → na = b ++ n →
      (just = true → b = []) →
      (just = false → ∃ c r, beforeQuestion (tokens a) = .char c :: r) →
      Greedy glob str (.second m n (some (a, na)) none just)

theorem Asks.char {r : List UInt8} (h : Asks m) (hm : tokens m = .char c :: tokens r) :
    Asks r := by
  rw [Asks, hm, beforeQuestion, if_neg (by simp)] at h
  simp only [List.mem_cons, reduceCtorEq, false_or] at h
  exact h

theorem Asks.star (h : Asks (42 :: m)) : Asks m := by
  rw [Asks, tokens_star, beforeQuestion, if_neg (by simp)] at h
  simp only [List.mem_cons, reduceCtorEq, false_or] at h
  exact h

theorem not_asks_percent : ¬ Asks (37 :: m) := by
  rw [Asks, tokens_percent, beforeQuestion, if_neg (by simp)]
  simp

theorem not_asks_nil : ¬ Asks [] := by
  rw [Asks, tokens]
  simp

theorem globMatches_chars {b : List UInt8} :
    GlobMatches (b.map .char ++ ts) n ↔ ∃ v, n = b ++ v ∧ GlobMatches ts v := by
  rw [GlobMatches, List.map_append, List.map_map]
  exact matches_spelt

theorem globMatches_star_iff : GlobMatches (.star :: ts) n ↔ ∃ k, GlobMatches ts (n.drop k) :=
  matches_any_iff

/-- A star behind characters that were found loses nothing of the star before them. -/
theorem star_found {b : List UInt8} : GlobMatches (.star :: (b.map .char ++ .star :: ts)) (b ++ n) ↔
    GlobMatches (.star :: ts) n := by
  constructor
  · intro h
    obtain ⟨k, hk⟩ := globMatches_star_iff.mp h
    obtain ⟨v, hv, hm⟩ := globMatches_chars.mp hk
    obtain ⟨j, hj⟩ := globMatches_star_iff.mp hm
    have hdrop : v = n.drop k := by
      have := congrArg (List.drop b.length) hv
      rwa [List.drop_drop, Nat.add_comm, ← List.drop_drop, List.drop_left, List.drop_left,
        eq_comm] at this
    rw [hdrop, List.drop_drop] at hj
    exact globMatches_star_iff.mpr ⟨_, hj⟩
  · intro h
    exact (globMatches_chars.mpr ⟨n, rfl, h⟩).star

/-- The rest matches at the place the last star is tried at or nowhere behind it. -/
theorem attempt_iff {a na b : List UInt8}
    (htok : beforeQuestion (tokens a) = b.map .char ++ beforeQuestion (tokens m))
    (hn : na = b ++ n) :
    GlobMatches (beforeQuestion (tokens a)) na ↔ GlobMatches (beforeQuestion (tokens m)) n := by
  rw [htok, globMatches_chars, hn]
  constructor
  · rintro ⟨v, hv, h⟩
    rwa [List.append_cancel_left hv]
  · intro h
    exact ⟨n, rfl, h⟩

/-- The rest does not match where a character differs. -/
theorem attempt_differs {n' : List UInt8} (hm : Asks m) (hn : n = d :: n')
    (hdiff : m = [] ∨ (∃ c r, c ≠ d ∧ tokens m = .char c :: tokens r) ∨
      just = false ∧ d ≠ 63 ∧ ∃ r, m = 63 :: r) :
    ¬ GlobMatches (beforeQuestion (tokens m)) n := by
  subst hn
  rcases hdiff with rfl | ⟨c, r, hcd, htok⟩ | ⟨-, -, r, rfl⟩
  · exact absurd hm not_asks_nil
  · rw [htok, beforeQuestion, if_neg (by simp), globMatches_char_cons]
    exact fun h => hcd h.1.symm
  · rw [tokens_question, beforeQuestion, if_pos rfl, globMatches_nil]
    simp

/-- A star that is gone back to has a character behind it. -/
theorem starts_with_char {a b : List UInt8} (hm : Asks m)
    (htok : beforeQuestion (tokens a) = b.map .char ++ beforeQuestion (tokens m))
    (hjust : just = true → b = [])
    (hchar : just = false → ∃ c r, beforeQuestion (tokens a) = .char c :: r)
    (hdiff : m = [] ∨ (∃ c r, c ≠ d ∧ tokens m = .char c :: tokens r) ∨
      just = false ∧ d ≠ 63 ∧ ∃ r, m = 63 :: r) :
    ∃ c r, beforeQuestion (tokens a) = .char c :: r := by
  cases just with
  | false => exact hchar rfl
  | true =>
    rcases hdiff with rfl | ⟨c, r, -, hr⟩ | ⟨h, -⟩
    · exact absurd hm not_asks_nil
    · rw [htok, hjust rfl, hr, beforeQuestion, if_neg (by simp)]
      exact ⟨c, _, rfl⟩
    · cases h

theorem Greedy.step {s s' : GlobState} (hw : Within glob s) (h : Greedy glob str s)
    (hs : globStep s = .inl s') : Greedy glob str s' := by
  cases h with
  | @first m n hm hwild hn hiff =>
    have ht := globStep_firstTurn m n
    generalize globStep (.first m n) = x at ht hs
    cases ht with
    | ended => cases hs
    | question => cases hs
    | differ => cases hs
    | wild hm' hc =>
      cases hs
      subst hm'
      rcases hc with rfl | rfl
      · rw [tokens_star, beforeQuestion, if_neg (by simp)] at hiff
        exact .enter hm hn hiff
      · exact absurd hm not_asks_percent
    | same hnn hsuf hlen htok =>
      cases hs
      subst hnn
      rw [htok, beforeQuestion, if_neg (by simp)] at hwild hiff
      rw [globMatches_char_cons, and_iff_right rfl] at hiff
      refine .first (hm.char htok) (fun h => hwild ?_) (fun h => hn (by simp [h])) hiff
      exact List.forall_mem_cons.mpr ⟨rfl, h⟩
  | @enter m n hm hn hiff =>
    rw [globStep, if_pos rfl] at hs
    cases hs
    exact .search [] hm.star hm.star hn hiff rfl rfl (fun _ => rfl) (by simp)
  | @search m n a na just b hm ha hna hiff htok hb hjust hchar =>
    have ht := globStep_turn m n (some (a, na)) none just
    generalize globStep (.second m n (some (a, na)) none just) = x at ht hs
    cases ht with
    | found => cases hs
    | ended => cases hs
    | past => cases hs
    | star hstar =>
      cases hs
      subst hstar
      rw [tokens_star, beforeQuestion, if_neg (by simp)] at htok
      rw [htok, hb, star_found] at hiff
      refine .search [] hm.star hm.star (fun h => hna (by simp [hb, h])) hiff rfl rfl
        (fun _ => rfl) (by simp)
    | percent hperc =>
      subst hperc
      exact absurd hm not_asks_percent
    | @same d m' n' hn hsuf hlen hd =>
      cases hs
      subst hn
      rcases hd with hd | ⟨rfl, -⟩
      · rw [hd, beforeQuestion, if_neg (by simp)] at htok
        refine .search (b ++ [d]) (hm.char hd) ha hna hiff ?_ ?_ (by simp) (fun _ => ?_)
        · rw [htok, List.map_append, List.append_assoc]
          rfl
        · rw [hb, List.append_assoc]
          rfl
        · rw [htok]
          cases b with
          | nil => exact ⟨_, _, rfl⟩
          | cons c b => exact ⟨_, _, rfl⟩
      · exact absurd (by simp [hb]) hna
    | differ hn hdiff =>
      have hfail := attempt_differs hm hn hdiff
      rw [← attempt_iff htok hb] at hfail
      have hback := globBack_back hw (by simp [hn])
      generalize globBack (some (a, na)) none = x at hback hs
      cases hback with
      | ended => cases hs
      | percent hp => cases hp
      | @star a' c na' _ haa hne =>
        cases hs
        cases haa
        rw [globMatches_star_cons, or_iff_right hfail] at hiff
        exact .search [] ha ha (fun h => hna (by simp [h])) hiff rfl rfl (fun _ => rfl)
          fun _ => starts_with_char hm htok hjust hchar hdiff

theorem Greedy.end {s : GlobState} {r : Except Fault Bool} (hw : Within glob s)
    (h : Greedy glob str s) (hs : globStep s = .inr r) :
    ∃ b, r = .ok b ∧ (b = true ↔ GlobMatches (beforeQuestion (tokens glob)) str) := by
  cases h with
  | @first m n hm hwild hn hiff =>
    have ht := globStep_firstTurn m n
    generalize globStep (.first m n) = x at ht hs
    cases ht with
    | wild => cases hs
    | same => cases hs
    | ended hm' =>
      subst hm'
      exact absurd hm not_asks_nil
    | question hm' =>
      subst hm'
      rw [tokens_question, beforeQuestion, if_pos rfl] at hwild
      exact absurd (fun t ht => by cases ht) hwild
    | @differ c r htok hne =>
      cases hs
      refine ⟨false, rfl, ?_⟩
      rw [hiff, htok, beforeQuestion, if_neg (by simp)]
      cases n with
      | nil => simp
      | cons d n =>
        have hd : d ≠ c := by simpa using hne
        simp [hd]
  | @enter m n hm hn hiff =>
    rw [globStep, if_pos rfl] at hs
    cases hs
  | @search m n a na just b hm ha hna hiff htok hb hjust hchar =>
    have ht := globStep_turn m n (some (a, na)) none just
    generalize globStep (.second m n (some (a, na)) none just) = x at ht hs
    cases ht with
    | star => cases hs
    | percent => cases hs
    | same => cases hs
    | past hm' =>
      subst hm'
      exact absurd hm not_asks_nil
    | found hm' hfound =>
      cases hs
      subst hm'
      refine ⟨true, rfl, iff_of_true rfl (hiff.mpr ?_)⟩
      rw [tokens_question, beforeQuestion, if_pos rfl, List.append_nil] at htok
      rcases hfound with rfl | hj
      · refine GlobMatches.star ?_
        rw [htok, hb, ← List.append_nil (b.map GlobToken.char)]
        exact globMatches_chars.mpr ⟨[], rfl, globMatches_nil.mpr rfl⟩
      · rw [htok, hjust hj]
        exact globMatches_any
    | @ended c r hn hc =>
      cases hs
      subst hn
      refine ⟨false, rfl, iff_of_false (by simp) fun h => ?_⟩
      obtain ⟨k, hk⟩ := globMatches_star_iff.mp (hiff.mp h)
      rw [htok, hc, beforeQuestion, if_neg (by simp)] at hk
      obtain ⟨v, hv, hmv⟩ := globMatches_chars.mp hk
      have hlen := congrArg List.length hv
      rw [hb, List.append_nil, List.length_drop, List.length_append] at hlen
      cases v with
      | nil => exact globMatches_char_nil hmv
      | cons d v =>
        rw [List.length_cons] at hlen
        omega
    | differ hn hdiff =>
      have hfail := attempt_differs hm hn hdiff
      rw [← attempt_iff htok hb] at hfail
      have hback := globBack_back hw (by simp [hn])
      generalize globBack (some (a, na)) none = x at hback hs
      cases hback with
      | percent hp => cases hp
      | star => cases hs
      | ended _ htail =>
        cases hs
        refine ⟨false, rfl, iff_of_false (by simp) fun h => ?_⟩
        obtain ⟨c, r, hc⟩ := starts_with_char hm htok hjust hchar hdiff
        obtain ⟨e, rfl⟩ : ∃ e, na = [e] := by
          cases hnn : na with
          | nil => simp [hnn, hn] at hb
          | cons e na' => exact ⟨e, by rw [show na' = [] by simpa [hnn] using htail a na rfl]⟩
        rw [hiff, globMatches_star_cons, or_iff_right hfail, globMatches_star_nil, hc] at h
        exact globMatches_char_nil h

theorem globcmp_greedy (hq : Asks glob) (hwild : ¬ AllChars (beforeQuestion (tokens glob)))
    (hstr : 63 ∉ str) {fuel : ℕ} {r : Except Fault Bool}
    (hr : globcmp fuel str glob = some r) :
    ∃ b, r = .ok b ∧ (b = true ↔ GlobMatches (beforeQuestion (tokens glob)) str) :=
  globcmp_inv (Greedy glob str) _ (fun _ _ hw hs hstep => hs.step hw hstep)
    (fun _ _ hw hs hstep => hs.end hw hstep) (.first hq hwild hstr Iff.rfl) hr

/-! ## When the answer is right -/

/-- The loops end within the strings, with the answer that the pattern stands for. -/
def GlobRight (str glob : List UInt8) : Prop :=
  ∃ fuel b, globcmp fuel str glob = some (.ok b) ∧
    (b = true ↔ GlobMatches (tokens glob) str)

/-- The first question mark ends the pattern: it is the last token that counts when the first
loop meets it, and does not count itself when the second does after stars. Elsewhere the second
loop is right about strings that do not match only. -/
def GlobFits (str glob : List UInt8) : Prop :=
  if AllChars (beforeQuestion (tokens glob)) then
    GlobMatches (tokens glob) str ↔ GlobMatches (throughQuestion (tokens glob)) str
  else if Asks glob ∧ 63 ∉ str then
    GlobMatches (tokens glob) str ↔ GlobMatches (beforeQuestion (tokens glob)) str
  else ¬ GlobMatches (relaxed (tokens glob)) str

/-- The second loop may come to a question mark with a percent sign before it, or to one that
the string has too, and what follows goes by the order of the search. -/
def Astray (str glob : List UInt8) : Prop :=
  .question ∈ tokens glob ∧ ¬ AllChars (beforeQuestion (tokens glob)) ∧
    (.percent ∈ beforeQuestion (tokens glob) ∨ 63 ∈ str) ∧
    GlobMatches (relaxed (tokens glob)) str

theorem GlobFits.right (h : GlobFits str glob) : GlobRight str glob := by
  obtain ⟨fuel, r, hr⟩ := globcmp_ends str glob
  rw [GlobFits] at h
  split_ifs at h with hplain hasks
  · obtain ⟨b, rfl, hb⟩ := globcmp_plain hplain hr
    exact ⟨fuel, b, hr, hb.trans h.symm⟩
  · obtain ⟨b, rfl, hb⟩ := globcmp_greedy hasks.1 hplain hasks.2 hr
    exact ⟨fuel, b, hr, hb.trans h.symm⟩
  · obtain rfl := globcmp_hopeless h hr
    exact ⟨fuel, false, hr, iff_of_false (by simp) fun hm => h hm.relaxed⟩

theorem GlobRight.fits (h : GlobRight str glob) : GlobFits str glob ∨ Astray str glob := by
  obtain ⟨fuel, b, hr, hb⟩ := h
  rw [GlobFits]
  split_ifs with hplain hasks
  · obtain ⟨b', hb', hm⟩ := globcmp_plain hplain hr
    cases hb'
    exact .inl (hb.symm.trans hm)
  · obtain ⟨b', hb', hm⟩ := globcmp_greedy hasks.1 hplain hasks.2 hr
    cases hb'
    exact .inl (hb.symm.trans hm)
  · by_cases hrel : GlobMatches (relaxed (tokens glob)) str
    · by_cases hq : GlobToken.question ∈ tokens glob
      · refine .inr ⟨hq, hplain, ?_, hrel⟩
        by_contra hno
        rw [not_or] at hno
        exact hasks ⟨⟨hq, hno.1⟩, hno.2⟩
      · rw [relaxed_eq hq] at hrel
        rw [beforeQuestion_eq hq] at hplain
        exact absurd (by rw [hb.mpr hrel]) (globcmp_noQuestion hq hplain hr)
    · exact .inl hrel

end Opticon
