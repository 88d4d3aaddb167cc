import Opticon.Agent.Glob

/-! What one turn of the loops of `globcmp` does, and that the loops end. -/

namespace Opticon

open Wildcard

variable {str glob m n a na p pn : List UInt8} {ma pm : Option (List UInt8 × List UInt8)}
  {just : Bool} {c d : UInt8}

/-! ## The tokens of a pattern -/

theorem tokens_star : tokens (42 :: m) = .star :: tokens m := by
  rw [tokens] <;> simp

theorem tokens_percent : tokens (37 :: m) = .percent :: tokens m := by
  rw [tokens] <;> simp

theorem tokens_question : tokens (63 :: m) = .question :: tokens m := by
  rw [tokens] <;> simp

/-- Before other characters a turn compares the character that a token stands for. -/
theorem tokens_char (h : c ≠ 42 ∧ c ≠ 37 ∧ c ≠ 63) (m : List UInt8) :
    ∃ d r, (if c = 92 then skipQuote (c :: m) else c :: m) = d :: r ∧
      tokens (c :: m) = .char d :: tokens r ∧ r <:+ m := by
  by_cases hc : c = 92
  · subst hc
    rw [if_pos rfl]
    cases m with
    | nil => exact ⟨92, [], rfl, rfl, List.suffix_rfl⟩
    | cons d m =>
      by_cases hd : d = 42 ∨ d = 63
      · refine ⟨d, m, ?_, ?_, List.suffix_cons d m⟩
        · rw [skipQuote, if_pos (by simpa using hd)]
        · rcases hd with rfl | rfl
          · rw [tokens]
          · rw [tokens]
      · refine ⟨92, d :: m, ?_, ?_, List.suffix_rfl⟩
        · rw [skipQuote, if_neg (by simpa using hd)]
        · rw [not_or] at hd
          rw [tokens] <;> simp [hd.1, hd.2]
  · rw [if_neg hc]
    exact ⟨c, m, rfl, by rw [tokens] <;> simp [h, hc], List.suffix_rfl⟩

/-! ## One turn -/

/-- What a turn of the second loop comes to. -/
inductive Turn (m n : List UInt8) (ma pm : Option (List UInt8 × List UInt8)) (just : Bool) :
    GlobState ⊕ Except Fault Bool → Prop
  | star {m'} : m = 42 :: m' → Turn m n ma pm just (.inl (.second m' n (some (m', n)) pm true))
  | percent {m'} : m = 37 :: m' →
      Turn m n ma pm just (.inl (.second m' n ma (percentAt m' n) just))
  | found {m'} : m = 63 :: m' → n = [] ∨ just = true → Turn m n ma pm just (.inr (.ok true))
  | same {d m' n'} : n = d :: n' → m' <:+ m → m'.length < m.length →
      (tokens m = .char d :: tokens m' ∨ d = 63 ∧ ∃ r, m = 63 :: r) →
      Turn m n ma pm just (.inl (.second m' n' ma pm false))
  | differ {d n'} : n = d :: n' →
      (m = [] ∨ (∃ c r, c ≠ d ∧ tokens m = .char c :: tokens r) ∨
        just = false ∧ d ≠ 63 ∧ ∃ r, m = 63 :: r) →
      Turn m n ma pm just (globBack ma pm)
  | ended {c r} : n = [] → tokens m = .char c :: tokens r → Turn m n ma pm just (.inr (.ok false))
  | past : m = [] → n = [] → Turn m n ma pm just (.inr (.error .outOfBounds))

theorem turn_char {r : List UInt8} (hm : tokens m = .char c :: tokens r) (hr : r <:+ m)
    (hlen : r.length < m.length) : Turn m n ma pm just (secondDefault ma pm (c :: r) n) := by
  cases n with
  | nil => exact .ended rfl hm
  | cons d n' =>
    rw [secondDefault]
    by_cases hcd : c = d
    · subst hcd
      rw [if_pos rfl]
      exact .same rfl hr hlen (.inl hm)
    · rw [if_neg hcd]
      exact .differ rfl (.inr (.inl ⟨c, r, hcd, hm⟩))

/-- A question mark that is not the end of the search is compared as it stands. -/
theorem turn_question (hn : n ≠ []) (hj : just = false) :
    Turn (63 :: m) n ma pm just (secondDefault ma pm (skipQuote (63 :: m)) n) := by
  obtain ⟨r, hskip, hr⟩ : ∃ r, skipQuote (63 :: m) = 63 :: r ∧ r <:+ m := by
    cases m with
    | nil => exact ⟨[], rfl, List.suffix_rfl⟩
    | cons d m =>
      by_cases hd : d = 63
      · subst hd
        exact ⟨m, rfl, List.suffix_cons _ _⟩
      · exact ⟨d :: m, by rw [skipQuote, if_neg (by simp [hd])], List.suffix_rfl⟩
  rw [hskip]
  cases n with
  | nil => exact absurd rfl hn
  | cons d n' =>
    rw [secondDefault]
    by_cases hd : 63 = d
    · subst hd
      rw [if_pos rfl]
      exact .same rfl (hr.trans (List.suffix_cons _ _)) (Nat.lt_succ_of_le hr.length_le)
        (.inr ⟨rfl, m, rfl⟩)
    · rw [if_neg hd]
      exact .differ rfl (.inr (.inr ⟨hj, Ne.symm hd, m, rfl⟩))

theorem globStep_turn (m n : List UInt8) (ma pm : Option (List UInt8 × List UInt8))
    (just : Bool) : Turn m n ma pm just (globStep (.second m n ma pm just)) := by
  cases m with
  | nil =>
    rw [globStep]
    cases n with
    | nil => exact .past rfl rfl
    | cons d n => exact .differ rfl (.inl rfl)
  | cons c m =>
    rw [globStep]
    by_cases h42 : c = 42
    · subst h42
      exact .star rfl
    by_cases h37 : c = 37
    · subst h37
      exact .percent rfl
    rw [if_neg h42, if_neg h37]
    by_cases h63 : c = 63
    · subst h63
      rw [if_pos rfl]
      by_cases hfound : n = [] ∨ just = true
      · rw [if_pos hfound]
        exact .found rfl hfound
      · rw [if_neg hfound]
        rw [not_or, Bool.not_eq_true] at hfound
        exact turn_question hfound.1 hfound.2
    · obtain ⟨d, r, hskip, htok, hr⟩ := tokens_char ⟨h42, h37, h63⟩ m
      have h : Turn (c :: m) n ma pm just (secondDefault ma pm (d :: r) n) :=
        turn_char htok (hr.trans (List.suffix_cons _ _)) (Nat.lt_succ_of_le hr.length_le)
      rw [← hskip] at h
      rw [if_neg h63]
      split_ifs at h ⊢
      · exact h
      · exact h

/-- What a turn of the first loop comes to. -/
inductive FirstTurn (m n : List UInt8) : GlobState ⊕ Except Fault Bool → Prop
  | ended : m = [] → FirstTurn m n (.inr (.ok n.isEmpty))
  | wild {c m'} : m = c :: m' → c = 42 ∨ c = 37 → FirstTurn m n (.inl (.second m n none none false))
  | question {m'} : m = 63 :: m' →
      FirstTurn m n (.inr (.ok (firstQuestion n)))
  | same {d m' n'} : n = d :: n' → m' <:+ m → m'.length < m.length →
      tokens m = .char d :: tokens m' → FirstTurn m n (.inl (.first m' n'))
  | differ {c r} : tokens m = .char c :: tokens r → n.head? ≠ some c →
      FirstTurn m n (.inr (.ok false))

theorem globStep_firstTurn (m n : List UInt8) : FirstTurn m n (globStep (.first m n)) := by
  cases m with
  | nil => exact .ended rfl
  | cons c m =>
    rw [globStep]
    by_cases hwild : c = 42 ∨ c = 37
    · rw [if_pos hwild]
      exact .wild rfl hwild
    rw [if_neg hwild]
    by_cases h63 : c = 63
    · subst h63
      rw [if_pos rfl]
      exact .question rfl
    · rw [not_or] at hwild
      obtain ⟨d, r, hskip, htok, hr⟩ := tokens_char ⟨hwild.1, hwild.2, h63⟩ m
      have h : FirstTurn (c :: m) n (firstDefault (d :: r) n) := by
        cases n with
        | nil => exact .differ htok (by simp)
        | cons e n =>
          rw [firstDefault]
          by_cases hde : d = e
          · subst hde
            rw [if_pos rfl]
            exact .same rfl (hr.trans (List.suffix_cons _ _)) (Nat.lt_succ_of_le hr.length_le) htok
          · rw [if_neg hde]
            exact .differ htok (by simpa using Ne.symm hde)
      rw [← hskip] at h
      rw [if_neg h63]
      split_ifs at h ⊢
      · exact h
      · exact h

/-- Where a mismatch goes back to. -/
inductive Back (ma pm : Option (List UInt8 × List UInt8)) : GlobState ⊕ Except Fault Bool → Prop
  | percent {p' c pn'} : pm = some (p', c :: pn') → c ≠ 32 →
      Back ma pm (.inl (.second p' pn' ma (percentAt p' pn') false))
  | star {a' c na'} : pm = none → ma = some (a', c :: na') → na' ≠ [] →
      Back ma pm (.inl (.second a' na' (some (a', na')) none false))
  | ended : pm = none → (∀ a na, ma = some (a, na) → na.tail = []) → Back ma pm (.inr (.ok false))

/-! ## The loops end -/

/-- The pointers stay in the pattern, and what a mismatch goes back to stands behind the
wildcard it was saved at. -/
def Within (glob : List UInt8) : GlobState → Prop
  | .first m _ => m <:+ glob
  | .second m n ma pm _ => m <:+ glob ∧
      (∀ a na, ma = some (a, na) → 42 :: a <:+ glob ∧ (na ≠ [] ∨ n = [])) ∧
      (∀ p pn, pm = some (p, pn) → 37 :: p <:+ glob ∧ m <:+ p ∧ (pn ≠ [] ∨ n = []) ∧
        pn.head? ≠ some 32)

theorem globBack_back (h : Within glob (.second m n ma pm just)) (hn : n ≠ []) :
    Back ma pm (globBack ma pm) := by
  obtain ⟨-, hma, hpm⟩ := h
  match pm, ma with
  | some (p, pn), ma =>
    obtain ⟨-, -, hpn, hspace⟩ := hpm p pn rfl
    match pn with
    | [] => exact absurd (hpn.resolve_left (fun h => h rfl)) hn
    | c :: pn => exact .percent rfl (by simpa using hspace)
  | none, none => exact .ended rfl (by simp)
  | none, some (a, na) =>
    obtain ⟨-, hna⟩ := hma a na rfl
    match na with
    | [] => exact absurd (hna.resolve_left (fun h => h rfl)) hn
    | c :: na =>
      rw [globBack]
      by_cases hend : na = []
      · rw [if_pos hend]
        refine .ended rfl fun a' na' h => ?_
        cases h
        exact hend
      · rw [if_neg hend]
        exact .star rfl rfl hend

/-- The earlier of the two places that a mismatch goes back to counts first, each by what is
left of the pattern and of the string. -/
def globRank : GlobState → ℕ × ℕ × ℕ × ℕ × ℕ
  | .first m _ => (m.length + 1, 0, 0, 0, 0)
  | .second m _ none none _ => (m.length, 0, 0, 0, 0)
  | .second m _ none (some (p, pn)) _ => (p.length, pn.length, 0, 0, m.length)
  | .second m _ (some (a, na)) none _ =>
    if m.length ≤ a.length then (a.length, na.length, m.length, 0, 0) else (m.length, 0, 0, 0, 0)
  | .second m _ (some (a, na)) (some (p, pn)) _ =>
    if p.length < a.length then (a.length, na.length, p.length, pn.length, m.length)
    else (p.length, pn.length, 0, 0, m.length)

theorem percentAt_some {x : List UInt8 × List UInt8} (h : percentAt m n = some x) :
    x = (m, n) ∧ n.head? ≠ some 32 := by
  rw [percentAt] at h
  split_ifs at h with hspace
  exact ⟨(Option.some.inj h).symm, hspace⟩

theorem Within.step {s s' : GlobState} (h : Within glob s) (hs : globStep s = .inl s') :
    Within glob s' := by
  cases s with
  | first m n =>
    have ht := globStep_firstTurn m n
    generalize globStep (.first m n) = r at ht hs
    cases ht with
    | ended => cases hs
    | question => cases hs
    | differ => cases hs
    | wild =>
      cases hs
      exact ⟨h, by simp, by simp⟩
    | same hn hm hlen htok =>
      cases hs
      exact hm.trans h
  | second m n ma pm just =>
    have ht := globStep_turn m n ma pm just
    generalize globStep (.second m n ma pm just) = r at ht hs
    have hw := h
    obtain ⟨hm, hma, hpm⟩ := h
    cases ht with
    | star hstar =>
      cases hs
      subst hstar
      refine ⟨(List.suffix_cons _ _).trans hm, fun a na ha => ?_, fun p pn hp => ?_⟩
      · cases ha
        exact ⟨hm, or_not.symm.imp_left fun h => h⟩
      · obtain ⟨hsuf, hmp, hpn⟩ := hpm p pn hp
        exact ⟨hsuf, (List.suffix_cons _ _).trans hmp, hpn⟩
    | percent hperc =>
      cases hs
      subst hperc
      refine ⟨(List.suffix_cons _ _).trans hm, hma, fun p pn hp => ?_⟩
      obtain ⟨hp, hspace⟩ := percentAt_some hp
      cases hp
      exact ⟨hm, List.suffix_rfl, or_not.symm.imp_left fun h => h, hspace⟩
    | found => cases hs
    | ended => cases hs
    | past => cases hs
    | same hn hsuf hlen htok =>
      cases hs
      subst hn
      refine ⟨hsuf.trans hm, fun a na ha => ?_, fun p pn hp => ?_⟩
      · obtain ⟨ha', hna⟩ := hma a na ha
        exact ⟨ha', .inl (hna.resolve_right (by simp))⟩
      · obtain ⟨hp', hmp, hpn, hspace⟩ := hpm p pn hp
        exact ⟨hp', hsuf.trans hmp, .inl (hpn.resolve_right (by simp)), hspace⟩
    | differ hn hdiff =>
      have hne : n ≠ [] := by simp [hn]
      have hb : Back ma pm (globBack ma pm) := globBack_back hw hne
      generalize globBack ma pm = r at hb hs
      cases hb with
      | ended => cases hs
      | percent hp hc =>
        cases hs
        obtain ⟨hp', -, -, -⟩ := hpm _ _ hp
        refine ⟨(List.suffix_cons _ _).trans hp', fun a na ha => ?_, fun p pn h => ?_⟩
        · obtain ⟨ha', hna⟩ := hma a na ha
          exact ⟨ha', .inl (hna.resolve_right hne)⟩
        · obtain ⟨h, hspace⟩ := percentAt_some h
          cases h
          exact ⟨hp', List.suffix_rfl, or_not.symm.imp_left fun h => h, hspace⟩
      | star hp ha hna =>
        cases hs
        obtain ⟨ha', -⟩ := hma _ _ ha
        refine ⟨(List.suffix_cons _ _).trans ha', fun a na h => ?_, fun p pn h => by cases h⟩
        cases h
        exact ⟨ha', .inl hna⟩

/-- The places behind a star and behind a percent sign differ. -/
theorem Within.lengths (ha : 42 :: a <:+ glob) (hp : 37 :: p <:+ glob) :
    a.length ≠ p.length := by
  intro hlen
  have h := (List.suffix_of_suffix_length_le ha hp (by simp [hlen])).eq_of_length (by simp [hlen])
  exact absurd (List.cons.inj h).1 (by decide)

/-- One rank below another, in the order of the numbers from left to right. -/
def RankLt : ℕ × ℕ × ℕ × ℕ × ℕ → ℕ × ℕ × ℕ × ℕ × ℕ → Prop :=
  Prod.Lex (· < ·) (Prod.Lex (· < ·) (Prod.Lex (· < ·) (Prod.Lex (· < ·) (· < ·))))

theorem rankLt_iff {x₁ x₂ x₃ x₄ x₅ y₁ y₂ y₃ y₄ y₅ : ℕ} :
    RankLt (x₁, x₂, x₃, x₄, x₅) (y₁, y₂, y₃, y₄, y₅) ↔
      x₁ < y₁ ∨ x₁ = y₁ ∧ (x₂ < y₂ ∨ x₂ = y₂ ∧ (x₃ < y₃ ∨ x₃ = y₃ ∧
        (x₄ < y₄ ∨ x₄ = y₄ ∧ x₅ < y₅))) := by
  simp only [RankLt, Prod.lex_def]

/-- A turn that only shortens the pattern lowers the rank. -/
theorem rank_shorter {m' n' : List UInt8} {just' : Bool} (hlen : m'.length < m.length) :
    RankLt (globRank (.second m' n' ma pm just')) (globRank (.second m n ma pm just)) := by
  match ma, pm with
  | none, none | none, some (p, pn) =>
    rw [globRank, globRank, rankLt_iff]
    omega
  | some (a, na), none | some (a, na), some (p, pn) =>
    rw [globRank, globRank]
    split_ifs <;> rw [rankLt_iff] <;> omega

theorem rank_star {n : List UInt8} (hpm : ∀ p pn, pm = some (p, pn) → m.length < p.length) :
    RankLt (globRank (.second m n (some (m, n)) pm true))
      (globRank (.second (42 :: m) n ma pm just)) := by
  match ma, pm with
  | none, none =>
    rw [globRank, globRank, if_pos (Nat.le_refl _), List.length_cons, rankLt_iff]
    omega
  | some (a, na), none =>
    rw [globRank, globRank, if_pos (Nat.le_refl _), List.length_cons]
    split_ifs <;> rw [rankLt_iff] <;> omega
  | none, some (p, pn) | some (a, na), some (p, pn) =>
    have hp := hpm p pn rfl
    rw [globRank, globRank, List.length_cons]
    split_ifs <;> rw [rankLt_iff] <;> omega

theorem rank_percent {n : List UInt8} (hpm : ∀ p pn, pm = some (p, pn) → m.length < p.length)
    (hne : ∀ a na p pn, ma = some (a, na) → pm = some (p, pn) → a.length ≠ p.length) :
    RankLt (globRank (.second m n ma (percentAt m n) just))
      (globRank (.second (37 :: m) n ma pm just)) := by
  rw [percentAt]
  match ma, pm with
  | none, none =>
    split_ifs <;> rw [globRank, globRank, List.length_cons, rankLt_iff] <;> omega
  | some (a, na), none =>
    split_ifs <;> rw [globRank, globRank, List.length_cons] <;> split_ifs <;>
      rw [rankLt_iff] <;> omega
  | none, some (p, pn) =>
    have hp := hpm p pn rfl
    split_ifs <;> rw [globRank, globRank, rankLt_iff] <;> omega
  | some (a, na), some (p, pn) =>
    have hp := hpm p pn rfl
    have hap := hne a na p pn rfl rfl
    split_ifs <;> rw [globRank, globRank] <;> split_ifs <;> rw [rankLt_iff] <;> omega

theorem rank_backPercent {p' pn' : List UInt8} (hpm : pm = some (p', c :: pn'))
    (hne : ∀ a na, ma = some (a, na) → a.length ≠ p'.length) :
    RankLt (globRank (.second p' pn' ma (percentAt p' pn') false))
      (globRank (.second m n ma pm just)) := by
  subst hpm
  rw [percentAt]
  match ma with
  | none => split_ifs <;> rw [globRank, globRank, List.length_cons, rankLt_iff] <;> omega
  | some (a, na) =>
    have hap := hne a na rfl
    split_ifs <;> rw [globRank, globRank, List.length_cons] <;> split_ifs <;>
      rw [rankLt_iff] <;> omega

theorem rank_backStar {a' na' : List UInt8} (hma : ma = some (a', c :: na')) (hpm : pm = none) :
    RankLt (globRank (.second a' na' (some (a', na')) none false))
      (globRank (.second m n ma pm just)) := by
  subst hma hpm
  rw [globRank, globRank, if_pos (Nat.le_refl _), List.length_cons]
  split_ifs <;> rw [rankLt_iff] <;> omega

theorem globRank_step {s s' : GlobState} (h : Within glob s) (hs : globStep s = .inl s') :
    RankLt (globRank s') (globRank s) := by
  cases s with
  | first m n =>
    have ht := globStep_firstTurn m n
    generalize globStep (.first m n) = r at ht hs
    cases ht with
    | ended => cases hs
    | question => cases hs
    | differ => cases hs
    | wild =>
      cases hs
      rw [globRank, globRank, rankLt_iff]
      omega
    | same hn hm hlen htok =>
      cases hs
      rw [globRank, globRank, rankLt_iff]
      omega
  | second m n ma pm just =>
    have ht := globStep_turn m n ma pm just
    generalize globStep (.second m n ma pm just) = r at ht hs
    have hlen : ∀ p pn, pm = some (p, pn) → m.length ≤ p.length :=
      fun p pn hp => (h.2.2 p pn hp).2.1.length_le
    have hne : ∀ a na p pn, ma = some (a, na) → pm = some (p, pn) → a.length ≠ p.length :=
      fun a na p pn ha hp => Within.lengths (h.2.1 a na ha).1 (h.2.2 p pn hp).1
    cases ht with
    | star hstar =>
      cases hs
      subst hstar
      exact rank_star hlen
    | percent hperc =>
      cases hs
      subst hperc
      exact rank_percent hlen hne
    | found => cases hs
    | ended => cases hs
    | past => cases hs
    | same hn hsuf hshort htok =>
      cases hs
      exact rank_shorter hshort
    | differ hn hdiff =>
      have hb := globBack_back h (by simp [hn])
      generalize globBack ma pm = r at hb hs
      cases hb with
      | ended => cases hs
      | percent hp hc =>
        cases hs
        exact rank_backPercent hp fun a na ha => hne a na _ _ ha hp
      | star hp ha hna =>
        cases hs
        exact rank_backStar ha hp

theorem rankLt_wf : WellFounded RankLt := by
  have h := wellFounded_lt (α := ℕ)
  exact WellFounded.prod_lex h (WellFounded.prod_lex h (WellFounded.prod_lex h
    (WellFounded.prod_lex h h)))

/-- The loops end on every string and pattern. -/
theorem globcmp_ends (str glob : List UInt8) : ∃ fuel r, globcmp fuel str glob = some r := by
  refine Loop.run_ends (Within glob) rankLt_wf globRank ?_ List.suffix_rfl
  exact fun s s' h hs => ⟨h.step hs, globRank_step h hs⟩

/-- What the turns keep, beside their pointers, tells of the answer. -/
theorem globcmp_inv (Inv : GlobState → Prop) (Post : Except Fault Bool → Prop)
    (hstep : ∀ s s', Within glob s → Inv s → globStep s = .inl s' → Inv s')
    (hend : ∀ s r, Within glob s → Inv s → globStep s = .inr r → Post r)
    (h : Inv (.first glob str)) {fuel : ℕ} {r : Except Fault Bool}
    (hr : globcmp fuel str glob = some r) : Post r := by
  have hinit : Within glob (.first glob str) := List.suffix_rfl
  refine Loop.run_inv (fun s => Within glob s ∧ Inv s) Post (fun s s' hs hst => ?_)
    (fun s r hs hst => ?_) ⟨hinit, h⟩ hr
  · exact ⟨hs.1.step hst, hstep s s' hs.1 hs.2 hst⟩
  · exact hend s r hs.1 hs.2 hst

end Opticon
