import Opticon.Lib.Outcome
import Opticon.Lib.Words
import Opticon.Meter.Data

/-! Splitting a line into words (`wordlist.c`). A string is the list of the bytes before its
terminator, a pointer into it the list of the bytes from there on. -/

namespace Opticon

open Outcome Words

def Wordlist.isspace (q : UInt8) : Bool := q == 32 || q == 9

def strchr (src : List UInt8) (c : UInt8) : Option ℕ := src.findIdx? (· == c)

def findspace (src : List UInt8) : Option ℕ :=
  let (t1, t2) :=
    match strchr src 32, strchr src 9 with
    | some t1, some t2 => if t1 < t2 then (some t1, none) else (none, some t2)
    | t1, t2 => (t1, t2)
  match t1 with
  | some t1 => some t1
  | none => t2

/-- `++i` on an `int`, undefined from the largest one on. -/
def increment (i : ℕ) : Except Fault ℕ :=
  if i + 1 < 2 ^ 31 then .ok (i + 1) else .error .outOfBounds

/-- `while (isspace(string[i])) ++i`. -/
def skipspaces : ℕ → List UInt8 → Except Fault (ℕ × List UInt8)
  | i, [] => .ok (i, [])
  | i, q :: crsr =>
    if Wordlist.isspace q then do
      let i ← increment i
      skipspaces i crsr
    else .ok (i, q :: crsr)

/-- The counting loop at `string[i]`, with `crsr` the bytes from there on: `i` stays below `ln`,
and so before the terminator. -/
def wordcountLoop (ln : ℤ) : ℕ → ℕ → List UInt8 → ℕ → Except Fault ℕ
  | 0, _, _, cnt => .ok cnt
  | fuel + 1, i, crsr, cnt =>
    if (i : ℤ) < ln then
      if crsr.head?.any Wordlist.isspace then do
        let (i, crsr) ← skipspaces i crsr
        let cnt := if crsr = [] then cnt else cnt + 1
        let i ← increment i
        wordcountLoop ln fuel i crsr.tail cnt
      else do
        let i ← increment i
        wordcountLoop ln fuel i crsr.tail cnt
    else .ok cnt

/-- `ln = strlen (string)`, a `size_t` kept in an `int`. -/
def intStrlen (string : List UInt8) : ℤ := (string.length : ℤ).bmod (2 ^ 32)

def wordcount (string : List UInt8) : Except Fault ℕ :=
  wordcountLoop (intStrlen string) string.length 0 string 1

/-- An entry of `argv` is `none` until it is written. -/
structure Wordlist where
  argc : ℕ
  argv : List (Option (List UInt8))

def setArg (argv : List (Option (List UInt8))) (pos : ℕ) (word : List UInt8) :
    Except Fault (List (Option (List UInt8))) :=
  if pos < argv.length then .ok (argv.set pos (some word)) else .error .outOfBounds

/-- The filling loop; each turn passes a space, so that the bytes left bound their number. -/
def fillLoop : ℕ → List (Option (List UInt8)) → ℕ → List UInt8 →
    Except Fault (List (Option (List UInt8)) × ℕ × List UInt8)
  | 0, argv, pos, crsr => .ok (argv, pos, crsr)
  | fuel + 1, argv, pos, crsr =>
    match findspace crsr with
    | none => .ok (argv, pos, crsr)
    | some rightbound => do
      let argv ← setArg argv pos (crsr.take rightbound)
      fillLoop fuel argv (pos + 1) ((crsr.drop rightbound).dropWhile Wordlist.isspace)

def fillArgs (fuel : ℕ) (argv : List (Option (List UInt8))) (pos : ℕ) (crsr : List UInt8) :
    Except Fault (List (Option (List UInt8))) := do
  let (argv, pos, crsr) ← fillLoop fuel argv pos crsr
  if crsr = [] then .ok argv else setArg argv pos crsr

def wordlistMake (string : List UInt8) : Except Fault Wordlist := do
  let crsr := string.dropWhile Wordlist.isspace
  let count ← wordcount crsr
  let argv ← fillArgs crsr.length (List.replicate count none) 0 crsr
  .ok ⟨count, argv⟩

/-- `free (lst->argv[i])`: of an entry that was never written the value is indeterminate. -/
def freeArg (lst : Wordlist) (i : ℕ) : Except Fault Unit :=
  match lst.argv[i]? with
  | some (some _) => .ok ()
  | some none => .error .uninitialised
  | none => .error .outOfBounds

def wordlistFree (lst : Wordlist) : Except Fault Unit :=
  (List.range lst.argc).forM (freeArg lst)

/-! ## Filling -/

section Fill

variable {w g t crsr : List UInt8} {argv written : List (Option (List UInt8))}

theorem strchr_append {c : UInt8} (hw : ∀ q ∈ w, q ≠ c) :
    strchr (w ++ crsr) c = (strchr crsr c).map (· + w.length) := by
  have hnone : w.findIdx? (· == c) = none := by simpa using hw
  rw [strchr, List.findIdx?_append, hnone]
  rfl

theorem findspace_append (hw : ∀ q ∈ w, Wordlist.isspace q = false) :
    findspace (w ++ crsr) = (findspace crsr).map (· + w.length) := by
  have hw' : ∀ q ∈ w, q ≠ 32 ∧ q ≠ 9 := fun q hq => by simpa [Wordlist.isspace] using hw q hq
  rw [findspace, findspace, strchr_append fun q hq => (hw' q hq).1,
    strchr_append fun q hq => (hw' q hq).2]
  cases strchr crsr 32 with
  | none => rfl
  | some t1 =>
    cases strchr crsr 9 with
    | none => rfl
    | some t2 =>
      by_cases h : t1 < t2
      · simp [h]
      · simp [h]

theorem findspace_blank {q : UInt8} (hq : Wordlist.isspace q = true) :
    findspace (q :: crsr) = some 0 := by
  rw [findspace, strchr, strchr, List.findIdx?_cons, List.findIdx?_cons]
  rcases (by simpa [Wordlist.isspace] using hq : q = 32 ∨ q = 9) with rfl | rfl
  · cases crsr.findIdx? (· == 9) with
    | none => rfl
    | some t2 => simp
  · cases crsr.findIdx? (· == 32) with
    | none => rfl
    | some t1 => simp

theorem findspace_none (hw : ∀ q ∈ w, Wordlist.isspace q = false) : findspace w = none := by
  have h : findspace (w ++ []) = (findspace []).map (· + w.length) := findspace_append hw
  rwa [List.append_nil] at h

theorem findspace_word (hw : ∀ q ∈ w, Wordlist.isspace q = false)
    (hg : ∀ q ∈ g, Wordlist.isspace q = true) (hne : g ≠ []) :
    findspace (w ++ (g ++ t)) = some w.length := by
  rw [findspace_append hw]
  cases g with
  | nil => exact absurd rfl hne
  | cons q g =>
    rw [List.cons_append, findspace_blank (hg q (by simp))]
    simp

theorem setArg_append (k : ℕ) (word : List UInt8) :
    setArg (written ++ List.replicate k none) written.length word =
      if 0 < k then .ok (written ++ some word :: List.replicate (k - 1) none)
      else .error .outOfBounds := by
  rw [setArg, List.length_append, List.length_replicate]
  cases k with
  | zero => simp
  | succ k => simp [List.replicate_succ]

/-- Every word takes the next entry, and a word for which none is left is written outside. -/
theorem fillArgs_words (hc : Cut Wordlist.isspace crsr) : ∀ fuel (written) (k : ℕ),
    crsr.length ≤ fuel → fillArgs fuel (written ++ List.replicate k none) written.length crsr =
    if (words Wordlist.isspace crsr).length ≤ k then
      .ok (written ++ (words Wordlist.isspace crsr).map some ++
        List.replicate (k - (words Wordlist.isspace crsr).length) none)
    else .error .outOfBounds := by
  induction hc with
  | nil =>
    intro fuel written k hfuel
    cases fuel with
    | zero => simp [fillArgs, fillLoop]
    | succ fuel => simp [fillArgs, fillLoop, findspace_none (w := [])]
  | @word w g t hne hw hg hsep ht ih =>
    intro fuel written k hfuel
    have hlen := List.length_pos_iff.mpr hne
    simp only [List.length_append] at hfuel
    obtain ⟨fuel, rfl⟩ : ∃ n, fuel = n + 1 := ⟨fuel - 1, by omega⟩
    rw [words_word hne hw hg hsep, fillArgs, fillLoop]
    by_cases hgap : g = []
    · obtain rfl : t = [] := by
        by_contra htn
        exact hsep htn hgap
      subst hgap
      rw [List.append_nil, List.append_nil, findspace_none hw]
      simp only [ok_bind, if_neg hne, setArg_append, words_nil, List.length_cons, List.length_nil]
      cases k with
      | zero => rfl
      | succ k => simp
    · rw [findspace_word hw hg hgap]
      simp only [List.take_left, List.drop_left, ht.dropWhile hg, setArg_append, List.length_cons]
      cases k with
      | zero => simp
      | succ k =>
        have hnext := ih fuel (written ++ [some w]) k (by omega)
        simp only [fillArgs, List.append_assoc, List.singleton_append, List.length_append,
          List.length_cons, List.length_nil] at hnext
        simp only [Nat.zero_lt_succ, if_true, ok_bind, Nat.add_sub_cancel]
        rw [hnext]
        simp

end Fill

/-! ## Counting -/

section Count

variable {ln : ℤ} {w g t crsr : List UInt8}

theorem skipspaces_cut (ht : Cut Wordlist.isspace t) (hg : ∀ q ∈ g, Wordlist.isspace q = true)
    (i : ℕ) : skipspaces i (g ++ t) =
      if g = [] ∨ i + g.length < 2 ^ 31 then .ok (i + g.length, t) else .error .outOfBounds := by
  induction g generalizing i with
  | nil =>
    cases t with
    | nil => rfl
    | cons c t =>
      have hc : Wordlist.isspace c = false := ht.head c (by simp)
      simp [skipspaces, hc]
  | cons c g ih =>
    rw [List.cons_append, skipspaces, if_pos (hg c (by simp)), increment]
    by_cases hi : i + 1 < 2 ^ 31
    · rw [if_pos hi, ok_bind, ih fun d hd => hg d (by simp [hd])]
      have hend : (g = [] ∨ i + 1 + g.length < 2 ^ 31) ↔ i + (g.length + 1) < 2 ^ 31 := by
        cases g with
        | nil => simpa using hi
        | cons d g =>
          simp only [reduceCtorEq, false_or]
          omega
      simp only [hend, List.length_cons, reduceCtorEq, false_or]
      simp only [Nat.add_assoc, Nat.add_comm 1]
    · rw [if_neg hi, error_bind, if_neg]
      simp only [List.length_cons, reduceCtorEq, false_or]
      omega

theorem wordcountLoop_word (hln : ln < 2 ^ 31) (hw : ∀ q ∈ w, Wordlist.isspace q = false)
    (fuel i cnt : ℕ) : wordcountLoop ln (fuel + w.length) i (w ++ crsr) cnt =
      if w = [] ∨ (i + w.length : ℤ) ≤ ln then wordcountLoop ln fuel (i + w.length) crsr cnt
      else .ok cnt := by
  induction w generalizing i with
  | nil => simp
  | cons c w ih =>
    have hc : Wordlist.isspace c = false := hw c (by simp)
    rw [List.cons_append, List.length_cons, ← Nat.add_assoc, wordcountLoop]
    by_cases hi : (i : ℤ) < ln
    · have hsucc : i + 1 < 2 ^ 31 := by omega
      have hend : (w = [] ∨ ((i + 1 : ℕ) + w.length : ℤ) ≤ ln) ↔
          (i + (w.length + 1 : ℕ) : ℤ) ≤ ln := by
        cases w with
        | nil =>
          simp only [List.length_nil, true_or, true_iff]
          omega
        | cons d w =>
          simp only [reduceCtorEq, false_or]
          omega
      rw [if_pos hi, if_neg (by simp [hc]), increment, if_pos hsucc, ok_bind, List.tail_cons,
        ih fun d hd => hw d (by simp [hd])]
      simp only [hend, reduceCtorEq, false_or, Nat.add_assoc, Nat.add_comm 1]
    · rw [if_neg hi, if_neg]
      simp only [reduceCtorEq, false_or]
      omega

theorem wordcountLoop_gap (ht : Cut Wordlist.isspace t)
    (hg : ∀ q ∈ g, Wordlist.isspace q = true) (hne : g ≠ []) (fuel i cnt : ℕ) :
    wordcountLoop ln (fuel + 1) i (g ++ t) cnt =
      if (i : ℤ) < ln then
        if i + g.length + 1 < 2 ^ 31 then
          wordcountLoop ln fuel (i + g.length + 1) t.tail (if t = [] then cnt else cnt + 1)
        else .error .outOfBounds
      else .ok cnt := by
  have hblank : (g ++ t).head?.any Wordlist.isspace = true := by
    cases g with
    | nil => exact absurd rfl hne
    | cons c g => simpa using hg c (by simp)
  rw [wordcountLoop, if_pos hblank, skipspaces_cut ht hg]
  by_cases hi : (i : ℤ) < ln
  · rw [if_pos hi, if_pos hi]
    by_cases hend : i + g.length + 1 < 2 ^ 31
    · rw [if_pos (.inr (by omega)), if_pos hend]
      simp only [ok_bind, increment, if_pos hend]
    · rw [if_neg hend]
      by_cases hrun : i + g.length < 2 ^ 31
      · rw [if_pos (.inr hrun)]
        simp only [ok_bind, increment, if_neg hend, error_bind]
      · rw [if_neg (by simp only [hne, hrun, or_self, not_false_eq_true]), error_bind]
  · rw [if_neg hi, if_neg hi]

theorem wordcountLoop_stop {i : ℕ} (hi : ln ≤ i) (fuel cnt : ℕ) :
    wordcountLoop ln fuel i crsr cnt = .ok cnt := by
  cases fuel with
  | zero => rfl
  | succ fuel => rw [wordcountLoop, if_neg (by omega)]

/-- What the loop comes to when the gaps `l` are ahead of it: those with a word behind them
are counted, and none of them may reach the largest `int`. -/
def Counts (ln : ℤ) (cnt last : ℕ) (l : List (ℕ × ℕ)) : Except Fault ℕ :=
  if ∀ x ∈ l, (x.1 : ℤ) < ln → x.2 + 1 < 2 ^ 31 then
    .ok (cnt + l.countP fun x => (x.1 : ℤ) < ln ∧ x.2 < last)
  else .error .outOfBounds

theorem counts_behind {last cnt : ℕ} {l : List (ℕ × ℕ)} (hl : ∀ x ∈ l, ln ≤ x.1) :
    Counts ln cnt last l = .ok cnt := by
  rw [Counts, if_pos, List.countP_eq_zero.mpr]
  · rfl
  · intro x hx
    have := hl x hx
    simp only [decide_eq_true_eq]
    omega
  · intro x hx hlt
    have := hl x hx
    omega

theorem counts_cons {last cnt b e : ℕ} {l : List (ℕ × ℕ)} (hb : (b : ℤ) < ln) :
    Counts ln cnt last ((b, e) :: l) =
      if e + 1 < 2 ^ 31 then Counts ln (if e < last then cnt + 1 else cnt) last l
      else .error .outOfBounds := by
  by_cases he : e + 1 < 2 ^ 31
  · have hcnt : (cnt + ((b, e) :: l).countP fun x => (x.1 : ℤ) < ln ∧ x.2 < last) =
        (if e < last then cnt + 1 else cnt) +
          l.countP fun x => (x.1 : ℤ) < ln ∧ x.2 < last := by
      by_cases hlast : e < last
      · rw [List.countP_cons_of_pos (by simp [hb, hlast]), if_pos hlast]
        omega
      · rw [List.countP_cons_of_neg (by simp [hlast]), if_neg hlast]
    rw [Counts, Counts, if_pos he, hcnt]
    simp only [List.forall_mem_cons, hb, he, true_implies, true_and]
  · rw [Counts, if_neg he, if_neg]
    intro h
    exact he (h (b, e) (by simp) hb)

theorem wordcountLoop_cut (hln : ln < 2 ^ 31) (hc : Cut Wordlist.isspace crsr) :
    ∀ fuel (i cnt : ℕ), crsr.length ≤ fuel + 1 → ln ≤ i + crsr.length →
      wordcountLoop ln fuel (i + 1) crsr.tail cnt =
        Counts ln cnt (i + crsr.length) (gapsFrom Wordlist.isspace none i crsr) := by
  induction hc with
  | nil =>
    intro fuel i cnt _ hi
    simp only [List.length_nil] at hi
    rw [wordcountLoop_stop (by omega)]
    exact (counts_behind fun x hx => by cases hx).symm
  | @word w g t hne hw hg hsep ht ih =>
    intro fuel i cnt hfuel hend
    obtain ⟨c, w, rfl⟩ := List.exists_cons_of_ne_nil hne
    have hw' : ∀ q ∈ w, Wordlist.isspace q = false := fun d hd => hw d (by simp [hd])
    simp only [List.length_append, List.length_cons] at hfuel hend
    obtain ⟨fuel, rfl⟩ : ∃ n, fuel = n + w.length := ⟨fuel - w.length, by omega⟩
    rw [List.cons_append, List.tail_cons, wordcountLoop_word hln hw', ← List.cons_append]
    by_cases hgap : g = []
    · obtain rfl : t = [] := by
        by_contra htn
        exact hsep htn hgap
      subst hgap
      have hnil := gapsFrom_word (s := []) hw i
      simp only [List.append_nil, List.length_nil] at hnil hend ⊢
      rw [hnil, wordcountLoop_stop (by omega), ite_self]
      exact (counts_behind fun x hx => by cases hx).symm
    · rw [gapsFrom_cut hw hg hgap ht, List.length_cons]
      have hbegin : i + 1 + w.length = i + (w.length + 1) := by omega
      by_cases hb : ((i + (w.length + 1) : ℕ) : ℤ) < ln
      · have hlen := List.length_pos_iff.mpr hgap
        obtain ⟨fuel, rfl⟩ : ∃ n, fuel = n + 1 := ⟨fuel - 1, by omega⟩
        rw [if_pos (.inr (by omega)), hbegin, wordcountLoop_gap ht hg hgap, if_pos hb,
          counts_cons hb, ih fuel _ _ (by omega) (by omega)]
        have hlast : i + (w.length + 1) + g.length + t.length =
            i + (c :: w ++ (g ++ t)).length := by
          simp only [List.length_append, List.length_cons]
          omega
        have hmore : i + (w.length + 1) + g.length < i + (c :: w ++ (g ++ t)).length ↔
            t ≠ [] := by
          rw [← hlast, ← List.length_pos_iff]
          omega
        rw [hlast]
        simp only [hmore, ne_eq, ite_not]
      · have hstop : wordcountLoop ln fuel (i + 1 + w.length) (g ++ t) cnt = .ok cnt :=
          wordcountLoop_stop (by omega) fuel cnt
        rw [hstop, ite_self]
        refine (counts_behind fun x hx => ?_).symm
        cases hx with
        | head => exact Int.not_lt.mp hb
        | tail _ hx =>
          have := (le_of_mem_gapsFrom ht hx).1
          omega

theorem intStrlen_bounds (s : List UInt8) : intStrlen s < 2 ^ 31 ∧ intStrlen s ≤ s.length := by
  have hself : ∀ m : ℕ, 0 < m → (s.length : ℤ).bmod m ≤ s.length := by
    intro m hm
    have hmod := Nat.mod_le s.length m
    rw [Int.bmod_def]
    split
    · exact_mod_cast hmod
    · omega
  exact ⟨Int.bmod_lt (by decide), hself _ (by decide)⟩

/-- What `wordcount` comes to on a text without leading blanks. -/
theorem wordcount_cut (hc : Cut Wordlist.isspace crsr) : wordcount crsr =
    Counts (intStrlen crsr) 1 crsr.length (gaps Wordlist.isspace crsr) := by
  obtain ⟨hlt, hle⟩ := intStrlen_bounds crsr
  rw [wordcount, gaps]
  cases crsr with
  | nil =>
    rw [wordcountLoop_stop (by simpa using hle)]
    exact (counts_behind fun x hx => by cases hx).symm
  | cons c crsr =>
    have hhead : Wordlist.isspace c = false := hc.head c (by simp)
    have hrun := wordcountLoop_cut hlt hc crsr.length 0 1 (by simp) (by simpa using hle)
    rw [Nat.zero_add, Nat.zero_add] at hrun
    rw [List.length_cons, wordcountLoop]
    by_cases hpos : ((0 : ℕ) : ℤ) < intStrlen (c :: crsr)
    · rw [if_pos hpos, if_neg (by simp [hhead]), increment, if_pos (by decide), ok_bind]
      exact hrun
    · rw [if_neg hpos]
      exact (counts_behind fun x _ => by omega).symm

end Count

/-! ## Splitting -/

/-- The words come out in order, and all that is freed was written. -/
def SplitRight (string : List UInt8) : Prop :=
  ∃ lst, wordlistMake string = .ok lst ∧
    lst.argc = (words Wordlist.isspace string).length ∧
    (∀ i < lst.argc, lst.argv[i]? = (words Wordlist.isspace string)[i]?.map some) ∧
    wordlistFree lst = .ok ()

/-- What the `int`s of the counting loop ask of a text: a gap with a word behind it begins
before the length that the loop goes by, and a gap that begins before it ends in reach. -/
def GapsFit (crsr : List UInt8) : Prop :=
  ∀ x ∈ gaps Wordlist.isspace crsr,
    (x.2 < crsr.length → (x.1 : ℤ) < intStrlen crsr) ∧
      ((x.1 : ℤ) < intStrlen crsr → x.2 + 1 < 2 ^ 31)

/-- The gaps of a text that an `int` can count fit. -/
theorem gapsFit_of_length {crsr : List UInt8} (hc : Cut Wordlist.isspace crsr)
    (hlen : crsr.length + 1 < 2 ^ 31) : GapsFit crsr := by
  have hln : intStrlen crsr = crsr.length := by
    refine Int.bmod_eq_of_le ?_ ?_
    · exact Int.le_trans (by decide) (Int.natCast_nonneg _)
    · omega
  intro x hx
  obtain ⟨-, hle, hend⟩ := le_of_mem_gapsFrom hc hx
  rw [hln]
  exact ⟨fun h => by omega, fun _ => by omega⟩

theorem counts_eq_iff {ln : ℤ} {last : ℕ} {l : List (ℕ × ℕ)} :
    Counts ln 1 last l = .ok (l.countP (·.2 < last) + 1) ↔
      ∀ x ∈ l, (x.2 < last → (x.1 : ℤ) < ln) ∧ ((x.1 : ℤ) < ln → x.2 + 1 < 2 ^ 31) := by
  have hcount : (1 + l.countP fun x => (x.1 : ℤ) < ln ∧ x.2 < last) =
      l.countP (·.2 < last) + 1 ↔ ∀ x ∈ l, x.2 < last → (x.1 : ℤ) < ln := by
    have hboth : (l.countP fun x => (x.1 : ℤ) < ln ∧ x.2 < last) =
        (l.filter (·.2 < last)).countP fun x => (x.1 : ℤ) < ln := by
      rw [List.countP_filter]
      simp only [Bool.decide_and]
    rw [hboth, Nat.add_comm, Nat.add_right_cancel_iff,
      List.countP_eq_length_filter (p := fun x : ℕ × ℕ => decide (x.2 < last)),
      List.countP_eq_length]
    simp only [List.mem_filter, decide_eq_true_eq, and_imp]
  rw [Counts]
  constructor
  · intro h x hx
    by_cases hfit : ∀ x ∈ l, (x.1 : ℤ) < ln → x.2 + 1 < 2 ^ 31
    · rw [if_pos hfit] at h
      exact ⟨hcount.mp (Except.ok.inj h) x hx, hfit x hx⟩
    · rw [if_neg hfit] at h
      cases h
  · intro h
    rw [if_pos fun x hx => (h x hx).2, hcount.mpr fun x hx => (h x hx).1]

theorem counts_eq_words {crsr : List UInt8} (hc : Cut Wordlist.isspace crsr) :
    wordcount crsr = .ok (words Wordlist.isspace crsr).length ↔ crsr ≠ [] ∧ GapsFit crsr := by
  by_cases hs : crsr = []
  · subst hs
    simp only [ne_eq, not_true_eq_false, false_and, iff_false]
    exact fun h => by cases h
  · have hlen := length_words hc hs 0
    rw [Nat.zero_add] at hlen
    rw [wordcount_cut hc, hlen, and_iff_right hs]
    exact counts_eq_iff

theorem wordlistFree_ok {lst : Wordlist}
    (h : ∀ i < lst.argc, ∃ w, lst.argv[i]? = some (some w)) : wordlistFree lst = .ok () := by
  have hall : ∀ l : List ℕ, (∀ i ∈ l, i < lst.argc) → l.forM (freeArg lst) = .ok () := by
    intro l hl
    induction l with
    | nil => rfl
    | cons i l ih =>
      obtain ⟨w, hw⟩ := h i (hl i (by simp))
      rw [List.forM, freeArg, hw]
      exact ih fun j hj => hl j (by simp [hj])
  exact hall _ fun i hi => List.mem_range.mp hi

/-- All is well when the two scans agree. -/
theorem splitRight_iff (string : List UInt8) : SplitRight string ↔
    wordcount (string.dropWhile Wordlist.isspace) =
      .ok (words Wordlist.isspace string).length := by
  have hfill : ∀ k, fillArgs (string.dropWhile Wordlist.isspace).length (List.replicate k none) 0
      (string.dropWhile Wordlist.isspace) = if (words Wordlist.isspace string).length ≤ k then
        .ok ((words Wordlist.isspace string).map some ++
          List.replicate (k - (words Wordlist.isspace string).length) none)
      else .error .outOfBounds := by
    intro k
    have h := fillArgs_words (cut_dropWhile Wordlist.isspace string) _ [] k (Nat.le_refl _)
    rwa [words_dropWhile] at h
  constructor
  · rintro ⟨lst, hmake, hargc, -, -⟩
    rw [wordlistMake] at hmake
    obtain ⟨count, hcount, hmake⟩ := bind_ok_iff.mp hmake
    obtain ⟨argv, -, hlst⟩ := bind_ok_iff.mp hmake
    cases hlst
    rw [hcount, ← hargc]
  · intro hcount
    refine ⟨⟨_, (words Wordlist.isspace string).map some⟩, ?_, rfl, ?_, ?_⟩
    · rw [wordlistMake, hcount, ok_bind, hfill, if_pos (Nat.le_refl _), Nat.sub_self]
      simp
    · intro i _
      rw [List.getElem?_map]
    · refine wordlistFree_ok fun i hi => ⟨(words Wordlist.isspace string)[i], ?_⟩
      rw [List.getElem?_map, List.getElem?_eq_getElem hi]
      rfl

/-- A string is split right when it holds a word and its gaps fit, as those of every string do
whose length an `int` can hold with one to spare. -/
theorem words_split_iff (string : List UInt8) :
    (SplitRight string ↔ (∃ q ∈ string, Wordlist.isspace q = false) ∧
      GapsFit (string.dropWhile Wordlist.isspace)) ∧
    (string.length + 1 < 2 ^ 31 → GapsFit (string.dropWhile Wordlist.isspace)) := by
  have hcut := cut_dropWhile Wordlist.isspace string
  constructor
  · rw [splitRight_iff, ← words_dropWhile, counts_eq_words hcut]
    simp only [ne_eq, List.dropWhile_eq_nil_iff, not_forall, Bool.not_eq_true, exists_prop]
  · intro hlen
    have hle := (List.dropWhile_sublist (l := string) Wordlist.isspace).length_le
    exact gapsFit_of_length hcut (by omega)

/-- The words of `" a\t b "`. -/
theorem words_split_text : SplitRight [32, 97, 9, 32, 98, 32] :=
  (words_split_iff _).1.mpr ⟨⟨97, by decide, by decide⟩, (words_split_iff _).2 (by decide)⟩

/-- Of a blank the list has one entry, which nothing writes and `wordlist_free` frees. -/
theorem words_of_blank : ¬ SplitRight [32] ∧
    wordlistMake [32] = .ok ⟨1, [none]⟩ ∧ wordlistFree ⟨1, [none]⟩ = .error .uninitialised := by
  refine ⟨?_, rfl, rfl⟩
  rintro ⟨lst, hmake, hargc, -, -⟩
  obtain rfl : (⟨1, [none]⟩ : Wordlist) = lst := Except.ok.inj hmake
  exact absurd hargc (by decide)

end Opticon
