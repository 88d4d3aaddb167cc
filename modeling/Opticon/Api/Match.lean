import Opticon.Lib.Decimal
import Opticon.Meter.UuidText

/-! The URL patterns of the API (`req_context.c`). -/

namespace Opticon

/-- The bytes of a URL, of a pattern or of a part of one. -/
abbrev UrlText := List UInt8

/-- The element of a URL that a `%` in a pattern stands for: the characters it may hold and
how many of them count, by the type of the argument. -/
def argValid (matchtp : UInt8) (elm : UrlText) : Bool :=
  let only (chars : String) : Bool := elm.all fun c => c ∈ asc chars
  match matchtp with
  | 115 /- s -/ => elm ≠ []
  | 83 /- S -/ =>
    elm ≠ [] ∧
      only "0123456789_-.abcdefghijklmnopqrstuvwxyzABCDEFGHIJKLMNOPQRSTUVWXYZ"
  | 85 /- U -/ => only "0123456789abcdef-" ∧ elm.countP (· ≠ 45) = 32
  | 84 /- T -/ =>
    let validch := elm.countP fun c => 48 ≤ c ∧ c ≤ 57
    only "0123456789-:TZ" ∧ 12 ≤ validch ∧ validch ≤ 14
  | 105 /- i -/ => elm ≠ [] ∧ only "0123456789"
  | _ => false

/-- The loop of `req_match_check`, with the arguments that were caught so far. -/
def reqMatchLoop : (cmatch curl : UrlText) → (arg : List UrlText) → Option (List UrlText)
  | [], curl, arg => if curl = [] then some arg else none
  | _ :: _, [], _ => none
  | 42 :: [], _ :: _, arg => some arg
  | 42 :: m :: rest, u :: url, arg =>
    -- skips to the next character that matches
    match (u :: url).dropWhile (· ≠ m) with
    | [] => none
    | u :: url => if m = 42 then reqMatchLoop (m :: rest) (u :: url) arg
      else reqMatchLoop rest url arg
  | 37 :: [], _ :: _, _ => none
  | 37 :: matchtp :: rest, u :: url, arg =>
    let elm := (u :: url).takeWhile (· ≠ 47)
    let curl := (u :: url).dropWhile (· ≠ 47)
    if argValid matchtp elm then
      let arg := arg ++ [elm]
      match rest, curl with
      | [], [] => some arg
      | [], _ :: _ => none
      | m :: _, [] => if m = 42 then some arg else none
      | m :: rest, c :: url =>
        if m = 42 then reqMatchLoop (m :: rest) (c :: url) arg
        else if m = c then reqMatchLoop rest url arg else none
    else none
  | m :: rest, u :: url, arg => if m = u then reqMatchLoop rest url arg else none

/-- Check a url against a match definition: the arguments, if it matches. -/
def reqMatchCheck (matchstr url : UrlText) : Option (List UrlText) := reqMatchLoop matchstr url []

/-- What is up to the second slash of a URL. -/
def firstSegment (url : UrlText) : UrlText := (url.drop 1).takeWhile (· ≠ 47)

theorem reqMatchLoop_literal {m : UInt8} (h : m ≠ 42 ∧ m ≠ 37) {rest url : UrlText}
    {arg arg' : List UrlText} :
    reqMatchLoop (m :: rest) url arg = some arg' ↔
      ∃ url', url = m :: url' ∧ reqMatchLoop rest url' arg = some arg' := by
  cases url with
  | nil => simp [reqMatchLoop]
  | cons u url =>
    rw [reqMatchLoop]
    · by_cases hu : m = u
      · simp [hu]
      · simp [hu, Ne.symm hu]
    · exact fun hm => absurd hm h.1
    · exact fun _ _ hm => absurd hm h.1
    · exact fun hm => absurd hm h.2
    · exact fun _ _ hm => absurd hm h.2

/-- A pattern that starts with a tenant matches nothing that the pattern of all URLs with a
tenant does not match, and the tenant is the first segment. -/
theorem reqMatchCheck_tenant {rest url : UrlText} {arg : List UrlText}
    (h : reqMatchCheck (asc "/%U" ++ rest) url = some arg) :
    reqMatchCheck (asc "/%U*") url = some [firstSegment url] := by
  have hs (r : UrlText) : asc "/%U" ++ r = 47 :: 37 :: 85 :: r := rfl
  rw [reqMatchCheck, hs, reqMatchLoop_literal (by decide)] at h
  obtain ⟨url, rfl, h⟩ := h
  rw [reqMatchCheck, show asc "/%U*" = 47 :: 37 :: 85 :: [42] from rfl,
    reqMatchLoop_literal (by decide)]
  refine ⟨url, rfl, ?_⟩
  cases url with
  | nil => simp [reqMatchLoop] at h
  | cons u url =>
    have hv : argValid 85 ((u :: url).takeWhile (· ≠ 47)) = true := by
      by_contra hv
      simp only [reqMatchLoop] at h
      rw [if_neg hv] at h
      cases h
    simp only [reqMatchLoop]
    rw [if_pos hv]
    cases (u :: url).dropWhile (· ≠ 47) <;> rfl

/-- What a pattern matches, the pattern of all URLs matches. -/
theorem reqMatchCheck_all {matchstr url : UrlText} {arg : List UrlText} (hm : matchstr ≠ [])
    (h : reqMatchCheck matchstr url = some arg) : reqMatchCheck (asc "*") url = some [] := by
  cases url with
  | nil =>
    cases matchstr with
    | nil => exact absurd rfl hm
    | cons m rest => cases h
  | cons u url => rfl

/-- The same for `/any`. -/
theorem reqMatchCheck_any {rest url : UrlText} {arg : List UrlText}
    (h : reqMatchCheck (asc "/any/" ++ rest) url = some arg) :
    reqMatchCheck (asc "/any*") url = some [] := by
  have hs (r : UrlText) : asc "/any/" ++ r = 47 :: 97 :: 110 :: 121 :: 47 :: r := rfl
  rw [reqMatchCheck, hs] at h
  simp only [reqMatchLoop_literal (show (47 : UInt8) ≠ 42 ∧ (47 : UInt8) ≠ 37 by decide),
    reqMatchLoop_literal (show (97 : UInt8) ≠ 42 ∧ (97 : UInt8) ≠ 37 by decide),
    reqMatchLoop_literal (show (110 : UInt8) ≠ 42 ∧ (110 : UInt8) ≠ 37 by decide),
    reqMatchLoop_literal (show (121 : UInt8) ≠ 42 ∧ (121 : UInt8) ≠ 37 by decide)] at h
  obtain ⟨_, rfl, _, rfl, _, rfl, _, rfl, url, rfl, -⟩ := h
  rfl

example : reqMatchCheck (asc "/%U/host*") (asc "/00000000-0000-0000-0000-00000000000a/host/1") =
    some [asc "00000000-0000-0000-0000-00000000000a"] := by decide +kernel

end Opticon
