import Opticon.Lib.Loop
import Opticon.Lib.Wildcard
import Opticon.Meter.Data

/-! Comparing a string with a wildcard pattern (`glob.c`). A pointer into a string is the list
of the bytes from there to the terminator, so that `[]` points at the terminator itself. -/

namespace Opticon

open Wildcard

/-! ## What a pattern stands for -/

inductive GlobToken
  | char (c : UInt8)
  | star
  | percent
  | question
  deriving DecidableEq

def GlobToken.item : GlobToken → Item UInt8
  | .char c => .one (· == c)
  | .star => .many fun _ => true
  | .percent => .many (· != 32)
  | .question => .one fun _ => true

/-- The tokens of a pattern; a backslash quotes `*` and `?`, and is itself before others. -/
def tokens : List UInt8 → List GlobToken
  | [] => []
  | 92 :: 42 :: m => .char 42 :: tokens m
  | 92 :: 63 :: m => .char 63 :: tokens m
  | c :: m =>
    (if c = 42 then .star else if c = 37 then .percent else if c = 63 then .question
      else .char c) :: tokens m

def GlobMatches (ts : List GlobToken) (str : List UInt8) : Prop :=
  Wildcard.Matches (ts.map GlobToken.item) str

/-! ## The loops -/

/-- `case '\\'`, which `case '?'` of the second loop falls into. -/
def skipQuote : List UInt8 → List UInt8
  | c :: d :: m => if (c = 92 ∧ d = 42) ∨ d = 63 then d :: m else c :: d :: m
  | m => m

/-- The two loops, with `na` beside `ma` and `pn` beside `pm`; `count`, `lp_c` and `last_count`
are only written. -/
inductive GlobState
  | first (m n : List UInt8)
  | second (m n : List UInt8) (ma pm : Option (List UInt8 × List UInt8)) (just : Bool)

def firstDefault : (m n : List UInt8) → GlobState ⊕ Except Fault Bool
  | c :: m, d :: n => if c = d then .inl (.first m n) else .inr (.ok false)
  | _, _ => .inr (.ok false)

/-- `case '?'` of the first loop, which falls into `case 0`. -/
def firstQuestion : (n : List UInt8) → Bool
  | [] => false
  | _ :: n => n.isEmpty

/-- `pm` with `pn`, unless the string goes on with a space. -/
def percentAt (m n : List UInt8) : Option (List UInt8 × List UInt8) :=
  if n.head? = some 32 then none else some (m, n)

def globBack : (ma pm : Option (List UInt8 × List UInt8)) → GlobState ⊕ Except Fault Bool
  | _, some (_, []) => .inr (.error .outOfBounds)
  | ma, some (pm, _ :: pn) => .inl (.second pm pn ma (percentAt pm pn) false)
  | none, none => .inr (.ok false)
  | some (_, []), none => .inr (.error .outOfBounds)
  | some (ma, _ :: na), none =>
    if na = [] then .inr (.ok false) else .inl (.second ma na (some (ma, na)) none false)

/-- The terminators are equal too: both pointers go past them, to be read in the next turn. -/
def secondDefault (ma pm : Option (List UInt8 × List UInt8)) :
    (m n : List UInt8) → GlobState ⊕ Except Fault Bool
  | [], [] => .inr (.error .outOfBounds)
  | _ :: _, [] => .inr (.ok false)
  | [], _ :: _ => globBack ma pm
  | c :: m, d :: n => if c = d then .inl (.second m n ma pm false) else globBack ma pm

/-- One turn of a loop. A `goto` goes to the same case of the second `switch`. -/
def globStep : GlobState → GlobState ⊕ Except Fault Bool
  | .first [] n => .inr (.ok n.isEmpty)
  | .first (c :: m) n =>
    if c = 42 ∨ c = 37 then .inl (.second (c :: m) n none none false)
    else if c = 63 then .inr (.ok (firstQuestion n))
    else if c = 92 then firstDefault (skipQuote (c :: m)) n
    else firstDefault (c :: m) n
  | .second [] n ma pm _ => secondDefault ma pm [] n
  | .second (c :: m) n ma pm just =>
    if c = 42 then .inl (.second m n (some (m, n)) pm true)
    else if c = 37 then .inl (.second m n ma (percentAt m n) just)
    else if c = 63 then
      if n = [] ∨ just then .inr (.ok true)
      else secondDefault ma pm (skipQuote (c :: m)) n
    else if c = 92 then secondDefault ma pm (skipQuote (c :: m)) n
    else secondDefault ma pm (c :: m) n

/-- `none` when the loops have not ended after so many turns. -/
def globcmp (fuel : ℕ) (str glob : List UInt8) : Option (Except Fault Bool) :=
  Loop.run globStep fuel (.first glob str)

end Opticon
