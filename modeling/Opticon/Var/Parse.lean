import Opticon.Var.Tree

/-! The parser for configuration texts (`var_parse.c`). -/

namespace Opticon

def default_max_json_depth : Nat := 7

def VALIDUNQUOTED : List UInt8 :=
  asc "abcdefghijklmnopqrstuvwxyzABCDEFGHIJKLMNOPQRSTUVWXYZ0123456789-_.*/"

def VALIDUNQUOTEDV : List UInt8 :=
  asc "abcdefghijklmnopqrstuvwxyzABCDEFGHIJKLMNOPQRSTUVWXYZ0123456789-_./:*%"

/-- In the locale the programs run in. -/
def isspace (c : UInt8) : Bool := c = 32 ∨ 9 ≤ c ∧ c ≤ 13

def isdigit (c : UInt8) : Bool := 48 ≤ c ∧ c ≤ 57

/-- Of a text that starts with a digit. -/
def strtoull (cs : List UInt8) : BitVec 64 :=
  BitVec.ofNat 64 (min (Decimal.read (cs.takeWhile isdigit)) (2 ^ 64 - 1))

/-- Of a text of digits and dots. -/
def atof (cs : List UInt8) : ℚ :=
  let whole := cs.takeWhile isdigit
  let decimals := match cs.dropWhile isdigit with
    | 46 :: cs => cs.takeWhile isdigit
    | _ => []
  Decimal.read whole + Decimal.read decimals / 10 ^ decimals.length

inductive PState where
  | beginning
  | dictWaitkey | dictKey | dictKeyQuoted | dictWaitvalue | dictValue | dictValueQuoted
  | arrayWaitvalue | arrayValue | arrayValueQuoted
  | comment
  deriving DecidableEq

/-- The local variables of one level of the parser. A buffer is what was collected in it,
its position the length of that. -/
structure Frame where
  v : Var
  st : PState
  keybuf : List UInt8
  valuebuf : List UInt8
  valueNondigits : Bool
  valueDots : Nat
  stnext : PState

def Frame.start (v : Var) (st : PState) : Frame where
  v := v
  st := st
  keybuf := []
  valuebuf := []
  valueNondigits := false
  valueDots := 0
  stnext := .beginning

/-- What a level of the parser does with a character: go on with the next one, take that
one as escaped, parse a new level and go on where it stopped, or return. -/
inductive Action where
  | next (f : Frame)
  | escape (f : Frame)
  | child (f : Frame) (place : Option Nat) (vv : Var) (st : PState)
  | leave (v : Var)
  | fail (v : Var) (error : Option (List UInt8))

def charError (msg : String) (c : UInt8) : Option (List UInt8) := some (asc msg ++ [c] ++ asc "'")

def keyError (msg : String) (key : List UInt8) : Option (List UInt8) :=
  some (asc msg ++ key ++ asc "'")

/-- A comment lasts to the end of the line. -/
def Frame.comment (f : Frame) (stnext : PState) : Frame :=
  { f with st := .comment, stnext := stnext }

/-- `{` after a key: the dict for the key is parsed before the next key. -/
def openDict (ihash : BitVec 32) (f : Frame) : Action :=
  let r := varGetDictForkey ihash f.v f.keybuf
  match r.2 with
  | none => .fail r.1 (keyError "Couldn't get dict for key '" f.keybuf)
  | some (place, vv) => .child { f with v := r.1, st := .dictWaitkey } place vv .dictWaitkey

/-- `[` after a key. What the array had before is dropped. -/
def openArray (ihash : BitVec 32) (f : Frame) : Action :=
  let r := varGetArrayForkey ihash f.v f.keybuf
  match r.2 with
  | none => .fail r.1 (keyError "Couldn't get array for key '" f.keybuf)
  | some (place, vv) =>
    .child { f with v := r.1, st := .dictWaitkey } place (varClearArray vv) .arrayWaitvalue

def dictKey (ihash : BitVec 32) (f : Frame) (c : UInt8) : Action :=
  if c = 35 then .next (f.comment .dictWaitvalue)
  else if isspace c then .next { f with st := .dictWaitvalue }
  else if c = 123 then openDict ihash f
  else if c = 91 then openArray ihash f
  else if c = 58 then .next { f with st := .dictWaitvalue }
  else if c ∉ VALIDUNQUOTED then .fail f.v (charError "Invalid character in key '" c)
  else if 4095 ≤ f.keybuf.length then .fail f.v none
  else .next { f with keybuf := f.keybuf ++ [c] }

def dictWaitkey (ihash : BitVec 32) (f : Frame) (c : UInt8) : Action :=
  if c = 35 then .next (f.comment f.st)
  else if isspace c then .next f
  else if c = 44 then .next f
  else if c = 125 then .leave f.v
  else if c = 34 then .next { f with st := .dictKeyQuoted, keybuf := [], valuebuf := [] }
  else if c ∉ VALIDUNQUOTED then .fail f.v (charError "Invalid char for key: '" c)
  -- `--c`: the character is read again as the first one of the key
  else dictKey ihash { f with st := .dictKey, keybuf := [], valuebuf := [] } c

def beginning (ihash : BitVec 32) (f : Frame) (c : UInt8) : Action :=
  if c = 123 then .next { f with st := .dictWaitkey } else dictWaitkey ihash f c

def dictKeyQuoted (f : Frame) (c : UInt8) : Action :=
  if c = 34 then .next { f with st := .dictWaitvalue }
  else if c = 92 then .escape f
  else if 4095 ≤ f.keybuf.length then .fail f.v none
  else .next { f with keybuf := f.keybuf ++ [c] }

/-- An unquoted value is a number if it has digits and at most one dot only. -/
def Frame.unquoted (f : Frame) : VarValue :=
  if ¬ f.valueNondigits ∧ f.valueDots < 2 then
    if f.valueDots = 0 then .int (strtoull f.valuebuf) else .double (atof f.valuebuf)
  else .str f.valuebuf

/-- The states for unquoted values in a dict and in an array, given the character that
closes the level, the state after the value, the level's var with the value stored and the
error for a wrong character. -/
def unquotedValue (closer : UInt8) (wait : PState) (stored : Var) (error : Option (List UInt8))
    (f : Frame) (c : UInt8) : Action :=
  if isspace c ∨ c = 44 ∨ c = closer ∨ c = 35 then
    let f := { f with v := stored }
    if c = 35 then .next (f.comment wait)
    else if c = closer then .leave f.v
    else .next { f with st := wait }
  else if c ∉ VALIDUNQUOTEDV then .fail f.v error
  else
    let f :=
      if c = 46 then { f with valueDots := f.valueDots + 1 }
      else if ¬ f.valueNondigits ∧ ¬ isdigit c then { f with valueNondigits := true }
      else f
    if 4095 ≤ f.valuebuf.length then .fail f.v none
    else .next { f with valuebuf := f.valuebuf ++ [c] }

def dictValue (ihash : BitVec 32) (f : Frame) (c : UInt8) : Action :=
  unquotedValue 125 .dictWaitkey (varSetForkey ihash f.v f.keybuf f.unquoted)
    (some (asc "Invalid character in value for '" ++ f.keybuf ++ asc "': '" ++ [c] ++ asc "'")) f c

def dictWaitvalue (ihash : BitVec 32) (f : Frame) (c : UInt8) : Action :=
  if c = 35 then .next (f.comment f.st)
  else if isspace c then .next f
  else if c = 58 then .next f
  else if c = 61 then .next f
  else if c = 123 then openDict ihash f
  else if c = 91 then openArray ihash f
  else if c = 34 then .next { f with st := .dictValueQuoted, valuebuf := [] }
  else if c ∉ VALIDUNQUOTEDV then .fail f.v (charError "Invalid character for value: '" c)
  else
    dictValue ihash
      { f with st := .dictValue, valuebuf := [], valueNondigits := false, valueDots := 0 } c

/-- The states for quoted values in a dict and in an array. -/
def quotedValue (wait : PState) (stored : Var) (f : Frame) (c : UInt8) : Action :=
  if c = 34 then .next { f with v := stored, st := wait }
  else if 4095 ≤ f.valuebuf.length then .fail f.v none
  else if c = 92 then .escape f
  else .next { f with valuebuf := f.valuebuf ++ [c] }

def dictValueQuoted (ihash : BitVec 32) (f : Frame) (c : UInt8) : Action :=
  quotedValue .dictWaitkey (varSetForkey ihash f.v f.keybuf (.str f.valuebuf)) f c

def arrayValue (ihash : BitVec 32) (f : Frame) (c : UInt8) : Action :=
  unquotedValue 93 .arrayWaitvalue (varAdd ihash f.v f.unquoted) none f c

def arrayValueQuoted (ihash : BitVec 32) (f : Frame) (c : UInt8) : Action :=
  quotedValue .arrayWaitvalue (varAdd ihash f.v (.str f.valuebuf)) f c

def arrayWaitvalue (ihash : BitVec 32) (f : Frame) (c : UInt8) : Action :=
  if c = 35 then .next (f.comment f.st)
  else if isspace c then .next f
  else if c = 44 then .next f
  else if c = 93 then .leave f.v
  else if c = 123 then
    let r := varAddDict ihash f.v
    match r.2 with
    | none => .fail r.1 (some (asc "Couldn't add dict"))
    | some (place, vv) => .child { f with v := r.1 } place vv .dictWaitkey
  else if c = 91 then
    let r := varAddArray ihash f.v
    match r.2 with
    | none => .fail r.1 (some (asc "Couldn't add array"))
    | some (place, vv) => .child { f with v := r.1 } place (varClearArray vv) .arrayWaitvalue
  else if c = 34 then .next { f with st := .arrayValueQuoted, valuebuf := [] }
  else if c ∉ VALIDUNQUOTED then .fail f.v none
  else
    arrayValue ihash
      { f with st := .arrayValue, valuebuf := [], valueNondigits := false, valueDots := 0 } c

/-- One turn of the loop. -/
def levelStep (ihash : BitVec 32) (f : Frame) (c : UInt8) : Action :=
  match f.st with
  | .beginning => beginning ihash f c
  | .dictWaitkey => dictWaitkey ihash f c
  | .dictKey => dictKey ihash f c
  | .dictKeyQuoted => dictKeyQuoted f c
  | .dictWaitvalue => dictWaitvalue ihash f c
  | .dictValue => dictValue ihash f c
  | .dictValueQuoted => dictValueQuoted ihash f c
  | .arrayWaitvalue => arrayWaitvalue ihash f c
  | .arrayValue => arrayValue ihash f c
  | .arrayValueQuoted => arrayValueQuoted ihash f c
  | .comment => .next (if c = 10 then { f with st := f.stnext } else f)

/-- The rest of a turn that found a backslash, which skips to the character `d` behind it. -/
def escapedStep (f : Frame) (d : UInt8) : Option Frame :=
  if f.st = .dictKeyQuoted then
    if 4095 ≤ f.keybuf.length then none else some { f with keybuf := f.keybuf ++ [d] }
  else
    let d := if d = 110 then 10 else if d = 116 then 9 else if d = 114 then 13 else d
    some { f with valuebuf := f.valuebuf ++ [d] }

/-- How a level of the parser ends: its cursor passes the terminator, or it returns with
the cursor at some character. -/
inductive LevelEnd where
  | outOfFuel
  | overread
  | fail (v : Var) (error : Option (List UInt8)) (cursor : List UInt8)
  | ok (v : Var) (cursor : List UInt8)

/-- The loop of a level at the given depth. The cursor is the memory from the character
it points to on, up to the terminator of the text: behind that there is nothing to read. -/
def varParseJsonLevel (ihash : BitVec 32) : Nat → Nat → Frame → List UInt8 → LevelEnd
  | 0, _, _, _ => .outOfFuel
  | _ + 1, _, _, [] => .overread
  | n + 1, depth, f, c :: rest =>
    if c = 0 then .ok f.v (c :: rest)
    else match levelStep ihash f c with
      | .next f => varParseJsonLevel ihash n depth f rest
      | .escape f =>
        match rest with
        | [] => .overread
        | d :: rest' =>
          match escapedStep f d with
          | none => .fail f.v none (c :: rest)
          | some f => varParseJsonLevel ihash n depth f rest'
      | .child f place vv st =>
        if default_max_json_depth < depth + 1 then
          .fail (f.v.put place vv) (some (asc "Nested to deep")) rest
        else match varParseJsonLevel ihash n (depth + 1) (.start vv st) rest with
          | .ok vv cursor =>
            -- `c = *buf` and the `++c` of the loop
            varParseJsonLevel ihash n depth { f with v := f.v.put place vv } cursor.tail
          | .fail vv error cursor => .fail (f.v.put place vv) error cursor
          | r => r
      | .leave v => .ok v (c :: rest)
      | .fail v error => .fail v error (c :: rest)

/-- A C string. -/
structure CString where
  bytes : List UInt8
  nonul : 0 ∉ bytes

/-- What `var_parse_json` leaves behind: its result, the tree, the new text of the last
error and the line that is added to it. -/
inductive Parsed where
  | outOfFuel
  | overread
  | returned (res : Bool) (into : Var) (error : Option (List UInt8)) (line : Nat)

def parseLine (buf : List UInt8) (crsr : List UInt8) : Nat :=
  ((buf.take (buf.length - crsr.length)).count 10) + 1

def varParseJson (ihash : BitVec 32) (into : Var) (buf : CString) : Parsed :=
  let mem := buf.bytes ++ [0]
  match varParseJsonLevel ihash mem.length 0 (.start into .beginning) mem with
  | .outOfFuel => .outOfFuel
  | .overread => .overread
  | .fail v error cursor => .returned false v error (parseLine mem cursor)
  | .ok v _ => .returned true v none 0

end Opticon
