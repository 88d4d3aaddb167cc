import Opticon.Lib.Loop
import Opticon.Lib.Words
import Opticon.Meter.Data

/-! The policy of the setuid helper (`helper.c`). Of the line buffer the bytes up to its first
terminator are kept: those behind it are overwritten or never looked at again. -/

namespace Opticon

open Words

/-- The bytes that a C string holds. -/
def cstring (s : List UInt8) : List UInt8 := s.takeWhile (· ≠ 0)

/-- What `fgets` takes from a file: at most so many bytes, up to a newline, and whether it came
to the end of the file. -/
def takeLine : ℕ → List UInt8 → List UInt8 × List UInt8 × Bool
  | 0, s => ([], s, false)
  | _ + 1, [] => ([], [], true)
  | n + 1, c :: s =>
    if c = 10 then ([10], s, false)
    else (c :: (takeLine n s).1, (takeLine n s).2)

/-- The file and the buffer, which holds nothing before the first line is read. -/
structure HelperState where
  rest : List UInt8
  eof : Bool
  buf : Option (List UInt8)

/-- `fgets (buf, size, f)`, whose result the helper does not look at. -/
def fgets (size : ℕ) (s : HelperState) : HelperState :=
  let (line, rest, eof) := takeLine (size - 1) s.rest
  if line = [] then { s with eof } else ⟨rest, eof, some (cstring line)⟩

/-- `strchr` for a space and the terminator written there. -/
def cutSpace (s : List UInt8) : List UInt8 × Option (List UInt8) :=
  match s.dropWhile (· ≠ 32) with
  | [] => (s, none)
  | _ :: crsr => (s.takeWhile (· ≠ 32), some crsr)

/-- `while (crsr)`, with the arguments from `argv[apos]` on. -/
def argsLoop : List (List UInt8) → Option (List UInt8) → Bool
  | _, none => true
  | [], some _ => false
  | arg :: args, some crsr =>
    if arg = (cutSpace crsr).1 then argsLoop args (cutSpace crsr).2 else false

/-- The body of the loop behind `fgets`: whether the line allows the command, and the buffer
that is left. -/
def helperLine (argv1 : List UInt8) (args : List (List UInt8)) (buf : List UInt8) :
    Bool × List UInt8 :=
  let (word, crsr) := cutSpace buf.dropLast
  (word = argv1 && argsLoop args crsr, word)

/-- `while (! feof (f))`: the value is `allow`. -/
def helperStep (argv1 : List UInt8) (args : List (List UInt8)) (s : HelperState) :
    HelperState ⊕ Except Fault Bool :=
  if s.eof then .inr (.ok false)
  else
    let s := fgets 1023 s
    match s.buf with
    | none => .inr (.error .uninitialised)
    | some buf =>
      if (helperLine argv1 args buf).1 then .inr (.ok true)
      else .inl { s with buf := some (helperLine argv1 args buf).2 }

/-- The group `opticon`. -/
def helperGroup : List UInt8 := [111, 112, 116, 105, 99, 111, 110]

/-- `main` as far as the decision to execute the command. -/
def helperMain (fuel euid : ℕ) (argv : List (List UInt8)) (grName : List UInt8)
    (conf : Option (List UInt8)) : Option (Except Fault Bool) :=
  if euid ≠ 0 then some (.ok false)
  else
    match argv with
    | _ :: argv1 :: args =>
      if grName ≠ helperGroup then some (.ok false)
      else
        match conf with
        | none => some (.ok false)
        | some content => Loop.run (helperStep argv1 args) fuel ⟨content, false, none⟩
    | _ => some (.ok false)

/-! ## The policy -/

/-- The lines of a file that end with a newline. -/
def fullLines (content : List UInt8) : List (List UInt8) := (content.splitOn 10).dropLast

/-- What stands behind the last newline. -/
def lastPart (content : List UInt8) : List UInt8 := (content.splitOn 10).getLastD []

def fileLines (content : List UInt8) : List (List UInt8) :=
  fullLines content ++ if lastPart content = [] then [] else [lastPart content]

/-- The words of a line begin the arguments `argv[1..]`. -/
def Permits (args : List (List UInt8)) (line : List UInt8) : Prop := line.splitOn 32 <+: args

instance (args : List (List UInt8)) (line : List UInt8) : Decidable (Permits args line) :=
  inferInstanceAs (Decidable (_ <+: _))

/-- The decision about the arguments is that of the lines. -/
def HelperRight (content : List UInt8) (argv : List (List UInt8)) : Prop :=
  ∃ fuel b, helperMain fuel 0 argv helperGroup (some content) = some (.ok b) ∧
    (b = true ↔ ∃ line ∈ fileLines content, Permits argv.tail line)

/-! ## What is read of a file -/

/-- A line that is read as it stands: it fits the buffer with its newline and has no
terminator in it. -/
def Whole (line : List UInt8) : Prop := line.length < 1022 ∧ 0 ∉ line

instance (line : List UInt8) : Decidable (Whole line) := inferInstanceAs (Decidable (_ ∧ _))

def leadWord (text : List UInt8) : List UInt8 := (cutSpace text).1

/-- The texts that are compared for a line with its newline. -/
def lineTexts (line : List UInt8) : List (List UInt8) :=
  if line.length < 1022 then [(cstring (line ++ [10])).dropLast]
  else [(cstring line).dropLast, []]

/-- The texts that are compared behind the last newline: without a line to read, or when the
line filled the buffer, the word left in the buffer is compared once more. -/
def lastTexts (word last : List UInt8) : List (List UInt8) :=
  if last = [] then [word.dropLast]
  else if last.length < 1022 then [(cstring last).dropLast]
  else [(cstring last).dropLast, (leadWord (cstring last).dropLast).dropLast]

/-- The texts compared that are not the lines themselves. -/
def strays : (word : List UInt8) → List (List UInt8) → (last : List UInt8) → List (List UInt8)
  | word, [], last => lastTexts word last
  | _, line :: lines, last =>
    (if Whole line then [] else lineTexts line) ++
      strays (leadWord ((lineTexts line).getLastD [])) lines last

end Opticon
