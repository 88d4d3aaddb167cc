import Opticon.Var.Parse

/-! The parser as a machine that reads the text one character at a time and keeps the
levels it is inside of on a stack. It has no cursor: what the recursive parser's cursor
does is found out by comparing the two. -/

namespace Opticon

/-- A level that waits for one below it, with the place of that one's var. -/
structure Level where
  frame : Frame
  place : Option Nat

def Level.resume (l : Level) (vv : Var) : Frame :=
  { l.frame with v := l.frame.v.put l.place vv }

/-- The root of the tree the innermost level is at `v` in. -/
def rootOf : List Level → Var → Var
  | [], v => v
  | l :: outer, v => rootOf outer (l.resume v).v

inductive Reading where
  | run (f : Frame) (escaped : Bool) (outer : List Level)
  | stop (res : Bool) (into : Var)

namespace Reading

/-- The innermost level was closed. -/
def close (v : Var) : List Level → Reading
  | [] => .stop true v
  | l :: outer => .run (l.resume v) false outer

def read (ihash : BitVec 32) : Reading → UInt8 → Reading
  | .stop res into, _ => .stop res into
  | .run f true outer, d =>
    match escapedStep f d with
    | none => .stop false (rootOf outer f.v)
    | some f => .run f false outer
  | .run f false outer, c =>
    match levelStep ihash f c with
    | .next f => .run f false outer
    | .escape f => .run f true outer
    | .child f place vv st =>
      if default_max_json_depth < outer.length + 1 then .stop false (rootOf (⟨f, place⟩ :: outer) vv)
      else .run (.start vv st) false (⟨f, place⟩ :: outer)
    | .leave v => close v outer
    | .fail v _ => .stop false (rootOf outer v)

def reads (ihash : BitVec 32) (r : Reading) (text : List UInt8) : Reading :=
  text.foldl (read ihash) r

/-- Whether the text may end here: the parse is over, no level but the outermost one is
open and no character is missing behind a backslash, unless the key is full already. -/
def Complete : Reading → Prop
  | .stop _ _ => True
  | .run f true _ => f.st = .dictKeyQuoted ∧ 4095 ≤ f.keybuf.length
  | .run _ false outer => outer = []

/-- The result of the parse if the text ends here. -/
def finish : Reading → Option (Bool × Var)
  | .stop res into => some (res, into)
  | .run f true outer =>
    if f.st = .dictKeyQuoted ∧ 4095 ≤ f.keybuf.length then some (false, rootOf outer f.v) else none
  | .run f false [] => some (true, f.v)
  | .run _ false (_ :: _) => none

theorem finish_eq_none_iff (r : Reading) : r.finish = none ↔ ¬ r.Complete := by
  cases r with
  | stop res into => simp [finish, Complete]
  | run f escaped outer =>
    cases escaped with
    | true => simp [finish, Complete]
    | false => cases outer <;> simp [finish, Complete]

@[simp] theorem reads_nil (ihash : BitVec 32) (r : Reading) : reads ihash r [] = r := rfl

@[simp] theorem reads_cons (ihash : BitVec 32) (r : Reading) (c : UInt8) (cs : List UInt8) :
    reads ihash r (c :: cs) = reads ihash (read ihash r c) cs := rfl

@[simp] theorem reads_append (ihash : BitVec 32) (r : Reading) (as bs : List UInt8) :
    reads ihash r (as ++ bs) = reads ihash (reads ihash r as) bs := by
  simp [reads]

@[simp] theorem reads_stop (ihash : BitVec 32) (res : Bool) (into : Var) (cs : List UInt8) :
    reads ihash (.stop res into) cs = .stop res into := by
  induction cs with
  | nil => rfl
  | cons c cs ih => exact ih

/-- The machine at the start of a text. -/
def start (into : Var) : Reading := .run (.start into .beginning) false []

end Reading

/-- The state the parser is in at the end of a text. -/
def reading (ihash : BitVec 32) (into : Var) (text : List UInt8) : Reading :=
  (Reading.start into).reads ihash text

/-- The end of one level of the parser, seen from the machine: `r` is where the machine is
after it read all of the text from the level's start on. -/
def EndsAs (ihash : BitVec 32) (outer : List Level) (text : List UInt8) (r : Reading) :
    LevelEnd → Prop
  | .outOfFuel => False
  | .overread => r.finish = none
  | .fail v _ _ => r.finish = some (false, rootOf outer v)
  | .ok v cursor =>
    (∃ f, cursor = [0] ∧ f.v = v ∧ r = .run f false outer) ∨
    ∃ pre c post, text = pre ++ c :: post ∧ cursor = c :: (post ++ [0]) ∧
      r = (Reading.close v outer).reads ihash post

theorem EndsAs.prepend {ihash : BitVec 32} {outer : List Level} {text : List UInt8} {r : Reading}
    {e : LevelEnd} (h : EndsAs ihash outer text r e) (pre : List UInt8) :
    EndsAs ihash outer (pre ++ text) r e := by
  cases e with
  | ok v cursor =>
    refine h.imp_right ?_
    rintro ⟨pre', c, post, rfl, hc, hr⟩
    exact ⟨pre ++ pre', c, post, by simp, hc, hr⟩
  | _ => exact h

theorem escapedStep_zero_ne_none {f : Frame} {f' : Frame} (h : escapedStep f 0 = some f') :
    ¬ (f.st = .dictKeyQuoted ∧ 4095 ≤ f.keybuf.length) := by
  rintro ⟨hst, hk⟩
  simp [escapedStep, hst, hk] at h

theorem escapedStep_eq_none {f : Frame} {d : UInt8} (h : escapedStep f d = none) :
    f.st = .dictKeyQuoted ∧ 4095 ≤ f.keybuf.length := by
  by_cases hst : f.st = .dictKeyQuoted
  · by_cases hk : 4095 ≤ f.keybuf.length
    · exact ⟨hst, hk⟩
    · simp [escapedStep, hst, hk] at h
  · simp [escapedStep, hst] at h

theorem varParseJsonLevel_nil {n : Nat} (hn : 0 < n) (ihash : BitVec 32) (depth : Nat) (f : Frame) :
    varParseJsonLevel ihash n depth f [] = .overread := by
  cases n with
  | zero => exact absurd hn (Nat.lt_irrefl 0)
  | succ n => rfl

/-- The loop of a level and the machine at the same level do the same. The induction is on
the fuel, of which there is one for each character left and one for the terminator. -/
theorem varParseJsonLevel_endsAs (ihash : BitVec 32) (n : Nat) (f : Frame) (text : List UInt8)
    (outer : List Level) (hn : text.length < n) (h0 : 0 ∉ text) :
    EndsAs ihash outer text ((Reading.run f false outer).reads ihash text)
      (varParseJsonLevel ihash n outer.length f (text ++ [0])) := by
  induction n generalizing f text outer with
  | zero => exact absurd hn (Nat.not_lt_zero _)
  | succ n ih =>
    cases text with
    | nil => exact .inl ⟨f, rfl, rfl, rfl⟩
    | cons c rest =>
      have hc : c ≠ 0 := fun h => h0 (h ▸ List.mem_cons_self)
      have h0r : 0 ∉ rest := fun h => h0 (List.mem_cons_of_mem _ h)
      have hr : rest.length < n := Nat.lt_of_succ_lt_succ hn
      have hn0 : 0 < n := Nat.zero_lt_of_lt hr
      simp only [List.cons_append, varParseJsonLevel, if_neg hc, Reading.reads_cons, Reading.read]
      cases hstep : levelStep ihash f c with
      | next f' => exact (ih f' rest outer hr h0r).prepend [c]
      | leave v => exact .inr ⟨[], c, rest, rfl, rfl, rfl⟩
      | fail v error => simp [EndsAs, Reading.finish]
      | escape f' =>
        cases rest with
        | nil =>
          -- the terminator is taken as escaped
          simp only [List.nil_append, Reading.reads_nil]
          cases he : escapedStep f' 0 with
          | none => simp only [EndsAs, Reading.finish, if_pos (escapedStep_eq_none he)]
          | some f'' =>
            simp only [varParseJsonLevel_nil hn0, EndsAs, Reading.finish,
              if_neg (escapedStep_zero_ne_none he)]
        | cons d rest' =>
          have h0r' : 0 ∉ rest' := fun h => h0r (List.mem_cons_of_mem _ h)
          have hr' : rest'.length < n := Nat.lt_of_succ_lt hr
          simp only [List.cons_append, Reading.reads_cons, Reading.read]
          cases escapedStep f' d with
          | none => simp [EndsAs, Reading.finish]
          | some f'' => exact (ih f'' rest' outer hr' h0r').prepend [c, d]
      | child f' place vv st =>
        simp only
        split
        · simp [EndsAs, Reading.finish, rootOf, Level.resume]
        · have hchild := ih (.start vv st) rest (⟨f', place⟩ :: outer) hr h0r
          rw [List.length_cons] at hchild
          cases hend : varParseJsonLevel ihash n (outer.length + 1) (.start vv st) (rest ++ [0]) with
          | outOfFuel => simp [hend, EndsAs] at hchild
          | overread => simpa [hend, EndsAs] using hchild
          | fail v error cursor => simpa [hend, EndsAs, rootOf, Level.resume] using hchild
          | ok v cursor =>
            rw [hend] at hchild
            obtain ⟨g, rfl, rfl, hrun⟩ | ⟨pre, b, post, rfl, rfl, hrun⟩ := hchild
            · -- the level below stopped at the terminator
              simp only [List.tail_cons, varParseJsonLevel_nil hn0, EndsAs, hrun, Reading.finish]
            · have hpost : post.length < n := by
                simp only [List.length_append, List.length_cons] at hr
                omega
              have h0p : 0 ∉ post := fun h => h0r (by simp [h])
              have hrest := (ih (Level.resume ⟨f', place⟩ v) post outer hpost h0p).prepend
                (c :: pre ++ [b])
              simpa [hrun, Reading.close, Level.resume] using hrest

/-- What `var_parse_json` returns is the machine's result, and where the machine has none
its cursor passes the terminator. -/
theorem varParseJson_finish (ihash : BitVec 32) (into : Var) (buf : CString) :
    match (reading ihash into buf.bytes).finish with
    | some (res, v) => ∃ error line, varParseJson ihash into buf = .returned res v error line
    | none => varParseJson ihash into buf = .overread := by
  have h : EndsAs ihash [] buf.bytes (reading ihash into buf.bytes)
      (varParseJsonLevel ihash (buf.bytes ++ [0]).length 0 (.start into .beginning)
        (buf.bytes ++ [0])) :=
    varParseJsonLevel_endsAs ihash _ _ buf.bytes [] (by simp) buf.nonul
  simp only [varParseJson]
  cases hend : varParseJsonLevel ihash (buf.bytes ++ [0]).length 0 (.start into .beginning)
      (buf.bytes ++ [0]) with
  | outOfFuel =>
    rw [hend] at h
    exact h.elim
  | overread =>
    rw [hend] at h
    rw [show (reading ihash into buf.bytes).finish = none from h]
  | fail v error cursor =>
    rw [hend] at h
    rw [show (reading ihash into buf.bytes).finish = some (false, v) from h]
    exact ⟨error, _, rfl⟩
  | ok v cursor =>
    rw [hend] at h
    have hf : (reading ihash into buf.bytes).finish = some (true, v) := by
      obtain ⟨g, -, rfl, hrun⟩ | ⟨pre, b, post, -, -, hrun⟩ := h
      · rw [hrun, Reading.finish]
      · rw [hrun, Reading.close, Reading.reads_stop, Reading.finish]
    rw [hf]
    exact ⟨none, 0, rfl⟩

theorem varParseJson_returned_finish {ihash : BitVec 32} {into v : Var} {buf : CString} {res : Bool}
    {error : Option (List UInt8)} {line : Nat}
    (h : varParseJson ihash into buf = .returned res v error line) :
    (reading ihash into buf.bytes).finish = some (res, v) := by
  have hf := varParseJson_finish ihash into buf
  cases hfin : (reading ihash into buf.bytes).finish with
  | none =>
    rw [hfin, h] at hf
    cases hf
  | some p =>
    rw [hfin, h] at hf
    obtain ⟨_, _, heq⟩ := hf
    injection heq with h₁ h₂
    rw [h₁, h₂]

/-- The parse ends, and it ends before the cursor passes the terminator exactly if the text
may end where it does. -/
theorem varParseJson_returned_iff (ihash : BitVec 32) (into : Var) (buf : CString) :
    (∃ res v error line, varParseJson ihash into buf = .returned res v error line) ↔
      (reading ihash into buf.bytes).Complete := by
  have h := varParseJson_finish ihash into buf
  rw [← not_iff_not, ← Reading.finish_eq_none_iff]
  cases hf : (reading ihash into buf.bytes).finish with
  | none =>
    rw [hf] at h
    simp [h]
  | some p =>
    rw [hf] at h
    obtain ⟨error, line, h⟩ := h
    simp [h]

/-- `{"a": {` -/
theorem varParseJson_open_overread :
    varParseJson 5138 (varAlloc .null) ⟨asc "\x7b\"a\": \x7b", by decide⟩ = .overread := by
  rfl

end Opticon
