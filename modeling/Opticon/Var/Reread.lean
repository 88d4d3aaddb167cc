import Opticon.Var.Cursor
import Opticon.Var.Dump
import Opticon.Var.Laws

/-! The parser on the text of a tree: which tree it builds on top of the one it has. -/

namespace Opticon

open Reading

variable {ihash : BitVec 32}

/-- The newline of a key is escaped by the writer, but the parser takes the character
behind the backslash as it is. -/
def keyChar (c : UInt8) : UInt8 := if c = 10 then 110 else c

theorem keyChar_ne_zero {c : UInt8} (h : c ≠ 0) : keyChar c ≠ 0 := by
  unfold keyChar
  split
  · decide
  · exact h

/-- The key that is read where `id` was written. -/
def rereadKey (id : FString) : FString where
  str := id.str.map keyChar
  length_le := by simpa using id.length_le
  nonul := by
    rw [List.mem_map]
    rintro ⟨c, hc, h0⟩
    exact keyChar_ne_zero (fun h => id.nonul (h ▸ hc)) h0

/-- A double with six decimals. -/
def sixDecimals (q : ℚ) : ℚ := ((Decimal.roundEven (q * 10 ^ 6)).toNat : ℚ) / 10 ^ 6

/-- The value that is read where `val` was written. -/
def VarValue.reread : VarValue → VarValue
  | .null => .str []
  | .double dval => .double (sixDecimals dval)
  | val => val

/-- The states of a level for a dict or an array: between two children, before a value,
and inside of one. -/
def waitSt (dict : Bool) : PState := if dict then .dictWaitkey else .arrayWaitvalue
def readySt (dict : Bool) : PState := if dict then .dictWaitvalue else .arrayWaitvalue
def quotedSt (dict : Bool) : PState := if dict then .dictValueQuoted else .arrayValueQuoted
def valueSt (dict : Bool) : PState := if dict then .dictValue else .arrayValue

/-- The var of a level after a value was read. -/
def storeIn (ihash : BitVec 32) (dict : Bool) (v : Var) (key : List UInt8) (val : VarValue) : Var :=
  if dict then varSetForkey ihash v key val else varAdd ihash v val

theorem read_next {f f' : Frame} {outer : List Level} {c : UInt8}
    (h : levelStep ihash f c = .next f') : read ihash (.run f false outer) c = .run f' false outer := by
  simp only [Reading.read, h]

theorem read_escape {f g f' : Frame} {outer : List Level} {c d : UInt8}
    (h : levelStep ihash f c = .escape g) (h' : escapedStep g d = some f') :
    reads ihash (.run f false outer) [c, d] = .run f' false outer := by
  simp only [reads_cons, reads_nil, Reading.read, h, h']

section Strings

variable (ihash) in
theorem reads_key (f : Frame) (hst : f.st = .dictKeyQuoted) (outer : List Level) (key : List UInt8)
    (hlen : f.keybuf.length + key.length ≤ 4095) :
    reads ihash (.run f false outer) (varEscapeStr key) =
      .run { f with keybuf := f.keybuf ++ key.map keyChar } false outer := by
  induction key generalizing f with
  | nil => simp [varEscapeStr]
  | cons c cs ih =>
    have hroom : ¬ 4095 ≤ f.keybuf.length := by
      simp only [List.length_cons] at hlen
      omega
    have ih (d : UInt8) := ih { f with keybuf := f.keybuf ++ [d] } hst (by
      simp only [List.length_append, List.length_cons, List.length_nil] at hlen ⊢
      omega)
    have hesc (d : UInt8) : reads ihash (.run f false outer) [92, d] =
        .run { f with keybuf := f.keybuf ++ [d] } false outer := by
      apply read_escape (g := f)
      · simp [levelStep, hst, dictKeyQuoted]
      · simp [escapedStep, hst, hroom]
    simp only [varEscapeStr]
    split_ifs with h₁ h₂
    · have hk : keyChar c = c := by obtain rfl | rfl := h₁ <;> rfl
      rw [show 92 :: c :: varEscapeStr cs = [92, c] ++ varEscapeStr cs from rfl, reads_append,
        hesc, ih]
      simp [hk]
    · rw [show (92 : UInt8) :: 110 :: varEscapeStr cs = [92, 110] ++ varEscapeStr cs from rfl,
        reads_append, hesc, ih]
      simp [keyChar, h₂]
    · obtain ⟨h92, h34⟩ := not_or.mp h₁
      have hstep : levelStep ihash f c = .next { f with keybuf := f.keybuf ++ [c] } := by
        simp [levelStep, hst, dictKeyQuoted, h92, h34, hroom]
      rw [reads_cons, read_next hstep, ih]
      simp [keyChar, h₂]

variable (ihash) in
theorem levelStep_quoted {f : Frame} {dict : Bool} (hst : f.st = quotedSt dict) (c : UInt8) :
    levelStep ihash f c =
      quotedValue (waitSt dict) (storeIn ihash dict f.v f.keybuf (.str f.valuebuf)) f c := by
  cases dict <;> simp [quotedSt] at hst <;>
    simp [levelStep, hst, dictValueQuoted, arrayValueQuoted, waitSt, storeIn]

variable (ihash) in
theorem reads_quoted {dict : Bool} (f : Frame) (hst : f.st = quotedSt dict) (outer : List Level)
    (str : List UInt8) (hlen : f.valuebuf.length + str.length ≤ 4095) :
    reads ihash (.run f false outer) (varEscapeStr str) =
      .run { f with valuebuf := f.valuebuf ++ str } false outer := by
  induction str generalizing f with
  | nil => simp [varEscapeStr]
  | cons c cs ih =>
    have hroom : ¬ 4095 ≤ f.valuebuf.length := by
      simp only [List.length_cons] at hlen
      omega
    have hkey : f.st ≠ .dictKeyQuoted := by rw [hst]; cases dict <;> simp [quotedSt]
    have ih (d : UInt8) := ih { f with valuebuf := f.valuebuf ++ [d] } hst (by
      simp only [List.length_append, List.length_cons, List.length_nil] at hlen ⊢
      omega)
    have hesc : levelStep ihash f 92 = .escape f := by
      simp [levelStep_quoted ihash hst, quotedValue, hroom]
    simp only [varEscapeStr]
    split_ifs with h₁ h₂
    · have hstep : escapedStep f c = some { f with valuebuf := f.valuebuf ++ [c] } := by
        obtain rfl | rfl := h₁ <;> simp [escapedStep, hkey]
      rw [show 92 :: c :: varEscapeStr cs = [92, c] ++ varEscapeStr cs from rfl, reads_append,
        read_escape hesc hstep, ih]
      simp
    · have hstep : escapedStep f 110 = some { f with valuebuf := f.valuebuf ++ [10] } := by
        simp [escapedStep, hkey]
      rw [show (92 : UInt8) :: 110 :: varEscapeStr cs = [92, 110] ++ varEscapeStr cs from rfl,
        reads_append, read_escape hesc hstep, ih]
      simp [h₂]
    · obtain ⟨h92, h34⟩ := not_or.mp h₁
      have hstep : levelStep ihash f c = .next { f with valuebuf := f.valuebuf ++ [c] } := by
        simp [levelStep_quoted ihash hst, quotedValue, h92, h34, hroom]
      rw [reads_cons, read_next hstep, ih]
      simp

end Strings

section Numbers

variable (ihash) in
theorem levelStep_value {f : Frame} {dict : Bool} (hst : f.st = valueSt dict) (c : UInt8) :
    ∃ error, levelStep ihash f c =
      unquotedValue (if dict then 125 else 93) (waitSt dict)
        (storeIn ihash dict f.v f.keybuf f.unquoted) error f c := by
  cases dict <;> simp [valueSt] at hst
  · exact ⟨none, by simp [levelStep, hst, arrayValue, waitSt, storeIn]⟩
  · exact ⟨_, by simp [levelStep, hst, dictValue, waitSt, storeIn]; rfl⟩

/-- The characters of numbers are none that mean something else to a level. -/
def numberChars : List UInt8 := asc "0123456789."

theorem number_unquotedv : ∀ c ∈ numberChars, c ∈ VALIDUNQUOTEDV := by decide +kernel

theorem number_unquoted : ∀ c ∈ numberChars, c ∈ VALIDUNQUOTED := by decide +kernel

theorem number_plain : ∀ c ∈ numberChars, isspace c = false ∧
    c ∉ ([44, 125, 93, 35, 58, 61, 123, 91, 34] : List UInt8) := by decide +kernel

theorem number_digit : ∀ c ∈ numberChars, c = 46 ∨ isdigit c = true := by decide +kernel

variable (ihash) in
theorem reads_number {dict : Bool} (f : Frame) (hst : f.st = valueSt dict) (outer : List Level)
    (cs : List UInt8) (hcs : ∀ c ∈ cs, c ∈ numberChars)
    (hlen : f.valuebuf.length + cs.length ≤ 4095) :
    reads ihash (.run f false outer) cs =
      .run { f with
        valuebuf := f.valuebuf ++ cs
        valueDots := f.valueDots + cs.count 46 } false outer := by
  induction cs generalizing f with
  | nil => simp
  | cons c cs ih =>
    have hroom : ¬ 4095 ≤ f.valuebuf.length := by
      simp only [List.length_cons] at hlen
      omega
    have hc : c ∈ numberChars := hcs c List.mem_cons_self
    have hv := number_unquotedv c hc
    obtain ⟨hsp, hne⟩ := number_plain c hc
    simp only [List.mem_cons, List.not_mem_nil, or_false, not_or] at hne
    obtain ⟨h44, h125, h93, h35, -⟩ := hne
    have hcl : c ≠ (if dict then 125 else 93) := by cases dict <;> simp [h125, h93]
    obtain ⟨error, hstep⟩ := levelStep_value ihash hst c
    have hnext : levelStep ihash f c = .next { f with
        valuebuf := f.valuebuf ++ [c]
        valueDots := f.valueDots + [c].count 46 } := by
      rw [hstep]
      obtain rfl | hd := number_digit c hc
      · simp [unquotedValue, hcl, hsp, hv, hroom]
      · have h46 : c ≠ 46 := by
          rintro rfl
          simp [isdigit] at hd
        simp [unquotedValue, hsp, h44, h35, hcl, hv, hroom, h46, hd]
    rw [reads_cons, read_next hnext, ih]
    · simp [List.count_cons, Nat.add_assoc, Nat.add_comm]
    · exact hst
    · exact fun x hx => hcs x (List.mem_cons_of_mem c hx)
    · simp only [List.length_append, List.length_cons, List.length_nil] at hlen ⊢
      omega

/-- The first character of a number is read twice: it starts the value. -/
theorem levelStep_number {dict : Bool} {f : Frame} (hst : f.st = readySt dict) {c : UInt8}
    (hc : c ∈ numberChars) :
    levelStep ihash f c = levelStep ihash { f with
      st := valueSt dict, valuebuf := [], valueNondigits := false, valueDots := 0 } c := by
  have hv := number_unquotedv c hc
  have hu := number_unquoted c hc
  obtain ⟨hsp, hne⟩ := number_plain c hc
  simp only [List.mem_cons, List.not_mem_nil, or_false, not_or] at hne
  obtain ⟨h44, h125, h93, h35, h58, h61, h123, h91, h34⟩ := hne
  cases dict <;> simp [readySt] at hst
  · simp [levelStep, hst, valueSt, arrayWaitvalue, h35, hsp, h44, h93, h123, h91, h34, hu]
  · simp [levelStep, hst, valueSt, dictWaitvalue, h35, hsp, h58, h61, h123, h91, h34, hv]

theorem levelStep_wait {dict : Bool} {f : Frame} (hst : f.st = waitSt dict) {c : UInt8}
    (hc : c = 32 ∨ c = 10 ∨ c = 44) : levelStep ihash f c = .next f := by
  cases dict <;> simp [waitSt] at hst <;> obtain rfl | rfl | rfl := hc <;>
    simp [levelStep, hst, arrayWaitvalue, dictWaitkey, isspace]

theorem levelStep_valueEnd {dict : Bool} {f : Frame} (hst : f.st = valueSt dict) {c : UInt8}
    (hc : c = 10 ∨ c = 44) :
    levelStep ihash f c = .next { f with
      v := storeIn ihash dict f.v f.keybuf f.unquoted, st := waitSt dict } := by
  obtain ⟨error, hstep⟩ := levelStep_value ihash hst c
  rw [hstep]
  cases dict <;> obtain rfl | rfl := hc <;> simp [unquotedValue, isspace]

/-- A number, with the character behind it that ends it. -/
theorem reads_numberText {dict : Bool} {f : Frame} (hst : f.st = readySt dict) (outer : List Level)
    {cs : List UInt8} (hne : cs ≠ []) (hcs : ∀ c ∈ cs, c ∈ numberChars) (hlen : cs.length ≤ 4095)
    {sep : UInt8} (hsep : sep = 10 ∨ sep = 44) {val : VarValue}
    (hval : ∀ g : Frame, g.valuebuf = cs → g.valueNondigits = false → g.valueDots = cs.count 46 →
      g.unquoted = val) :
    ∃ f', reads ihash (.run f false outer) (cs ++ [sep]) = .run f' false outer ∧
      f'.st = waitSt dict ∧ f'.v = storeIn ihash dict f.v f.keybuf val := by
  let g : Frame := { f with
    st := valueSt dict, valuebuf := [], valueNondigits := false, valueDots := 0 }
  have hstart : reads ihash (.run f false outer) cs = reads ihash (.run g false outer) cs := by
    cases cs with
    | nil => exact absurd rfl hne
    | cons c cs =>
      have hc := hcs c List.mem_cons_self
      simp only [reads_cons, Reading.read, levelStep_number hst hc]
      rfl
  have hread := reads_number ihash g rfl outer cs hcs (by simpa [g] using hlen)
  rw [reads_append, hstart, hread, reads_cons, reads_nil, read_next (levelStep_valueEnd rfl hsep)]
  refine ⟨_, rfl, rfl, ?_⟩
  rw [hval _ (by simp [g]) rfl (by simp [g])]

theorem digits_numberChars : ∀ c ∈ asc "0123456789", c ∈ numberChars ∧ c ≠ 46 ∧ isdigit c = true := by
  decide +kernel

theorem count_dot {cs : List UInt8} (h : ∀ c ∈ cs, c ∈ asc "0123456789") : cs.count 46 = 0 := by
  apply List.count_eq_zero.mpr
  intro h46
  exact (digits_numberChars 46 (h 46 h46)).2.1 rfl

theorem takeWhile_digits {cs : List UInt8} (h : ∀ c ∈ cs, c ∈ asc "0123456789") :
    cs.takeWhile isdigit = cs :=
  List.takeWhile_eq_self_iff.mpr fun c hc => (digits_numberChars c (h c hc)).2.2

theorem strtoull_write (ival : BitVec 64) : strtoull (Decimal.write ival.toNat) = ival := by
  rw [strtoull, takeWhile_digits fun c hc => Decimal.mem_write hc, Decimal.read_write,
    Nat.min_eq_left (by have := ival.isLt; omega), BitVec.ofNat_toNat, BitVec.setWidth_eq]

theorem atof_writeFixed (q : ℚ) : atof (Decimal.writeFixed 6 q) = sixDecimals q := by
  let n := (Decimal.roundEven (q * 10 ^ 6)).toNat
  have hw : ∀ c ∈ Decimal.write (n / 10 ^ 6), c ∈ asc "0123456789" := fun c hc =>
    Decimal.mem_write hc
  have hd : ∀ c ∈ Decimal.pad 6 (Decimal.write (n % 10 ^ 6)), c ∈ asc "0123456789" := fun c hc =>
    Decimal.mem_pad (fun c hc => Decimal.mem_write hc) hc
  have hpad : (Decimal.pad 6 (Decimal.write (n % 10 ^ 6))).length = 6 :=
    Decimal.length_pad (Decimal.length_write_le (by decide) (Nat.mod_lt n (by decide)))
  have htext : Decimal.writeFixed 6 q = Decimal.write (n / 10 ^ 6) ++
      46 :: Decimal.pad 6 (Decimal.write (n % 10 ^ 6)) := by
    simp [Decimal.writeFixed, n]
  have h46 : isdigit 46 = false := by decide
  have htake : (Decimal.writeFixed 6 q).takeWhile isdigit = Decimal.write (n / 10 ^ 6) := by
    rw [htext, List.takeWhile_append_of_pos fun c hc => (digits_numberChars c (hw c hc)).2.2]
    simp [h46]
  have hdrop : (Decimal.writeFixed 6 q).dropWhile isdigit =
      46 :: Decimal.pad 6 (Decimal.write (n % 10 ^ 6)) := by
    rw [htext, List.dropWhile_append_of_pos fun c hc => (digits_numberChars c (hw c hc)).2.2]
    simp [h46]
  have hsplit : (n : ℚ) = ((n / 10 ^ 6 : ℕ) : ℚ) * 10 ^ 6 + ((n % 10 ^ 6 : ℕ) : ℚ) := by
    exact_mod_cast (Nat.div_add_mod' n (10 ^ 6)).symm
  simp only [atof, htake, hdrop, takeWhile_digits hd, Decimal.read_write, Decimal.read_pad, hpad,
    sixDecimals]
  change _ = (n : ℚ) / 10 ^ 6
  rw [hsplit]
  field_simp

end Numbers

theorem levelStep_openQuote {dict : Bool} {f : Frame} (hst : f.st = readySt dict) :
    levelStep ihash f 34 = .next { f with st := quotedSt dict, valuebuf := [] } := by
  cases dict <;> simp [readySt] at hst <;>
    simp [levelStep, hst, dictWaitvalue, arrayWaitvalue, isspace, quotedSt]

theorem reads_string {dict : Bool} {f : Frame} (hst : f.st = readySt dict) (outer : List Level)
    {str : List UInt8} (hlen : str.length ≤ 4095) {sep : UInt8} (hsep : sep = 10 ∨ sep = 44) :
    ∃ f', reads ihash (.run f false outer) (asc "\"" ++ varEscapeStr str ++ asc "\"" ++ [sep]) =
      .run f' false outer ∧ f'.st = waitSt dict ∧
      f'.v = storeIn ihash dict f.v f.keybuf (.str str) := by
  have hread := reads_quoted ihash
    { f with st := quotedSt dict, valuebuf := [] } rfl outer str (by simpa using hlen)
  simp only [List.nil_append] at hread
  have hclose : levelStep ihash { f with st := quotedSt dict, valuebuf := str } 34 =
      .next { f with
        v := storeIn ihash dict f.v f.keybuf (.str str), st := waitSt dict, valuebuf := str } := by
    rw [levelStep_quoted ihash (f := { f with st := quotedSt dict, valuebuf := str }) rfl]
    simp [quotedValue]
  have hskip (g : Frame) (hg : g.st = waitSt dict) :
      read ihash (.run g false outer) sep = .run g false outer :=
    read_next (levelStep_wait hg (.inr hsep))
  rw [show asc "\"" = [34] from rfl]
  simp only [reads_append, reads_cons, reads_nil, read_next (levelStep_openQuote hst), hread,
    read_next hclose]
  exact ⟨_, hskip _ rfl, rfl, rfl⟩

variable (ihash) in
/-- A value, with the character behind it. -/
theorem reads_value {dict : Bool} {f : Frame} (hst : f.st = readySt dict) (outer : List Level)
    {val : VarValue} (hlen : (valueText val).length ≤ 4095) {sep : UInt8}
    (hsep : sep = 10 ∨ sep = 44) :
    ∃ f', reads ihash (.run f false outer) (valueText val ++ [sep]) = .run f' false outer ∧
      f'.st = waitSt dict ∧ f'.v = storeIn ihash dict f.v f.keybuf val.reread := by
  cases val with
  | null => exact reads_string hst outer (show ([] : List UInt8).length ≤ 4095 by simp) hsep
  | str sval =>
    apply reads_string hst outer _ hsep
    have hesc := length_le_varEscapeStr sval
    simp only [valueText, List.length_append] at hlen
    omega
  | int ival =>
    apply reads_numberText hst outer (Decimal.write_ne_nil _) _ hlen hsep
    · intro g hbuf hn hd
      rw [count_dot fun c hc => Decimal.mem_write hc] at hd
      simp [Frame.unquoted, hbuf, hn, hd, strtoull_write, VarValue.reread]
    · intro c hc
      exact (digits_numberChars c (Decimal.mem_write hc)).1
  | double dval =>
    have hw : ∀ n, ∀ c ∈ Decimal.write n, c ∈ asc "0123456789" := fun n c hc =>
      Decimal.mem_write hc
    have hp : ∀ n, ∀ c ∈ Decimal.pad 6 (Decimal.write n), c ∈ asc "0123456789" := fun n c hc =>
      Decimal.mem_pad (hw n) hc
    apply reads_numberText hst outer _ _ hlen hsep
    · intro g hbuf hn hd
      have hdots : g.valueDots = 1 := by
        rw [hd]
        simp [valueText, Decimal.writeFixed, count_dot (hw _), count_dot (hp _)]
      simp [Frame.unquoted, hbuf, hn, hdots, valueText, atof_writeFixed, VarValue.reread]
    · simp [valueText, Decimal.writeFixed]
    · intro c hc
      simp only [valueText, Decimal.writeFixed, List.mem_append, List.mem_singleton] at hc
      obtain (hc | rfl) | hc := hc
      · exact (digits_numberChars c (hw _ c hc)).1
      · decide
      · exact (digits_numberChars c (hp _ c hc)).1

variable (ihash) in
/-- A key, up to where its value starts. -/
theorem reads_keyText {f : Frame} (hst : f.st = .dictWaitkey) (outer : List Level) (id : FString) :
    ∃ f', reads ihash (.run f false outer) (keyText id) = .run f' false outer ∧
      f'.st = .dictWaitvalue ∧ f'.keybuf = (rereadKey id).str ∧ f'.v = f.v := by
  have hread := reads_key ihash
    { f with st := .dictKeyQuoted, keybuf := [], valuebuf := [] } rfl outer id.str (by
      have := id.length_le
      simp only [List.length_nil]
      omega)
  have hopen : levelStep ihash f 34 =
      .next { f with st := .dictKeyQuoted, keybuf := [], valuebuf := [] } := by
    simp [levelStep, hst, dictWaitkey, isspace]
  rw [keyText, show asc "\"" = [34] from rfl, show asc "\": " = [34, 58, 32] from rfl]
  simp only [reads_append, reads_cons, reads_nil, read_next hopen, hread]
  refine ⟨{ f with st := .dictWaitvalue, keybuf := (rereadKey id).str, valuebuf := [] }, ?_, rfl, rfl,
    rfl⟩
  have hclose : levelStep ihash
      { f with st := .dictKeyQuoted, keybuf := (rereadKey id).str, valuebuf := [] } 34 =
      .next { f with st := .dictWaitvalue, keybuf := (rereadKey id).str, valuebuf := [] } := by
    simp [levelStep, dictKeyQuoted]
  have hskip (g : Frame) (hg : g.st = .dictWaitvalue) (c : UInt8) (hc : c = 58 ∨ c = 32) :
      read ihash (.run g false outer) c = .run g false outer := by
    apply read_next
    obtain rfl | rfl := hc <;> simp [levelStep, hg, dictWaitvalue, isspace]
  have hkey : [] ++ id.str.map keyChar = (rereadKey id).str := rfl
  rw [hkey, read_next hclose, hskip _ rfl 58 (.inl rfl), hskip _ rfl 32 (.inr rfl)]

/-- The var for a dict or an array below a level, where it stands, and the var of the
level with it. -/
def openIn (ihash : BitVec 32) (dict : Bool) (v : Var) (key : List UInt8) (kind : Bool) :
    Var × Option (Option Nat × Var) :=
  let r := if dict then varGetNodeForkey ihash v key kind else varAddNode ihash v kind
  (r.1, r.2.map fun p => (p.1, if kind then p.2 else varClearArray p.2))

mutual

/-- The var of a level at the given depth after a child's text was read, if the parser
does not give up. -/
def rereadItem (ihash : BitVec 32) (dict : Bool) (depth : Nat) (v : Var) : Var → Option Var
  | .leaf id _ val => some (storeIn ihash dict v (rereadKey id).str val.reread)
  | .dict id _ cs =>
    match openIn ihash dict v (rereadKey id).str true with
    | (_, none) => none
    | (v, some (place, vv)) =>
      if default_max_json_depth < depth + 1 then none
      else (rereadItems ihash true (depth + 1) vv cs).map fun vv => v.put place vv
  | .array id _ cs =>
    match openIn ihash dict v (rereadKey id).str false with
    | (_, none) => none
    | (v, some (place, vv)) =>
      if default_max_json_depth < depth + 1 then none
      else (rereadItems ihash false (depth + 1) vv cs).map fun vv => v.put place vv

def rereadItems (ihash : BitVec 32) (dict : Bool) (depth : Nat) (v : Var) : List Var → Option Var
  | [] => some v
  | c :: cs => (rereadItem ihash dict depth v c).bind fun v => rereadItems ihash dict depth v cs

end

/-- The machine at a level between two children, with the given var, or after it gave up. -/
def Arrives (r : Reading) (outer : List Level) (dict : Bool) : Option Var → Prop
  | some v => ∃ f, r = .run f false outer ∧ f.st = waitSt dict ∧ f.v = v
  | none => ∃ v, r = .stop false v

/-- The text of a child makes a level of the machine do with its var what `rereadItem`
does. -/
def ReadsAs (ihash : BitVec 32) (c : Var) : Prop :=
  ∀ dict f outer indent sep, f.st = waitSt dict → sep = 10 ∨ sep = 44 →
    Arrives (reads ihash (.run f false outer) (itemText dict indent c ++ [sep])) outer dict
      (rereadItem ihash dict outer.length f.v c)

variable (ihash) in
theorem Arrives.next {r : Reading} {outer : List Level} {dict : Bool} {o : Option Var}
    (h : Arrives r outer dict o) {c : UInt8} (hc : c = 32 ∨ c = 10 ∨ c = 44) :
    Arrives (read ihash r c) outer dict o := by
  cases o with
  | none =>
    obtain ⟨v, rfl⟩ := h
    exact ⟨v, rfl⟩
  | some v =>
    obtain ⟨f, rfl, hst, hv⟩ := h
    exact ⟨f, read_next (levelStep_wait hst hc), hst, hv⟩

variable (ihash) in
theorem Arrives.spaces {r : Reading} {outer : List Level} {dict : Bool} {o : Option Var}
    (h : Arrives r outer dict o) (indent : Nat) :
    Arrives (reads ihash r (spaces indent)) outer dict o := by
  induction indent generalizing r with
  | zero => exact h
  | succ n ih => exact ih (h.next ihash (.inl rfl))

variable (ihash) in
theorem reads_items {cs : List Var} (hcs : ∀ c ∈ cs, ReadsAs ihash c) (dict : Bool) (indent : Nat)
    {f : Frame} (hst : f.st = waitSt dict) (outer : List Level) :
    Arrives (reads ihash (.run f false outer) (itemsText dict indent cs)) outer dict
      (rereadItems ihash dict outer.length f.v cs) := by
  induction cs generalizing f with
  | nil => exact ⟨f, rfl, hst, rfl⟩
  | cons c cs ih =>
    have ih {f : Frame} (hst : f.st = waitSt dict) :=
      ih (fun c hc => hcs c (List.mem_cons_of_mem _ hc)) hst
    have hspaces : Arrives (reads ihash (.run f false outer) (spaces indent)) outer dict (some f.v) :=
      Arrives.spaces ihash (o := some f.v) ⟨f, rfl, hst, rfl⟩ indent
    obtain ⟨g, hg, hgst, hgv⟩ := hspaces
    have hitem (sep : UInt8) (hsep : sep = 10 ∨ sep = 44) :=
      hcs c List.mem_cons_self dict g outer indent sep hgst hsep
    have hsep : Arrives (reads ihash (.run f false outer)
        (spaces indent ++ itemText dict indent c ++ if cs = [] then asc "\n" else asc ",\n"))
        outer dict (rereadItem ihash dict outer.length f.v c) := by
      rw [reads_append, reads_append, hg, ← hgv]
      split
      · have h := hitem 10 (.inl rfl)
        rwa [reads_append] at h
      · have h := (hitem 44 (.inr rfl)).next ihash (.inr (.inl rfl))
        rwa [reads_append] at h
    rw [itemsText, reads_append, rereadItems]
    cases hr : rereadItem ihash dict outer.length f.v c with
    | none =>
      rw [hr] at hsep
      obtain ⟨v, hv⟩ := hsep
      rw [hv, reads_stop]
      exact ⟨v, rfl⟩
    | some v =>
      rw [hr] at hsep
      obtain ⟨g', hg', hst', rfl⟩ := hsep
      rw [hg']
      exact ih hst'

variable (ihash) in
/-- From between two children to where a value may start. -/
theorem reads_ready {dict : Bool} {f : Frame} (hst : f.st = waitSt dict) (outer : List Level)
    (id : FString) :
    ∃ g, reads ihash (.run f false outer) (if dict then keyText id else []) = .run g false outer ∧
      g.st = readySt dict ∧ g.v = f.v ∧ (dict = true → g.keybuf = (rereadKey id).str) := by
  cases dict with
  | false => exact ⟨f, rfl, hst, rfl, by simp⟩
  | true =>
    obtain ⟨g, hr, hgst, hk, hv⟩ := reads_keyText ihash hst outer id
    exact ⟨g, hr, hgst, hv, fun _ => hk⟩

theorem storeIn_congr {dict : Bool} {v : Var} {key key' : List UInt8} {val : VarValue}
    (h : dict = true → key = key') : storeIn ihash dict v key val = storeIn ihash dict v key' val := by
  cases dict
  · rfl
  · rw [h rfl]

theorem openIn_congr {dict : Bool} {v : Var} {key key' : List UInt8} {kind : Bool}
    (h : dict = true → key = key') : openIn ihash dict v key kind = openIn ihash dict v key' kind := by
  cases dict
  · rfl
  · rw [h rfl]

variable (ihash) in
/-- The opening bracket of a child, as an action of its level. -/
theorem levelStep_open {dict : Bool} {g : Frame} (hst : g.st = readySt dict) (kind : Bool) :
    ∃ error, levelStep ihash g (if kind then 123 else 91) =
      match openIn ihash dict g.v g.keybuf kind with
      | (v, none) => .fail v error
      | (v, some (place, vv)) => .child { g with v := v, st := waitSt dict } place vv (waitSt kind) := by
  obtain ⟨v, st, keybuf, valuebuf, nondigits, dots, stnext⟩ := g
  simp only at hst
  subst hst
  cases dict
  · cases kind
    · refine ⟨some (asc "Couldn't add array"), ?_⟩
      simp only [readySt, waitSt, openIn, levelStep, arrayWaitvalue, varAddArray]
      generalize varAddNode ihash v false = r
      obtain ⟨v', _ | ⟨place, vv⟩⟩ := r <;> simp [isspace]
    · refine ⟨some (asc "Couldn't add dict"), ?_⟩
      simp only [readySt, waitSt, openIn, levelStep, arrayWaitvalue, varAddDict]
      generalize varAddNode ihash v true = r
      obtain ⟨v', _ | ⟨place, vv⟩⟩ := r <;> simp [isspace]
  · cases kind
    · refine ⟨keyError "Couldn't get array for key '" keybuf, ?_⟩
      simp only [readySt, waitSt, openIn, levelStep, dictWaitvalue, openArray, varGetArrayForkey]
      generalize varGetNodeForkey ihash v keybuf false = r
      obtain ⟨v', _ | ⟨place, vv⟩⟩ := r <;> simp [isspace]
    · refine ⟨keyError "Couldn't get dict for key '" keybuf, ?_⟩
      simp only [readySt, waitSt, openIn, levelStep, dictWaitvalue, openDict, varGetDictForkey]
      generalize varGetNodeForkey ihash v keybuf true = r
      obtain ⟨v', _ | ⟨place, vv⟩⟩ := r <;> simp [isspace]

variable (ihash) in
theorem levelStep_close {kind : Bool} {f : Frame} (hst : f.st = waitSt kind) :
    levelStep ihash f (if kind then 125 else 93) = .leave f.v := by
  cases kind <;> simp [waitSt] at hst <;>
    simp [levelStep, hst, arrayWaitvalue, dictWaitkey, isspace]

/-- The text of a dict or an array among its siblings, given what its children's texts do. -/
theorem readsAs_node {cs : List Var} (hcs : ∀ c ∈ cs, ReadsAs ihash c) (dict : Bool) {f : Frame}
    (outer : List Level) (indent : Nat) {sep : UInt8} (id : FString) (kind : Bool)
    (hst : f.st = waitSt dict) (hsep : sep = 10 ∨ sep = 44) :
    Arrives (reads ihash (.run f false outer)
      ((if dict then keyText id else []) ++ [if kind then 123 else 91, 10] ++
        itemsText kind (min (indent + 4) 128) cs ++ spaces indent ++ [if kind then 125 else 93] ++
        [sep])) outer dict
      (match openIn ihash dict f.v (rereadKey id).str kind with
      | (_, none) => none
      | (v, some (place, vv)) =>
        if default_max_json_depth < outer.length + 1 then none
        else (rereadItems ihash kind (outer.length + 1) vv cs).map fun vv => v.put place vv) := by
  obtain ⟨g, hg, hgst, hgv, hkey⟩ := reads_ready ihash hst outer id
  obtain ⟨error, hopen⟩ := levelStep_open ihash hgst kind
  rw [openIn_congr hkey, hgv] at hopen
  rw [List.append_assoc, List.append_assoc, List.append_assoc, List.append_assoc, reads_append, hg,
    List.cons_append, reads_cons, Reading.read, hopen]
  generalize openIn ihash dict f.v (rereadKey id).str kind = r
  obtain ⟨v, _ | ⟨place, vv⟩⟩ := r
  · exact ⟨_, reads_stop ..⟩
  · let l : Level := ⟨{ g with v := v, st := waitSt dict }, place⟩
    simp only
    split
    · exact ⟨_, reads_stop ..⟩
    · -- the level below reads its children, and its closing bracket puts its var back
      have hitems := reads_items ihash hcs kind (min (indent + 4) 128)
        (f := .start vv (waitSt kind)) rfl (l :: outer)
      rw [List.singleton_append, reads_cons, read_next (levelStep_wait rfl (.inr (.inl rfl))),
        reads_append]
      change Arrives (reads ihash (reads ihash (.run (.start vv (waitSt kind)) false (l :: outer)) _) _)
        _ _ _
      rw [List.length_cons] at hitems
      change Arrives _ _ _ (rereadItems ihash kind (outer.length + 1) vv cs) at hitems
      have hspaces := hitems.spaces ihash indent
      rw [reads_append]
      cases hres : rereadItems ihash kind (outer.length + 1) vv cs with
      | none =>
        rw [hres] at hspaces
        obtain ⟨w, hw⟩ := hspaces
        rw [hw, reads_stop]
        exact ⟨w, rfl⟩
      | some vv' =>
        rw [hres] at hspaces
        obtain ⟨f', hf', hst', rfl⟩ := hspaces
        rw [hf', List.singleton_append, reads_cons, Reading.read, levelStep_close ihash hst']
        exact (show Arrives (.run (l.resume f'.v) false outer) outer dict (some (v.put place f'.v)) from
          ⟨_, rfl, rfl, rfl⟩).next ihash (hsep.elim (fun h => .inr (.inl h)) fun h => .inr (.inr h))

/-- What the parser does with the text of a child all of whose values fit. -/
theorem Var.Printable.readsAs {c : Var} (hc : c.Printable) : ReadsAs ihash c := by
  induction hc with
  | @leaf id h val hval =>
    intro dict f outer indent sep hst hsep
    obtain ⟨g, hg, hgst, hgv, hkey⟩ := reads_ready ihash hst outer id
    obtain ⟨f', hf', hst', hv'⟩ := reads_value ihash hgst outer hval hsep
    rw [itemText, List.append_assoc, reads_append, hg, hf', rereadItem]
    refine ⟨f', rfl, hst', ?_⟩
    rw [hv', hgv, storeIn_congr hkey]
  | @dict id h cs hcs ih =>
    intro dict f outer indent sep hst hsep
    rw [itemText, rereadItem]
    exact readsAs_node ih dict outer indent id true hst hsep
  | @array id h cs hcs ih =>
    intro dict f outer indent sep hst hsep
    rw [itemText, rereadItem]
    exact readsAs_node ih dict outer indent id false hst hsep

end Opticon
