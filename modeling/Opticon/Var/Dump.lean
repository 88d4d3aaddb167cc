import Opticon.Var.Tree
import Opticon.Wire.Ioport

/-! The writer for variable trees (`var_dump.c`). -/

namespace Opticon

/-- `SPC + (128 - indent)` -/
def spaces (indent : Nat) : List UInt8 := List.replicate indent 32

def keyText (id : FString) : List UInt8 := asc "\"" ++ varEscapeStr id.str ++ asc "\": "

def valueText : VarValue → List UInt8
  | .null => asc "\"\""
  | .int ival => Decimal.write ival.toNat
  | .double dval => Decimal.writeFixed 6 dval
  | .str sval => asc "\"" ++ varEscapeStr sval ++ asc "\""

mutual

def varWriteIndented (v : Var) (into : Ioport) (indent : Nat) : Bool × Ioport :=
  match v with
  | .leaf _ _ _ => (false, into)
  | .dict _ _ cs => varWriteChildren true (min indent 128) cs true into
  | .array _ _ cs => varWriteChildren false (min indent 128) cs true into

/-- The loop over the children of a dict or of an array, from a child on. -/
def varWriteChildren (dict : Bool) (indent : Nat) (cs : List Var) (first : Bool) (into : Ioport) :
    Bool × Ioport :=
  match cs with
  | [] => (true, if first then into else ioportPrintf into (asc "\n"))
  | crsr :: rest =>
    let into := if first then into else ioportPrintf into (asc ",\n")
    let into := if indent ≠ 0 then ioportPrintf into (spaces indent) else into
    let into := if dict then ioportPrintf into (keyText crsr.id) else into
    match crsr with
    | .leaf _ _ val => varWriteChildren dict indent rest false (ioportPrintf into (valueText val))
    | .dict _ _ _ =>
      let r := varWriteIndented crsr (ioportPrintf into (asc "\x7b\n")) (indent + 4)
      if r.1 then
        let into := if indent ≠ 0 then ioportPrintf r.2 (spaces indent) else r.2
        varWriteChildren dict indent rest false (ioportPrintf into (asc "\x7d"))
      else (false, r.2)
    | .array _ _ _ =>
      let r := varWriteIndented crsr (ioportPrintf into (asc "[\n")) (indent + 4)
      if r.1 then
        let into := if indent ≠ 0 then ioportPrintf r.2 (spaces indent) else r.2
        varWriteChildren dict indent rest false (ioportPrintf into (asc "]"))
      else (false, r.2)

end

def varWrite (v : Var) (into : Ioport) : Bool × Ioport :=
  let r := varWriteIndented v (ioportWrite into (asc "\x7b\n")) 4
  (r.1, ioportWrite r.2 (asc "\x7d\n"))

/-- The bytes that reach the file. -/
def varDump (v : Var) : Bool × List UInt8 :=
  let r := varWrite v .writer
  (r.1, r.2.written)

mutual

/-- A child as it is written when nothing is cut off. -/
def itemText (dict : Bool) (indent : Nat) : Var → List UInt8
  | .leaf id _ val => (if dict then keyText id else []) ++ valueText val
  | .dict id _ cs =>
    (if dict then keyText id else []) ++ asc "\x7b\n" ++
      itemsText true (min (indent + 4) 128) cs ++ spaces indent ++ asc "\x7d"
  | .array id _ cs =>
    (if dict then keyText id else []) ++ asc "[\n" ++
      itemsText false (min (indent + 4) 128) cs ++ spaces indent ++ asc "]"

def itemsText (dict : Bool) (indent : Nat) : List Var → List UInt8
  | [] => []
  | c :: cs =>
    spaces indent ++ itemText dict indent c ++ (if cs = [] then asc "\n" else asc ",\n") ++
      itemsText dict indent cs

end

def bodyText (indent : Nat) : Var → List UInt8
  | .leaf _ _ _ => []
  | .dict _ _ cs => itemsText true indent cs
  | .array _ _ cs => itemsText false indent cs

/-- The text of a tree, when nothing is cut off. -/
def documentText (v : Var) : List UInt8 := asc "\x7b\n" ++ bodyText 4 v ++ asc "\x7d\n"

/-- The text of every value fits the buffer it is formatted in. -/
inductive Var.Printable : Var → Prop
  | leaf {id : FString} {h : BitVec 32} {val : VarValue} :
      (valueText val).length ≤ 4095 → Printable (.leaf id h val)
  | dict {id : FString} {h : BitVec 32} {cs : List Var} :
      (∀ c ∈ cs, c.Printable) → Printable (.dict id h cs)
  | array {id : FString} {h : BitVec 32} {cs : List Var} :
      (∀ c ∈ cs, c.Printable) → Printable (.array id h cs)

theorem length_varEscapeStr_le (str : List UInt8) : (varEscapeStr str).length ≤ 2 * str.length := by
  induction str with
  | nil => simp [varEscapeStr]
  | cons c cs ih =>
    simp only [varEscapeStr, List.length_cons]
    split_ifs <;> simp only [List.length_cons] <;> omega

theorem length_le_varEscapeStr (str : List UInt8) : str.length ≤ (varEscapeStr str).length := by
  induction str with
  | nil => simp
  | cons c cs ih =>
    simp only [varEscapeStr, List.length_cons]
    split_ifs <;> simp only [List.length_cons] <;> omega

theorem length_keyText_le (id : FString) : (keyText id).length ≤ 4095 := by
  have h := length_varEscapeStr_le id.str
  have hid := id.length_le
  have h₁ : (asc "\"").length = 1 := by decide
  have h₂ : (asc "\": ").length = 3 := by decide
  simp only [keyText, List.length_append, h₁, h₂]
  omega

theorem ioportPrintf_spaces (w : List UInt8) {indent : Nat} (h : indent ≤ 128) :
    (if indent ≠ 0 then ioportPrintf (.port w) (spaces indent) else .port w) =
      .port (w ++ spaces indent) := by
  split
  · exact ioportPrintf_port w (by simp only [spaces, List.length_replicate]; omega)
  · rename_i h0
    simp [spaces, not_not.mp h0]

theorem ioportPrintf_key (w : List UInt8) (dict : Bool) (id : FString) :
    (if dict then ioportPrintf (.port w) (keyText id) else .port w) =
      .port (w ++ if dict then keyText id else []) := by
  cases dict
  · simp
  · exact ioportPrintf_port w (length_keyText_le id)

/-- What `var_write_indented` writes on a port is the text of the var's children. -/
def Written (v : Var) : Prop :=
  ∀ w indent, varWriteIndented v (.port w) indent =
    (match v with | .leaf _ _ _ => false | _ => true, .port (w ++ bodyText (min indent 128) v))

theorem varWriteChildren_port (dict : Bool) {indent : Nat} (hi : indent ≤ 128) (cs : List Var)
    (hp : ∀ c ∈ cs, c.Printable) (hw : ∀ c ∈ cs, Written c) (first : Bool) (w : List UInt8) :
    varWriteChildren dict indent cs first (.port w) = (true, .port (w ++
      (if first then [] else if cs = [] then asc "\n" else asc ",\n") ++
      itemsText dict indent cs)) := by
  have hn : (asc "\n").length ≤ 4095 := by decide
  have hc : (asc ",\n").length ≤ 4095 := by decide
  have ho : (asc "\x7b\n").length ≤ 4095 := by decide
  have hob : (asc "[\n").length ≤ 4095 := by decide
  have hcl : (asc "\x7d").length ≤ 4095 := by decide
  have hclb : (asc "]").length ≤ 4095 := by decide
  induction cs generalizing first w with
  | nil => cases first <;> simp [varWriteChildren, ioportPrintf_port _ hn, itemsText]
  | cons c cs ih =>
    have ih := ih (fun x hx => hp x (List.mem_cons_of_mem c hx))
      (fun x hx => hw x (List.mem_cons_of_mem c hx))
    have hfirst : (if first then .port w else ioportPrintf (.port w) (asc ",\n")) =
        .port (w ++ if first then [] else asc ",\n") := by
      cases first
      · exact ioportPrintf_port w hc
      · simp
    have hwc := hw c List.mem_cons_self
    simp only [varWriteChildren, hfirst, ioportPrintf_spaces _ hi, ioportPrintf_key]
    cases hp c List.mem_cons_self with
    | leaf hval => simp [ioportPrintf_port _ hval, ih, itemsText, itemText, Var.id]
    | dict _ => simp [ioportPrintf_port _ ho, hwc _ _, ioportPrintf_spaces _ hi,
        ioportPrintf_port _ hcl, ih, itemsText, itemText, bodyText, Var.id]
    | array _ => simp [ioportPrintf_port _ hob, hwc _ _, ioportPrintf_spaces _ hi,
        ioportPrintf_port _ hclb, ih, itemsText, itemText, bodyText, Var.id]

theorem Var.Printable.written {v : Var} (hv : v.Printable) : Written v := by
  induction hv with
  | leaf _ =>
    intro w indent
    simp [varWriteIndented, bodyText]
  | dict hcs ih =>
    intro w indent
    simp [varWriteIndented, bodyText,
      varWriteChildren_port true (Nat.min_le_right indent 128) _ hcs ih]
  | array hcs ih =>
    intro w indent
    simp [varWriteIndented, bodyText,
      varWriteChildren_port false (Nat.min_le_right indent 128) _ hcs ih]

/-- A tree all of whose values fit is written without loss. -/
theorem varDump_eq {v : Var} (hv : v.Printable) : (varDump v).2 = documentText v := by
  change (ioportWrite (varWriteIndented v (.port (asc "\x7b\n")) 4).2 (asc "\x7d\n")).written = _
  rw [hv.written]
  rfl

end Opticon
