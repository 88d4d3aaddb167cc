import Opticon.Var.Tree
import Opticon.Wire.Representation

/-! The JSON codec (`codec_json.c`), which the API shows hosts with. -/

namespace Opticon

def Double.fixed (k : Nat) : Double → List UInt8
  | .fin q => Decimal.writeFixed k q
  | .inf => asc "inf"

def jsoncodecDumpVal (type : MeterId) (m : Meter) (pos : Nat) (io : Ioport) :
    Except Fault Ioport :=
  if SZ_EMPTY_VAL < m.count then .ok (ioportWrite io (asc "null"))
  else if m.count < pos ∨ m.count = SZ_EMPTY_VAL then
    if 0 < pos then .ok io
    else if type = MTYPE_INT then .ok (ioportWrite io (asc "0"))
    else if type = MTYPE_FRAC then .ok (ioportWrite io (asc "0.0"))
    else .ok (ioportWrite io (asc "\"\""))
  else if type = MTYPE_INT then do
    m.inBounds 8 pos
    return ioportWrite io (Decimal.write (m.uint pos).toNat)
  else if type = MTYPE_FRAC then do
    m.inBounds 8 pos
    return ioportWrite io ((m.frac pos).fixed 3)
  else if type = MTYPE_STR then do
    m.inBounds 128 pos
    return ioportWrite io (asc "\"" ++ varEscapeStr (m.str pos).str ++ asc "\"")
  else .ok (ioportWrite io (asc "null"))

/-- The siblings of a meter with a path among the meters behind it: its next sibling, the
next sibling of that one, and so on. -/
def meterSiblings (m : Meter) : List Meter → List Meter
  | [] => []
  | crsr :: rest =>
    let mask := idhaspath m.id
    if mask ≠ 0 ∧ crsr.id &&& mask = m.id &&& mask then crsr :: meterSiblings crsr rest
    else meterSiblings m rest

/-- The members of one JSON object, one for each meter of the list. -/
def dumpMembers (pos : Nat) : List Meter → Ioport → Except Fault Ioport
  | [], io => .ok io
  | mm :: ms, io => do
    let io := ioportWrite io (asc "\"" ++ nodeid2str (mm.id &&& MMASK_NAME) ++ asc "\":")
    let io ← jsoncodecDumpVal (mm.id &&& MMASK_TYPE) mm pos io
    dumpMembers pos ms (if ms = [] then io else ioportWrite io (asc ","))

def jsoncodecDumpPathval (m : Meter) (rest : List Meter) (pos : Nat) (ind : Bool)
    (io : Ioport) : Except Fault Ioport := do
  let io := ioportWrite io (if ind then asc "    \x7b" else asc "\x7b")
  let io ← dumpMembers pos (m :: meterSiblings m rest) io
  return ioportWrite io (asc "\x7d")

/-- The objects of a path from position `i` on, `n` of them. -/
def dumpPath (m : Meter) (rest : List Meter) : Nat → Nat → Ioport → Except Fault Ioport
  | 0, _, io => .ok io
  | n + 1, i, io => do
    let io := if i = 0 then io else ioportWrite io (asc ",\n")
    let io ← jsoncodecDumpPathval m rest i (m.count ≠ 0) io
    dumpPath m rest n (i + 1) io

/-- The values of a meter without a path from position `i` on, `n` of them. -/
def dumpArray (m : Meter) : Nat → Nat → Ioport → Except Fault Ioport
  | 0, _, io => .ok io
  | n + 1, i, io => do
    let io ← jsoncodecDumpVal (m.id &&& MMASK_TYPE) m i io
    dumpArray m n (i + 1) (if i + 1 < m.count then ioportWrite io (asc ",") else io)

def jsonMeter (m : Meter) (rest : List Meter) (pathmask : MeterId) (io : Ioport) :
    Except Fault Ioport :=
  let id := if pathmask ≠ 0 then m.id &&& pathmask else m.id
  let io := ioportWrite io (id2str id ++ asc "\":")
  if m.count = SZ_EMPTY_VAL then .ok (ioportWrite io (asc "null"))
  else if m.count = SZ_EMPTY_ARRAY then .ok (ioportWrite io (asc "[]"))
  else if pathmask ≠ 0 then do
    let io := if 0 < m.count then ioportWrite io (asc "[\n") else io
    let io ← dumpPath m rest (elemCount m.count) 0 io
    return if 0 < m.count then ioportWrite io (asc "\n  ]") else io
  else do
    let io := if 0 < m.count then ioportWrite io (asc "[") else io
    let io ← dumpArray m (elemCount m.count) 0 io
    return if 0 < m.count then ioportWrite io (asc "]") else io

/-- `paths` are the paths dealt with so far, of which there is room for 128. -/
def jsonMeters : List Meter → List MeterId → Bool → Ioport → Except Fault (Bool × Ioport)
  | [], _, _, io => .ok (true, io)
  | m :: rest, paths, first, io =>
    let pathmask := idhaspath m.id
    let path := m.id &&& pathmask
    if pathmask ≠ 0 ∧ path ∈ paths then jsonMeters rest paths first io
    else if pathmask ≠ 0 ∧ 127 < paths.length then .ok (false, io)
    else do
      let paths := if pathmask ≠ 0 then paths ++ [path] else paths
      let io := if first then io else ioportWrite io (asc ",\n")
      let io ← jsonMeter m rest pathmask (ioportWrite io (asc "  \""))
      jsonMeters rest paths false io

def jsoncodecEncodeHost (io : Ioport) (h : Host) : Except Fault (Bool × Ioport) := do
  let (ok, io) ← jsonMeters h.meters [] true (ioportWrite io (asc "\x7b\n"))
  return (ok, if ok then ioportWrite io (asc "\n\x7d\n") else io)

/-- The meters that stand for their path, each with the meters behind it. -/
def pathLeaders : List Meter → List MeterId → List (Meter × List Meter)
  | [], _ => []
  | m :: rest, paths =>
    let pathmask := idhaspath m.id
    let path := m.id &&& pathmask
    if pathmask ≠ 0 ∧ path ∈ paths then pathLeaders rest paths
    else if pathmask ≠ 0 ∧ 127 < paths.length then []
    else if pathmask ≠ 0 then (m, rest) :: pathLeaders rest (paths ++ [path])
    else pathLeaders rest paths

/-- No array behind the leader of its path is shorter than the leader's. -/
def JsonFits (h : Host) : Prop :=
  ∀ p ∈ pathLeaders h.meters [], ∀ mm ∈ meterSiblings p.1 p.2,
    p.1.count < SZ_EMPTY_VAL → mm.count < SZ_EMPTY_VAL → mm.count = 0 ∨ p.1.count ≤ mm.count

theorem mem_meterSiblings {m mm : Meter} {rest : List Meter} (h : mm ∈ meterSiblings m rest) :
    mm ∈ rest := by
  induction rest generalizing m with
  | nil => cases h
  | cons crsr rest ih =>
    simp only [meterSiblings] at h
    split at h
    · obtain rfl | h := List.mem_cons.mp h
      · exact List.mem_cons_self
      · exact List.mem_cons_of_mem _ (ih h)
    · exact List.mem_cons_of_mem _ (ih h)

theorem jsoncodecDumpVal_ok {m : Meter} (hm : m.Represented) (pos : Nat) (io : Ioport) :
    (∃ io', jsoncodecDumpVal (m.id &&& MMASK_TYPE) m pos io = .ok io') ↔
      (m.count < SZ_EMPTY_VAL → m.count = pos → pos = 0) := by
  change (∃ io', jsoncodecDumpVal m.type m pos io = .ok io') ↔ _
  unfold jsoncodecDumpVal
  split
  · exact iff_of_true ⟨_, rfl⟩ (fun h => absurd h (by omega))
  · split
    · refine iff_of_true ?_ (fun h hp => by omega)
      split_ifs <;> exact ⟨_, rfl⟩
    · have hc : m.count < SZ_EMPTY_VAL := by omega
      have hpos : pos < elemCount m.count ↔
          (m.count < SZ_EMPTY_VAL → m.count = pos → pos = 0) := by
        unfold elemCount
        split <;> omega
      obtain ht | ht | ht := hm.type_cases hc
      all_goals
        rw [← hpos, ← hm.inBounds hc (by rw [ht]; rfl)]
        simp [ht, MTYPE_INT, MTYPE_FRAC, MTYPE_STR]
        exact Unique.exists_iff

theorem dumpMembers_ok {ms : List Meter} (hms : ∀ m ∈ ms, m.Represented) (pos : Nat)
    (io : Ioport) :
    (∃ io', dumpMembers pos ms io = .ok io') ↔
      ∀ m ∈ ms, m.count < SZ_EMPTY_VAL → m.count = pos → pos = 0 := by
  induction ms generalizing io with
  | nil => exact iff_of_true ⟨io, rfl⟩ (by simp)
  | cons m ms ih =>
    have ih := ih fun m hm => hms m (List.mem_cons_of_mem _ hm)
    simp only [dumpMembers, Outcome.bind_ok_iff, List.forall_mem_cons]
    rw [← jsoncodecDumpVal_ok (hms m List.mem_cons_self) pos]
    constructor
    · rintro ⟨io', io₁, h₁, h₂⟩
      exact ⟨⟨io₁, h₁⟩, (ih _).mp ⟨io', h₂⟩⟩
    · rintro ⟨⟨io₁, h₁⟩, h₂⟩
      obtain ⟨io', h'⟩ := (ih _).mpr h₂
      exact ⟨io', io₁, h₁, h'⟩

theorem jsoncodecDumpPathval_ok {m : Meter} {rest : List Meter}
    (hm : ∀ mm ∈ m :: rest, mm.Represented) (pos : Nat) (ind : Bool) (io : Ioport) :
    (∃ io', jsoncodecDumpPathval m rest pos ind io = .ok io') ↔
      ∀ mm ∈ m :: meterSiblings m rest,
        mm.count < SZ_EMPTY_VAL → mm.count = pos → pos = 0 := by
  have hms : ∀ mm ∈ m :: meterSiblings m rest, mm.Represented := by
    intro mm h
    obtain rfl | h := List.mem_cons.mp h
    · exact hm mm List.mem_cons_self
    · exact hm mm (List.mem_cons_of_mem _ (mem_meterSiblings h))
  rw [← dumpMembers_ok hms pos (ioportWrite io (if ind then asc "    \x7b" else asc "\x7b"))]
  simp [jsoncodecDumpPathval]

theorem dumpPath_ok {m : Meter} {rest : List Meter} (hm : ∀ mm ∈ m :: rest, mm.Represented)
    (n i : Nat) (io : Ioport) :
    (∃ io', dumpPath m rest n i io = .ok io') ↔
      ∀ mm ∈ m :: meterSiblings m rest, mm.count < SZ_EMPTY_VAL →
        i ≤ mm.count → mm.count < i + n → mm.count = 0 := by
  induction n generalizing i io with
  | zero => exact iff_of_true ⟨io, rfl⟩ (fun mm _ _ _ _ => by omega)
  | succ n ih =>
    simp only [dumpPath, Outcome.bind_ok_iff]
    have hval := jsoncodecDumpPathval_ok hm i (m.count ≠ 0)
      (if i = 0 then io else ioportWrite io (asc ",\n"))
    constructor
    · rintro ⟨io', io₁, h₁, h₂⟩ mm hmm hc hle hlt
      by_cases hi : mm.count = i
      · exact hi.trans (hval.mp ⟨io₁, h₁⟩ mm hmm hc hi)
      · exact (ih _ _).mp ⟨io', h₂⟩ mm hmm hc (by omega) (by omega)
    · intro h
      obtain ⟨io₁, h₁⟩ := hval.mpr fun mm hmm hc hi =>
        hi.symm.trans (h mm hmm hc hi.ge (by omega))
      obtain ⟨io', h₂⟩ := (ih (i + 1) io₁).mpr fun mm hmm hc hle hlt =>
        h mm hmm hc (by omega) (by omega)
      exact ⟨io', io₁, h₁, h₂⟩

theorem dumpArray_ok {m : Meter} (hm : m.Represented) {n i : Nat}
    (hi : i + n ≤ elemCount m.count) (io : Ioport) :
    ∃ io', dumpArray m n i io = .ok io' := by
  induction n generalizing i io with
  | zero => exact ⟨io, rfl⟩
  | succ n ih =>
    obtain ⟨io₁, h₁⟩ := (jsoncodecDumpVal_ok hm i io).mpr fun _ hi' => by
      unfold elemCount at hi
      split at hi <;> omega
    obtain ⟨io', h₂⟩ := ih (i := i + 1) (by omega)
      (if i + 1 < m.count then ioportWrite io₁ (asc ",") else io₁)
    exact ⟨io', by simp [dumpArray, h₁, h₂]⟩

theorem jsonMeter_ok {m : Meter} {rest : List Meter} (hm : ∀ mm ∈ m :: rest, mm.Represented)
    (pathmask : MeterId) (io : Ioport) :
    (∃ io', jsonMeter m rest pathmask io = .ok io') ↔
      (pathmask ≠ 0 → ∀ mm ∈ meterSiblings m rest, m.count < SZ_EMPTY_VAL →
        mm.count < SZ_EMPTY_VAL → mm.count = 0 ∨ m.count ≤ mm.count) := by
  have hr := hm m List.mem_cons_self
  have hle := hr.count_le
  have hsz : SZ_EMPTY_ARRAY = SZ_EMPTY_VAL + 1 := rfl
  unfold jsonMeter
  by_cases h₁ : m.count = SZ_EMPTY_VAL
  · simp only [if_pos h₁]
    exact iff_of_true ⟨_, rfl⟩ (fun _ _ _ h => by omega)
  by_cases h₂ : m.count = SZ_EMPTY_ARRAY
  · simp only [if_neg h₁, if_pos h₂]
    exact iff_of_true ⟨_, rfl⟩ (fun _ _ _ h => by omega)
  simp only [if_neg h₁, if_neg h₂]
  by_cases h₃ : pathmask ≠ 0
  · simp only [if_pos h₃, Outcome.bind_ok_iff, Outcome.pure_ok, Except.ok.injEq]
    rw [show (∀ _ : pathmask ≠ 0, _) ↔ _ from forall_prop_of_true h₃]
    rw [exists_comm]
    simp only [exists_and_left, exists_eq', and_true]
    rw [dumpPath_ok hm]
    have helem : ∀ c, c < 0 + elemCount m.count ↔ c = 0 ∨ c < m.count := by
      intro c
      unfold elemCount
      split <;> omega
    simp only [helem, List.forall_mem_cons]
    constructor
    · rintro ⟨-, h⟩ mm hmm hc hcm
      have := h mm hmm hcm
      omega
    · intro h
      refine ⟨fun _ _ hlt => by omega, fun mm hmm hcm _ hlt => ?_⟩
      have := h mm hmm (by omega) hcm
      omega
  · simp only [if_neg h₃, Outcome.bind_ok_iff, Outcome.pure_ok, Except.ok.injEq]
    obtain ⟨io', h⟩ := dumpArray_ok hr (n := elemCount m.count) (i := 0) (by omega) _
    exact iff_of_true ⟨_, io', h, rfl⟩ (fun h => absurd h h₃)

theorem jsonMeters_ok {ms : List Meter} (hms : ∀ m ∈ ms, m.Represented) (paths : List MeterId)
    (first : Bool) (io : Ioport) :
    (∃ r, jsonMeters ms paths first io = .ok r) ↔
      ∀ p ∈ pathLeaders ms paths, ∀ mm ∈ meterSiblings p.1 p.2, p.1.count < SZ_EMPTY_VAL →
        mm.count < SZ_EMPTY_VAL → mm.count = 0 ∨ p.1.count ≤ mm.count := by
  induction ms generalizing paths first io with
  | nil => exact iff_of_true ⟨_, rfl⟩ (by simp [pathLeaders])
  | cons m rest ih =>
    have ih := ih fun m hm => hms m (List.mem_cons_of_mem _ hm)
    have hmeter := jsonMeter_ok hms (idhaspath m.id)
    unfold jsonMeters pathLeaders
    by_cases h₁ : idhaspath m.id ≠ 0 ∧ m.id &&& idhaspath m.id ∈ paths
    · simp only [if_pos h₁]
      exact ih _ _ _
    by_cases h₂ : idhaspath m.id ≠ 0 ∧ 127 < paths.length
    · simp only [if_neg h₁, if_pos h₂]
      exact iff_of_true ⟨_, rfl⟩ (by simp)
    simp only [if_neg h₁, if_neg h₂, Outcome.bind_ok_iff]
    by_cases h₃ : idhaspath m.id ≠ 0
    · simp only [if_pos h₃, List.forall_mem_cons]
      constructor
      · rintro ⟨r, io₁, hm, hr⟩
        exact ⟨(hmeter _).mp ⟨io₁, hm⟩ h₃, (ih _ _ _).mp ⟨r, hr⟩⟩
      · rintro ⟨hm, hr⟩
        obtain ⟨io₁, hm⟩ := (hmeter _).mpr fun _ => hm
        obtain ⟨r, hr⟩ := (ih (paths ++ [m.id &&& idhaspath m.id]) false io₁).mpr hr
        exact ⟨r, io₁, hm, hr⟩
    · simp only [if_neg h₃]
      constructor
      · rintro ⟨r, io₁, -, hr⟩
        exact (ih _ _ _).mp ⟨r, hr⟩
      · intro hr
        obtain ⟨io₁, hm⟩ := (hmeter _).mpr fun h => absurd h h₃
        obtain ⟨r, hr⟩ := (ih paths false io₁).mpr hr
        exact ⟨r, io₁, hm, hr⟩

theorem jsoncodecEncodeHost_ok {h : Host} (hh : h.Represented) (io : Ioport) :
    (∃ r, jsoncodecEncodeHost io h = .ok r) ↔ JsonFits h := by
  rw [JsonFits, ← jsonMeters_ok hh [] true (ioportWrite io (asc "\x7b\n"))]
  simp [jsoncodecEncodeHost]

end Opticon
