import Opticon.Db.Record
import Opticon.Db.RecordLaws

/-! What the files of a host take, and what is deleted of them (`db_local.c`). -/

namespace Opticon

/-- A host's directory, and the dates of its record files in the order of the directory. -/
structure HostFiles where
  hostid : Uuid
  dir : HostDir
  dates : List Nat
  nodup : dates.Nodup
  mem_dates : ∀ dt, dt ∈ dates ↔ dir.db dt ≠ none

structure UsageInfo where
  bytes : Nat
  earliest : Nat
  last : Nat

namespace HostFiles

/-- A name of less than five characters is passed by, as a date of one digit has it. -/
def recorded (h : HostFiles) : List Nat := h.dates.filter (10 ≤ ·)

def fileSize (h : HostFiles) (dt : Nat) : Nat := ((h.dir.db dt).map List.length).getD 0

/-- An index file is opened, and made if there is none. -/
def openIndexfile (h : HostFiles) (dt : Nat) : List Nat × HostFiles :=
  let ixf := (localdbOpenIndexfile h.dir dt false).getD []
  (ixf, { h with dir := { h.dir with idx := Function.update h.dir.idx dt (some ixf) } })

end HostFiles

/-- The time of the last entry of an index file, if the seek to it does not fail. -/
def lastTime (ixf : List Nat) : Nat :=
  if 2 ≤ ixf.length then localdbRead64 ixf (ixf.length - 2) % 2 ^ 32 else 0

/-- `db_get_usage`, into an info that is all 0. -/
def localdbGetUsage (h : HostFiles) : UsageInfo × HostFiles :=
  match h.recorded with
  | [] => (⟨0, 0, 0⟩, h)
  | dt :: dts =>
    let szsum := (((dt :: dts).map h.fileSize).sum) % 2 ^ 64
    let (ixf, h) := h.openIndexfile (dts.foldl min dt)
    let t_earliest := localdbRead64 ixf 0 % 2 ^ 32
    let (ixf, h) := h.openIndexfile (dts.foldl max dt)
    let t_latest := lastTime ixf
    if t_earliest ≠ 0 ∧ t_latest ≠ 0 then (⟨szsum, t_earliest, t_latest⟩, h) else (⟨0, 0, 0⟩, h)

/-- `db_delete_host_date` -/
def localdbDeleteHostDate (h : HostFiles) (ti : Nat) : HostFiles where
  hostid := h.hostid
  dir := { h.dir with
    db := Function.update h.dir.db (time2date ti) none
    idx := Function.update h.dir.idx (time2date ti) none }
  dates := h.dates.erase (time2date ti)
  nodup := h.nodup.erase _
  mem_dates dt := by
    rw [h.nodup.mem_erase_iff, h.mem_dates]
    by_cases hdt : dt = time2date ti
    · simp [hdt]
    · simp [hdt]

/-- The first time in each index file is one of the file's date; of a time the low 32 bits are
read. -/
def HostFiles.Dated (h : HostFiles) : Prop :=
  ∀ dt w ws, h.dir.idx dt = some (w :: ws) → time2date (w % 2 ^ 32) = dt

variable {h : HostFiles} {dt : Nat}

theorem time2date_mono {t t' : Nat} (ht : t ≤ t') : time2date t ≤ time2date t' := by
  obtain ⟨-, hm, hd⟩ := Calendar.ofDays_spec (t / 86400)
  obtain ⟨-, hm', hd'⟩ := Calendar.ofDays_spec (t' / 86400)
  have hmono := Calendar.ofDays_mono (Nat.div_le_div_right ht : t / 86400 ≤ t' / 86400)
  simp only [time2date]
  omega

theorem mem_recorded : dt ∈ h.recorded ↔ dt ∈ h.dates ∧ 10 ≤ dt := by
  simp [HostFiles.recorded]

/-- Looking at the usage of a host may make index files, which are empty. -/
structure HostFiles.Looked (h h' : HostFiles) : Prop where
  hostid : h'.hostid = h.hostid
  db : h'.dir.db = h.dir.db
  dates : h'.dates = h.dates
  idx : ∀ dt, h'.dir.idx dt = h.dir.idx dt ∨ h'.dir.idx dt = some []

theorem HostFiles.Looked.dated {h h' : HostFiles} (hl : h.Looked h') (hd : h.Dated) : h'.Dated := by
  intro dt w ws hidx
  obtain hsame | hempty := hl.idx dt
  · exact hd dt w ws (hsame ▸ hidx)
  · rw [hempty] at hidx
    cases hidx

theorem HostFiles.looked_openIndexfile (h : HostFiles) (dt : Nat) :
    h.Looked (h.openIndexfile dt).2 := by
  refine ⟨rfl, rfl, rfl, fun dt' => ?_⟩
  by_cases hdt : dt' = dt
  · subst hdt
    simp only [openIndexfile, Function.update_self, localdbOpenIndexfile, openFile]
    cases h.dir.idx dt' <;> simp
  · exact .inl (Function.update_of_ne hdt _ _)

theorem HostFiles.Looked.trans {h h₁ h' : HostFiles} (hl : h.Looked h₁) (hl' : h₁.Looked h') :
    h.Looked h' := by
  refine ⟨hl'.hostid.trans hl.hostid, hl'.db.trans hl.db, hl'.dates.trans hl.dates, fun dt => ?_⟩
  obtain hsame | hempty := hl'.idx dt
  · rw [hsame]
    exact hl.idx dt
  · exact .inr hempty

theorem localdbGetUsage_looked (h : HostFiles) : h.Looked (localdbGetUsage h).2 := by
  unfold localdbGetUsage
  split
  · exact ⟨rfl, rfl, rfl, fun _ => .inl rfl⟩
  · rename_i dt dts _
    have hl := (h.looked_openIndexfile (dts.foldl min dt)).trans
      (HostFiles.looked_openIndexfile _ (dts.foldl max dt))
    dsimp only
    split <;> exact hl

theorem foldl_min_spec (dts : List Nat) (dt : Nat) :
    dts.foldl min dt ∈ dt :: dts ∧ ∀ d ∈ dt :: dts, dts.foldl min dt ≤ d := by
  induction dts generalizing dt with
  | nil => simp
  | cons d dts ih =>
    obtain ⟨hmem, hle⟩ := ih (min dt d)
    rw [List.foldl_cons]
    constructor
    · obtain heq | hmem := List.mem_cons.mp hmem
      · rw [heq]
        obtain hmin | hmin := min_choice dt d <;> simp [hmin]
      · simp [hmem]
    · have hmin := hle (min dt d) List.mem_cons_self
      intro d' hd'
      obtain rfl | hd' := List.mem_cons.mp hd'
      · exact hmin.trans (min_le_left _ _)
      · obtain rfl | hd' := List.mem_cons.mp hd'
        · exact hmin.trans (min_le_right _ _)
        · exact hle d' (List.mem_cons_of_mem _ hd')

/-- The earliest time of a host is of its oldest date. -/
theorem localdbGetUsage_earliest (hd : h.Dated) (he : (localdbGetUsage h).1.earliest ≠ 0) :
    time2date (localdbGetUsage h).1.earliest ∈ h.dates ∧
      ∀ dt ∈ h.recorded, time2date (localdbGetUsage h).1.earliest ≤ dt := by
  unfold localdbGetUsage at he ⊢
  split at he
  · exact absurd rfl he
  · rename_i dt dts hrec
    obtain ⟨hmem, hle⟩ := foldl_min_spec dts dt
    rw [← hrec] at hmem hle
    dsimp only at he ⊢
    split at he
    on_goal 2 => exact absurd rfl he
    rename_i hread
    rw [if_pos hread]
    have hfirst : time2date (localdbRead64 (h.openIndexfile (dts.foldl min dt)).1 0 % 2 ^ 32) =
        dts.foldl min dt := by
      have hread := hread.1
      simp only [HostFiles.openIndexfile, localdbOpenIndexfile, openFile] at hread ⊢
      cases hidx : h.dir.idx (dts.foldl min dt) with
      | none => simp [hidx, localdbRead64] at hread
      | some ixf =>
        cases ixf with
        | nil => simp [hidx, localdbRead64] at hread
        | cons w ws => exact hd _ w ws hidx
    rw [hfirst]
    exact ⟨(mem_recorded.mp hmem).1, hle⟩

theorem HostFiles.Dated.delete (hd : h.Dated) (ti : Nat) : (localdbDeleteHostDate h ti).Dated := by
  intro dt w ws hidx
  by_cases hdt : dt = time2date ti
  · subst hdt
    simp [localdbDeleteHostDate] at hidx
  · exact hd dt w ws ((Function.update_of_ne hdt _ _).symm.trans hidx)

end Opticon
