import Opticon.Collector.Watcher
import Opticon.Wire.Frame

/-! What a watcher round keeps of a host, and when it removes one. -/

namespace Opticon

variable {r : Round} {h h' host : Host}

theorem setFracMeter_head {i : Nat} {val : Double} (hs : setFracMeter h i val = .ok h') :
    h'.head = h.head := by
  obtain ⟨h₁, hu₁, hu₂⟩ := Outcome.bind_ok_iff.mp hs
  exact (updateMeter_head hu₂).trans (updateMeter_head hu₁)

theorem pingMeters_head (hp : pingMeters r h = .ok h') : h'.head = h.head := by
  unfold pingMeters at hp
  split at hp
  · cases hp
    rfl
  · obtain ⟨ipstr, -, hp⟩ := Outcome.bind_ok_iff.mp hp
    split at hp
    · cases hp
      rfl
    · obtain ⟨h₁, hrtt, hloss⟩ := Outcome.bind_ok_iff.mp hp
      calc h'.head = h₁.head := setFracMeter_head hloss
        _ = (hostGetMeter (hostGetMeter h _).1 _).1.head := setFracMeter_head hrtt
        _ = h.head := by rw [hostGetMeter_head, hostGetMeter_head]

theorem fillProblems_head {m_problems i : Nat} {ms : List Meter}
    (hf : fillProblems m_problems ms i h = .ok h') : h'.head = h.head := by
  induction ms generalizing i h with
  | nil =>
    cases hf
    rfl
  | cons m ms ih =>
    unfold fillProblems at hf
    split at hf
    · cases hf
      rfl
    · split at hf
      · obtain ⟨h₁, hu, hf⟩ := Outcome.bind_ok_iff.mp hf
        exact (ih hf).trans (updateMeter_head hu)
      · exact ih hf

theorem uuid_of_head (hh : h'.head = h.head) : h'.uuid = h.uuid :=
  congrArg (fun h => h.uuid) hh

theorem problemMeter_uuid {problemcount : Nat} {totalbadness : ℚ}
    (hp : problemMeter problemcount totalbadness h = .ok h') : h'.uuid = h.uuid := by
  have hget := uuid_of_head (hostGetMeter_head h (makeid (asc "problems") MTYPE_STR))
  unfold problemMeter at hp
  generalize hostGetMeter h (makeid (asc "problems") MTYPE_STR) = g at hp hget
  obtain ⟨h₁, m_problems⟩ := g
  simp only at hp hget
  split at hp
  · exact (uuid_of_head (updateMeter_head hp)).trans hget
  · obtain ⟨h₂, hu, hf⟩ := Outcome.bind_ok_iff.mp hp
    have hstart := uuid_of_head (updateMeter_head hu)
    refine (uuid_of_head (fillProblems_head hf)).trans (hstart.trans ?_)
    split <;> exact hget

theorem handleBadness_uuid {empty : Bool} (hb : handleBadness r empty h = .ok h') :
    h'.uuid = h.uuid := by
  obtain ⟨⟨meters, problemcount, totalbadness, maxtrigger⟩, -, hb⟩ := Outcome.bind_ok_iff.mp hb
  obtain ⟨h₁, hp, hs⟩ := Outcome.bind_ok_iff.mp hb
  have hget := uuid_of_head (hostGetMeter_head h₁ (makeid (asc "badness") MTYPE_FRAC))
  have hproblem := problemMeter_uuid hp
  exact (uuid_of_head (setFracMeter_head hs)).trans (hget.trans hproblem)

/-- A host without recent data that the database no longer knows. -/
def Reaped (r : Round) (h : Host) : Prop :=
  80 < r.tnow - h.lastmodified ∧ r.dbOpen = true ∧ r.hostExists = false

instance : Decidable (Reaped r h) := by
  unfold Reaped
  infer_instance

/-- A round removes the hosts that are to be reaped, and a host that stays keeps its id. -/
theorem watchthreadHandleHost_host {w : Watched} (hw : watchthreadHandleHost r host = .ok w) :
    (Reaped r host ∧ w.host = none) ∨ (¬ Reaped r host ∧ ∃ h, w.host = some h ∧ h.uuid = host.uuid) := by
  obtain ⟨h₁, hping, hw⟩ := Outcome.bind_ok_iff.mp hw
  have hhead := (hostGetMeter_head h₁ midStatus).trans (pingMeters_head hping)
  generalize hostGetMeter h₁ midStatus = g at hw hhead
  obtain ⟨h₂, m_status⟩ := g
  obtain ⟨ostatus, -, hw⟩ := Outcome.bind_ok_iff.mp hw
  obtain ⟨h₃, hcount, hw⟩ := Outcome.bind_ok_iff.mp hw
  have hhead := (updateMeter_head hcount).trans hhead
  have hlast : h₃.lastmodified = host.lastmodified := congrArg (fun h => h.lastmodified) hhead
  simp only [hlast] at hw
  split at hw
  · rename_i hstale
    obtain ⟨h₄, hset, hw⟩ := Outcome.bind_ok_iff.mp hw
    split at hw
    · rename_i hgone
      cases hw
      exact .inl ⟨⟨hstale, hgone.1, by simpa using hgone.2⟩, rfl⟩
    · rename_i hstays
      cases hw
      refine .inr ⟨?_, h₄, rfl, uuid_of_head ((updateMeter_head hset).trans hhead)⟩
      rintro ⟨-, hopen, hno⟩
      exact hstays ⟨hopen, by simp [hno]⟩
  · rename_i hfresh
    obtain ⟨h₄, hbad, hw⟩ := Outcome.bind_ok_iff.mp hw
    obtain ⟨h₅, hset, hw⟩ := Outcome.bind_ok_iff.mp hw
    cases hw
    have huuid := (handleBadness_uuid hbad).trans (uuid_of_head hhead)
    exact .inr ⟨fun hreap => hfresh hreap.1, h₅, rfl,
      (uuid_of_head (updateMeter_head hset)).trans huuid⟩

end Opticon
