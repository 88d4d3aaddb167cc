import Opticon.Collector.Names
import Opticon.Wire.Readable

/-! The blocks behind the meters of a host, as long as it lives. -/

namespace Opticon

variable {h h' : Host} {i : Nat}

section Rounds

variable {r : Round} {host : Host}

theorem setFracMeter_covered {val : Double} (hh : h.Covered) (hs : setFracMeter h i val = .ok h') :
    h'.Covered := by
  obtain ⟨h₁, hcount, hset⟩ := Outcome.bind_ok_iff.mp hs
  exact updateMeter_set_covered (updateMeter_setcount_covered hh hcount) hset

theorem setStringMeter_covered {id : MeterId} {text : List UInt8} (hh : h.Covered)
    (hs : setStringMeter h id text = .ok h') : h'.Covered := by
  obtain ⟨h₁, hcount, hset⟩ := Outcome.bind_ok_iff.mp hs
  exact updateMeter_set_covered (updateMeter_setcount_covered (hostGetMeter_covered hh id) hcount) hset

theorem pingMeters_covered (hh : h.Covered) (hp : pingMeters r h = .ok h') : h'.Covered := by
  unfold pingMeters at hp
  split at hp
  · cases hp
    exact hh
  · obtain ⟨ipstr, -, hp⟩ := Outcome.bind_ok_iff.mp hp
    split at hp
    · cases hp
      exact hh
    · obtain ⟨h₁, hrtt, hloss⟩ := Outcome.bind_ok_iff.mp hp
      have hboth := hostGetMeter_covered (hostGetMeter_covered hh midRtt) midLoss
      exact setFracMeter_covered (setFracMeter_covered hboth hrtt) hloss

theorem badnessRound_shapes {ms ms' : List Meter} {count count' : Nat} {sum sum' : ℚ}
    {trig trig' : Watchtrigger}
    (hb : badnessRound r ms count sum trig = .ok (ms', count', sum', trig')) :
    ms'.map Meter.shape = ms.map Meter.shape := by
  induction ms generalizing count sum trig ms' with
  | nil =>
    cases hb
    rfl
  | cons m ms ih =>
    obtain ⟨⟨badness, trig₁⟩, -, hb⟩ := Outcome.bind_ok_iff.mp hb
    obtain ⟨⟨ms₁, rest⟩, hrest, hb⟩ := Outcome.bind_ok_iff.mp hb
    cases hb
    rw [List.map_cons, List.map_cons, ih hrest]
    rfl

theorem fillProblems_covered {m_problems : Nat} {ms : List Meter} (hh : h.Covered)
    (hf : fillProblems m_problems ms i h = .ok h') : h'.Covered := by
  induction ms generalizing i h with
  | nil =>
    cases hf
    exact hh
  | cons m ms ih =>
    unfold fillProblems at hf
    split at hf
    · cases hf
      exact hh
    · split at hf
      · obtain ⟨h₁, hu, hf⟩ := Outcome.bind_ok_iff.mp hf
        exact ih (updateMeter_set_covered hh hu) hf
      · exact ih hh hf

theorem problemMeter_covered {problemcount : Nat} {totalbadness : ℚ} (hh : h.Covered)
    (hp : problemMeter problemcount totalbadness h = .ok h') : h'.Covered := by
  have hget := hostGetMeter_covered hh (makeid (asc "problems") MTYPE_STR)
  unfold problemMeter at hp
  generalize hostGetMeter h (makeid (asc "problems") MTYPE_STR) = g at hp hget
  obtain ⟨h₁, m_problems⟩ := g
  dsimp only at hp hget
  have hb (b : ℚ) : ({ h₁ with badness := b } : Host).Covered := hget
  split at hp
  · exact updateMeter_setcount_covered (hb _) hp
  · obtain ⟨h₂, hcount, hfill⟩ := Outcome.bind_ok_iff.mp hp
    refine fillProblems_covered ?_ hfill
    split at hcount
    · exact updateMeter_setcount_covered (hb _) hcount
    · exact updateMeter_setcount_covered hget hcount

theorem handleBadness_covered {empty : Bool} (hh : h.Covered) (hb : handleBadness r empty h = .ok h') :
    h'.Covered := by
  obtain ⟨⟨meters, problemcount, totalbadness, maxtrigger⟩, hpass, hb⟩ := Outcome.bind_ok_iff.mp hb
  obtain ⟨h₁, hp, hs⟩ := Outcome.bind_ok_iff.mp hb
  have hshapes : meters.map Meter.shape = h.meters.map Meter.shape := by
    unfold badnessPass at hpass
    split at hpass
    · cases hpass
      rfl
    · exact badnessRound_shapes hpass
  have hpassed : Host.Covered { h with
      meters := meters
      badness := h.badness + cappedBadness maxtrigger h.badness totalbadness } := hh.of_shapes hshapes
  exact setFracMeter_covered (hostGetMeter_covered (problemMeter_covered hpassed hp) midBadness) hs

theorem watchthreadHandleHost_covered {w : Watched} (hh : host.Covered)
    (hw : watchthreadHandleHost r host = .ok w) (hstays : w.host = some h') : h'.Covered := by
  obtain ⟨h₁, hping, hw⟩ := Outcome.bind_ok_iff.mp hw
  have hget := hostGetMeter_covered (pingMeters_covered hh hping) midStatus
  generalize hostGetMeter h₁ midStatus = g at hw hget
  obtain ⟨h₂, m_status⟩ := g
  obtain ⟨ostatus, -, hw⟩ := Outcome.bind_ok_iff.mp hw
  obtain ⟨h₃, hcount, hw⟩ := Outcome.bind_ok_iff.mp hw
  have hh₃ := updateMeter_setcount_covered hget hcount
  dsimp only at hw
  split at hw
  · obtain ⟨h₄, hset, hw⟩ := Outcome.bind_ok_iff.mp hw
    split at hw
    · cases hw
      cases hstays
    · cases hw
      cases hstays
      exact updateMeter_set_covered hh₃ hset
  · obtain ⟨h₄, hbad, hw⟩ := Outcome.bind_ok_iff.mp hw
    obtain ⟨h₅, hset, hw⟩ := Outcome.bind_ok_iff.mp hw
    cases hw
    cases hstays
    exact updateMeter_set_covered (handleBadness_covered hh₃ hbad) hset

end Rounds

theorem hostEndUpdate_covered (hh : h.Covered) (he : hostEndUpdate h = .ok h') : h'.Covered := by
  obtain ⟨status, -, he⟩ := Outcome.bind_ok_iff.mp he
  dsimp only at he
  split at he
  · cases he
    refine hh.of_shapes ?_
    rw [Host.shapes, Host.shapes, List.map_map]
    rfl
  · cases he
    exact fun m hm => hh m (List.mem_of_mem_filter hm)

/-- Whatever happens to a host, its meters have the blocks their counts speak of. -/
theorem lifetime_covered (hr : lifetime.Reachable h) : h.Covered := by
  apply hr.induction
  · intro h hinit m hm
    rw [hinit] at hm
    cases hm
  · intro h e h' hh hs
    cases e with
    | other host =>
      cases hs
      exact hh
    | decode io strbuf =>
      obtain ⟨⟨ok, s⟩, hdec, hs⟩ := Outcome.bind_ok_iff.mp hs
      cases hs
      exact pktcodecDecodeHost_covered hh hdec
    | endUpdate =>
      obtain ⟨h₁, hend, hs⟩ := Outcome.bind_ok_iff.mp hs
      cases hs
      exact hostEndUpdate_covered hh hend
    | address text =>
      obtain ⟨h₁, hset, hs⟩ := Outcome.bind_ok_iff.mp hs
      cases hs
      exact setStringMeter_covered hh hset
    | link =>
      cases hs
      exact hostGetMeter_covered (hostGetMeter_covered hh midRtt) midLoss
    | watch r =>
      obtain ⟨w, hw, hs⟩ := Outcome.bind_ok_iff.mp hs
      exact watchthreadHandleHost_covered hh hw (Except.ok.inj hs)

end Opticon
