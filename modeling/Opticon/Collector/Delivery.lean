import Opticon.Collector.Liveness
import Opticon.Wire.PktwrapLaws

/-! From an auth packet that is accepted to the values that are sent under its session. -/

namespace Opticon

open Collector

variable {lib : Library} {c c' : Collector} {netid sid : BitVec 32} {S : Session} {t : Nat}

/-- A step that has nothing to do with a session which was used at `t`, and comes before it is
too old. -/
def LeavesSession (netid sid : BitVec 32) (t : Nat) (c : Collector) : Event → Prop
  | .packet p => p.tnow ≤ t + 905 ∧
    ∀ a, acceptedAuth p c = .ok (some a) → ¬ (netid = p.netid ∧ sid = a.sessionid)
  | .register _ _ addrpart sess_id _ _ _ => ¬ (netid = addrpart ∧ sid = sess_id)
  | .expire cutoff => cutoff ≤ t
  | .deleteTenant tenantid _ _ => ∀ S, sessionFind c.sessions netid sid = some S → S.tenantid ≠ tenantid
  | .watch _ _ => True

namespace Sessiondb

variable {db : Sessiondb}

theorem Formed.find_unexpired (hdb : db.Formed) (h : sessionFind db netid sid = some S) {cutoff : Nat}
    (hcut : cutoff ≤ S.lastcycle) : sessionFind (sessionExpire db cutoff) netid sid = some S := by
  obtain ⟨haddr, hsid, -⟩ := find_matches h
  exact (hdb.expire cutoff).find_eq_some_iff.mpr
    ⟨live_expire.mpr ⟨find_live h, hcut⟩, haddr, hsid⟩

theorem Formed.find_linked (hdb : db.Formed) {new : Session}
    (hnew : sessionFind db new.addr new.sessid = none) (h : sessionFind db netid sid = some S) :
    sessionFind (sessionLink db new) netid sid = some S := by
  obtain ⟨haddr, hsid, hexp⟩ := find_matches h
  obtain ⟨i, hmem, -⟩ := find_live h
  exact (hdb.link new hnew).find_eq_some_iff.mpr
    ⟨⟨i, mem_link.mpr (.inr hmem), hexp⟩, haddr, hsid⟩

end Sessiondb

/-- A step that leaves a session alone leaves it as it is. -/
theorem LeavesSession.keeps (hc : Anchored c) (hS : sessionFind c.sessions netid sid = some S)
    {e : Event} (he : LeavesSession netid sid S.lastcycle c e) (h : e.apply lib c = .ok c') :
    sessionFind c'.sessions netid sid = some S := by
  cases e with
  | packet p =>
    obtain ⟨htime, hother⟩ := he
    obtain ⟨-, auth, hacc, ⟨-, hsess⟩ | ⟨a, rfl, hcases⟩⟩ := handlePacket_cases hc.arranged h
    · rw [hsess]
      exact hS
    · have hne := hother a hacc
      have hcut : p.tnow - 905 ≤ S.lastcycle := by omega
      obtain ⟨S', hS', -, hsess⟩ | ⟨hnone, addr, -, hsess⟩ := hcases
      · rw [hsess]
        apply (hc.formed.modify _ _ (renewed_keeps p a)).find_unexpired _ hcut
        rwa [Sessiondb.find_modify (renewed_keeps p a), if_neg hne]
      · rw [hsess]
        have hlinked := @Sessiondb.Formed.find_linked netid sid S _ hc.formed (registered p a addr)
          hnone hS
        exact (hc.formed.link (registered p a addr) hnone).find_unexpired hlinked hcut
  | register tenantid hostid addrpart sess_id sess_key ss tnow =>
    cases h
    obtain ⟨-, hsess, -, -⟩ := hostFind_spec hc.arranged tenantid hostid
    unfold sessionRegister
    generalize hostFind c tenantid hostid = r at hsess
    obtain ⟨addr, c₁⟩ := r
    have hformed := hsess ▸ hc.formed
    rw [← hsess] at hS
    dsimp only at hsess hformed hS ⊢
    split
    · rename_i s hs
      let renew (s : Session) : Session := { s with lastcycle := tnow, key := sess_key, remote := ss }
      have hrenew : Sessiondb.Keeps renew := fun s => ⟨rfl, rfl, rfl⟩
      exact (Sessiondb.find_modify hrenew netid sid).trans ((if_neg he).trans hS)
    · rename_i hnone
      exact hformed.find_linked hnone hS
  | expire cutoff =>
    cases h
    exact hc.formed.find_unexpired hS he
  | deleteTenant tenantid prevLock nextLock =>
    cases h
    obtain heq | heq := tenantDelete_cases c tenantid prevLock nextLock
    · rw [heq]
      exact hS
    · rw [heq]
      obtain ⟨haddr, hsid, -⟩ := Sessiondb.find_matches hS
      exact (hc.formed.removeTenant tenantid).find_eq_some_iff.mpr
        ⟨Sessiondb.live_removeTenant.mpr ⟨Sessiondb.find_live hS, he S hS⟩, haddr, hsid⟩
  | watch r addr =>
    obtain ⟨host, hd, ⟨-, rfl⟩ | ⟨-, host', -, rfl⟩⟩ := watchHost_cases h
    · exact hS
    · exact hS

/-- Nothing that happens between two states reaps the host of a session, or has to do with the
session. -/
def Elsewhere (netid sid : BitVec 32) (t : Nat) (c : Collector) (e : Event) : Prop :=
  SparesSessions c e ∧ LeavesSession netid sid t c e

theorem Elsewhere.run (hc : Anchored c) (hS : sessionFind c.sessions netid sid = some S)
    {es : List Event} (h : ((collecting lib).guard (Elsewhere netid sid S.lastcycle)).Run c es c') :
    Anchored c' ∧ sessionFind c'.sessions netid sid = some S := by
  induction h with
  | nil => exact ⟨hc, hS⟩
  | snoc _ hstep ih =>
    obtain ⟨hc', hS'⟩ := ih
    exact ⟨hc'.step hstep.2 hstep.1.1, hstep.1.2.keeps hc' hS' hstep.2⟩

end Opticon
