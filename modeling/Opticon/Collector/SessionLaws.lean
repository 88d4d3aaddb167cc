import Opticon.Collector.Session

/-! What a lookup in the session table finds. -/

namespace Opticon

namespace Sessiondb

variable {db : Sessiondb} {addr sessid : BitVec 32} {s : Session}

/-- The session is in the table and has not expired. -/
def Live (db : Sessiondb) (s : Session) : Prop := ∃ i, s ∈ db i ∧ s.expired = false

/-- Every session is in the bucket it hashes to, and no two sessions that have not expired
share their address and session id. -/
structure Formed (db : Sessiondb) : Prop where
  placed : ∀ i, ∀ s ∈ db i, sessionBucket s.addr s.sessid = i
  distinct : ∀ i, (db i).Pairwise fun s s' =>
    s.expired = false → s'.expired = false → ¬ (s.addr = s'.addr ∧ s.sessid = s'.sessid)

theorem matches_iff :
    s.matches addr sessid = true ↔ s.addr = addr ∧ s.sessid = sessid ∧ s.expired = false := by
  simp [Session.matches, and_assoc]

theorem find_matches (h : sessionFind db addr sessid = some s) :
    s.addr = addr ∧ s.sessid = sessid ∧ s.expired = false :=
  matches_iff.mp (List.find?_some h)

theorem find_mem (h : sessionFind db addr sessid = some s) :
    s ∈ db (sessionBucket addr sessid) :=
  List.mem_of_find?_eq_some h

theorem find_live (h : sessionFind db addr sessid = some s) : db.Live s :=
  ⟨_, find_mem h, (find_matches h).2.2⟩

/-- The one session of a list that meets `p` is the one a search finds. -/
theorem find?_of_unique {p : Session → Bool} {l : List Session} (hmem : s ∈ l) (hs : p s)
    (hl : l.Pairwise fun a b => ¬ (p a ∧ p b)) : l.find? p = some s := by
  induction l with
  | nil => cases hmem
  | cons a l ih =>
    obtain ⟨ha, hl⟩ := List.pairwise_cons.mp hl
    obtain rfl | hmem := List.mem_cons.mp hmem
    · simp [hs]
    · have hpa : p a = false := by
        have := ha s hmem
        simpa [hs] using this
      simp [hpa, ih hmem hl]

theorem Formed.find_eq_some_iff (hdb : db.Formed) :
    sessionFind db addr sessid = some s ↔ db.Live s ∧ s.addr = addr ∧ s.sessid = sessid := by
  constructor
  · intro h
    exact ⟨find_live h, (find_matches h).1, (find_matches h).2.1⟩
  · intro h
    obtain ⟨⟨i, hmem, hexp⟩, rfl, rfl⟩ := h
    obtain rfl := hdb.placed i s hmem
    apply find?_of_unique hmem (matches_iff.mpr ⟨rfl, rfl, hexp⟩)
    refine (hdb.distinct _).imp ?_
    intro a b hab hboth
    obtain ⟨ha, hb⟩ := hboth
    obtain ⟨ha₁, ha₂, ha₃⟩ := matches_iff.mp ha
    obtain ⟨hb₁, hb₂, hb₃⟩ := matches_iff.mp hb
    exact hab ha₃ hb₃ ⟨ha₁.trans hb₁.symm, ha₂.trans hb₂.symm⟩

theorem Formed.empty : Formed .empty := by
  constructor
  · intro i s hs
    exact absurd hs List.not_mem_nil
  · intro i
    exact List.Pairwise.nil

section Modify

variable {f : Session → Session}

/-- What a session keeps when it is written to: its place in the table. -/
def Keeps (f : Session → Session) : Prop :=
  ∀ s, (f s).addr = s.addr ∧ (f s).sessid = s.sessid ∧ (f s).expired = s.expired

theorem find_modify (hf : Keeps f) (a i : BitVec 32) :
    sessionFind (db.modify addr sessid f) a i =
      if a = addr ∧ i = sessid then (sessionFind db addr sessid).map f
      else sessionFind db a i := by
  have hkeep {addr sessid : BitVec 32} (s : Session) :
      (f s).matches addr sessid = s.matches addr sessid := by
    simp only [Session.matches, hf s]
  split
  · rename_i h
    obtain ⟨rfl, rfl⟩ := h
    rw [sessionFind, modify, Function.update_self]
    apply find?_updateFirst
    intro s hs
    rw [hkeep, hs]
  · rename_i hne
    unfold sessionFind modify
    by_cases hb : sessionBucket a i = sessionBucket addr sessid
    · rw [hb, Function.update_self]
      generalize db (sessionBucket addr sessid) = l
      induction l with
      | nil => rfl
      | cons s l ih =>
        simp only [updateFirst]
        split
        · rename_i hs
          have hno : s.matches a i = false := by
            obtain ⟨ha, hi, -⟩ := matches_iff.mp hs
            apply Bool.eq_false_iff.mpr
            intro hs'
            obtain ⟨ha', hi', -⟩ := matches_iff.mp hs'
            exact hne ⟨ha'.symm.trans ha, hi'.symm.trans hi⟩
          simp [hkeep, hno]
        · simp only [List.find?_cons, ih]
    · rw [Function.update_of_ne hb]

theorem mem_modify {i : BitVec 8} (h : s ∈ db.modify addr sessid f i) :
    s ∈ db i ∨ ∃ s₀, sessionFind db addr sessid = some s₀ ∧ s = f s₀ := by
  unfold modify at h
  by_cases hi : i = sessionBucket addr sessid
  · subst hi
    rw [Function.update_self] at h
    exact mem_updateFirst h
  · rw [Function.update_of_ne hi] at h
    exact .inl h

theorem Formed.modify (hdb : db.Formed) (addr : BitVec 32) (sessid : BitVec 32) (hf : Keeps f) :
    (db.modify addr sessid f).Formed := by
  let place (s : Session) := (s.addr, s.sessid, s.expired)
  have hplace : ∀ s, place (f s) = place s := by
    intro s
    obtain ⟨h₁, h₂, h₃⟩ := hf s
    simp only [place, h₁, h₂, h₃]
  have hmap : ∀ i, (db.modify addr sessid f i).map place = (db i).map place := by
    intro i
    unfold Sessiondb.modify
    by_cases hi : i = sessionBucket addr sessid
    · subst hi
      rw [Function.update_self, map_updateFirst hplace]
    · rw [Function.update_of_ne hi]
  constructor
  · intro i s hs
    obtain ⟨s₀, hs₀, heq⟩ := List.mem_map.mp (hmap i ▸ List.mem_map_of_mem (f := place) hs)
    obtain ⟨h₁, h₂, -⟩ : s₀.addr = s.addr ∧ s₀.sessid = s.sessid ∧ s₀.expired = s.expired := by
      simpa [place] using heq
    rw [← h₁, ← h₂]
    exact hdb.placed i s₀ hs₀
  · intro i
    let R (p q : BitVec 32 × BitVec 32 × Bool) : Prop :=
      p.2.2 = false → q.2.2 = false → ¬ (p.1 = q.1 ∧ p.2.1 = q.2.1)
    have hR : ((db i).map place).Pairwise R := List.pairwise_map.mpr (hdb.distinct i)
    rw [← hmap i] at hR
    exact List.pairwise_map.mp hR

end Modify

theorem mem_link {new : Session} {i : BitVec 8} :
    s ∈ sessionLink db new i ↔ (s = new ∧ i = sessionBucket new.addr new.sessid) ∨ s ∈ db i := by
  unfold sessionLink
  by_cases hi : i = sessionBucket new.addr new.sessid
  · subst hi
    rw [Function.update_self]
    simp
  · rw [Function.update_of_ne hi]
    simp [hi]

/-- A session may be linked in if no lookup finds another one in its place. -/
theorem Formed.link (hdb : db.Formed) (new : Session)
    (hnew : sessionFind db new.addr new.sessid = none) : (sessionLink db new).Formed := by
  constructor
  · intro i s hs
    obtain ⟨rfl, rfl⟩ | hs := mem_link.mp hs
    · rfl
    · exact hdb.placed i s hs
  · intro i
    unfold sessionLink
    by_cases hi : i = sessionBucket new.addr new.sessid
    · subst hi
      rw [Function.update_self]
      refine List.pairwise_cons.mpr ⟨?_, hdb.distinct _⟩
      intro s hs hexp hexp' hsame
      have hno := List.find?_eq_none.mp hnew s hs
      exact hno (matches_iff.mpr ⟨hsame.1.symm, hsame.2.symm, hexp'⟩)
    · rw [Function.update_of_ne hi]
      exact hdb.distinct i

theorem live_link {new : Session} (h : (sessionLink db new).Live s) : s = new ∨ db.Live s := by
  obtain ⟨i, hmem, hexp⟩ := h
  obtain ⟨rfl, -⟩ | hmem := mem_link.mp hmem
  · exact .inl rfl
  · exact .inr ⟨i, hmem, hexp⟩

theorem mem_expire {cutoff : Nat} {i : BitVec 8} :
    s ∈ sessionExpire db cutoff i ↔ s ∈ db i ∧ s.expired = false ∧ cutoff ≤ s.lastcycle := by
  simp [sessionExpire]

theorem Formed.expire (hdb : db.Formed) (cutoff : Nat) : (sessionExpire db cutoff).Formed :=
  ⟨fun i s hs => hdb.placed i s (mem_expire.mp hs).1, fun i => (hdb.distinct i).filter _⟩

theorem live_expire {cutoff : Nat} :
    Live (sessionExpire db cutoff) s ↔ db.Live s ∧ cutoff ≤ s.lastcycle := by
  constructor
  · intro h
    obtain ⟨i, hmem, hexp⟩ := h
    exact ⟨⟨i, (mem_expire.mp hmem).1, hexp⟩, (mem_expire.mp hmem).2.2⟩
  · intro h
    obtain ⟨⟨i, hmem, hexp⟩, hcut⟩ := h
    exact ⟨i, mem_expire.mpr ⟨hmem, hexp, hcut⟩, hexp⟩

/-- What is found after an expiry was there before. -/
theorem Formed.find_expire (hdb : db.Formed) {cutoff : Nat}
    (h : sessionFind (sessionExpire db cutoff) addr sessid = some s) :
    sessionFind db addr sessid = some s := by
  obtain ⟨hlive, haddr, hsid⟩ := (hdb.expire cutoff).find_eq_some_iff.mp h
  exact hdb.find_eq_some_iff.mpr ⟨(live_expire.mp hlive).1, haddr, hsid⟩

theorem Formed.removeTenant (hdb : db.Formed) (tenantid : Uuid) :
    (sessiondbRemoveTenant db tenantid).Formed := by
  constructor
  · intro i s hs
    obtain ⟨s₀, hs₀, rfl⟩ := List.mem_map.mp hs
    have := hdb.placed i s₀ hs₀
    split <;> exact this
  · intro i
    refine List.pairwise_map.mpr ((hdb.distinct i).imp ?_)
    intro a b hab
    split <;> split <;> simp_all

theorem live_removeTenant {tenantid : Uuid} :
    Live (sessiondbRemoveTenant db tenantid) s ↔ db.Live s ∧ s.tenantid ≠ tenantid := by
  constructor
  · intro h
    obtain ⟨i, hmem, hexp⟩ := h
    obtain ⟨s₀, hs₀, rfl⟩ := List.mem_map.mp hmem
    by_cases ht : s₀.tenantid = tenantid
    · simp [ht] at hexp
    · simp only [if_neg ht] at hexp ⊢
      exact ⟨⟨i, hs₀, hexp⟩, ht⟩
  · intro h
    obtain ⟨⟨i, hmem, hexp⟩, ht⟩ := h
    exact ⟨i, List.mem_map.mpr ⟨s, hmem, by simp [ht]⟩, hexp⟩

end Sessiondb

end Opticon
