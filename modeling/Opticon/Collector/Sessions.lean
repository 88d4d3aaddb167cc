import Mathlib.Data.List.Pairwise
import Opticon.Lib.Transition
import Opticon.Collector.SessionLaws
import Opticon.Collector.SessiontableLaws

/-! What is in the session table over any run of its operations. -/

namespace Opticon

open Linked Sessiontable

inductive TableOp where
  | register (tenantid hostid : Uuid) (h : Option Nat) (addrpart sess_id : BitVec 32)
      (sess_key : AesKey) (ss : Sockaddr) (tnow : Nat)
  | link (val : Session)
  | removeTenant (tenantid : Uuid)
  | expire (cutoff : Nat)

/-- A table, and which sessions were made by `session_register`. -/
structure Tabled where
  table : Sessiontable
  registered : List Nat

/-- Operations on an initialised table. What is linked is a session that was just allocated. -/
def tabling : Transition Tabled TableOp where
  init s := s = ⟨sessiondbInit, []⟩
  step s op s' :=
    match op with
    | .register tenantid hostid h addrpart sess_id sess_key ss tnow =>
      ∃ r, s.table.sessionRegister tenantid hostid h addrpart sess_id sess_key ss tnow =
          .ok (r, s'.table) ∧
        s'.registered =
          if s'.table.next = s.table.next then s.registered else s.table.next :: s.registered
    | .link val =>
      (s.table.sessionAlloc val).2.sessionLink (s.table.sessionAlloc val).1 = .ok s'.table ∧
        s'.registered = s.registered
    | .removeTenant tenantid =>
      s.table.sessiondbRemoveTenant tenantid = .ok s'.table ∧ s'.registered = s.registered
    | .expire cutoff => s.table.sessionExpire cutoff = .ok s'.table ∧ s'.registered = s.registered

/-- The session has not expired and is for this address and session id. -/
def Holds (L : BitVec 8 → List (Nat × Session)) (addr sessid : BitVec 32) (x : Nat × Session) : Prop :=
  x ∈ L (sessionBucket addr sessid) ∧ x.2.matches addr sessid = true

/-- Behind a session that was registered there is none like it that has not expired. -/
def Behind (registered : List Nat) (x y : Nat × Session) : Prop :=
  x.1 ∈ registered → x.2.expired = false → y.2.expired = false →
    ¬ (x.2.addr = y.2.addr ∧ x.2.sessid = y.2.sessid)

structure Tabled.Formed (s : Tabled) (L : BitVec 8 → List (Nat × Session)) : Prop where
  lists : s.table.Lists L
  behind : ∀ i, (L i).Pairwise (Behind s.registered)
  old : ∀ a ∈ s.registered, a < s.table.next

variable {s s' : Tabled} {L : BitVec 8 → List (Nat × Session)} {i : BitVec 8}
  {l l₁ l₂ : List (Nat × Session)} {registered : List Nat} {x y : Nat × Session}

/-- Sessions may go, change what does not tell them apart, and expire. -/
theorem behind_map {g : Nat × Session → Nat × Session}
    (hg : ∀ x, (g x).1 = x.1 ∧ (g x).2.addr = x.2.addr ∧ (g x).2.sessid = x.2.sessid ∧
      ((g x).2.expired = false → x.2.expired = false))
    (hl : l.Pairwise (Behind registered)) : (l.map g).Pairwise (Behind registered) := by
  refine List.pairwise_map.mpr (hl.imp ?_)
  intro x y hxy hx hxe hye hsame
  obtain ⟨hx₁, hx₂, hx₃, hx₄⟩ := hg x
  obtain ⟨-, hy₂, hy₃, hy₄⟩ := hg y
  rw [hx₁] at hx
  rw [hx₂, hx₃, hy₂, hy₃] at hsame
  exact hxy hx (hx₄ hxe) (hy₄ hye) hsame

theorem behind_renew {sess_key : AesKey} {ss : Sockaddr} {tnow a : Nat} {v : Session}
    (hl : (l₁ ++ (a, v) :: l₂).Pairwise (Behind registered)) :
    (l₁ ++ (a, renewedBy sess_key ss tnow v) :: l₂).Pairwise (Behind registered) := by
  obtain ⟨h₁, h₂, h₃⟩ := List.pairwise_append.mp hl
  obtain ⟨h₄, h₅⟩ := List.pairwise_cons.mp h₂
  refine List.pairwise_append.mpr ⟨h₁, List.pairwise_cons.mpr ⟨h₄, h₅⟩, ?_⟩
  intro x hx y hy
  obtain rfl | hy := List.mem_cons.mp hy
  · exact h₃ x hx (a, v) List.mem_cons_self
  · exact h₃ x hx y (List.mem_cons_of_mem _ hy)

/-- A new session at the top, which is registered only if there is none like it. -/
theorem Tabled.Formed.cons (h : s.Formed L) (v : Session) (reg : List Nat)
    (hreg : ∀ a ∈ reg, a ∈ s.registered ∨ (a = s.table.next ∧
      ∀ x ∈ L (sessionBucket v.addr v.sessid), x.2.matches v.addr v.sessid = false)) :
    ∀ i, (Function.update L (sessionBucket v.addr v.sessid)
      ((s.table.next, v) :: L (sessionBucket v.addr v.sessid)) i).Pairwise (Behind reg) := by
  have hkeep : ∀ i, (L i).Pairwise (Behind reg) := by
    intro i
    refine List.Pairwise.imp_of_mem ?_ (h.behind i)
    intro x y hx _ hxy hxr
    have hlt := h.lists.lt_next (List.mem_map_of_mem hx)
    obtain hxr | ⟨hxn, -⟩ := hreg x.1 hxr
    · exact hxy hxr
    · exact absurd hxn (Nat.ne_of_lt hlt)
  intro i
  by_cases hi : i = sessionBucket v.addr v.sessid
  · subst hi
    rw [Function.update_self]
    refine List.pairwise_cons.mpr ⟨?_, hkeep _⟩
    intro y hy hnew _ hye hsame
    obtain hnew | ⟨-, hno⟩ := hreg _ hnew
    · exact absurd (h.old _ hnew) (Nat.lt_irrefl _)
    · have hmatch : y.2.matches v.addr v.sessid = true :=
        Sessiondb.matches_iff.mpr ⟨hsame.1.symm, hsame.2.symm, hye⟩
      rw [hno y hy] at hmatch
      cases hmatch
  · rw [Function.update_of_ne hi]
    exact hkeep i

theorem register_step {tenantid hostid : Uuid} {host : Option Nat} {addrpart sess_id : BitVec 32}
    {sess_key : AesKey} {ss : Sockaddr} {tnow : Nat} {r : Option Nat} {t' : Sessiontable}
    (hr : s.table.sessionRegister tenantid hostid host addrpart sess_id sess_key ss tnow =
      .ok (r, t')) :
    tabling.step s (.register tenantid hostid host addrpart sess_id sess_key ss tnow) s' ↔
      s' = ⟨t', if t'.next = s.table.next then s.registered else s.table.next :: s.registered⟩ := by
  obtain ⟨t, reg⟩ := s'
  simp only [tabling, hr, Except.ok.injEq, Prod.mk.injEq, Tabled.mk.injEq]
  constructor
  · rintro ⟨r', ⟨-, ht⟩, hreg⟩
    exact ⟨ht.symm, by rw [hreg, ht]⟩
  · rintro ⟨ht, hreg⟩
    exact ⟨r, ⟨rfl, ht.symm⟩, by rw [hreg, ht]⟩

/-- Every operation comes to one end, and leaves the buckets formed. -/
theorem Tabled.Formed.step (h : s.Formed L) (op : TableOp) :
    ∃ s' L', s'.Formed L' ∧ ∀ s'', tabling.step s op s'' ↔ s'' = s' := by
  cases op with
  | register tenantid hostid host addrpart sess_id sess_key ss tnow =>
    cases host with
    | none =>
      refine ⟨_, L, ?_, fun s'' => register_step rfl⟩
      rwa [if_pos rfl]
    | some host =>
      obtain ⟨t', a, l₁, v, l₂, hreg, hL, -, -, hnext, h'⟩ | ⟨t', hreg, hno, hnext, h'⟩ :=
        h.lists.register tenantid hostid host addrpart sess_id sess_key ss tnow
      · refine ⟨_, _, ⟨h', fun i => ?_, ?_⟩, fun s'' => register_step hreg⟩
        · rw [if_pos hnext]
          by_cases hi : i = sessionBucket addrpart sess_id
          · subst hi
            rw [Function.update_self]
            exact behind_renew (hL ▸ h.behind _)
          · rw [Function.update_of_ne hi]
            exact h.behind i
        · rw [if_pos hnext, hnext]
          exact h.old
      · have hne : t'.next ≠ s.table.next := by
          rw [hnext]
          exact Nat.succ_ne_self _
        let v := registeredAs tenantid hostid host addrpart sess_id sess_key ss tnow
        have hbehind := h.cons v (s.table.next :: s.registered) fun a ha => by
          obtain rfl | ha := List.mem_cons.mp ha
          · exact .inr ⟨rfl, hno⟩
          · exact .inl ha
        refine ⟨_, _, ⟨h', ?_, ?_⟩, fun s'' => register_step hreg⟩
        · rw [if_neg hne]
          exact hbehind
        · intro a ha
          rw [if_neg hne] at ha
          rw [hnext]
          obtain rfl | ha := List.mem_cons.mp ha
          · exact Nat.lt_succ_self _
          · exact (h.old a ha).trans (Nat.lt_succ_self _)
  | link val =>
    obtain ⟨t', hlink, hnext, h'⟩ := h.lists.link val
    refine ⟨⟨t', s.registered⟩, _, ⟨h', h.cons val s.registered fun a ha => .inl ha, fun a ha => ?_⟩, ?_⟩
    · exact (h.old a ha).trans_le (hnext.ge.trans' (Nat.le_succ _))
    · rintro ⟨t, reg⟩
      simp only [tabling, hlink, Except.ok.injEq, Tabled.mk.injEq, eq_comm]
  | removeTenant tenantid =>
    obtain ⟨t', hremove, hnext, h'⟩ := h.lists.removeTenant tenantid
    refine ⟨⟨t', s.registered⟩, _, ⟨h', fun i => behind_map ?_ (h.behind i), ?_⟩, ?_⟩
    · intro x
      unfold removed
      split <;> simp
    · intro a ha
      exact (h.old a ha).trans_le hnext.ge
    · rintro ⟨t, reg⟩
      simp only [tabling, hremove, Except.ok.injEq, Tabled.mk.injEq, eq_comm]
  | expire cutoff =>
    obtain ⟨t', hexpire, hnext, h'⟩ := h.lists.expire cutoff
    refine ⟨⟨t', s.registered⟩, _, ⟨h', fun i => (h.behind i).filter _, ?_⟩, ?_⟩
    · intro a ha
      exact (h.old a ha).trans_le hnext.ge
    · rintro ⟨t, reg⟩
      simp only [tabling, hexpire, Except.ok.injEq, Tabled.mk.injEq, eq_comm]

theorem Tabled.formed_of_reachable (h : tabling.Reachable s) : ∃ L, s.Formed L := by
  apply h.induction
  · rintro s rfl
    refine ⟨fun _ => [], Lists.init, fun _ => List.Pairwise.nil, ?_⟩
    intro a ha
    cases ha
  · intro s op s' hs hstep
    obtain ⟨L, hL⟩ := hs
    obtain ⟨s₁, L', hL', hone⟩ := hL.step op
    obtain rfl := (hone s').mp hstep
    exact ⟨L', hL'⟩

/-- Of two sessions of one kind the one in front is not registered. -/
theorem Tabled.Formed.eq_of_front (h : s.Formed L) {addr sessid : BitVec 32}
    (hL : L (sessionBucket addr sessid) = l₁ ++ x :: l₂) (hx : x.2.matches addr sessid = true)
    (hreg : x.1 ∈ s.registered) (hy : Holds L addr sessid y) : y ∈ l₁ ∨ y = x := by
  have hmem := hy.1
  rw [hL] at hmem
  obtain hy₁ | hy₂ := List.mem_append.mp hmem
  · exact .inl hy₁
  · obtain rfl | hy₂ := List.mem_cons.mp hy₂
    · exact .inr rfl
    · have hpair := h.behind (sessionBucket addr sessid)
      rw [hL] at hpair
      have hbehind := (List.pairwise_cons.mp (List.pairwise_append.mp hpair).2.1).1 y hy₂
      obtain ⟨hx₁, hx₂, hx₃⟩ := Sessiondb.matches_iff.mp hx
      obtain ⟨hy₁, hy₂, hy₃⟩ := Sessiondb.matches_iff.mp hy.2
      exact absurd ⟨hx₁.trans hy₁.symm, hx₂.trans hy₂.symm⟩ (hbehind hreg hx₃ hy₃)

theorem Tabled.Formed.registered_unique (h : s.Formed L) {addr sessid : BitVec 32}
    (hx : Holds L addr sessid x) (hy : Holds L addr sessid y) (hxr : x.1 ∈ s.registered)
    (hyr : y.1 ∈ s.registered) : x = y := by
  obtain ⟨l₁, l₂, hL⟩ := List.append_of_mem hx.1
  obtain hy₁ | rfl := h.eq_of_front hL hx.2 hxr hy
  · obtain ⟨l₃, l₄, rfl⟩ := List.append_of_mem hy₁
    rw [List.append_assoc, List.cons_append] at hL
    obtain hx₃ | rfl := h.eq_of_front hL hy.2 hyr hx
    · -- a session is in its bucket once
      have hnodup := h.lists.nodup (sessionBucket addr sessid)
      rw [hL, addrs_append] at hnodup
      have hdis := (List.nodup_append.mp hnodup).2.2 x.1 (List.mem_map_of_mem hx₃) x.1 (by simp)
      exact absurd rfl hdis
    · rfl
  · rfl

/-- A lookup finds a session exactly if there is one. -/
theorem Tabled.Formed.find_iff (h : s.Formed L) (addr sessid : BitVec 32) :
    ∃ r, s.table.sessionFind addr sessid = .ok r ∧ (r = none ↔ ∀ x, ¬ Holds L addr sessid x) ∧
      ∀ a, r = some a → ∃ v, Holds L addr sessid (a, v) := by
  refine ⟨_, h.lists.find addr sessid, ?_, ?_⟩
  · rw [Option.map_eq_none_iff, List.find?_eq_none]
    simp only [Holds, not_and]
  · intro a ha
    obtain ⟨⟨_, v⟩, hx, rfl⟩ := Option.map_eq_some_iff.mp ha
    have hmatch := List.find?_some hx
    exact ⟨v, List.mem_of_find?_eq_some hx, hmatch⟩

/-- It finds a session that was registered exactly if that is the only one. -/
theorem Tabled.Formed.find_registered (h : s.Formed L) {addr sessid : BitVec 32}
    (hx : Holds L addr sessid x) (hreg : x.1 ∈ s.registered) :
    s.table.sessionFind addr sessid = .ok (some x.1) ↔ ∀ y, Holds L addr sessid y → y = x := by
  constructor
  · intro hfind y hy
    obtain ⟨l₁, v, l₂, hL, hmatch, hfirst⟩ := h.lists.find_some hfind
    have hxv : x = (x.1, v) := by
      have hv : Holds L addr sessid (x.1, v) := ⟨by rw [hL]; simp, hmatch⟩
      exact h.registered_unique hx hv hreg hreg
    obtain hy₁ | hyx := h.eq_of_front hL hmatch hreg hy
    · have hno := hfirst y hy₁
      rw [hy.2] at hno
      cases hno
    · rw [hyx, ← hxv]
  · intro honly
    obtain ⟨r, hfind, hnone, hsome⟩ := h.find_iff addr sessid
    rw [hfind]
    cases r with
    | none => exact absurd hx (hnone.mp rfl x)
    | some a =>
      obtain ⟨v, hv⟩ := hsome a rfl
      rw [← honly _ hv]

/-- In every run from an initialised table all operations come to an end, the buckets are doubly
linked lists of sessions that hash to them, at most one session that was registered and has not
expired is there for an address and session id, a lookup finds a session exactly if there is
one, and one that was registered exactly if there is no other, and an expiry removes those that
were marked or are too old. -/
theorem session_table (h : tabling.Reachable s) :
    (∀ op, ∃ s', tabling.step s op s') ∧ ∃ L, s.table.Lists L ∧
      (∀ addr sessid x y, Holds L addr sessid x → Holds L addr sessid y → x.1 ∈ s.registered →
        y.1 ∈ s.registered → x = y) ∧
      (∀ addr sessid, ∃ r, s.table.sessionFind addr sessid = .ok r ∧
        (r = none ↔ ∀ x, ¬ Holds L addr sessid x) ∧ ∀ a, r = some a → ∃ v, Holds L addr sessid (a, v)) ∧
      (∀ addr sessid x, Holds L addr sessid x → x.1 ∈ s.registered →
        (s.table.sessionFind addr sessid = .ok (some x.1) ↔ ∀ y, Holds L addr sessid y → y = x)) ∧
      ∀ cutoff, ∃ t', s.table.sessionExpire cutoff = .ok t' ∧
        t'.Lists fun i => (L i).filter (stays cutoff) := by
  obtain ⟨L, hL⟩ := Tabled.formed_of_reachable h
  refine ⟨fun op => ?_, L, hL.lists, ?_, hL.find_iff, ?_, fun cutoff => ?_⟩
  · obtain ⟨s', -, -, hone⟩ := hL.step op
    exact ⟨s', (hone s').mpr rfl⟩
  · intro addr sessid x y hx hy hxr hyr
    exact hL.registered_unique hx hy hxr hyr
  · intro addr sessid x hx hreg
    exact hL.find_registered hx hreg
  · obtain ⟨t', hexpire, -, h'⟩ := hL.lists.expire cutoff
    exact ⟨t', hexpire, h'⟩

def tableKey : AesKey := ⟨List.replicate 32 1, rfl⟩

/-- A session for the address 1 and the session id 2. -/
def session12 : Session := registeredAs ⟨0, 1⟩ ⟨0, 3⟩ 0 1 2 tableKey (.inet 1) 1000

/-- A table in which that session is registered. -/
theorem session12_registered : ∃ t, tabling.Reachable ⟨t, [0]⟩ ∧ t.next = 1 ∧
    t.Lists (Function.update (fun _ => []) (sessionBucket 1 2) [(0, session12)]) := by
  obtain ⟨t', a, l₁, v, l₂, -, hL, -⟩ | ⟨t', hreg, -, hnext, h'⟩ :=
    Lists.init.register ⟨0, 1⟩ ⟨0, 3⟩ 0 1 2 tableKey (.inet 1) 1000
  · simp at hL
  · refine ⟨t', ?_, hnext, h'⟩
    have hinit : tabling.Reachable ⟨sessiondbInit, []⟩ := Transition.Reachable.init rfl
    refine hinit.step ((register_step hreg).mpr ?_)
    rw [if_neg (by rw [hnext]; decide)]
    rfl

theorem session_table_registered : ∃ s, tabling.Reachable s ∧ s.registered = [0] ∧
    ∃ L, s.table.Lists L ∧ ∀ cutoff, ∃ t', s.table.sessionExpire cutoff = .ok t' ∧
      t'.Lists fun i => (L i).filter (stays cutoff) := by
  obtain ⟨t, hr, -, -⟩ := session12_registered
  obtain ⟨-, L, hL, -, -, -, hexpire⟩ := session_table hr
  exact ⟨⟨t, [0]⟩, hr, rfl, L, hL, hexpire⟩

/-- A session that is linked in for the same address and session id comes first. -/
theorem registered_session_hidden : ¬ ∀ s L addr sessid x, tabling.Reachable s → s.table.Lists L →
    Holds L addr sessid x → x.1 ∈ s.registered →
      s.table.sessionFind addr sessid = .ok (some x.1) := by
  intro hall
  obtain ⟨t, hr, hnext, hL⟩ := session12_registered
  obtain ⟨t', hlink, -, h'⟩ := hL.link session12
  have hstep : tabling.step ⟨t, [0]⟩ (.link session12) ⟨t', [0]⟩ := ⟨hlink, rfl⟩
  have hr' : tabling.Reachable ⟨t', [0]⟩ := hr.step hstep
  have hbucket : sessionBucket session12.addr session12.sessid = sessionBucket 1 2 := rfl
  rw [hbucket, Function.update_idem, Function.update_self, hnext] at h'
  have hfind := hall _ _ 1 2 (0, session12) hr' h' ⟨by simp, rfl⟩ (by simp)
  rw [h'.find, Function.update_self] at hfind
  simp [session12, registeredAs, Session.matches] at hfind

/-! The table with its pointers does what the collector's table of lists does. -/

/-- These are the sessions in the buckets. -/
def Sessiontable.Stands (t : Sessiontable) (db : Sessiondb) : Prop :=
  ∃ L, t.Lists L ∧ ∀ i, db i = (L i).map Prod.snd

namespace Sessiontable.Stands

variable {t : Sessiontable} {db : Sessiondb}

theorem init : Stands sessiondbInit .empty := ⟨_, Lists.init, fun _ => rfl⟩

theorem update (hdb : ∀ i, db i = (L i).map Prod.snd) (l : List (Nat × Session)) :
    ∀ j, Function.update db i (l.map Prod.snd) j = (Function.update L i l j).map Prod.snd := by
  intro j
  by_cases hj : j = i
  · subst hj
    simp only [Function.update_self]
  · simp only [Function.update_of_ne hj, hdb]

theorem find (h : t.Stands db) (addr sessid : BitVec 32) :
    ∃ r, t.sessionFind addr sessid = .ok r ∧
      (r.bind fun a => (t.mem a).map Node.val) = Opticon.sessionFind db addr sessid := by
  obtain ⟨L, hL, hdb⟩ := h
  refine ⟨_, hL.find addr sessid, ?_⟩
  rw [Opticon.sessionFind, hdb, List.find?_map]
  change _ = Option.map Prod.snd ((L (sessionBucket addr sessid)).find? fun x => x.2.matches addr sessid)
  cases hx : (L (sessionBucket addr sessid)).find? fun x => x.2.matches addr sessid with
  | none => rfl
  | some x =>
    obtain ⟨n, hn, hv⟩ := (hL.walk _).lookup (a := x.1) (v := x.2) (List.mem_of_find?_eq_some hx)
    simp [hn, hv]

theorem link (h : t.Stands db) (v : Session) :
    ∃ t', (t.sessionAlloc v).2.sessionLink (t.sessionAlloc v).1 = .ok t' ∧
      t'.Stands (Opticon.sessionLink db v) := by
  obtain ⟨L, hL, hdb⟩ := h
  obtain ⟨t', hlink, -, h'⟩ := hL.link v
  refine ⟨t', hlink, _, h', ?_⟩
  rw [Opticon.sessionLink, hdb]
  exact update hdb ((t.next, v) :: L (sessionBucket v.addr v.sessid))

theorem register (h : t.Stands db) (tenantid hostid : Uuid) (host : Nat) (addrpart sess_id : BitVec 32)
    (sess_key : AesKey) (ss : Sockaddr) (tnow : Nat) :
    ∃ s t', t.sessionRegister tenantid hostid (some host) addrpart sess_id sess_key ss tnow =
      .ok (some s, t') ∧ t'.Stands
        (match Opticon.sessionFind db addrpart sess_id with
          | some _ => db.modify addrpart sess_id (renewedBy sess_key ss tnow)
          | none => Opticon.sessionLink db
            (registeredAs tenantid hostid host addrpart sess_id sess_key ss tnow)) := by
  obtain ⟨L, hL, hdb⟩ := h
  have hfind : Opticon.sessionFind db addrpart sess_id =
      ((L (sessionBucket addrpart sess_id)).find? fun x => x.2.matches addrpart sess_id).map Prod.snd := by
    rw [Opticon.sessionFind, hdb, List.find?_map]
    rfl
  obtain ⟨t', a, l₁, v, l₂, hreg, hl, hmatch, hfirst, -, h'⟩ | ⟨t', hreg, hno, -, h'⟩ :=
    hL.register tenantid hostid host addrpart sess_id sess_key ss tnow
  · have hsome : (L (sessionBucket addrpart sess_id)).find? (fun x => x.2.matches addrpart sess_id) =
        some (a, v) := by
      rw [hl, List.find?_append, List.find?_eq_none.mpr (by simpa using hfirst)]
      simp [hmatch]
    refine ⟨a, t', hreg, _, h', ?_⟩
    rw [hfind, hsome]
    have hbefore : ∀ s ∈ l₁.map Prod.snd, s.matches addrpart sess_id = false := by
      intro s hs
      obtain ⟨x, hx, rfl⟩ := List.mem_map.mp hs
      exact hfirst x hx
    have hwritten : updateFirst (Session.matches addrpart sess_id) (renewedBy sess_key ss tnow)
        (db (sessionBucket addrpart sess_id)) =
          (l₁ ++ (a, renewedBy sess_key ss tnow v) :: l₂).map Prod.snd := by
      rw [hdb, hl, List.map_append, List.map_cons, updateFirst_append hbefore hmatch,
        List.map_append]
      rfl
    simp only [Option.map_some, Sessiondb.modify, hwritten]
    exact update hdb _
  · have hnone : (L (sessionBucket addrpart sess_id)).find? (fun x => x.2.matches addrpart sess_id) =
        none := List.find?_eq_none.mpr fun x hx => by simp [hno x hx]
    refine ⟨t.next, t', hreg, _, h', ?_⟩
    rw [hfind, hnone]
    simp only [Option.map_none, Opticon.sessionLink]
    rw [hdb]
    exact update hdb ((t.next, registeredAs tenantid hostid host addrpart sess_id sess_key ss tnow) ::
      L (sessionBucket addrpart sess_id))

theorem removeTenant (h : t.Stands db) (tenantid : Uuid) :
    ∃ t', t.sessiondbRemoveTenant tenantid = .ok t' ∧
      t'.Stands (Opticon.sessiondbRemoveTenant db tenantid) := by
  obtain ⟨L, hL, hdb⟩ := h
  obtain ⟨t', hremove, -, h'⟩ := hL.removeTenant tenantid
  refine ⟨t', hremove, _, h', fun i => ?_⟩
  rw [Opticon.sessiondbRemoveTenant, hdb, List.map_map, List.map_map]
  rfl

theorem expire (h : t.Stands db) (cutoff : Nat) :
    ∃ t', t.sessionExpire cutoff = .ok t' ∧ t'.Stands (Opticon.sessionExpire db cutoff) := by
  obtain ⟨L, hL, hdb⟩ := h
  obtain ⟨t', hexpire, -, h'⟩ := hL.expire cutoff
  refine ⟨t', hexpire, _, h', fun i => ?_⟩
  rw [Opticon.sessionExpire, hdb, List.filter_map]
  rfl

end Sessiontable.Stands

end Opticon
