import Opticon.Collector.NotifyLaws
import Opticon.Lib.Decimal
import Opticon.Lib.Transition

/-! Whether a list of notifications stays well linked. -/

namespace Opticon

open Linked Notifylist

/-- A list, and the notifications that were linked and not removed since, in the order in which
they were linked. -/
structure Listed where
  list : Notifylist
  linked : List (Nat × Notification)

inductive ListOp where
  | link (val : Notification)
  | remove (n : Nat)

/-- Lists that start empty; only what is linked is removed. -/
def listing : Transition Listed ListOp where
  init s := s = ⟨notifylistInit, []⟩
  step s op s' :=
    match op with
    | .link val =>
      notifylistLink (notificationCreate s.list val).2 (notificationCreate s.list val).1 = .ok s'.list ∧
        s'.linked = s.linked ++ [(s.list.next, val)]
    | .remove n =>
      n ∈ addrs s.linked ∧ notifylistRemove s.list n = .ok s'.list ∧
        s'.linked = s.linked.filter fun x => x.1 != n

/-- From `first` on, each node's successor leads through what is linked, in order, each node's
predecessor is the one it was reached from, and `last` is the final one. -/
structure Intact (s : Listed) : Prop where
  walk : Seg s.list.mem none s.list.first s.linked s.list.last none
  once : (addrs s.linked).Nodup

/-- Nothing is linked to a list that has a notification. -/
def LinksFirst (s : Listed) : ListOp → Prop
  | .link _ => s.linked = []
  | .remove _ => True

/-- The list reaches all that is linked, and `last` is the final one. -/
structure Kept (s : Listed) : Prop where
  lists : s.list.Lists s.linked
  last : s.list.last = (addrs s.linked).getLast?

variable {s s' : Listed}

theorem Kept.intact (h : Kept s) : Intact s := by
  obtain ⟨q, hwalk⟩ := h.lists.walk
  have hq := hwalk.last_eq
  rw [Option.or_none, ← h.last] at hq
  exact ⟨hq ▸ hwalk, h.lists.nodup⟩

theorem Kept.lastFinal (h : Kept s) : s.list.LastFinal := by
  intro a ha
  obtain ⟨q, hwalk⟩ := h.lists.walk
  have hlast := h.last.symm.trans ha
  obtain hnil | ⟨l₀, ⟨b, v⟩, hl⟩ := List.eq_nil_or_concat' s.linked
  · simp [hnil] at hlast
  · rw [hl] at hwalk hlast
    obtain rfl : b = a := by simpa using hlast
    obtain ⟨_, _, -, -, next, hm, -, hnext⟩ := seg_append.mp hwalk
    exact ⟨_, hm, hnext⟩

theorem filter_unlinked {l₁ l₂ : List (Nat × Notification)} {a : Nat} {v : Notification}
    (h : (addrs (l₁ ++ (a, v) :: l₂)).Nodup) :
    ((l₁ ++ (a, v) :: l₂).filter fun x => x.1 != a) = l₁ ++ l₂ := by
  have hkeep {l : List (Nat × Notification)} (ha : a ∉ addrs l) : (l.filter fun x => x.1 != a) = l := by
    rw [List.filter_eq_self]
    intro x hx
    have hne : x.1 ≠ a := ne_of_mem_of_not_mem (List.mem_map_of_mem hx) ha
    simpa using hne
  rw [addrs_append, addrs_cons, List.nodup_middle, List.nodup_cons, List.mem_append, not_or] at h
  simp [hkeep h.1.1, hkeep h.1.2]

/-- A notification that is linked can be removed, and what is left is as it should be. -/
theorem Kept.remove (h : Kept s) {n : Nat} (hn : n ∈ addrs s.linked) :
    ∃ list, notifylistRemove s.list n = .ok list ∧
      Kept ⟨list, s.linked.filter fun x => x.1 != n⟩ := by
  obtain ⟨⟨_, v⟩, hx, rfl⟩ := List.mem_map.mp hn
  obtain ⟨l₁, l₂, hl⟩ := List.append_of_mem hx
  obtain ⟨hlists, hlast⟩ := h
  rw [hl] at hlists hlast ⊢
  obtain ⟨list, hremove, hlists', hlast'⟩ := hlists.remove
  rw [filter_unlinked hlists.nodup]
  refine ⟨list, hremove, hlists', ?_⟩
  rw [hlast', hlast]
  cases l₂ with
  | nil => simp
  | cons y l₂ => simp [List.getLast?_append, List.getLast?_cons]

/-- A notification can be linked; what is linked is reached then, but `last` stays where it was
if it was set. -/
theorem Kept.link (h : Kept s) (val : Notification) :
    ∃ list, notifylistLink (notificationCreate s.list val).2 (notificationCreate s.list val).1 =
        .ok list ∧ list.Lists (s.linked ++ [(s.list.next, val)]) ∧
      (list.last = some s.list.next ↔ s.linked = []) := by
  obtain ⟨list, hlink, hlists, hlast⟩ := h.lists.link h.lastFinal val
  refine ⟨list, hlink, hlists, ?_⟩
  rw [hlast]
  cases hl : s.list.last with
  | none => simp [h.lists.empty hl]
  | some a =>
    have hmem : a ∈ addrs s.linked := List.mem_of_getLast? (h.last.symm.trans hl)
    have hne : a ≠ s.list.next := Nat.ne_of_lt (h.lists.lt_next hmem)
    simp only [Option.getD_some, Option.some.injEq, hne, false_iff]
    rintro hnil
    simp [hnil] at hmem

theorem Kept.step (h : Kept s) {op : ListOp} (hstep : listing.step s op s') (hop : LinksFirst s op) :
    Kept s' := by
  obtain ⟨list', linked'⟩ := s'
  cases op with
  | link val =>
    obtain ⟨hlink, rfl⟩ := hstep
    obtain ⟨list, hlink', hlists, hlast⟩ := h.link val
    obtain rfl := Except.ok.inj (hlink'.symm.trans hlink)
    refine ⟨hlists, ?_⟩
    rw [hlast.mpr hop]
    simp
  | remove n =>
    obtain ⟨hn, hremove, rfl⟩ := hstep
    obtain ⟨list, hremove', hkept⟩ := h.remove hn
    obtain rfl := Except.ok.inj (hremove'.symm.trans hremove)
    exact hkept

/-- In every run that links to empty lists only, the list is as it should be; every further step
can be made, and after it the list is so if and only if it links to an empty list too. -/
theorem list_intact_iff {ops : List ListOp}
    (h : (listing.guard LinksFirst).History ops s) :
    Intact s ∧
      (∀ val, ∃ s', listing.step s (.link val) s') ∧
      (∀ n ∈ addrs s.linked, ∃ s', listing.step s (.remove n) s') ∧
      ∀ op s', listing.step s op s' → (Intact s' ↔ LinksFirst s op) := by
  have hs : Kept s := by
    refine h.reachable.induction (I := Kept) ?_ ?_
    · rintro _ rfl
      exact ⟨.init, rfl⟩
    · intro s op s' hs hstep
      exact hs.step hstep.2 hstep.1
  refine ⟨hs.intact, fun val => ?_, fun n hn => ?_, fun op s' hstep => ?_⟩
  · obtain ⟨list, hlink, -⟩ := hs.link val
    exact ⟨⟨list, _⟩, hlink, rfl⟩
  · obtain ⟨list, hremove, -⟩ := hs.remove hn
    exact ⟨⟨list, _⟩, hn, hremove, rfl⟩
  · refine ⟨fun hintact => ?_, fun hop => (hs.step hstep hop).intact⟩
    cases op with
    | link val =>
      obtain ⟨hlink, hlinked⟩ := hstep
      obtain ⟨list, hlink', -, hlast⟩ := hs.link val
      obtain rfl := Except.ok.inj (hlink'.symm.trans hlink)
      have hend := hintact.walk.last_eq
      rw [hlinked] at hend
      exact hlast.mp (by simpa using hend)
    | remove n => trivial

/-! ### Three notifications -/

def linkNew (s : Listed) (val : Notification) : Listed :=
  ⟨(notifylistLink (notificationCreate s.list val).2 (notificationCreate s.list val).1).toOption.getD
    notifylistInit, s.linked ++ [(s.list.next, val)]⟩

theorem linkNew_step {val : Notification}
    (h : (notifylistLink (notificationCreate s.list val).2 (notificationCreate s.list val).1).isOk) :
    listing.step s (.link val) (linkNew s val) := by
  refine ⟨?_, rfl⟩
  unfold linkNew
  generalize notifylistLink (notificationCreate s.list val).2 (notificationCreate s.list val).1 = x at h
  cases x with
  | ok list => rfl
  | error e => cases h

/-- A problem of the host with this number. -/
def problemOf (n : Nat) : Notification := ⟨asc "ALERT", true, false, ⟨0, .ofNat 64 n⟩, 1000⟩

def listed1 : Listed := linkNew ⟨notifylistInit, []⟩ (problemOf 1)
def listed2 : Listed := linkNew listed1 (problemOf 2)
def listed3 : Listed := linkNew listed2 (problemOf 3)

theorem list_intact_one : Intact listed1 ∧ (Intact listed2 ↔ LinksFirst listed1 (.link (problemOf 2))) := by
  have hempty : LinksFirst ⟨notifylistInit, []⟩ (.link (problemOf 1)) := rfl
  have hrun : (listing.guard LinksFirst).History [.link (problemOf 1)] listed1 :=
    Transition.History.step (Transition.History.init rfl) ⟨hempty, linkNew_step rfl⟩
  exact ⟨(list_intact_iff hrun).1, (list_intact_iff hrun).2.2.2 _ _ (linkNew_step rfl)⟩

/-- The second host's notification is no longer reached once there is a third. -/
theorem notification_lost :
    listing.History [.link (problemOf 1), .link (problemOf 2), .link (problemOf 3)] listed3 ∧
    listed3.linked = [(0, problemOf 1), (1, problemOf 2), (2, problemOf 3)] ∧
    notifylistFind listed3.list ⟨0, 2⟩ = .ok none ∧ listed3.list.last = some 0 ∧ ¬ Intact listed3 := by
  have hrun₁ : listing.History [.link (problemOf 1)] listed1 :=
    (Transition.History.init rfl).step (linkNew_step rfl)
  have hrun₂ := hrun₁.step (@linkNew_step _ (problemOf 2) rfl)
  have hrun₃ := hrun₂.step (@linkNew_step _ (problemOf 3) rfl)
  refine ⟨hrun₃, rfl, by decide, by decide, ?_⟩
  intro h
  obtain ⟨-, next, hm, hnext, -⟩ := h.walk
  have hm : listed3.list.mem 0 = some ⟨none, next, problemOf 1⟩ := hm
  have hnext : next = some 1 := hnext
  have hstored : (listed3.list.mem 0).map (fun node => node.next) = some (some 2) := by decide
  rw [hm, hnext] at hstored
  cases hstored

end Opticon
