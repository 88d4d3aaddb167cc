import Mathlib.Data.List.Perm.Subperm
import Opticon.Collector.Notify

/-! What the operations on a list of notifications do to a list that is well linked. -/

namespace Opticon

open Linked

namespace Notifylist

variable {self self' : Notifylist} {l l₁ l₂ : List (Nat × Notification)} {a : Nat}
  {v : Notification}

@[simp] theorem read_eq {node : Node Notification} (h : self.mem a = some node) :
    self.read a = .ok node := by
  simp [read, h]

@[simp] theorem write_eq {node : Node Notification} (h : self.mem a = some node)
    (f : Node Notification → Node Notification) : self.write a f = .ok (self.set a (some (f node))) := by
  simp [write, read_eq h]

/-- The notifications of a list, in order: they can be reached from the first one, and are all
that is allocated. Nothing is said about where `last` points to. -/
structure Lists (list : Notifylist) (l : List (Nat × Notification)) : Prop where
  walk : ∃ q, Seg list.mem none list.first l q none
  nodup : (addrs l).Nodup
  fresh : ∀ n, list.next ≤ n → list.mem n = none
  only : ∀ n node, list.mem n = some node → n ∈ addrs l
  empty : list.last = none → l = []

/-- The last pointer is unset, or it is at the end of the list. -/
def LastFinal (self : Notifylist) : Prop :=
  ∀ a, self.last = some a → ∃ node, self.mem a = some node ∧ node.next = none

theorem Lists.init : Lists notifylistInit [] := by
  refine ⟨⟨none, rfl, rfl⟩, List.nodup_nil, fun _ _ => rfl, ?_, fun _ => rfl⟩
  intro n node h
  cases h

theorem Lists.lt_next (h : Lists self l) (ha : a ∈ addrs l) : a < self.next := by
  obtain ⟨q, hwalk⟩ := h.walk
  obtain ⟨n, hn⟩ := hwalk.allocated ha
  by_contra hle
  rw [h.fresh a (Nat.le_of_not_lt hle)] at hn
  cases hn

theorem Lists.length_le (h : Lists self l) : l.length ≤ self.next := by
  have hsub : addrs l ⊆ List.range self.next := by
    intro a ha
    exact List.mem_range.mpr (h.lt_next ha)
  have hlen := (h.nodup.subperm hsub).length_le
  rwa [List.length_range, addrs, List.length_map] at hlen

theorem Lists.mem_node (h : Lists self l) (ha : (a, v) ∈ l) :
    ∃ n, self.mem a = some n ∧ n.val = v := by
  obtain ⟨q, hwalk⟩ := h.walk
  exact hwalk.lookup ha

/-- Following the list finds the first notification that meets `p`. -/
theorem findFrom_seg {p : Notification → Bool} {q r f : Option Nat} {fuel : Nat}
    (h : Seg self.mem q f l r none) (hfuel : l.length ≤ fuel) :
    findFrom self p fuel f = .ok ((l.find? fun x => p x.2).map Prod.fst) := by
  induction l generalizing q f fuel with
  | nil =>
    obtain ⟨-, rfl⟩ := h
    cases fuel <;> rfl
  | cons x l ih =>
    obtain ⟨rfl, next, hm, hl⟩ := h
    cases fuel with
    | zero => simp at hfuel
    | succ fuel =>
      rw [findFrom, read_eq hm, Outcome.ok_bind]
      cases hp : p x.2 with
      | true => simp [hp]
      | false => simpa [hp] using ih hl (Nat.le_of_succ_le_succ hfuel)

theorem Lists.find (h : Lists self l) (p : Notification → Bool) :
    findFrom self p self.next self.first = .ok ((l.find? fun x => p x.2).map Prod.fst) := by
  obtain ⟨q, hwalk⟩ := h.walk
  exact findFrom_seg hwalk h.length_le

/-- A node without a successor is the last one. -/
theorem Lists.eq_concat (h : Lists self l) {node : Node Notification} (hm : self.mem a = some node)
    (hnext : node.next = none) : ∃ l₀ v, l = l₀ ++ [(a, v)] := by
  obtain ⟨q, hwalk⟩ := h.walk
  obtain ⟨⟨_, v⟩, hx, rfl⟩ := List.mem_map.mp (h.only a node hm)
  obtain ⟨l₀, l₂, rfl⟩ := List.append_of_mem hx
  obtain ⟨_, _, -, -, next, hm', htail⟩ := seg_append.mp hwalk
  obtain rfl := Option.some.inj (hm.symm.trans hm')
  subst hnext
  cases l₂ with
  | nil => exact ⟨l₀, v, rfl⟩
  | cons y l₂ => cases htail.1

theorem Lists.not_mem_next (h : Lists self l) : self.next ∉ addrs l :=
  fun hmem => absurd (h.lt_next hmem) (Nat.lt_irrefl _)

theorem Lists.nodup_concat (h : Lists self l) (v : Notification) :
    (addrs (l ++ [(self.next, v)])).Nodup := by
  rw [addrs_append, List.nodup_append_comm]
  exact List.nodup_cons.mpr ⟨h.not_mem_next, h.nodup⟩

/-- A new notification goes to the end if the last pointer is there. -/
theorem Lists.link (h : Lists self l) (hlast : LastFinal self) (v : Notification) :
    ∃ self', notifylistLink (notificationCreate self v).2 (notificationCreate self v).1 = .ok self' ∧
      Lists self' (l ++ [(self.next, v)]) ∧ self'.last = some (self.last.getD self.next) := by
  obtain ⟨q, hwalk⟩ := h.walk
  let self₁ : Notifylist := (notificationCreate self v).2
  have hnew : self₁.mem self.next = some ⟨none, none, v⟩ := Function.update_self _ _ _
  let self₂ := self₁.set self.next (some ⟨none, none, v⟩)
  have hset : self₂.mem = Function.update self.mem self.next (some ⟨none, none, v⟩) :=
    Function.update_idem _ _ _
  have hnew₂ : self₂.mem self.next = some ⟨none, none, v⟩ := Function.update_self _ _ _
  have hwrite : self₁.write self.next (fun x => { x with next := none }) = .ok self₂ := write_eq hnew _
  unfold notifylistLink
  rw [show (notificationCreate self v).1 = self.next from rfl, hwrite, Outcome.ok_bind]
  cases hl : self.last with
  | none =>
    obtain rfl := h.empty hl
    rw [show self₂.last = none from hl]
    simp only [write_eq hnew₂, Outcome.ok_bind, Outcome.pure_ok]
    have hmem : Function.update self₂.mem self.next (some ⟨none, none, v⟩) =
        Function.update self.mem self.next (some ⟨none, none, v⟩) := by
      rw [hset, Function.update_idem]
    refine ⟨_, rfl, ⟨?_, h.nodup_concat v, ?_, ?_, ?_⟩, rfl⟩
    · refine ⟨some self.next, rfl, none, ?_, rfl, rfl⟩
      exact Function.update_self _ _ _
    · intro n hn
      have hne : n ≠ self.next := Nat.ne_of_gt hn
      simp only [set, hmem, Function.update_of_ne hne]
      exact h.fresh n (Nat.le_of_succ_le hn)
    · intro n node hn
      by_cases hne : n = self.next
      · simp [hne]
      · simp only [set, hmem, Function.update_of_ne hne] at hn
        exact absurd (h.only n node hn) List.not_mem_nil
    · intro hnone
      cases hnone
  | some a =>
    obtain ⟨node, hm, hnext⟩ := hlast a hl
    obtain ⟨l₀, w, rfl⟩ := h.eq_concat hm hnext
    have hlt : a < self.next := h.lt_next (by simp)
    have hne : a ≠ self.next := Nat.ne_of_lt hlt
    rw [show self₂.last = some a from hl]
    let self₃ := self₂.set self.next (some ⟨some a, none, v⟩)
    have hmem : self₃.mem = Function.update self.mem self.next (some ⟨some a, none, v⟩) := by
      simp only [self₃, set, hset, Function.update_idem]
    have hm₃ : self₃.mem a = some node := by rw [hmem, Function.update_of_ne hne, hm]
    have hwrite₂ : self₂.write self.next (fun x => { x with prev := some a }) = .ok self₃ :=
      write_eq hnew₂ _
    simp only [hwrite₂, Outcome.ok_bind, write_eq hm₃]
    -- the last node of the list gets the new one for a successor
    have hnodup : a ∉ addrs l₀ := by
      have hn := h.nodup
      rw [addrs_append, List.nodup_append_comm] at hn
      exact (List.nodup_cons.mp hn).1
    have hwalk₃ : Seg self₃.mem none self.first (l₀ ++ [(a, w)]) q none := by
      rw [hmem]
      exact hwalk.update h.not_mem_next _
    obtain ⟨node', hm', hwalk'⟩ := hwalk₃.setNext hnodup (some self.next)
    obtain rfl := Option.some.inj (hm₃.symm.trans hm')
    refine ⟨_, rfl, ⟨⟨some self.next, seg_append.mpr ⟨_, _, hwalk', rfl, none, ?_, rfl, rfl⟩⟩,
      h.nodup_concat v, ?_, ?_, ?_⟩, hl⟩
    · refine (Function.update_of_ne hne.symm _ _).trans ?_
      rw [hmem, Function.update_self]
    · intro n hn
      have hgt : self.next < n := hn
      simp only [set]
      rw [Function.update_of_ne (Nat.ne_of_gt (hlt.trans hgt)), hmem,
        Function.update_of_ne (Nat.ne_of_gt hgt)]
      exact h.fresh n (Nat.le_of_lt hgt)
    · intro n node' hn
      by_cases hna : n = a
      · simp [hna]
      · by_cases hnn : n = self.next
        · simp [hnn]
        · simp only [set] at hn
          rw [Function.update_of_ne hna, hmem, Function.update_of_ne hnn] at hn
          have := h.only n node' hn
          simp only [addrs_append, List.mem_append] at this ⊢
          exact .inl this
    · intro hnone
      exact absurd (hl.symm.trans hnone) (by simp)

/-- What becomes of a list when one of its notifications is freed. -/
theorem Lists.erase (h : Lists self (l₁ ++ (a, v) :: l₂)) (hnext : self'.next = self.next)
    (hmem : ∀ n, self'.mem n ≠ none → n ≠ a ∧ self.mem n ≠ none)
    (hwalk : ∃ q, Seg self'.mem none self'.first (l₁ ++ l₂) q none)
    (hempty : self'.last = none → l₁ ++ l₂ = []) : Lists self' (l₁ ++ l₂) := by
  refine ⟨hwalk, ?_, ?_, ?_, hempty⟩
  · have hsub : (addrs (l₁ ++ l₂)).Sublist (addrs (l₁ ++ (a, v) :: l₂)) :=
      ((List.Sublist.refl l₁).append (List.sublist_cons_self _ l₂)).map _
    exact h.nodup.sublist hsub
  · intro n hn
    by_contra hne
    exact (hmem n hne).2 (h.fresh n (hnext ▸ hn))
  · intro n node hn
    have hsome : self'.mem n ≠ none := by simp [hn]
    obtain ⟨hna, hn'⟩ := hmem n hsome
    obtain ⟨node', hn'⟩ := Option.ne_none_iff_exists'.mp hn'
    have := h.only n node' hn'
    simpa [hna] using this

theorem ne_none_set {n b : Nat} {node : Node Notification} (hb : self.mem b ≠ none)
    (h : (self.set b (some node)).mem n ≠ none) : self.mem n ≠ none := by
  by_cases hnb : n = b
  · rwa [hnb]
  · simpa [set, Function.update_of_ne hnb] using h

/-- A notification can be taken out of a list wherever it is. -/
theorem Lists.remove (h : Lists self (l₁ ++ (a, v) :: l₂)) :
    ∃ self', notifylistRemove self a = .ok self' ∧ Lists self' (l₁ ++ l₂) ∧
      self'.last = if l₂ = [] then (addrs l₁).getLast? else self.last := by
  obtain ⟨q, hwalk⟩ := h.walk
  obtain ⟨prev, _, hl₁, rfl, next, hm, hl₂⟩ := seg_append.mp hwalk
  have hprev : prev = (addrs l₁).getLast? := by simpa using hl₁.last_eq
  have hnext : next = (addrs l₂).head? := hl₂.first_eq
  have hdup : (addrs l₁ ++ a :: addrs l₂).Nodup := by simpa using h.nodup
  obtain ⟨hd₁, hd₂, hdis⟩ := List.nodup_append.mp hdup
  have ha₁ : a ∉ addrs l₁ := fun hmem => hdis a hmem a List.mem_cons_self rfl
  have ha₂ : a ∉ addrs l₂ := (List.nodup_cons.mp hd₂).1
  unfold notifylistRemove
  rw [read_eq hm, Outcome.ok_bind]
  unfold notifylistUnlink
  have hfree {s : Notifylist} {n : Nat} (hn : (s.set a none).mem n ≠ none) :
      n ≠ a ∧ s.mem n ≠ none := by
    by_cases hna : n = a
    · subst hna
      simp [set] at hn
    · simpa [set, Function.update_of_ne hna, hna] using hn
  rcases List.eq_nil_or_concat' l₁ with rfl | ⟨l₀, ⟨b, w⟩, rfl⟩
  · obtain rfl : prev = none := by simpa using hprev
    cases l₂ with
    | nil =>
      obtain rfl : next = none := by simpa using hnext
      refine ⟨_, rfl, ?_, rfl⟩
      refine h.erase rfl (fun n hn => hfree (s := { self with first := none, last := none }) hn) ⟨none, rfl, rfl⟩ ?_
      intro _
      rfl
    | cons y l₃ =>
      obtain ⟨c, w⟩ := y
      obtain rfl : next = some c := by simpa using hnext
      obtain ⟨node, hc, hl₂'⟩ := hl₂.setPrev (List.nodup_cons.mp (List.nodup_cons.mp hd₂).2).1 none
      simp only [write_eq hc, Outcome.ok_bind, Outcome.pure_ok]
      refine ⟨_, rfl, ?_, rfl⟩
      refine h.erase rfl ?_ ⟨q, hl₂'.update ha₂ none⟩ ?_
      · intro n hn
        obtain ⟨hna, hn⟩ := hfree hn
        exact ⟨hna, ne_none_set (by simp [hc]) hn⟩
      · intro hnone
        have := h.empty hnone
        simp at this
  · obtain rfl : prev = some b := by simpa using hprev
    have hnodup : (addrs l₀).Nodup ∧ b ∉ addrs l₀ := by
      rw [addrs_append, List.nodup_append_comm] at hd₁
      exact ⟨(List.nodup_cons.mp hd₁).2, (List.nodup_cons.mp hd₁).1⟩
    have hba : b ≠ a := fun hba => ha₁ (by simp [hba])
    cases l₂ with
    | nil =>
      obtain rfl : next = none := by simpa using hnext
      obtain ⟨node, hb, hl₁'⟩ := hl₁.setNext hnodup.2 none
      simp only [write_eq hb, Outcome.ok_bind, Outcome.pure_ok]
      refine ⟨_, rfl, ?_, by simp [set]⟩
      refine h.erase rfl ?_ ⟨some b, ?_⟩ ?_
      · intro n hn
        obtain ⟨hna, hn⟩ := hfree (s := { self.set b (some { node with next := none }) with
          last := some b }) hn
        exact ⟨hna, @ne_none_set self _ _ _ (by simp [hb]) hn⟩
      · rw [List.append_nil]
        exact hl₁'.update ha₁ none
      · intro hnone
        cases hnone
    | cons y l₃ =>
      obtain ⟨c, w'⟩ := y
      obtain rfl : next = some c := by simpa using hnext
      have hc₁ : c ∉ addrs (l₀ ++ [(b, w)]) := fun hmem =>
        hdis c hmem c (List.mem_cons_of_mem _ List.mem_cons_self) rfl
      have hb₂ : b ∉ addrs ((c, w') :: l₃) := fun hmem =>
        hdis b (by simp) b (List.mem_cons_of_mem _ hmem) rfl
      obtain ⟨node, hc, hl₂'⟩ := hl₂.setPrev (List.nodup_cons.mp (List.nodup_cons.mp hd₂).2).1 (some b)
      let self₁ := self.set c (some { node with prev := some b })
      have hwrite : self.write c (fun x => { x with prev := some b }) = .ok self₁ := write_eq hc _
      have hl₁₁ : Seg self₁.mem none self.first (l₀ ++ [(b, w)]) (some b) (some a) := hl₁.update hc₁ _
      obtain ⟨node', hb, hl₁'⟩ := hl₁₁.setNext hnodup.2 (some c)
      simp only [hwrite, write_eq hb, Outcome.ok_bind, Outcome.pure_ok]
      refine ⟨_, rfl, ?_, rfl⟩
      refine h.erase rfl ?_ ⟨q, seg_append.mpr ⟨_, _, hl₁'.update ha₁ none, ?_⟩⟩ ?_
      · intro n hn
        obtain ⟨hna, hn⟩ := hfree hn
        exact ⟨hna, ne_none_set (by simp [hc]) (@ne_none_set self₁ _ _ _ (by simp [hb]) hn)⟩
      · exact (hl₂'.update hb₂ _).update ha₂ none
      · intro hnone
        have := h.empty hnone
        simp at this

/-- A notification can be written to. -/
theorem Lists.setVal (h : Lists self (l₁ ++ (a, v) :: l₂)) :
    ∃ node, self.mem a = some node ∧ node.val = v ∧ node.next = (addrs l₂).head? ∧
      ∀ w, Lists (self.set a (some { node with val := w })) (l₁ ++ (a, w) :: l₂) := by
  obtain ⟨q, hwalk⟩ := h.walk
  obtain ⟨prev, _, hl₁, rfl, next, hm, hl₂⟩ := seg_append.mp hwalk
  have hdup : (addrs l₁ ++ a :: addrs l₂).Nodup := by simpa using h.nodup
  obtain ⟨-, hd₂, hdis⟩ := List.nodup_append.mp hdup
  have ha₁ : a ∉ addrs l₁ := fun hmem => hdis a hmem a List.mem_cons_self rfl
  refine ⟨_, hm, rfl, hl₂.first_eq, fun w => ⟨⟨q, ?_⟩, ?_, ?_, ?_, ?_⟩⟩
  · refine seg_append.mpr ⟨prev, some a, hl₁.update ha₁ _, rfl, next, Function.update_self _ _ _, ?_⟩
    exact hl₂.update (List.nodup_cons.mp hd₂).1 _
  · simpa using h.nodup
  · intro n hn
    have hna : n ≠ a := by
      rintro rfl
      exact absurd (h.fresh n hn) (by simp [hm])
    exact (Function.update_of_ne hna _ _).trans (h.fresh n hn)
  · intro n node hn
    have hsome : (self.set a (some ⟨prev, next, w⟩)).mem n ≠ none := by simp [hn]
    obtain ⟨node', hn'⟩ := Option.ne_none_iff_exists'.mp (ne_none_set (by simp [hm]) hsome)
    have := h.only n node' hn'
    simpa using this
  · intro hlast
    have := h.empty hlast
    simp at this

theorem Lists.splits (h : Lists self l) {p : Notification → Bool}
    (hfind : findFrom self p self.next self.first = .ok (some a)) :
    ∃ l₁ v l₂, l = l₁ ++ (a, v) :: l₂ ∧ p v ∧ ∀ x ∈ l₁, p x.2 = false := by
  rw [h.find p] at hfind
  obtain ⟨⟨_, v⟩, hx, rfl⟩ := Option.map_eq_some_iff.mp (Except.ok.inj hfind)
  obtain ⟨hp, l₁, l₂, rfl, hl₁⟩ := List.find?_eq_some_iff_append.mp hx
  exact ⟨l₁, v, l₂, rfl, hp, fun x hx => by simpa using hl₁ x hx⟩

theorem Lists.none_of_find (h : Lists self l) {p : Notification → Bool}
    (hfind : findFrom self p self.next self.first = .ok none) : ∀ x ∈ l, p x.2 = false := by
  rw [h.find p] at hfind
  intro x hx
  have := List.find?_eq_none.mp (Option.map_eq_none_iff.mp (Except.ok.inj hfind)) x hx
  simpa using this

section Set

variable {isproblem : Bool} {status : List UInt8} {hostid : Uuid} {tnow : Nat}

/-- What becomes of the notification that there is for a host. -/
theorem Lists.setNotification (h : Lists self (l₁ ++ (a, v) :: l₂))
    (hfind : notifylistFind self hostid = .ok (some a)) :
    ∃ self', tenantSetNotification self isproblem status hostid tnow = .ok self' ∧
      Lists self' (if v.isproblem = isproblem then l₁ ++ (a, { v with status := status.take 15 }) :: l₂
        else if v.isproblem ∧ ¬ v.notified then l₁ ++ l₂
        else l₁ ++ (a, { v with status := status.take 15, lastchange := tnow, notified := false }) :: l₂) := by
  obtain ⟨node, hm, rfl, -, hset⟩ := h.setVal
  have h₁ := hset { node.val with status := status.take 15 }
  obtain ⟨node₁, hm₁, hval, -, hset₁⟩ := h₁.setVal
  unfold tenantSetNotification
  simp only [hfind, write_eq hm, read_eq hm₁, Outcome.ok_bind, hval]
  split
  · exact ⟨_, rfl, h₁⟩
  · split
    · obtain ⟨self', hremove, hlists, -⟩ := h₁.remove
      exact ⟨self', hremove, hlists⟩
    · refine ⟨_, write_eq hm₁ _, ?_⟩
      rw [hval]
      exact hset₁ _

/-- A host without a notification gets one for a problem. -/
theorem Lists.newNotification (h : Lists self l) (hfind : notifylistFind self hostid = .ok none)
    (hlast : isproblem = true → LastFinal self) :
    ∃ self', tenantSetNotification self isproblem status hostid tnow = .ok self' ∧
      Lists self' (if isproblem then
        l ++ [(self.next, ⟨status.take 15, true, false, hostid, tnow⟩)] else l) := by
  unfold tenantSetNotification
  rw [hfind, Outcome.ok_bind]
  cases isproblem with
  | false => exact ⟨self, rfl, h⟩
  | true =>
    obtain ⟨self', hlink, hlists, -⟩ := h.link (hlast rfl) ⟨status.take 15, true, false, hostid, tnow⟩
    exact ⟨self', hlink, hlists⟩

end Set

section Report

variable {tnow : Nat}

def issue (n : Notification) : Issue := ⟨n.hostid, n.status, n.isproblem⟩

/-- A notification after the others that are overdue were reported, and it too if it is. -/
def mark (tnow : Nat) (x : Nat × Notification) : Nat × Notification :=
  (x.1, if x.2.overdue tnow then { x.2 with notified := true } else x.2)

def hostids (l : List (Nat × Notification)) : List Uuid := l.map fun x => x.2.hostid

theorem mark_of_not_overdue {x : Nat × Notification} (h : x.2.overdue tnow = false) :
    mark tnow x = x := by
  simp [mark, h]

theorem putIssue_new {issues : List Issue} {i : Issue} (h : ∀ j ∈ issues, j.hostid ≠ i.hostid) :
    putIssue issues i = issues ++ [i] := by
  unfold putIssue
  rw [if_neg]
  simpa using h

/-- The notifications that are overdue from some point of the list on are reported, each once. -/
theorem Lists.reportFrom {todo done : List (Nat × Notification)} {issues : List Issue} {fuel : Nat}
    (h : Lists self (done ++ todo)) (hids : (hostids todo).Nodup)
    (hissues : ∀ i ∈ issues, i.hostid ∉ hostids todo) (hfuel : todo.length < fuel) :
    ∃ self', Opticon.reportFrom tnow fuel (addrs todo).head? self issues =
        .ok (issues ++ (todo.filter fun x => x.2.overdue tnow).map (fun x => issue x.2), self') ∧
      Lists self' (done ++ todo.map (mark tnow)) := by
  induction fuel generalizing todo done self issues with
  | zero => cases hfuel
  | succ fuel ih =>
    obtain ⟨q, hwalk⟩ := h.walk
    obtain ⟨_, f, -, hseg⟩ := seg_append.mp hwalk
    have hlen : todo.length ≤ self.next := by
      have := h.length_le
      rw [List.length_append] at this
      omega
    rw [Opticon.reportFrom, ← hseg.first_eq, findFrom_seg hseg hlen, Outcome.ok_bind]
    cases hfind : todo.find? fun x => x.2.overdue tnow with
    | none =>
      have hno : ∀ x ∈ todo, x.2.overdue tnow = false := by simpa using hfind
      have hfilter : (todo.filter fun x => x.2.overdue tnow) = [] := by
        rw [List.filter_eq_nil_iff]
        intro x hx
        simp [hno x hx]
      have hmap : todo.map (mark tnow) = todo := by
        conv_rhs => rw [← List.map_id todo]
        exact List.map_congr_left fun x hx => mark_of_not_overdue (hno x hx)
      rw [hfilter, hmap]
      exact ⟨self, by simp, h⟩
    | some x =>
      obtain ⟨a, v⟩ := x
      obtain ⟨hover, skip, rest, rfl, hskip⟩ := List.find?_eq_some_iff_append.mp hfind
      have hskip : ∀ x ∈ skip, x.2.overdue tnow = false := fun x hx => by simpa using hskip x hx
      have hover : v.overdue tnow = true := hover
      rw [← List.append_assoc] at h
      obtain ⟨node, hm, rfl, -, hset⟩ := h.setVal
      have h₁ := hset { node.val with notified := true }
      obtain ⟨node₁, hm₁, -, hnext, -⟩ := h₁.setVal
      simp only [Option.map_some, read_eq hm, write_eq hm, read_eq hm₁, Outcome.ok_bind, hnext]
      have hids' : (hostids skip ++ node.val.hostid :: hostids rest).Nodup := by
        simpa [hostids] using hids
      obtain ⟨-, hrest, -⟩ := List.nodup_append.mp hids'
      have hput := @putIssue_new issues (issue node.val) fun j hj heq =>
        hissues j hj (by simp [hostids, heq, issue])
      have hdone : (done ++ skip) ++ (a, { node.val with notified := true }) :: rest =
          (done ++ skip ++ [(a, { node.val with notified := true })]) ++ rest := by simp
      rw [hdone] at h₁
      have hlen' : rest.length < fuel := by
        simp only [List.length_append, List.length_cons] at hfuel
        omega
      have hnew : ∀ i ∈ issues ++ [issue node.val], i.hostid ∉ hostids rest := by
        intro i hi hmem
        obtain hi | hi := List.mem_append.mp hi
        · exact hissues i hi (by simp [hostids] at hmem ⊢; exact .inr (.inr hmem))
        · obtain rfl := List.mem_singleton.mp hi
          exact (List.nodup_cons.mp hrest).1 hmem
      obtain ⟨self', hrun, hlists⟩ := ih h₁ (List.nodup_cons.mp hrest).2 hnew hlen'
      refine ⟨self', ?_, ?_⟩
      · have hfilter : (skip.filter fun x => x.2.overdue tnow) = [] := by
          rw [List.filter_eq_nil_iff]
          intro x hx
          simp [hskip x hx]
        rw [show (⟨node.val.hostid, node.val.status, node.val.isproblem⟩ : Issue) = issue node.val
          from rfl, hput, hrun]
        simp [hfilter, hover]
      · have hmap : skip.map (mark tnow) = skip := by
          conv_rhs => rw [← List.map_id skip]
          exact List.map_congr_left fun x hx => mark_of_not_overdue (hskip x hx)
        have hmark : mark tnow (a, node.val) = (a, { node.val with notified := true }) := by
          simp [mark, hover]
        simpa [hmap, hmark] using hlists

theorem Lists.checkActionable (h : Lists self l) :
    notifylistCheckActionable self tnow = .ok (l.any fun x => x.2.actionable tnow) := by
  have hsome : (Option.map Prod.fst (l.find? fun x => x.2.actionable tnow)).isSome =
      l.any fun x => x.2.actionable tnow := by
    rw [Option.isSome_map, Bool.eq_iff_iff, List.find?_isSome, List.any_eq_true]
  unfold notifylistCheckActionable
  simp only [h.find, Outcome.ok_bind, Outcome.pure_ok, hsome]

/-- A check of the notifications reports those that are overdue if one is actionable. -/
theorem Lists.checkNotification (h : Lists self l) (hids : (hostids l).Nodup) :
    ∃ self', tenantCheckNotification self tnow =
        .ok (if l.any fun x => x.2.actionable tnow then
          some ((l.filter fun x => x.2.overdue tnow).map fun x => issue x.2) else none, self') ∧
      Lists self' (if l.any fun x => x.2.actionable tnow then l.map (mark tnow) else l) := by
  obtain ⟨q, hwalk⟩ := h.walk
  unfold tenantCheckNotification
  rw [h.checkActionable, Outcome.ok_bind]
  split
  · obtain ⟨self', hrun, hlists⟩ := @Lists.reportFrom self tnow l [] [] (self.next + 1) h hids
      (by simp) (Nat.lt_succ_of_le h.length_le)
    rw [← hwalk.first_eq] at hrun
    rw [hrun]
    exact ⟨self', rfl, hlists⟩
  · exact ⟨self, rfl, h⟩

end Report

end Notifylist

end Opticon
