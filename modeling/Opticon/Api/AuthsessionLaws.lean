import Opticon.Api.Authsession

/-! The list of sessions stays one doubly linked chain, and what becomes of each session over a
history of logins and lookups. -/

namespace Opticon

open Linked

namespace Authsessionlist

variable {t t' : Authsessionlist} {l l₁ l₂ : List (Nat × Authsession)} {a : Nat} {v : Authsession}
  {id tenant : Uuid} {userlevel : AuthLevel} {now : ℤ} {prev next p f : Option Nat} {fuel : Nat}

/-- The sessions in their order: they are doubly linked, no others are allocated, each carries the
hash of its id, and no two have the same one. -/
structure Chained (t : Authsessionlist) (l : List (Nat × Authsession)) : Prop where
  walk : Seg t.mem none t.first l t.last none
  nodup : (addrs l).Nodup
  only : ∀ a, t.mem a ≠ none → a ∈ addrs l
  fresh : ∀ a, t.next ≤ a → t.mem a = none
  hashed : ∀ x ∈ l, x.2.hash = hashUuid x.2.id
  apart : (l.map fun x => x.2.id).Nodup

theorem read_eq {node : Node Authsession} (h : t.mem a = some node) : t.read a = .ok node := by
  unfold read
  rw [h]

theorem write_eq {node : Node Authsession} (h : t.mem a = some node)
    (f : Node Authsession → Node Authsession) : t.write a f = .ok (t.set a (some (f node))) := by
  rw [write, read_eq h]
  rfl

theorem write_next (h : t.mem a ≠ none) (g : Option Nat) :
    (t.write a fun n => { n with next := g }) = .ok { t with mem := withNext t.mem (some a) g } := by
  obtain ⟨node, hnode⟩ := Option.ne_none_iff_exists'.mp h
  rw [write_eq hnode, set, withNext, hnode]
  rfl

theorem write_prev (h : t.mem a ≠ none) (q : Option Nat) :
    (t.write a fun n => { n with prev := q }) = .ok { t with mem := withPrev t.mem (some a) q } := by
  obtain ⟨node, hnode⟩ := Option.ne_none_iff_exists'.mp h
  rw [write_eq hnode, set, withPrev, hnode]
  rfl

/-- The four ways to take a session out of the list. -/
theorem unlink_eq (v : Authsession) (hprev : ∀ p, prev = some p → t.mem p ≠ none)
    (hnext : ∀ n, next = some n → t.mem n ≠ none) :
    t.unlink ⟨prev, next, v⟩ = .ok { t with
      mem := withPrev (withNext t.mem prev next) next prev
      first := if prev = none then next else t.first
      last := if next = none then prev else t.last } := by
  unfold unlink
  cases prev with
  | none =>
    cases next with
    | none => rfl
    | some n => exact @write_prev { t with first := some n } n (hnext n rfl) none
  | some p =>
    dsimp only
    rw [write_next (hprev p rfl), Outcome.ok_bind]
    cases next with
    | none => rfl
    | some n =>
      have hn : withNext t.mem (some p) (some n) n ≠ none := (withNext_eq_none _).not.mpr (hnext n rfl)
      exact @write_prev { t with mem := withNext t.mem (some p) (some n) } n hn (some p)

theorem Chained.init : Chained authsessionInit [] :=
  ⟨⟨rfl, rfl⟩, List.nodup_nil, fun _ h => absurd rfl h, fun _ _ => rfl, (fun x hx => by cases hx),
    List.nodup_nil⟩

theorem Chained.allocated (h : Chained t l) (ha : a ∈ addrs l) : t.mem a ≠ none := by
  obtain ⟨n, hn⟩ := h.walk.allocated ha
  rw [hn]
  exact Option.some_ne_none n

theorem Chained.lt_next (h : Chained t l) (ha : a ∈ addrs l) : a < t.next := by
  by_contra hle
  exact h.allocated ha (h.fresh a (Nat.le_of_not_lt hle))

theorem Chained.length_le (h : Chained t l) : l.length ≤ t.next := by
  have hsub : addrs l ⊆ List.range t.next := fun a ha => List.mem_range.mpr (h.lt_next ha)
  have hlen := (h.nodup.subperm hsub).length_le
  rwa [List.length_range, addrs, List.length_map] at hlen

theorem authsessionCreate_eq (h : Chained t l) :
    t.authsessionCreate id tenant userlevel now = .ok
      { first := if l = [] then some t.next else t.first
        last := some t.next
        mem := withNext (Function.update t.mem t.next
          (some ⟨t.last, none, ⟨hashUuid id, id, tenant, userlevel, now⟩⟩)) t.last (some t.next)
        next := t.next + 1 } := by
  have hhead := h.walk.first_eq
  have hlast : t.last = (addrs l).getLast? := by simpa using h.walk.last_eq
  obtain ⟨first, last, mem, s⟩ := t
  dsimp only at hhead hlast
  subst hhead hlast
  cases l with
  | nil => rfl
  | cons x l =>
    obtain ⟨b, hb⟩ : ∃ b, (addrs (x :: l)).getLast? = some b :=
      Option.ne_none_iff_exists'.mp fun hnone => by cases List.getLast?_eq_none_iff.mp hnone
    rw [hb] at h ⊢
    have hmem : b ∈ addrs (x :: l) := List.mem_of_getLast? hb
    have hne : b ≠ s := (h.lt_next hmem).ne
    let val : Authsession := ⟨hashUuid id, id, tenant, userlevel, now⟩
    let t₁ : Authsessionlist :=
      ⟨some x.1, some b, Function.update mem s (some ⟨none, none, val⟩), s + 1⟩
    have hs : t₁.mem s = some ⟨none, none, val⟩ := Function.update_self _ _ _
    have hset : t₁.set s (some ⟨some b, none, val⟩) =
        { t₁ with mem := Function.update mem s (some ⟨some b, none, val⟩) } :=
      congrArg (fun mem => { t₁ with mem := mem }) (Function.update_idem _ _ _)
    have hbset : (t₁.set s (some ⟨some b, none, val⟩)).mem b ≠ none := by
      rw [hset]
      dsimp only
      rw [Function.update_of_ne hne]
      exact h.allocated hmem
    change (do
      let t ← t₁.write s fun n => { n with prev := some b }
      let t ← t.write b fun n => { n with next := some s }
      return { t with last := some s }) = _
    rw [write_eq hs, Outcome.ok_bind, write_next hbset, hset]
    rfl

/-- A new session is linked behind the last one. -/
theorem Chained.create (h : Chained t l) (hid : id ∉ l.map fun x => x.2.id) :
    ∃ t', t.authsessionCreate id tenant userlevel now = .ok t' ∧
      Chained t' (l ++ [(t.next, ⟨hashUuid id, id, tenant, userlevel, now⟩)]) := by
  have hnew : t.next ∉ addrs l := fun hmem => absurd (h.lt_next hmem) (Nat.lt_irrefl _)
  have hnodup : (addrs (l ++ [(t.next, Authsession.mk (hashUuid id) id tenant userlevel now)])).Nodup := by
    rw [addrs_append]
    exact List.nodup_append_comm.mp (List.nodup_cons.mpr ⟨hnew, h.nodup⟩)
  refine ⟨_, authsessionCreate_eq h, h.walk.snoc h.nodup hnew _, hnodup, fun a ha => ?_, fun a ha => ?_,
    fun x hx => ?_, ?_⟩
  · rw [addrs_append]
    by_cases hat : a = t.next
    · exact List.mem_append_right _ (List.mem_singleton.mpr hat)
    · dsimp only at ha
      rw [ne_eq, withNext_eq_none, Function.update_of_ne hat] at ha
      exact List.mem_append_left _ (h.only a ha)
  · dsimp only at ha ⊢
    have hat : a ≠ t.next := by omega
    rw [withNext_eq_none, Function.update_of_ne hat]
    exact h.fresh a (by omega)
  · obtain hx | hx := List.mem_append.mp hx
    · exact h.hashed x hx
    · rw [List.mem_singleton.mp hx]
  · rw [List.map_append]
    exact List.nodup_append_comm.mp (List.nodup_cons.mpr ⟨hid, h.apart⟩)

/-- A lookup passes the sessions with other ids. -/
theorem findFrom_passes (h : Seg t.mem p f l₁ prev next) (hhash : ∀ x ∈ l₁, x.2.hash = hashUuid x.2.id)
    (hno : ∀ x ∈ l₁, x.2.id ≠ id) (fuel : Nat) :
    t.findFrom id now (l₁.length + fuel) f = t.findFrom id now fuel next := by
  induction l₁ generalizing p f with
  | nil =>
    obtain ⟨-, rfl⟩ := h
    rw [List.length_nil, Nat.zero_add]
  | cons x l₁ ih =>
    obtain ⟨rfl, g, hm, hl⟩ := h
    have hx : ¬ (x.2.hash = hashUuid id ∧ x.2.id = id) := fun h => hno x List.mem_cons_self h.2
    rw [List.length_cons, Nat.add_right_comm, findFrom, read_eq hm, Outcome.ok_bind, if_neg hx]
    exact ih hl (fun y hy => hhash y (List.mem_cons_of_mem _ hy))
      fun y hy => hno y (List.mem_cons_of_mem _ hy)

theorem Chained.find_absent (h : Chained t l) (hno : ∀ x ∈ l, x.2.id ≠ id) :
    t.authsessionFind id now = .ok (none, t) := by
  obtain ⟨k, hk⟩ := Nat.exists_eq_add_of_le h.length_le
  rw [authsessionFind, hk, findFrom_passes h.walk h.hashed hno, findFrom]

theorem Chained.find_found (h : Chained t (l₁ ++ (a, v) :: l₂)) (now : ℤ) :
    ∃ node, t.mem a = some node ∧ node.val = v ∧ t.authsessionFind v.id now = t.visit now a node := by
  obtain ⟨prev, _, h₁, rfl, next, hm, -⟩ := seg_append.mp h.walk
  obtain ⟨k, hk⟩ := Nat.exists_eq_add_of_le h.length_le
  have hno : ∀ x ∈ l₁, x.2.id ≠ v.id := by
    have hapart := h.apart
    rw [List.map_append, List.map_cons] at hapart
    intro x hx heq
    exact (List.nodup_append.mp hapart).2.2 _ (List.mem_map_of_mem hx) _ List.mem_cons_self heq
  have hhash₁ : ∀ x ∈ l₁, x.2.hash = hashUuid x.2.id := fun x hx => h.hashed x (List.mem_append_left _ hx)
  have hhash : v.hash = hashUuid v.id := h.hashed (a, v) (List.mem_append_right _ List.mem_cons_self)
  refine ⟨_, hm, rfl, ?_⟩
  have hfuel : t.next = l₁.length + (l₂.length + k + 1) := by
    rw [hk, List.length_append, List.length_cons]
    omega
  rw [authsessionFind, hfuel, findFrom_passes h₁ hhash₁ hno, findFrom, read_eq hm, Outcome.ok_bind,
    if_pos ⟨hhash, rfl⟩]

theorem Chained.refresh (h : Chained t (l₁ ++ (a, v) :: l₂)) {node : Node Authsession}
    (hm : t.mem a = some node) (hv : node.val = v) (hgap : now - v.heartbeat < SESSION_IDLE_TIMEOUT) :
    ∃ t', t.visit now a node = .ok (some a, t') ∧
      Chained t' (l₁ ++ (a, { v with heartbeat := now }) :: l₂) := by
  obtain ⟨n, hn, -, hwalk⟩ := h.walk.setVal h.nodup { v with heartbeat := now }
  cases hm.symm.trans hn
  subst hv
  have haddrs := @addrs_setVal _ l₁ l₂ a node.val { node.val with heartbeat := now }
  unfold visit
  rw [if_pos hgap, write_eq hm]
  refine ⟨_, rfl, hwalk, haddrs ▸ h.nodup, fun b hb => ?_, fun b hb => ?_, fun x hx => ?_, ?_⟩
  · rw [haddrs]
    by_cases hba : b = a
    · rw [hba, addrs_append]
      exact List.mem_append_right _ List.mem_cons_self
    · exact h.only b fun hnone => hb ((Function.update_of_ne hba _ _).trans hnone)
  · have hmem : a ∈ addrs (l₁ ++ (a, node.val) :: l₂) := by
      rw [addrs_append]
      exact List.mem_append_right _ List.mem_cons_self
    have hba : b ≠ a := fun hba => absurd (h.lt_next (hba ▸ hmem)) (Nat.not_lt.mpr hb)
    exact (Function.update_of_ne hba _ _).trans (h.fresh b hb)
  · obtain hx | hx := List.mem_append.mp hx
    · exact h.hashed x (List.mem_append_left _ hx)
    · obtain rfl | hx := List.mem_cons.mp hx
      · exact h.hashed (a, node.val) (List.mem_append_right _ List.mem_cons_self)
      · exact h.hashed x (List.mem_append_right _ (List.mem_cons_of_mem _ hx))
  · have hapart := h.apart
    rw [List.map_append, List.map_cons] at hapart ⊢
    exact hapart

/-- A session is taken out of the list wherever it is, and freed. -/
theorem Chained.remove (h : Chained t (l₁ ++ (a, v) :: l₂)) {node : Node Authsession}
    (hm : t.mem a = some node) (hv : node.val = v) (hidle : ¬ now - v.heartbeat < SESSION_IDLE_TIMEOUT)
    (hold : 2 * SESSION_IDLE_TIMEOUT < now - v.heartbeat) :
    ∃ t', t.visit now a node = .ok (none, t') ∧ Chained t' (l₁ ++ l₂) := by
  obtain ⟨prev, next, hn, hprev, hnext, hwalk⟩ := h.walk.unlink h.nodup
  cases hm.symm.trans hn
  have hsub : (l₁ ++ l₂).Sublist (l₁ ++ (a, v) :: l₂) := (List.sublist_cons_self _ _).append_left l₁
  have hnodup := h.nodup
  rw [addrs_append, addrs_cons, List.nodup_middle] at hnodup
  obtain ⟨ha, hnodup⟩ := List.nodup_cons.mp hnodup
  rw [← addrs_append] at ha hnodup
  have hin : ∀ b ∈ addrs (l₁ ++ l₂), t.mem b ≠ none := fun b hb => h.allocated ((hsub.map _).subset hb)
  have hunlink := unlink_eq (t := t) v
    (fun p hp => hin p (addrs_append l₁ l₂ ▸ List.mem_append_left _ (List.mem_of_getLast? (hprev ▸ hp))))
    (fun n hn => hin n (addrs_append l₁ l₂ ▸ List.mem_append_right _ (List.mem_of_mem_head? (hnext ▸ hn))))
  have hnone₁ : prev = none ↔ l₁ = [] := by
    rw [hprev, List.getLast?_eq_none_iff, addrs, List.map_eq_nil_iff]
  have hnone₂ : next = none ↔ l₂ = [] := by
    rw [hnext, List.head?_eq_none_iff, addrs, List.map_eq_nil_iff]
  have hfreed (b : Nat) (hb : b ≠ a) : Function.update (withPrev (withNext t.mem prev next) next prev)
      a none b = none ↔ t.mem b = none := by
    rw [Function.update_of_ne hb, withPrev_eq_none, withNext_eq_none]
  unfold visit
  rw [if_neg hidle, if_pos hold, hunlink]
  refine ⟨_, rfl, ?_, hnodup, fun b hb => ?_, fun b hb => ?_, fun x hx => h.hashed x (hsub.subset hx),
    h.apart.sublist (hsub.map _)⟩
  · dsimp only [set]
    rw [if_congr hnone₁ rfl rfl, if_congr hnone₂ rfl rfl]
    exact hwalk.update ha none
  · have hba : b ≠ a := by
      rintro rfl
      exact hb (Function.update_self _ _ _)
    have hmem := h.only b fun hnone => hb ((hfreed b hba).mpr hnone)
    rw [addrs_append, addrs_cons] at hmem
    rw [addrs_append]
    simpa [hba] using hmem
  · by_cases hba : b = a
    · rw [hba]
      exact Function.update_self _ _ _
    · exact (hfreed b hba).mpr (h.fresh b hb)

/-- What a lookup does to the list of sessions. -/
inductive Lookup (id : Uuid) (now : ℤ) :
    List (Nat × Authsession) → Option Nat → List (Nat × Authsession) → Prop
  | absent {l : List (Nat × Authsession)} (hno : ∀ x ∈ l, x.2.id ≠ id) : Lookup id now l none l
  | found {l₁ l₂ : List (Nat × Authsession)} {a : Nat} {v : Authsession} (hid : v.id = id)
    (hgap : now - v.heartbeat < SESSION_IDLE_TIMEOUT) :
    Lookup id now (l₁ ++ (a, v) :: l₂) (some a) (l₁ ++ (a, { v with heartbeat := now }) :: l₂)
  | idle {l₁ l₂ : List (Nat × Authsession)} {a : Nat} {v : Authsession} (hid : v.id = id)
    (hgap : SESSION_IDLE_TIMEOUT ≤ now - v.heartbeat) :
    Lookup id now (l₁ ++ (a, v) :: l₂) none (l₁ ++ (a, v) :: l₂)
  | expired {l₁ l₂ : List (Nat × Authsession)} {a : Nat} {v : Authsession} (hid : v.id = id)
    (hgap : SESSION_IDLE_TIMEOUT ≤ now - v.heartbeat) :
    Lookup id now (l₁ ++ (a, v) :: l₂) none (l₁ ++ l₂)

theorem Chained.find (h : Chained t l) (id : Uuid) (now : ℤ) :
    ∃ r t' l', t.authsessionFind id now = .ok (r, t') ∧ Chained t' l' ∧ Lookup id now l r l' := by
  by_cases hno : ∀ x ∈ l, x.2.id ≠ id
  · exact ⟨none, t, l, h.find_absent hno, h, .absent hno⟩
  · obtain ⟨⟨a, v⟩, hx, rfl⟩ : ∃ x ∈ l, x.2.id = id := by simpa using hno
    obtain ⟨l₁, l₂, rfl⟩ := List.append_of_mem hx
    obtain ⟨node, hm, hv, hfind⟩ := h.find_found now
    dsimp only
    rw [hfind]
    by_cases hgap : now - v.heartbeat < SESSION_IDLE_TIMEOUT
    · obtain ⟨t', hvisit, h'⟩ := h.refresh hm hv hgap
      exact ⟨_, t', _, hvisit, h', .found rfl hgap⟩
    · by_cases hold : 2 * SESSION_IDLE_TIMEOUT < now - v.heartbeat
      · obtain ⟨t', hvisit, h'⟩ := h.remove hm hv hgap hold
        exact ⟨_, t', _, hvisit, h', .expired rfl (not_lt.mp hgap)⟩
      · refine ⟨none, t, _, ?_, h, .idle rfl (not_lt.mp hgap)⟩
        unfold visit
        rw [hv, if_neg hgap, if_neg hold]
        rfl

end Authsessionlist

end Opticon
