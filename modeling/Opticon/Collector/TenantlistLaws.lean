import Mathlib.Data.List.Perm.Subperm
import Opticon.Collector.Tenantlist

/-! What the sections of the threads do to a list of tenants that is well linked. -/

namespace Opticon

open Linked

namespace Tenantlist

variable {T : Tenantlist} {l l₁ l₂ : List (Nat × TenantHead)} {a : Nat} {v : TenantHead}
  {p f p' : Option Nat} {tenantid : Uuid} {prev next : Option Nat}

@[simp] theorem read_eq {node : Node TenantHead} (h : T.mem a = some node) : T.read a = .ok node := by
  simp [read, h]

@[simp] theorem write_eq {node : Node TenantHead} (h : T.mem a = some node)
    (f : Node TenantHead → Node TenantHead) : T.write a f = .ok (T.set a (some (f node))) := by
  simp [write, read_eq h]

/-- The list is a chain, and new tenants get new addresses. -/
structure Linked (T : Tenantlist) (l : List (Nat × TenantHead)) : Prop where
  chain : T.Chain l
  fresh : ∀ n, T.next ≤ n → T.mem n = none

theorem Linked.lt_next (h : T.Linked l) (ha : a ∈ addrs l) : a < T.next := by
  obtain ⟨n, hn⟩ := h.chain.1.allocated ha
  by_contra hle
  rw [h.fresh a (Nat.le_of_not_lt hle)] at hn
  cases hn

theorem Linked.length_le (h : T.Linked l) : l.length ≤ T.next := by
  have hsub : addrs l ⊆ List.range T.next := by
    intro a ha
    exact List.mem_range.mpr (h.lt_next ha)
  have hlen := (h.chain.2.1.subperm hsub).length_le
  rwa [List.length_range, addrs, List.length_map] at hlen

/-! ### Looking for a tenant -/

theorem lookFrom_eq {fuel t : Nat} (hseg : Seg T.mem p (some t) l p' none) (hlen : l.length ≤ fuel) :
    T.lookFrom tenantid fuel t =
      .ok ((l.find? fun x => x.2.uuid = tenantid).map Prod.fst) := by
  induction l generalizing p t fuel with
  | nil => cases hseg.2
  | cons x l ih =>
    obtain ⟨hx, next, hm, hl⟩ := hseg
    obtain rfl := Option.some.inj hx
    obtain ⟨fuel, rfl⟩ := Nat.exists_eq_succ_of_ne_zero (show fuel ≠ 0 by
      simp only [List.length_cons] at hlen
      omega)
    simp only [lookFrom, read_eq hm, Outcome.ok_bind]
    by_cases hid : x.2.uuid = tenantid
    · rw [if_pos hid, List.find?_cons_of_pos (by simpa using hid)]
      rfl
    · rw [if_neg hid, List.find?_cons_of_neg (by simpa using hid)]
      cases l with
      | nil =>
        obtain ⟨-, rfl⟩ := hl
        rfl
      | cons y l =>
        obtain rfl : next = some y.1 := hl.1
        exact ih hl (by simpa using hlen)

theorem Linked.lookFrom (h : T.Linked l) {t : Nat} (ht : T.first = some t) (tenantid : Uuid) :
    T.lookFrom tenantid T.next t = .ok ((l.find? fun x => x.2.uuid = tenantid).map Prod.fst) := by
  have hseg := h.chain.1
  rw [ht] at hseg
  exact lookFrom_eq hseg h.length_le

theorem Chain.ne_nil (h : T.Chain l) {t : Nat} (ht : T.first = some t) : l ≠ [] := by
  rintro rfl
  rw [h.1.2] at ht
  cases ht

theorem Chain.eq_nil (h : T.Chain l) (hnone : T.first = none) : l = [] := by
  rw [h.1.first_eq] at hnone
  cases l with
  | nil => rfl
  | cons x l => cases hnone

/-! ### New tenants -/

theorem Linked.alloc (h : T.Linked l) (tenantid : Uuid) : (T.tenantAlloc tenantid).2.Linked l := by
  have hnew : T.next ∉ addrs l := fun hmem => absurd (h.lt_next hmem) (Nat.lt_irrefl _)
  refine ⟨⟨h.chain.1.update hnew _, h.chain.2⟩, fun n hn => ?_⟩
  have hn : T.next + 1 ≤ n := hn
  have hne : n ≠ T.next := by omega
  exact (Function.update_of_ne hne _ _).trans (h.fresh n (by omega))

theorem tenantAlloc_mem (T : Tenantlist) (tenantid : Uuid) :
    ∃ key, (T.tenantAlloc tenantid).2.mem T.next = some ⟨none, none, tenantid, key⟩ :=
  ⟨_, Function.update_self _ _ _⟩

/-- The first tenant of an empty list. -/
theorem Linked.first (h : T.Linked []) {nt : Nat} (hmem : T.mem nt = some ⟨none, none, v⟩) :
    { T with first := some nt, last := some nt }.Linked [(nt, v)] :=
  ⟨⟨⟨rfl, none, hmem, rfl, rfl⟩, List.nodup_singleton _, List.nodup_singleton _⟩, h.fresh⟩

theorem Chain.last_some (h : T.Chain l) (hne : l ≠ []) : ∃ t, T.last = some t ∧ t ∈ addrs l := by
  have hlast := h.1.last_eq
  obtain ⟨l₀, x, rfl⟩ := List.eq_nil_or_concat' l |>.resolve_left hne
  rw [addrs_append, addrs_cons, addrs_nil, List.getLast?_append, List.getLast?_singleton] at hlast
  exact ⟨x.1, hlast, by simp⟩

/-- A tenant behind the last one, whatever its id. -/
theorem Linked.append_seg (h : T.Linked l) (hne : l ≠ []) {nt : Nat} (hnew : nt ∉ addrs l)
    (v : TenantHead) : ∃ t node T', T.last = some t ∧ t ∈ addrs l ∧ T.mem t = some node ∧
      T' = ((T.set t (some { node with next := some nt })).set nt (some ⟨some t, none, v⟩)) ∧
      Seg T'.mem none T'.first (l ++ [(nt, v)]) (some nt) none ∧
      ∀ n, n ≠ nt → n ∉ addrs l → T'.mem n = T.mem n := by
  obtain ⟨t, hlast, ht⟩ := Chain.last_some h.chain hne
  obtain ⟨node, hnode⟩ := h.chain.1.allocated ht
  have hled := h.chain.1.leadTo h.chain.2.1 (some nt)
  rw [if_neg hne, hlast, withNext, hnode] at hled
  refine ⟨t, node, _, hlast, ht, hnode, rfl, ?_, fun n hn hnl => ?_⟩
  · exact seg_append.mpr ⟨some t, some nt, hled.update hnew _, rfl, none, Function.update_self _ _ _,
      rfl, rfl⟩
  · have hnt : n ≠ t := fun heq => hnl (heq ▸ ht)
    simp only [set, Function.update_of_ne hn, Function.update_of_ne hnt]

/-- A tenant behind the last one, with an id that no other one has. -/
theorem Linked.append (h : T.Linked l) {T' : Tenantlist} {nt : Nat}
    (hmem : T.mem nt = some ⟨none, none, v⟩) (hnew : nt ∉ addrs l)
    (hid : ∀ x ∈ l, x.2.uuid ≠ v.uuid)
    (hseg : Seg T'.mem none T'.first (l ++ [(nt, v)]) (some nt) none) (hnext : T'.next = T.next)
    (hframe : ∀ n, n ≠ nt → n ∉ addrs l → T'.mem n = T.mem n) :
    { T' with last := some nt }.Linked (l ++ [(nt, v)]) := by
  have hlt : nt < T.next := by
    by_contra hle
    rw [h.fresh nt (Nat.le_of_not_lt hle)] at hmem
    cases hmem
  refine ⟨⟨hseg, ?_, ?_⟩, fun n hn => ?_⟩
  · rw [addrs_append, List.nodup_append]
    refine ⟨h.chain.2.1, List.nodup_singleton _, ?_⟩
    rintro b hb c hc rfl
    obtain rfl : b = nt := List.mem_singleton.mp hc
    exact hnew hb
  · rw [List.map_append, List.nodup_append]
    refine ⟨h.chain.2.2, List.nodup_singleton _, ?_⟩
    rintro b hb c hc rfl
    obtain ⟨x, hx, rfl⟩ := List.mem_map.mp hb
    exact hid x hx (List.mem_singleton.mp hc)
  · have hn : T'.next ≤ n := hn
    have hnl : n ∉ addrs l := fun hmem => by
      have hlt := h.lt_next hmem
      omega
    rw [hnext] at hn
    exact (hframe n (by omega) hnl).trans (h.fresh n hn)

/-! ### Deletion -/

theorem setNext_eq (T : Tenantlist) (hprev : ∀ b, prev = some b → ∃ n, T.mem b = some n)
    (next : Option Nat) : T.setNext prev next =
      .ok { T with first := if prev = none then next else T.first, mem := withNext T.mem prev next } := by
  cases prev with
  | none => rfl
  | some b =>
    obtain ⟨n, hn⟩ := hprev b rfl
    rw [setNext, write_eq hn, withNext, hn]
    rfl

theorem setPrev_eq (T : Tenantlist) (hnext : ∀ b, next = some b → ∃ n, T.mem b = some n)
    (prev : Option Nat) : T.setPrev next prev =
      .ok { T with last := if next = none then prev else T.last, mem := withPrev T.mem next prev } := by
  cases next with
  | none => rfl
  | some b =>
    obtain ⟨n, hn⟩ := hnext b rfl
    rw [setPrev, write_eq hn, withPrev, hn]
    rfl

theorem withNext_allocated {m : Heap TenantHead} {b c : Nat} {g : Option Nat} {n : Node TenantHead}
    (hn : m b = some n) : ∃ n', withNext m (some c) g b = some n' := by
  by_cases hbc : b = c
  · subst hbc
    exact ⟨_, by rw [withNext, Function.update_self, hn]; rfl⟩
  · exact ⟨n, by rw [withNext, Function.update_of_ne hbc, hn]⟩

/-- The successor of a node that is written twice. -/
theorem withNext_back {m : Heap TenantHead} {b : Nat} {n : Node TenantHead} (hn : m b = some n)
    (g : Option Nat) : withNext (withNext m (some b) g) (some b) n.next = m := by
  simp only [withNext, Function.update_self, hn, Option.map_some, Function.update_idem]
  rw [← hn, Function.update_eq_self]

/-- The node before a tenant leads to it. -/
theorem Chain.next_eq (h : T.Chain (l₁ ++ (a, v) :: l₂)) {b : Nat}
    (hb : (addrs l₁).getLast? = some b) : ∃ n, T.mem b = some n ∧ n.next = some a := by
  obtain ⟨q, _, h₁, rfl, -⟩ := seg_append.mp h.1
  rcases List.eq_nil_or_concat' l₁ with rfl | ⟨l₀, ⟨c, w⟩, rfl⟩
  · cases hb
  · obtain ⟨_, _, -, rfl, next, hm, -, rfl⟩ := seg_append.mp h₁
    obtain rfl : c = b := by simpa using hb
    exact ⟨_, hm, rfl⟩

/-- A deletion that backs out behind its first write. -/
theorem Chain.back_out (h : T.Chain (l₁ ++ (a, v) :: l₂)) (hprev : prev = (addrs l₁).getLast?)
    (next : Option Nat) :
    ({ T with first := if prev = none then next else T.first
              mem := withNext T.mem prev next } : Tenantlist).setNext prev (some a) = .ok T := by
  cases prev with
  | none =>
    obtain rfl : l₁ = [] := by
      rw [eq_comm, List.getLast?_eq_none_iff] at hprev
      exact List.map_eq_nil_iff.mp hprev
    have hfirst : T.first = some a := h.1.1
    rw [setNext, ← hfirst]
    rfl
  | some b =>
    obtain ⟨n, hn, hnext⟩ := h.next_eq hprev.symm
    obtain ⟨n', hn'⟩ := withNext_allocated (c := b) (g := next) hn
    rw [setNext_eq _ (fun c hc => ⟨n', by rw [← Option.some.inj hc]; exact hn'⟩)]
    simp only [reduceCtorEq, if_false]
    rw [← hnext, withNext_back hn]

/-- What a deletion does: nothing, or it takes the tenant out. -/
theorem Linked.tenantDelete (h : T.Linked (l₁ ++ (a, v) :: l₂)) (prevFree nextFree : Bool) :
    T.tenantDelete a prevFree nextFree = .ok (false, T) ∨
      ∃ T', T.tenantDelete a prevFree nextFree = .ok (true, T') ∧ T'.Linked (l₁ ++ l₂) ∧
        ∀ n, n ∉ addrs (l₁ ++ (a, v) :: l₂) → T'.mem n = T.mem n := by
  obtain ⟨prev, next, hm, hprev, hnext, hseg⟩ := h.chain.1.unlink h.chain.2.1
  have hnodup := h.chain.2.1
  rw [addrs_append, addrs_cons] at hnodup
  obtain ⟨hn₁, hn₂, hdis⟩ := List.nodup_append.mp hnodup
  have ha₁ : a ∉ addrs l₁ := fun hmem => hdis a hmem a List.mem_cons_self rfl
  have ha₂ : a ∉ addrs l₂ := (List.nodup_cons.mp hn₂).1
  have hprev₁ : ∀ b, prev = some b → b ∈ addrs l₁ := fun b hb =>
    List.mem_of_getLast? (hprev.symm.trans hb)
  have hnext₂ : ∀ b, next = some b → b ∈ addrs l₂ := fun b hb =>
    List.mem_of_mem_head? (hnext.symm.trans hb)
  have hlist : ∀ b, b ∈ addrs l₁ ∨ b ∈ addrs l₂ → b ∈ addrs (l₁ ++ (a, v) :: l₂) := by
    rintro b (hb | hb)
    · rw [addrs_append]
      exact List.mem_append_left _ hb
    · rw [addrs_append]
      exact List.mem_append_right _ (List.mem_cons_of_mem _ hb)
  have hset := T.setNext_eq (fun b hb => h.chain.1.allocated (hlist b (.inl (hprev₁ b hb)))) next
  simp only [Tenantlist.tenantDelete, read_eq hm, Outcome.ok_bind]
  by_cases hlocked : prev ≠ none ∧ prevFree = false
  · rw [if_pos hlocked]
    exact .inl rfl
  rw [if_neg hlocked, hset]
  simp only [Outcome.ok_bind]
  by_cases hlocked : next ≠ none ∧ nextFree = false
  · left
    rw [if_pos hlocked, Chain.back_out h.chain hprev next]
    rfl
  right
  have hset₂ := setPrev_eq { T with
    first := if prev = none then next else T.first
    mem := withNext T.mem prev next } (fun b hb => by
      obtain ⟨n, hn⟩ := h.chain.1.allocated (hlist b (.inr (hnext₂ b hb)))
      cases prev with
      | none => exact ⟨n, hn⟩
      | some c => exact withNext_allocated hn) prev
  rw [if_neg hlocked, hset₂]
  simp only [Outcome.ok_bind, Outcome.pure_ok]
  have hmem : ∀ n, n ∉ addrs (l₁ ++ (a, v) :: l₂) →
      Function.update (withPrev (withNext T.mem prev next) next prev) a none n = T.mem n := by
    intro n hn
    have hna : n ≠ a := by
      rintro rfl
      exact hn (by simp)
    rw [Function.update_of_ne hna, withPrev_of_ne, withNext_of_ne]
    · rintro hb
      exact hn (hlist n (.inl (hprev₁ n hb)))
    · rintro hb
      exact hn (hlist n (.inr (hnext₂ n hb)))
  refine ⟨_, rfl, ⟨⟨?_, ?_, ?_⟩, fun n hn => ?_⟩, hmem⟩
  · have hfirst : (if prev = none then next else T.first) = if l₁ = [] then next else T.first := by
      simp only [hprev, List.getLast?_eq_none_iff, addrs, List.map_eq_nil_iff]
    have hlast : (if next = none then prev else T.last) = if l₂ = [] then prev else T.last := by
      simp only [hnext, List.head?_eq_none_iff, addrs, List.map_eq_nil_iff]
    have ha : a ∉ addrs (l₁ ++ l₂) := by
      rw [addrs_append, List.mem_append]
      exact fun h => h.elim ha₁ ha₂
    show Seg (Function.update _ a none) none _ _ _ _
    rw [hfirst, hlast]
    exact hseg.update ha none
  · rw [addrs_append, List.nodup_append]
    exact ⟨hn₁, (List.nodup_cons.mp hn₂).2, fun b hb c hc =>
      hdis b hb c (List.mem_cons_of_mem _ hc)⟩
  · refine h.chain.2.2.sublist (List.Sublist.map _ ?_)
    exact List.Sublist.append_left (List.sublist_cons_self _ _) _
  · have hn : T.next ≤ n := hn
    have hnl : n ∉ addrs (l₁ ++ (a, v) :: l₂) := fun hmem =>
      absurd (h.lt_next hmem) (Nat.not_lt.mpr hn)
    exact (hmem n hnl).trans (h.fresh n hn)

/-- A tenant of the list gets a key. -/
theorem Linked.setKey (h : T.Linked l) (ha : a ∈ addrs l) (key : AesKey) :
    ∃ T', T.write a (fun n => { n with val.key := key }) = .ok T' ∧
      T'.Linked (l.map fun x => (x.1, if x.1 = a then { x.2 with key := key } else x.2)) ∧
      T'.first = T.first ∧ ∀ n, n ∉ addrs l → T'.mem n = T.mem n := by
  obtain ⟨node, hnode⟩ := h.chain.1.allocated ha
  have haddrs : addrs (l.map fun x => (x.1, if x.1 = a then { x.2 with key := key } else x.2)) =
      addrs l := by
    simp [addrs, Function.comp_def]
  refine ⟨_, write_eq hnode _, ⟨⟨?_, ?_, ?_⟩, fun n hn => ?_⟩, rfl, fun n hn => ?_⟩
  · refine h.chain.1.mapVal (fun x => if x.1 = a then { x.2 with key := key } else x.2) ?_
    rintro ⟨b, w⟩ hx n hn hw
    dsimp only at hn hw ⊢
    by_cases hba : b = a
    · subst hba
      rw [hnode] at hn
      obtain rfl := Option.some.inj hn
      rw [if_pos rfl, ← hw]
      exact Function.update_self _ _ _
    · rw [if_neg hba, ← hw]
      exact (Function.update_of_ne hba _ _).trans hn
  · rw [haddrs]
    exact h.chain.2.1
  · have huuids : (l.map fun x => (x.1, if x.1 = a then { x.2 with key := key } else x.2)).map
        (fun x => x.2.uuid) = l.map fun x => x.2.uuid := by
      rw [List.map_map]
      refine List.map_congr_left fun x _ => ?_
      dsimp only [Function.comp]
      split <;> rfl
    rw [huuids]
    exact h.chain.2.2
  · have hn : T.next ≤ n := hn
    have hna : n ≠ a := by
      have hlt := h.lt_next ha
      omega
    exact (Function.update_of_ne hna _ _).trans (h.fresh n hn)
  · have hna : n ≠ a := fun heq => hn (heq ▸ ha)
    exact Function.update_of_ne hna _ _

end Tenantlist

/-! ### Threads -/

/-- The tenants of the list, in order. New tenants of calls that are under way are not in the list
yet, and what is locked for writing is locked by one thread only. -/
structure TenantThreads.Formed (w : TenantThreads) (l : List (Nat × TenantHead)) : Prop where
  linked : w.list.Linked l
  pending : ∀ i c nt, w.calls i = some c → c.place = .missing nt →
    nt ∉ addrs l ∧ ∃ key, w.list.mem nt = some ⟨none, none, c.tenantid, key⟩
  apart : ∀ i j c d nt, w.calls i = some c → w.calls j = some d → c.place = .missing nt →
    d.place = .missing nt → i = j
  unfilled : ∀ i c, w.calls i = some c → c.place ≠ .filled
  held : ∀ h ∈ w.held, h.tenant ∈ addrs l
  exclusive : ∀ h ∈ w.held, h.lockt = .write → ∀ h' ∈ w.held, h'.tenant = h.tenant → h' = h

/-- What a section of `tenant_find` leaves. -/
structure Found (T : Tenantlist) (l : List (Nat × TenantHead)) (c : FindCall) (r : FindStep)
    (T' : Tenantlist) (l' : List (Nat × TenantHead)) : Prop where
  linked : T'.Linked l'
  grows : ∀ b ∈ addrs l, b ∈ addrs l'
  frame : ∀ n, n ∉ addrs l → c.place ≠ .missing n → T.mem n ≠ none →
    T'.mem n = T.mem n ∧ n ∉ addrs l'
  goes : ∀ p, r = .goes p → p = .empty ∨ ∃ nt, p = .missing nt ∧ T.mem nt = none ∧ nt ∉ addrs l' ∧
    ∃ key, T'.mem nt = some ⟨none, none, c.tenantid, key⟩
  returns : ∀ t, r = .returns t → ∃ a v, t = some a ∧ (a, v) ∈ l' ∧ v.uuid = c.tenantid

section Sections

variable {T : Tenantlist} {l : List (Nat × TenantHead)} {c : FindCall}

theorem tenantFindSection_start (h : T.Linked l) (hplace : c.place = .start) :
    ∃ r T', tenantFindSection T c.tenantid c.place = .ok (r, T') ∧ Found T l c r T' l := by
  rw [hplace]
  cases hfirst : T.first with
  | none =>
    refine ⟨.goes .empty, T, by simp only [tenantFindSection, hfirst], h, fun _ hb => hb,
      fun n hn _ _ => ⟨rfl, hn⟩, ?_, by simp⟩
    rintro p hp
    cases hp
    exact .inl rfl
  | some t =>
    simp only [tenantFindSection, hfirst, h.lookFrom hfirst, Outcome.ok_bind]
    cases hfound : l.find? fun x => x.2.uuid = c.tenantid with
    | some x =>
      refine ⟨_, _, rfl, h, fun _ hb => hb, fun n hn _ _ => ⟨rfl, hn⟩, by simp, ?_⟩
      rintro t ht
      cases ht
      exact ⟨x.1, x.2, rfl, List.mem_of_find?_eq_some hfound, by simpa using List.find?_some hfound⟩
    | none =>
      have hnone := h.fresh T.next le_rfl
      have hnew : T.next ∉ addrs l := fun hmem => absurd (h.lt_next hmem) (Nat.lt_irrefl _)
      refine ⟨_, _, rfl, h.alloc c.tenantid, fun _ hb => hb, ?_, ?_, by simp⟩
      · intro n hn _ hmem
        have hne : n ≠ T.next := fun heq => hmem (heq ▸ hnone)
        exact ⟨Function.update_of_ne hne _ _, hn⟩
      · rintro p hp
        cases hp
        exact .inr ⟨T.next, rfl, hnone, hnew, T.tenantAlloc_mem c.tenantid⟩

/-- The list is empty still. -/
theorem tenantFindSection_empty (h : T.Linked l) (hplace : c.place = .empty)
    (hfirst : T.first = none) :
    ∃ r T' l', tenantFindSection T c.tenantid c.place = .ok (r, T') ∧ Found T l c r T' l' := by
  obtain rfl := Tenantlist.Chain.eq_nil h.chain hfirst
  obtain ⟨key, hmem⟩ := T.tenantAlloc_mem c.tenantid
  rw [hplace]
  refine ⟨_, _, [(T.next, ⟨c.tenantid, key⟩)], by simp only [tenantFindSection, hfirst]; rfl,
    (h.alloc c.tenantid).first hmem, by simp, ?_, by simp, ?_⟩
  · intro n _ _ hn
    have hne : n ≠ T.next := fun heq => hn (heq ▸ h.fresh T.next le_rfl)
    exact ⟨Function.update_of_ne hne _ _, by simpa using hne⟩
  · rintro t ht
    cases ht
    exact ⟨_, _, rfl, List.mem_singleton_self _, rfl⟩

/-- The list is not empty: the tenant is linked behind the last one. -/
theorem tenantFindSection_missing (h : T.Linked l) (hne : l ≠ []) {nt : Nat} (hnew : nt ∉ addrs l)
    {tenantid : Uuid} {key : AesKey} (hmem : T.mem nt = some ⟨none, none, tenantid, key⟩) :
    ∃ T' : Tenantlist, tenantFindSection T tenantid (.missing nt) =
        .ok (.returns (some nt), { T' with last := some nt }) ∧ T'.next = T.next ∧
      Seg T'.mem none T'.first (l ++ [(nt, ⟨tenantid, key⟩)]) (some nt) none ∧
      ∀ n, n ≠ nt → n ∉ addrs l → T'.mem n = T.mem n := by
  obtain ⟨a, node, T', hlast, ha, hnode, hT', hseg, hframe⟩ := h.append_seg hne hnew ⟨tenantid, key⟩
  have hnta : nt ≠ a := fun heq => hnew (heq ▸ ha)
  have hset : (T.set a (some { node with next := some nt })).mem nt =
      some ⟨none, none, tenantid, key⟩ := (Function.update_of_ne hnta _ _).trans hmem
  refine ⟨T', ?_, by rw [hT']; rfl, hseg, hframe⟩
  simp only [tenantFindSection, hlast, Tenantlist.write_eq hnode, Tenantlist.write_eq hset,
    Outcome.ok_bind, hT']
  rfl

/-- The list is not empty, and the tenant still is not there. -/
theorem tenantFindSection_append (h : T.Linked l) {nt : Nat} (hplace : c.place = .missing nt)
    (hnew : nt ∉ addrs l) {key : AesKey} (hmem : T.mem nt = some ⟨none, none, c.tenantid, key⟩)
    {t : Nat} (hfirst : T.first = some t) (hlook : T.lookFrom c.tenantid T.next t = .ok none) :
    ∃ r T' l', tenantFindSection T c.tenantid c.place = .ok (r, T') ∧ Found T l c r T' l' := by
  have hid : ∀ x ∈ l, x.2.uuid ≠ c.tenantid := by
    rw [h.lookFrom hfirst] at hlook
    have hnone := List.find?_eq_none.mp (Option.map_eq_none_iff.mp (Except.ok.inj hlook))
    intro x hx
    simpa using hnone x hx
  obtain ⟨T', hrun, hnext, hseg, hframe⟩ :=
    tenantFindSection_missing h (Tenantlist.Chain.ne_nil h.chain hfirst) hnew hmem
  rw [hplace]
  refine ⟨_, _, _, hrun, h.append hmem hnew hid hseg hnext hframe, ?_, ?_, by simp, ?_⟩
  · intro b hb
    rw [addrs_append]
    exact List.mem_append_left _ hb
  · intro n hn hp _
    have hnnt : n ≠ nt := fun heq => hp (by rw [hplace, heq])
    refine ⟨hframe n hnnt hn, ?_⟩
    rw [addrs_append, List.mem_append, not_or]
    exact ⟨hn, by simpa using hnnt⟩
  · rintro t ht
    cases ht
    exact ⟨_, _, rfl, List.mem_append_right _ (List.mem_singleton_self _), rfl⟩

end Sections

namespace TenantThreads

variable {w : TenantThreads} {l : List (Nat × TenantHead)} {thread : Nat}

/-- A section that is not disturbed. -/
theorem Formed.find (h : w.Formed l) {c : FindCall} (hc : w.calls thread = some c)
    (hquiet : Undisturbed w (.proceed thread)) :
    ∃ r T' l', tenantFindSection w.list c.tenantid c.place = .ok (r, T') ∧
      Found w.list l c r T' l' := by
  have hquiet := hquiet c hc
  cases hplace : c.place with
  | start =>
    obtain ⟨r, T', hrun, hfound⟩ := tenantFindSection_start h.linked hplace
    rw [hplace] at hrun
    exact ⟨r, T', l, hrun, hfound⟩
  | empty =>
    rw [hplace] at hquiet
    rw [← hplace]
    exact tenantFindSection_empty h.linked hplace hquiet
  | filled => exact absurd hplace (h.unfilled thread c hc)
  | missing nt =>
    rw [hplace] at hquiet
    obtain ⟨t, hfirst, hlook⟩ := hquiet
    obtain ⟨hnew, key, hmem⟩ := h.pending thread c nt hc hplace
    rw [← hplace]
    exact tenantFindSection_append h.linked hplace hnew hmem hfirst hlook

theorem calls_setCall {i : Nat} {c : Option FindCall} {d : FindCall}
    (h : (w.setCall thread c).calls i = some d) :
    i = thread ∧ c = some d ∨ i ≠ thread ∧ w.calls i = some d := by
  unfold TenantThreads.setCall at h
  dsimp only at h
  by_cases hi : i = thread
  · rw [hi, Function.update_self] at h
    exact .inl ⟨hi, h⟩
  · rw [Function.update_of_ne hi] at h
    exact .inr ⟨hi, h⟩

/-- The list grows, and the call of a thread becomes another one. -/
theorem Formed.change (h : w.Formed l) {T' : Tenantlist}
    {l' : List (Nat × TenantHead)} (hlinked : T'.Linked l') (hgrows : ∀ b ∈ addrs l, b ∈ addrs l')
    (hframe : ∀ i c nt, i ≠ thread → w.calls i = some c → c.place = .missing nt →
      T'.mem nt = w.list.mem nt ∧ nt ∉ addrs l') {d : Option FindCall}
    (hfilled : ∀ e, d = some e → e.place ≠ .filled)
    (hmissing : ∀ e nt, d = some e → e.place = .missing nt →
      (nt ∉ addrs l' ∧ ∃ key, T'.mem nt = some ⟨none, none, e.tenantid, key⟩) ∧
        ∀ i c, i ≠ thread → w.calls i = some c → c.place ≠ .missing nt) :
    ({ w with list := T' }.setCall thread d).Formed l' := by
  refine ⟨hlinked, fun i c nt hc hnt => ?_, fun i j c e nt hc he hcnt hent => ?_,
    fun i c hc => ?_, fun x hx => hgrows _ (h.held x hx), h.exclusive⟩
  · obtain ⟨-, hc⟩ | ⟨hi, hc⟩ := calls_setCall hc
    · exact (hmissing c nt hc hnt).1
    · obtain ⟨hmem, hnew⟩ := hframe i c nt hi hc hnt
      obtain ⟨-, key, hkey⟩ := h.pending i c nt hc hnt
      exact ⟨hnew, key, hmem.trans hkey⟩
  · obtain ⟨hi, hc'⟩ | ⟨hi, hc'⟩ := calls_setCall hc
    · obtain ⟨hj, -⟩ | ⟨hj, he'⟩ := calls_setCall he
      · rw [hi, hj]
      · exact absurd hent ((hmissing c nt hc' hcnt).2 j e hj he')
    · obtain ⟨-, he'⟩ | ⟨-, he'⟩ := calls_setCall he
      · exact absurd hcnt ((hmissing e nt he' hent).2 i c hi hc')
      · exact h.apart i j c e nt hc' he' hcnt hent
  · obtain ⟨-, hc⟩ | ⟨-, hc⟩ := calls_setCall hc
    · exact hfilled c hc
    · exact h.unfilled i c hc

/-- A call begins. -/
theorem Formed.begin (h : w.Formed l) (thread : Nat) {c : FindCall} (hplace : c.place = .start) :
    (w.setCall thread (some c)).Formed l := by
  refine h.change h.linked (fun _ hb => hb) (fun i c nt _ hc hnt => ⟨rfl, (h.pending i c nt hc hnt).1⟩)
    ?_ ?_
  · rintro e he hfilled
    cases he
    rw [hplace] at hfilled
    cases hfilled
  · rintro e nt he hnt
    cases he
    rw [hplace] at hnt
    cases hnt

/-- After its section a call goes on at another place, or it is over. -/
theorem Formed.found (h : w.Formed l) {c : FindCall} (hc : w.calls thread = some c)
    {r : FindStep} {T' : Tenantlist} {l' : List (Nat × TenantHead)} (hf : Found w.list l c r T' l')
    {d : Option FindCall}
    (hd : (∃ p, r = .goes p ∧ d = some { c with place := p }) ∨ d = none) :
    ({ w with list := T' }.setCall thread d).Formed l' := by
  have hframe : ∀ i e nt, i ≠ thread → w.calls i = some e → e.place = .missing nt →
      T'.mem nt = w.list.mem nt ∧ nt ∉ addrs l' := by
    intro i e nt hi he hnt
    obtain ⟨hnew, key, hmem⟩ := h.pending i e nt he hnt
    refine hf.frame nt hnew (fun hcnt => hi (h.apart i thread e c nt he hc hnt hcnt)) ?_
    rw [hmem]
    exact Option.some_ne_none _
  refine h.change hf.linked hf.grows hframe ?_ ?_
  · rintro e he hfilled
    obtain ⟨p, hp, rfl⟩ | rfl := hd
    · cases he
      obtain rfl | ⟨nt, rfl, -⟩ := hf.goes p hp
      · cases hfilled
      · cases hfilled
    · cases he
  · rintro e nt he hnt
    obtain ⟨p, hp, rfl⟩ | rfl := hd
    · cases he
      obtain rfl | ⟨nt', rfl, hfree, hnew, hmem⟩ := hf.goes p hp
      · cases hnt
      · cases hnt
        refine ⟨⟨hnew, hmem⟩, fun i e hi he hent => ?_⟩
        obtain ⟨-, key, hkey⟩ := h.pending i e nt he hent
        rw [hfree] at hkey
        cases hkey
    · cases he

/-- The tenant that is returned is locked. -/
theorem Formed.hold (h : w.Formed l) {t : Nat} {lockt : Tenantlock} (ht : t ∈ addrs l)
    (hlock : w.mayLock t lockt) : { w with held := ⟨thread, t, lockt⟩ :: w.held }.Formed l := by
  refine ⟨h.linked, h.pending, h.apart, h.unfilled, ?_, ?_⟩
  · rintro x hx
    obtain rfl | hx := List.mem_cons.mp hx
    · exact ht
    · exact h.held x hx
  · intro x hx hwrite y hy hxy
    obtain rfl | hxw := List.mem_cons.mp hx
    · obtain rfl | hyw := List.mem_cons.mp hy
      · rfl
      · dsimp only at hwrite
        subst hwrite
        exact absurd hxy (hlock y hyw)
    · obtain rfl | hyw := List.mem_cons.mp hy
      · cases lockt with
        | read =>
          rw [hlock x hxw hxy.symm] at hwrite
          cases hwrite
        | write => exact absurd hxy.symm (hlock x hxw)
      · exact h.exclusive x hxw hwrite y hyw hxy

/-- A tenant of the list gets a key. -/
theorem Formed.setKey (h : w.Formed l) {t : Nat} (ht : t ∈ addrs l) (key : AesKey) :
    ∃ T' l', w.list.write t (fun n => { n with val.key := key }) = .ok T' ∧ addrs l' = addrs l ∧
      { w with list := T' }.Formed l' := by
  obtain ⟨T', hrun, hlinked, -, hframe⟩ := h.linked.setKey ht key
  have haddrs : addrs (l.map fun x => (x.1, if x.1 = t then { x.2 with key := key } else x.2)) =
      addrs l := by
    simp [addrs, Function.comp_def]
  refine ⟨T', _, hrun, haddrs, hlinked, fun i c nt hc hnt => ?_, h.apart, h.unfilled, ?_, h.exclusive⟩
  · obtain ⟨hnew, key', hmem⟩ := h.pending i c nt hc hnt
    exact ⟨by rwa [haddrs], key', (hframe nt hnew).trans hmem⟩
  · rw [haddrs]
    exact h.held

/-- A deletion by the thread that has the tenant locked for writing. -/
theorem Formed.delete (h : w.Formed l) {t : Nat} (hheld : ⟨thread, t, .write⟩ ∈ w.held)
    (prevFree nextFree : Bool) :
    w.list.tenantDelete t prevFree nextFree = .ok (false, w.list) ∨
      ∃ T' l', w.list.tenantDelete t prevFree nextFree = .ok (true, T') ∧
        { w with list := T', held := w.held.filter fun x => x.tenant ≠ t }.Formed l' := by
  obtain ⟨⟨a, v⟩, hmem, rfl⟩ := List.mem_map.mp (h.held _ hheld)
  obtain ⟨l₁, l₂, rfl⟩ := List.append_of_mem hmem
  obtain hback | ⟨T', hrun, hlinked, hframe⟩ := h.linked.tenantDelete prevFree nextFree
  · exact .inl hback
  · refine .inr ⟨T', l₁ ++ l₂, hrun, hlinked, fun i c nt hc hnt => ?_, h.apart, h.unfilled,
      fun x hx => ?_, fun x hx hwrite y hy hxy => ?_⟩
    · obtain ⟨hnew, key, hkey⟩ := h.pending i c nt hc hnt
      refine ⟨fun hmem => hnew ?_, key, (hframe nt hnew).trans hkey⟩
      rw [addrs_append, List.mem_append] at hmem ⊢
      exact hmem.imp_right (List.mem_cons_of_mem _)
    · obtain ⟨hx, hne⟩ := List.mem_filter.mp hx
      have hxl := h.held x hx
      rw [addrs_append, addrs_cons, List.mem_append, List.mem_cons] at hxl
      rw [addrs_append, List.mem_append]
      refine hxl.imp_right fun hx => hx.resolve_left ?_
      simpa using hne
    · exact h.exclusive x (List.mem_of_mem_filter hx) hwrite y (List.mem_of_mem_filter hy) hxy

/-- The caller goes on with a tenant of the list, as soon as it can be locked. -/
theorem Formed.returned (h : (w.setCall thread none).Formed l) {c : FindCall} {t : Nat}
    (ht : t ∈ addrs l) :
    ∃ r, w.returned thread c (some t) = .ok r ∧ ∀ w', r = some w' → ∃ l', w'.Formed l' := by
  unfold TenantThreads.returned
  by_cases hlock : w.mayLock t c.lockt
  · cases c.key with
    | none =>
      refine ⟨some _, by simp only [not_true_eq_false, hlock, if_false]; rfl, fun w' hw' => ?_⟩
      cases hw'
      exact ⟨l, h.hold ht hlock⟩
    | some key =>
      obtain ⟨T', l', hrun, haddrs, hformed⟩ := h.setKey ht key
      have hrun : w.list.write t (fun n => { n with val.key := key }) = .ok T' := hrun
      refine ⟨some _, by simp only [not_true_eq_false, hlock, if_false, hrun]; rfl, fun w' hw' => ?_⟩
      cases hw'
      exact ⟨l', hformed.hold (haddrs ▸ ht) hlock⟩
  · refine ⟨none, ?_, by simp⟩
    cases c.key <;> simp only [hlock, not_false_eq_true, if_true]

/-- A step that is not disturbed succeeds, and the list stays a chain. -/
theorem Formed.step (h : w.Formed l) {e : TenantEvent} (hquiet : Undisturbed w e) :
    ∃ r, tenantStep w e = .ok r ∧ ∀ w', r = some w' → ∃ l', w'.Formed l' := by
  cases e with
  | find thread tenantid lockt =>
    refine ⟨_, rfl, fun w' hw' => ?_⟩
    split at hw'
    · cases hw'
      exact ⟨l, h.begin thread rfl⟩
    · cases hw'
  | create thread tenantid key =>
    refine ⟨_, rfl, fun w' hw' => ?_⟩
    split at hw'
    · cases hw'
      exact ⟨l, h.begin thread rfl⟩
    · cases hw'
  | proceed thread =>
    cases hc : w.calls thread with
    | none => exact ⟨none, by simp only [tenantStep, hc], by simp⟩
    | some c =>
      obtain ⟨r, T', l', hrun, hfound⟩ := h.find hc hquiet
      simp only [tenantStep, hc, hrun, Outcome.ok_bind]
      cases r with
      | goes p =>
        refine ⟨_, rfl, fun w' hw' => ?_⟩
        cases hw'
        exact ⟨l', h.found hc hfound (.inl ⟨p, rfl, rfl⟩)⟩
      | returns t =>
        obtain ⟨a, v, rfl, hmem, -⟩ := hfound.returns t rfl
        exact (h.found hc hfound (.inr rfl)).returned (List.mem_map_of_mem hmem)
  | done thread t =>
    refine ⟨_, rfl, fun w' hw' => ?_⟩
    cases hw'
    refine ⟨l, h.linked, h.pending, h.apart, h.unfilled,
      fun x hx => h.held x (List.mem_of_mem_filter hx), fun x hx hwrite y hy hxy => ?_⟩
    exact h.exclusive x (List.mem_of_mem_filter hx) hwrite y (List.mem_of_mem_filter hy) hxy
  | delete thread t prevFree nextFree =>
    simp only [tenantStep]
    split
    · rename_i hheld
      obtain hback | ⟨T', l', hrun, hformed⟩ := h.delete hheld.2 prevFree nextFree
      · refine ⟨_, by rw [hback]; rfl, fun w' hw' => ?_⟩
        cases hw'
        exact ⟨l, h⟩
      · refine ⟨_, by rw [hrun]; rfl, fun w' hw' => ?_⟩
        cases hw'
        exact ⟨l', hformed⟩
    · exact ⟨none, rfl, by simp⟩

theorem Formed.init : Formed ⟨.tenantInit, fun _ => none, []⟩ [] := by
  refine ⟨⟨⟨⟨rfl, rfl⟩, List.nodup_nil, List.nodup_nil⟩, fun _ _ => rfl⟩, ?_, ?_, ?_, by simp, by simp⟩
  · intro i c nt hc
    cases hc
  · intro i j c d nt hc
    cases hc
  · intro i c hc
    cases hc

theorem Formed.right (h : w.Formed l) {e : TenantEvent} (hquiet : Undisturbed w e) :
    SectionRight w e := by
  cases e with
  | proceed thread =>
    intro c hc
    obtain ⟨r, T', l', hrun, hfound⟩ := h.find hc hquiet
    refine ⟨r, T', hrun, fun hfilled => ?_, fun t ht => ?_⟩
    · obtain hp | ⟨nt, hp, -⟩ := hfound.goes _ hfilled
      · cases hp
      · cases hp
    · obtain ⟨a, v, ha, hmem, hv⟩ := hfound.returns t ht
      exact ⟨a, l', v, ha, hfound.linked.chain, hmem, hv⟩
  | delete thread t prevFree nextFree =>
    intro _ hheld
    obtain hback | ⟨T', l', hrun, -⟩ := h.delete hheld prevFree nextFree
    · exact ⟨false, w.list, hback, fun _ => rfl⟩
    · exact ⟨true, T', hrun, by simp⟩
  | find thread tenantid lockt => trivial
  | create thread tenantid key => trivial
  | done thread t => trivial

/-- A section that is disturbed goes wrong. -/
theorem Formed.undisturbed (h : w.Formed l) {e : TenantEvent} (hright : SectionRight w e) :
    Undisturbed w e := by
  cases e with
  | proceed thread =>
    intro c hc
    obtain ⟨r, list, hrun, hfilled, hreturns⟩ := hright c hc
    cases hplace : c.place with
    | start => trivial
    | filled => trivial
    | empty =>
      dsimp only
      rw [hplace] at hrun
      cases hfirst : w.list.first with
      | none => rfl
      | some t =>
        simp only [tenantFindSection, hfirst] at hrun
        cases hrun
        exact absurd rfl hfilled
    | missing nt =>
      dsimp only
      rw [hplace] at hrun
      obtain ⟨hnew, key, hmem⟩ := h.pending thread c nt hc hplace
      have hne : l ≠ [] := by
        rintro rfl
        have hlast : w.list.last = none := h.linked.chain.1.last_eq
        simp only [tenantFindSection, hlast] at hrun
        cases hrun
      obtain ⟨t, hfirst⟩ : ∃ t, w.list.first = some t := by
        cases hfirst : w.list.first with
        | none => exact absurd (Tenantlist.Chain.eq_nil h.linked.chain hfirst) hne
        | some t => exact ⟨t, rfl⟩
      refine ⟨t, hfirst, ?_⟩
      rw [h.linked.lookFrom hfirst]
      refine congrArg Except.ok (Option.map_eq_none_iff.mpr (List.find?_eq_none.mpr ?_))
      intro x hx hid
      -- otherwise the id is in the list twice
      obtain ⟨T', hrun', -, hseg, -⟩ := tenantFindSection_missing h.linked hne hnew hmem
      rw [hrun'] at hrun
      cases hrun
      obtain ⟨a, l', v, -, hchain, -, -⟩ := hreturns _ rfl
      obtain rfl : l' = l ++ [(nt, ⟨c.tenantid, key⟩)] := Seg.unique hchain.1 hseg
      have hnodup := hchain.2.2
      rw [List.map_append, List.nodup_append] at hnodup
      exact hnodup.2.2 _ (List.mem_map_of_mem hx) _ (List.mem_singleton_self _) (by simpa using hid)
  | find thread tenantid lockt => trivial
  | create thread tenantid key => trivial
  | done thread t => trivial
  | delete thread t prevFree nextFree => trivial

end TenantThreads

theorem tenantRuns_formed {es : List TenantEvent} {w : TenantThreads}
    (h : (tenantRuns.guard Undisturbed).History es w) : ∃ l, w.Formed l := by
  apply h.induction (I := fun _ w => ∃ l, w.Formed l)
  · rintro w rfl
    exact ⟨[], .init⟩
  · intro es w e w' hformed hstep
    obtain ⟨l, hl⟩ := hformed
    obtain ⟨r, hrun, hr⟩ := hl.step hstep.1
    have hstep : tenantStep w e = .ok (some w') := hstep.2
    rw [hrun] at hstep
    exact hr w' (Except.ok.inj hstep)

/-- As long as nobody changes the list between two sections of a `tenant_find` in a way that it
does not look for, the list is a chain without duplicates and nothing faults; and a further step
finds what it should, and leaves the list alone if it backs out, if and only if that goes for it
too. -/
theorem tenants_right_iff {es : List TenantEvent} {w : TenantThreads}
    (h : (tenantRuns.guard Undisturbed).History es w) :
    (∃ l, w.list.Chain l) ∧ ∀ e, (SectionRight w e ↔ Undisturbed w e) ∧
      (Undisturbed w e → ∃ r, tenantStep w e = .ok r) := by
  obtain ⟨l, hl⟩ := tenantRuns_formed h
  refine ⟨⟨l, hl.linked.chain⟩, fun e => ⟨⟨hl.undisturbed, hl.right⟩, fun hquiet => ?_⟩⟩
  obtain ⟨r, hrun, -⟩ := hl.step hquiet
  exact ⟨r, hrun⟩

/-- Nobody has looked for a tenant yet. -/
def quietThreads : TenantThreads := ⟨.tenantInit, fun _ => none, []⟩

theorem tenants_right_iff_first :
    (∃ l, (quietThreads.setCall 1 (some ⟨⟨0, 1⟩, .write, none, .start⟩)).list.Chain l) ∧ ∀ e,
      (SectionRight (quietThreads.setCall 1 (some ⟨⟨0, 1⟩, .write, none, .start⟩)) e ↔
        Undisturbed (quietThreads.setCall 1 (some ⟨⟨0, 1⟩, .write, none, .start⟩)) e) ∧
      (Undisturbed (quietThreads.setCall 1 (some ⟨⟨0, 1⟩, .write, none, .start⟩)) e →
        ∃ r, tenantStep (quietThreads.setCall 1 (some ⟨⟨0, 1⟩, .write, none, .start⟩)) e = .ok r) :=
  @tenants_right_iff [.find 1 ⟨0, 1⟩ .write] _
    ((Transition.History.init (s := quietThreads) rfl).step ⟨trivial, rfl⟩)

/-- Two threads see an empty list, and the second one is faster. -/
theorem tenant_find_null : ∃ es w c list, tenantRuns.History es w ∧ w.calls 1 = some c ∧
    tenantFindSection w.list c.tenantid c.place = .ok (.returns none, list) := by
  have h₀ : tenantRuns.History [] quietThreads := .init rfl
  have h₁ := h₀.step (show tenantStep quietThreads (.find 1 ⟨0, 1⟩ .write) = .ok (some _) from rfl)
  have h₂ := h₁.step (show tenantStep _ (.find 2 ⟨0, 2⟩ .write) = .ok (some _) from rfl)
  have h₃ := h₂.step (show tenantStep _ (.proceed 1) = .ok (some _) from rfl)
  have h₄ := h₃.step (show tenantStep _ (.proceed 2) = .ok (some _) from rfl)
  have h₅ := h₄.step (show tenantStep _ (.proceed 2) = .ok (some _) from rfl)
  have h₆ := h₅.step (show tenantStep _ (.proceed 1) = .ok (some _) from rfl)
  exact ⟨_, _, _, _, h₆, rfl, rfl⟩

end Opticon
