import Mathlib.Data.List.Flatten
import Mathlib.Data.List.Pairwise
import Mathlib.Data.List.Perm.Basic
import Opticon.Collector.SessionLaws
import Opticon.Collector.Tenant

/-! What the operations on tenants and hosts link and unlink. -/

namespace Opticon

namespace Collector

variable {c : Collector}

/-- No two tenants share their id, no two hosts their address, and no two hosts of a tenant
their id; addresses are given out in order. -/
structure Arranged (c : Collector) : Prop where
  tenantids : c.tenants.Pairwise fun t t' => t.uuid ≠ t'.uuid
  fresh : ∀ n ∈ c.linked, n.2.addr < c.next
  addrs : c.linked.Pairwise fun n n' => n.2.addr ≠ n'.2.addr
  hostids : c.linked.Pairwise fun n n' => ¬ (n.1 = n'.1 ∧ n.2.host.uuid = n'.2.host.uuid)

/-- The host at an address is linked in the list of a tenant, under its id. -/
def Links (c : Collector) (addr : Nat) (tenantid hostid : Uuid) : Prop :=
  ∃ n ∈ c.linked, n.1 = tenantid ∧ n.2.addr = addr ∧ n.2.host.uuid = hostid

/-- Where a linked host is to be found. -/
def place (n : Uuid × HostNode) : Uuid × Nat × Uuid := (n.1, n.2.addr, n.2.host.uuid)

theorem links_iff {addr : Nat} {T H : Uuid} :
    c.Links addr T H ↔ (T, addr, H) ∈ c.linked.map place := by
  simp only [Links, place, List.mem_map, Prod.mk.injEq]

theorem mem_linked {n : Uuid × HostNode} :
    n ∈ c.linked ↔ ∃ t ∈ c.tenants, t.uuid = n.1 ∧ n.2 ∈ t.hosts := by
  obtain ⟨T, n⟩ := n
  simp [linked, and_comm]

theorem Arranged.empty : Arranged .empty := by
  constructor
  · exact List.Pairwise.nil
  · intro n hn
    exact absurd hn List.not_mem_nil
  · exact List.Pairwise.nil
  · exact List.Pairwise.nil

theorem eq_of_pairwise_ne {α β : Type} {f : α → β} {l : List α}
    (hl : l.Pairwise fun a b => f a ≠ f b) {a b : α} (ha : a ∈ l) (hb : b ∈ l) (hab : f a = f b) :
    a = b := by
  by_contra hne
  have hsymm : Std.Symm fun a b : α => f a ≠ f b := ⟨fun _ _ h => h.symm⟩
  exact hl.forall ha hb hne hab

theorem Arranged.eq_of_addr (hc : c.Arranged) {n n' : Uuid × HostNode} (hn : n ∈ c.linked)
    (hn' : n' ∈ c.linked) (h : n.2.addr = n'.2.addr) : n = n' :=
  eq_of_pairwise_ne (f := fun n => n.2.addr) hc.addrs hn hn' h

theorem Arranged.links_unique (hc : c.Arranged) {addr : Nat} {T T' H H' : Uuid}
    (h : c.Links addr T H) (h' : c.Links addr T' H') : T = T' ∧ H = H' := by
  obtain ⟨n, hn, rfl, haddr, rfl⟩ := h
  obtain ⟨n', hn', rfl, haddr', rfl⟩ := h'
  obtain rfl := hc.eq_of_addr hn hn' (haddr.trans haddr'.symm)
  exact ⟨rfl, rfl⟩

theorem deref_ok {addr : Nat} {h : Host} (hd : c.deref addr = .ok h) :
    ∃ n ∈ c.linked, n.2.addr = addr ∧ n.2.host = h := by
  unfold deref at hd
  split at hd
  · cases hd
  · rename_i n hfind
    refine ⟨n, List.mem_of_find?_eq_some hfind, ?_, Except.ok.inj hd⟩
    simpa using List.find?_some hfind

theorem Links.deref {addr : Nat} {T H : Uuid} (h : c.Links addr T H) :
    ∃ host, c.deref addr = .ok host := by
  obtain ⟨n, hn, -, haddr, -⟩ := h
  unfold Collector.deref
  split
  · rename_i hfind
    exact absurd haddr (by simpa using List.find?_eq_none.mp hfind n hn)
  · exact ⟨_, rfl⟩

theorem Arranged.links_deref (hc : c.Arranged) {addr : Nat} {T H : Uuid} (h : c.Links addr T H)
    {host : Host} (hd : c.deref addr = .ok host) : host.uuid = H := by
  obtain ⟨n, hn, -, haddr, rfl⟩ := h
  obtain ⟨n', hn', haddr', rfl⟩ := deref_ok hd
  rw [hc.eq_of_addr hn' hn (haddr'.trans haddr.symm)]

section SetHost

variable (c) (addr : Nat) (h : Host)

theorem linked_setHost : (c.setHost addr h).linked =
    c.linked.map fun n => (n.1, if n.2.addr = addr then { n.2 with host := h } else n.2) := by
  simp only [linked, setHost, List.flatMap_map, List.map_flatMap, List.map_map]
  rfl

variable {c addr h} (hid : ∀ n ∈ c.linked, n.2.addr = addr → n.2.host.uuid = h.uuid)

include hid

theorem map_place_setHost : (c.setHost addr h).linked.map place = c.linked.map place := by
  rw [linked_setHost, List.map_map]
  apply List.map_congr_left
  intro n hn
  by_cases ha : n.2.addr = addr
  · simp [place, ha, hid n hn ha]
  · simp [place, ha]

theorem links_setHost {q : Nat} {T H : Uuid} : (c.setHost addr h).Links q T H ↔ c.Links q T H := by
  rw [links_iff, links_iff, map_place_setHost hid]

theorem Arranged.setHost (hc : c.Arranged) : (c.setHost addr h).Arranged := by
  have hpair {R : Uuid × Nat × Uuid → Uuid × Nat × Uuid → Prop}
      (hl : c.linked.Pairwise fun n n' => R (place n) (place n')) :
      (c.setHost addr h).linked.Pairwise fun n n' => R (place n) (place n') := by
    have hmap := List.pairwise_map.mpr hl
    rw [← map_place_setHost hid] at hmap
    exact List.pairwise_map.mp hmap
  refine ⟨?_, ?_, ?_, ?_⟩
  · exact List.pairwise_map.mpr hc.tenantids
  · intro n hn
    have hmem := List.mem_map_of_mem (f := place) hn
    rw [map_place_setHost hid] at hmem
    obtain ⟨n', hn', heq⟩ := List.mem_map.mp hmem
    have haddr : n'.2.addr = n.2.addr := congrArg (fun p => p.2.1) heq
    rw [← haddr]
    exact hc.fresh n' hn'
  · exact hpair (R := fun p q => p.2.1 ≠ q.2.1) hc.addrs
  · exact hpair (R := fun p q => ¬ (p.1 = q.1 ∧ p.2.2 = q.2.2)) hc.hostids

end SetHost

theorem deref_setHost {addr : Nat} {h : Host} (hd : c.deref addr = .ok h) (h' : Host) :
    (c.setHost addr h').deref addr = .ok h' := by
  let write (n : Uuid × HostNode) := (n.1, if n.2.addr = addr then { n.2 with host := h' } else n.2)
  have haddr : (fun n : Uuid × HostNode => n.2.addr == addr) ∘ write = fun n => n.2.addr == addr := by
    funext n
    by_cases ha : n.2.addr = addr
    · simp [write, ha]
    · simp [write, ha]
  unfold deref at hd ⊢
  split at hd
  · cases hd
  · rename_i n hfind
    have hn : n.2.addr = addr := by simpa using List.find?_some hfind
    have hwritten : (c.setHost addr h').linked.find? (fun n => n.2.addr == addr) = some (write n) := by
      rw [linked_setHost, List.find?_map, haddr, hfind]
      rfl
    rw [hwritten]
    simp [write, hn]

theorem is_iff {tenantid : Uuid} {t : Tenant} : t.is tenantid = true ↔ t.uuid = tenantid := by
  simp [Tenant.is]

section ModifyTenant

variable {tenantid : Uuid} {f : Tenant → Tenant} (hf : ∀ t, (f t).uuid = t.uuid)

include hf

theorem map_uuid_modifyTenant :
    (c.modifyTenant tenantid f).tenants.map Tenant.uuid = c.tenants.map Tenant.uuid :=
  map_updateFirst hf _

theorem tenantids_modifyTenant (hc : c.tenants.Pairwise fun t t' => t.uuid ≠ t'.uuid) :
    (c.modifyTenant tenantid f).tenants.Pairwise fun t t' => t.uuid ≠ t'.uuid := by
  have hmap := List.pairwise_map.mpr hc
  rw [← map_uuid_modifyTenant hf] at hmap
  exact List.pairwise_map.mp hmap

/-- A write to a tenant that leaves its hosts alone. -/
theorem linked_modifyTenant (hhosts : ∀ t, (f t).hosts = t.hosts) :
    (c.modifyTenant tenantid f).linked = c.linked := by
  unfold linked modifyTenant
  induction c.tenants with
  | nil => rfl
  | cons t ts ih =>
    simp only [updateFirst]
    split
    · simp [hf, hhosts]
    · simp only [List.flatMap_cons] at ih ⊢
      rw [ih]

end ModifyTenant

/-- A host that is linked in at the end of a tenant's list. -/
theorem linked_addHost {tenantid : Uuid} (nh : HostNode)
    (ht : ∃ t ∈ c.tenants, t.uuid = tenantid) :
    (c.modifyTenant tenantid fun t => { t with hosts := t.hosts ++ [nh] }).linked.Perm
      ((tenantid, nh) :: c.linked) := by
  unfold linked modifyTenant
  induction hts : c.tenants generalizing c with
  | nil => simp [hts] at ht
  | cons t ts ih =>
    simp only [updateFirst]
    split
    · rename_i his
      obtain rfl := is_iff.mp his
      simp only [List.flatMap_cons, List.map_append, List.map_cons, List.map_nil, List.append_assoc]
      exact List.perm_middle
    · rename_i his
      have hex : ∃ t ∈ ts, t.uuid = tenantid := by
        obtain ⟨t', ht', rfl⟩ := ht
        rw [hts] at ht'
        obtain rfl | ht' := List.mem_cons.mp ht'
        · simp [Tenant.is] at his
        · exact ⟨t', ht', rfl⟩
      have hperm := ih (c := { c with tenants := ts }) hex rfl
      simp only [List.flatMap_cons]
      exact (hperm.append_left _).trans List.perm_middle

theorem tenantFind_spec (hc : c.Arranged) (tenantid : Uuid) :
    (tenantFind c tenantid).2.Arranged ∧ (tenantFind c tenantid).2.sessions = c.sessions ∧
      (tenantFind c tenantid).2.linked = c.linked ∧
      (tenantFind c tenantid).1 ∈ (tenantFind c tenantid).2.tenants ∧
      (tenantFind c tenantid).1.uuid = tenantid := by
  unfold tenantFind
  split
  · rename_i t hfind
    exact ⟨hc, rfl, rfl, List.mem_of_find?_eq_some hfind, is_iff.mp (List.find?_some hfind)⟩
  · rename_i hfind
    have hlinked : { c with tenants := c.tenants ++ [tenantAlloc tenantid] }.linked = c.linked := by
      simp [linked, tenantAlloc]
    refine ⟨⟨?_, ?_, ?_, ?_⟩, rfl, hlinked, by simp, rfl⟩
    · refine List.pairwise_append.mpr ⟨hc.tenantids, List.pairwise_singleton _ _, ?_⟩
      intro t ht t' ht'
      obtain rfl := List.mem_singleton.mp ht'
      intro heq
      exact List.find?_eq_none.mp hfind t ht (is_iff.mpr heq)
    · rw [hlinked]
      exact hc.fresh
    · rw [hlinked]
      exact hc.addrs
    · rw [hlinked]
      exact hc.hostids

/-- The host that is found or created is linked, and what was linked stays so. -/
theorem hostFind_spec (hc : c.Arranged) (tenantid hostid : Uuid) :
    (hostFind c tenantid hostid).2.Arranged ∧
      (hostFind c tenantid hostid).2.sessions = c.sessions ∧
      (hostFind c tenantid hostid).2.Links (hostFind c tenantid hostid).1 tenantid hostid ∧
      ∀ addr T H, c.Links addr T H → (hostFind c tenantid hostid).2.Links addr T H := by
  obtain ⟨hc', hsess, hlinked, hmem, hid⟩ := tenantFind_spec hc tenantid
  unfold hostFind
  generalize hT : tenantFind c tenantid = r at hc' hsess hlinked hmem hid
  obtain ⟨t, c'⟩ := r
  simp only at hc' hsess hlinked hmem hid ⊢
  have hkeep : ∀ addr T H, c.Links addr T H → c'.Links addr T H := by
    intro addr T H hl
    unfold Links at hl ⊢
    rw [hlinked]
    exact hl
  split
  · rename_i n hfind
    refine ⟨hc', hsess, ⟨(tenantid, n), ?_, rfl, rfl, ?_⟩, hkeep⟩
    · exact mem_linked.mpr ⟨t, hmem, hid, List.mem_of_find?_eq_some hfind⟩
    · simpa using List.find?_some hfind
  · rename_i hfind
    have hperm := linked_addHost (c := c') ⟨c'.next, hostAlloc hostid⟩ ⟨t, hmem, hid⟩
    have hmem' {n : Uuid × HostNode} := hperm.mem_iff (a := n)
    -- a host of this tenant under this id would have been found
    have hnew : ∀ n ∈ c'.linked, ¬ (n.1 = tenantid ∧ n.2.host.uuid = hostid) := by
      rintro n hn ⟨hn₁, hn₂⟩
      obtain ⟨t', ht', hid', hhost⟩ := mem_linked.mp hn
      obtain rfl := eq_of_pairwise_ne hc'.tenantids ht' hmem (by rw [hid', hn₁, hid])
      exact List.find?_eq_none.mp hfind n.2 hhost (by simp [hn₂])
    refine ⟨⟨?_, ?_, ?_, ?_⟩, hsess, ?_, ?_⟩
    · exact tenantids_modifyTenant (c := c') (fun _ => rfl) hc'.tenantids
    · intro n hn
      obtain rfl | hn := List.mem_cons.mp (hmem'.mp hn)
      · exact Nat.lt_succ_self _
      · exact Nat.lt_succ_of_lt (hc'.fresh n hn)
    · refine (hperm.pairwise_iff ?_).mpr (List.pairwise_cons.mpr ⟨?_, hc'.addrs⟩)
      · intro a b h
        exact h.symm
      · intro n hn
        exact (Nat.ne_of_lt (hc'.fresh n hn)).symm
    · refine (hperm.pairwise_iff ?_).mpr (List.pairwise_cons.mpr ⟨?_, hc'.hostids⟩)
      · rintro a b h ⟨h₁, h₂⟩
        exact h ⟨h₁.symm, h₂.symm⟩
      · rintro n hn ⟨h₁, h₂⟩
        exact hnew n hn ⟨h₁.symm, h₂.symm⟩
    · exact ⟨_, hmem'.mpr List.mem_cons_self, rfl, rfl, rfl⟩
    · intro addr T H hl
      obtain ⟨n, hn, h⟩ := hkeep addr T H hl
      exact ⟨n, hmem'.mpr (List.mem_cons_of_mem _ hn), h⟩

/-- What is linked then was so before, or is a new host. -/
theorem mem_linked_hostFind (hc : c.Arranged) {tenantid hostid : Uuid} {n : Uuid × HostNode}
    (hn : n ∈ (hostFind c tenantid hostid).2.linked) : n ∈ c.linked ∨ n.2.host = hostAlloc hostid := by
  obtain ⟨-, -, hlinked, hmem, hid⟩ := tenantFind_spec hc tenantid
  unfold hostFind at hn
  generalize hT : tenantFind c tenantid = r at hn hlinked hmem hid
  obtain ⟨t, c'⟩ := r
  dsimp only at hn hlinked hmem hid
  rw [← hlinked]
  split at hn
  · exact .inl hn
  · have hperm := linked_addHost (c := c') ⟨c'.next, hostAlloc hostid⟩ ⟨t, hmem, hid⟩
    obtain rfl | hn := List.mem_cons.mp (hperm.mem_iff.mp hn)
    · exact .inr rfl
    · exact .inl hn

/-- Unlinking leaves the rest arranged. -/
theorem Arranged.of_sublist {c' : Collector} (hc : c.Arranged)
    (htenants : c'.tenants.Pairwise fun t t' => t.uuid ≠ t'.uuid)
    (hlinked : c'.linked.Sublist c.linked) (hnext : c'.next = c.next) : c'.Arranged := by
  refine ⟨htenants, ?_, hc.addrs.sublist hlinked, hc.hostids.sublist hlinked⟩
  intro n hn
  rw [hnext]
  exact hc.fresh n (hlinked.subset hn)

section HostDelete

variable (c) (addr : Nat)

theorem linked_hostDelete :
    (hostDelete c addr).linked = c.linked.filter fun n => n.2.addr != addr := by
  unfold linked hostDelete
  rw [List.flatMap_map, List.filter_flatMap]
  congr 1
  funext t
  rw [List.filter_map]
  rfl

variable {c addr}

theorem Arranged.hostDelete (hc : c.Arranged) : (Opticon.hostDelete c addr).Arranged := by
  refine hc.of_sublist (List.pairwise_map.mpr hc.tenantids) ?_ rfl
  rw [linked_hostDelete]
  exact List.filter_sublist

theorem links_hostDelete {q : Nat} {T H : Uuid} :
    (Opticon.hostDelete c addr).Links q T H ↔ c.Links q T H ∧ q ≠ addr := by
  unfold Links
  simp only [linked_hostDelete, List.mem_filter, bne_iff_ne]
  constructor
  · rintro ⟨n, ⟨hn, hne⟩, hT, rfl, hH⟩
    exact ⟨⟨n, hn, hT, rfl, hH⟩, hne⟩
  · rintro ⟨⟨n, hn, hT, rfl, hH⟩, hne⟩
    exact ⟨n, ⟨hn, hne⟩, hT, rfl, hH⟩

end HostDelete

section TenantDelete

variable {tenantid : Uuid} {prevLock nextLock : Bool}

/-- A tenant is deleted with its hosts and its sessions, or nothing is done. -/
theorem tenantDelete_cases (c : Collector) (tenantid : Uuid) (prevLock nextLock : Bool) :
    tenantDelete c tenantid prevLock nextLock = c ∨
      tenantDelete c tenantid prevLock nextLock = { c with
        tenants := c.tenants.eraseP (Tenant.is tenantid)
        sessions := sessiondbRemoveTenant c.sessions tenantid } := by
  rw [List.eraseP_eq_eraseIdx]
  unfold tenantDelete
  cases c.tenants.findIdx? (Tenant.is tenantid) with
  | none => exact .inl rfl
  | some i =>
    simp only
    split
    · exact .inl rfl
    · split
      · exact .inl rfl
      · exact .inr rfl

theorem Arranged.tenantDelete (hc : c.Arranged) (db : Sessiondb) :
    { c with tenants := c.tenants.eraseP (Tenant.is tenantid), sessions := db }.Arranged := by
  have hsub : (c.tenants.eraseP (Tenant.is tenantid)).Sublist c.tenants := List.eraseP_sublist
  refine hc.of_sublist (hc.tenantids.sublist hsub) ?_ rfl
  exact hsub.flatMap _

theorem Links.tenantDelete {addr : Nat} {T H : Uuid} (h : c.Links addr T H) (hT : T ≠ tenantid)
    (db : Sessiondb) :
    { c with tenants := c.tenants.eraseP (Tenant.is tenantid), sessions := db }.Links addr T H := by
  obtain ⟨n, hn, rfl, haddr, hH⟩ := h
  obtain ⟨t, ht, hid, hhost⟩ := mem_linked.mp hn
  refine ⟨n, mem_linked.mpr ⟨t, ?_, hid, hhost⟩, rfl, haddr, hH⟩
  refine (List.mem_eraseP_of_neg ?_).mpr ht
  rw [is_iff, hid]
  exact hT

end TenantDelete

end Collector

end Opticon
