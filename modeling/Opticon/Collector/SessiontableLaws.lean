import Mathlib.Data.List.Perm.Subperm
import Opticon.Collector.Sessiontable

/-! What the operations on the session table do to buckets that are well linked. -/

namespace Opticon

open Linked

namespace Sessiontable

variable {t t' : Sessiontable} {L : BitVec 8 → List (Nat × Session)} {i j : BitVec 8}
  {l l₁ l₂ : List (Nat × Session)} {a : Nat} {v : Session} {cutoff fuel : Nat}

@[simp] theorem read_eq {node : Node Session} (h : t.mem a = some node) : t.read a = .ok node := by
  simp [read, h]

@[simp] theorem write_eq {node : Node Session} (h : t.mem a = some node)
    (f : Node Session → Node Session) : t.write a f = .ok (t.set a (some (f node))) := by
  simp [write, read_eq h]

/-- The sessions of each bucket, in order: the bucket is a doubly linked list of them, they hash
to it, and no others are allocated. -/
structure Lists (t : Sessiontable) (L : BitVec 8 → List (Nat × Session)) : Prop where
  walk : ∀ i, Seg t.mem none (t.first i) (L i) (t.last i) none
  nodup : ∀ i, (addrs (L i)).Nodup
  placed : ∀ i, ∀ x ∈ L i, sessionBucket x.2.addr x.2.sessid = i
  only : ∀ n node, t.mem n = some node → ∃ i, n ∈ addrs (L i)
  fresh : ∀ n, t.next ≤ n → t.mem n = none

theorem Lists.init : Lists sessiondbInit fun _ => [] := by
  refine ⟨fun _ => ⟨rfl, rfl⟩, fun _ => List.nodup_nil, ?_, ?_, fun _ _ => rfl⟩
  · intro i x hx
    cases hx
  · intro n node hn
    cases hn

theorem Lists.lt_next (h : Lists t L) (ha : a ∈ addrs (L i)) : a < t.next := by
  obtain ⟨n, hn⟩ := (h.walk i).allocated ha
  by_contra hle
  rw [h.fresh a (Nat.le_of_not_lt hle)] at hn
  cases hn

theorem Lists.length_le (h : Lists t L) (i : BitVec 8) : (L i).length ≤ t.next := by
  have hsub : addrs (L i) ⊆ List.range t.next := by
    intro a ha
    exact List.mem_range.mpr (h.lt_next ha)
  have hlen := ((h.nodup i).subperm hsub).length_le
  rwa [List.length_range, addrs, List.length_map] at hlen

/-- A session is in one bucket only. -/
theorem Lists.apart (h : Lists t L) (hi : a ∈ addrs (L i)) (hj : a ∈ addrs (L j)) : i = j := by
  obtain ⟨x, hx, rfl⟩ := List.mem_map.mp hi
  obtain ⟨y, hy, hxy⟩ := List.mem_map.mp hj
  obtain ⟨n, hn, hv⟩ := (h.walk i).lookup (a := x.1) (v := x.2) hx
  obtain ⟨n', hn', hv'⟩ := (h.walk j).lookup (a := y.1) (v := y.2) hy
  rw [hxy, hn] at hn'
  cases hn'
  rw [← h.placed i x hx, ← h.placed j y hy, ← hv, ← hv']

/-- Another list for one bucket: its nodes were in the bucket or are new, and those that left it
are freed. -/
theorem Lists.replace (h : Lists t L)
    (hwalk : Seg t'.mem none (t'.first i) l (t'.last i) none) (hnodup : (addrs l).Nodup)
    (hplaced : ∀ x ∈ l, sessionBucket x.2.addr x.2.sessid = i)
    (hfirst : ∀ j, j ≠ i → t'.first j = t.first j) (hlast : ∀ j, j ≠ i → t'.last j = t.last j)
    (hmem : ∀ n, n ∉ addrs (L i) → n ∉ addrs l → t'.mem n = t.mem n)
    (hfreed : ∀ n ∈ addrs (L i), n ∉ addrs l → t'.mem n = none)
    (hnew : ∀ n ∈ addrs l, n ∈ addrs (L i) ∨ t.mem n = none) (hnext : t.next ≤ t'.next)
    (hlt : ∀ n ∈ addrs l, n < t'.next) : Lists t' (Function.update L i l) := by
  refine ⟨fun j => ?_, fun j => ?_, fun j => ?_, fun n node hn => ?_, fun n hn => ?_⟩
  · by_cases hj : j = i
    · subst hj
      rw [Function.update_self]
      exact hwalk
    · rw [Function.update_of_ne hj, hfirst j hj, hlast j hj]
      refine (h.walk j).congr fun b hb => hmem b ?_ ?_
      · intro hbi
        exact hj (h.apart hb hbi)
      · intro hbl
        obtain hbi | hnone := hnew b hbl
        · exact hj (h.apart hb hbi)
        · obtain ⟨n, hn⟩ := (h.walk j).allocated hb
          rw [hnone] at hn
          cases hn
  · by_cases hj : j = i
    · subst hj
      rwa [Function.update_self]
    · rw [Function.update_of_ne hj]
      exact h.nodup j
  · by_cases hj : j = i
    · subst hj
      rwa [Function.update_self]
    · rw [Function.update_of_ne hj]
      exact h.placed j
  · by_cases hnl : n ∈ addrs l
    · exact ⟨i, by rwa [Function.update_self]⟩
    · by_cases hni : n ∈ addrs (L i)
      · rw [hfreed n hni hnl] at hn
        cases hn
      · rw [hmem n hni hnl] at hn
        obtain ⟨j, hj⟩ := h.only n node hn
        have hne : j ≠ i := by
          rintro rfl
          exact hni hj
        exact ⟨j, by rwa [Function.update_of_ne hne]⟩
  · have hnl : n ∉ addrs l := fun hmem' => absurd (hlt n hmem') (Nat.not_lt.mpr hn)
    by_cases hni : n ∈ addrs (L i)
    · exact hfreed n hni hnl
    · rw [hmem n hni hnl]
      exact h.fresh n (hnext.trans hn)

/-- A session can be written to, if it stays where it hashes to. -/
theorem Lists.setVal (h : Lists t L) (hL : L i = l₁ ++ (a, v) :: l₂) :
    ∃ node, t.mem a = some node ∧ node.val = v ∧ node.next = (addrs l₂).head? ∧
      ∀ w : Session, w.addr = v.addr → w.sessid = v.sessid →
        Lists (t.set a (some { node with val := w })) (Function.update L i (l₁ ++ (a, w) :: l₂)) := by
  have hwalk := hL ▸ h.walk i
  obtain ⟨prev, _, hl₁, rfl, next, hm, hl₂⟩ := seg_append.mp hwalk
  have haddrs (w : Session) : addrs (l₁ ++ (a, w) :: l₂) = addrs (L i) := by
    rw [hL, addrs_append, addrs_append]
    rfl
  have hdup : (addrs l₁ ++ a :: addrs l₂).Nodup := by simpa [hL] using h.nodup i
  obtain ⟨-, hd₂, hdis⟩ := List.nodup_append.mp hdup
  have ha₁ : a ∉ addrs l₁ := fun hmem => hdis a hmem a List.mem_cons_self rfl
  refine ⟨_, hm, rfl, hl₂.first_eq, fun w haddr hsessid => ?_⟩
  have hai : a ∈ addrs (L i) := by simp [hL]
  refine h.replace ?_ (haddrs w ▸ h.nodup i) ?_ (fun _ _ => rfl) (fun _ _ => rfl) ?_ ?_ ?_ le_rfl ?_
  · refine seg_append.mpr ⟨prev, some a, hl₁.update ha₁ _, rfl, next, Function.update_self _ _ _, ?_⟩
    exact hl₂.update (List.nodup_cons.mp hd₂).1 _
  · intro x hx
    have hplaced := h.placed i
    rw [hL] at hplaced
    obtain hx | hx := List.mem_append.mp hx
    · exact hplaced x (List.mem_append_left _ hx)
    · obtain rfl | hx := List.mem_cons.mp hx
      · have hv := hplaced (a, v) (by simp)
        rwa [haddr, hsessid]
      · exact hplaced x (List.mem_append_right _ (List.mem_cons_of_mem _ hx))
  · intro n hn _
    have hna : n ≠ a := by
      rintro rfl
      exact hn hai
    exact Function.update_of_ne hna _ _
  · intro n hn hnl
    rw [haddrs w] at hnl
    exact absurd hn hnl
  · intro n hn
    rw [haddrs w] at hn
    exact .inl hn
  · intro n hn
    rw [haddrs w] at hn
    exact h.lt_next hn

/-- The four ways to take a session out of a bucket. -/
theorem unlink_eq (i : BitVec 8) (v : Session) {prev next : Option Nat} (hprev : ∀ p, prev = some p → t.mem p ≠ none)
    (hnext : ∀ n, next = some n → t.mem n ≠ none) :
    ∃ t', t.unlink i ⟨prev, next, v⟩ = .ok t' ∧
      t'.mem = withPrev (withNext t.mem prev next) next prev ∧ t'.next = t.next ∧
      t'.first = (if prev = none then Function.update t.first i next else t.first) ∧
      t'.last = (if next = none then Function.update t.last i prev else t.last) := by
  have hsome {s : Sessiontable} {p : Option Nat} (hp : ∀ a, p = some a → s.mem a ≠ none) {a : Nat}
      (ha : p = some a) : ∃ node, s.mem a = some node := Option.ne_none_iff_exists'.mp (hp a ha)
  unfold unlink
  cases prev with
  | none =>
    cases next with
    | none => exact ⟨_, rfl, rfl, rfl, rfl, rfl⟩
    | some n =>
      obtain ⟨node, hn⟩ := hsome hnext rfl
      simp only [write_eq hn, Outcome.ok_bind, Outcome.pure_ok]
      refine ⟨_, rfl, ?_, rfl, rfl, rfl⟩
      simp [setFirst, set, withPrev, withNext, hn]
  | some p =>
    obtain ⟨node, hp⟩ := hsome hprev rfl
    cases next with
    | none =>
      simp only [write_eq hp, Outcome.ok_bind, Outcome.pure_ok]
      refine ⟨_, rfl, ?_, rfl, rfl, rfl⟩
      simp [setLast, set, withPrev, withNext, hp]
    | some n =>
      have hn : ∃ node', (t.set p (some { node with next := some n })).mem n = some node' := by
        by_cases hnp : n = p
        · subst hnp
          exact ⟨_, Function.update_self _ _ _⟩
        · obtain ⟨node', hn⟩ := hsome hnext rfl
          exact ⟨node', (Function.update_of_ne hnp _ _).trans hn⟩
      obtain ⟨node', hn⟩ := hn
      simp only [write_eq hp, Outcome.ok_bind, write_eq hn]
      refine ⟨_, rfl, ?_, rfl, rfl, rfl⟩
      simp only [set] at hn ⊢
      simp only [withPrev, withNext, hp, Option.map_some, hn]

/-- A session can be taken out of its bucket wherever it is, and freed. -/
theorem Lists.unlink (h : Lists t L) (hL : L i = l₁ ++ (a, v) :: l₂) :
    ∃ node t', t.mem a = some node ∧ node.val = v ∧ node.next = (addrs l₂).head? ∧
      t.unlink i node = .ok t' ∧ t'.next = t.next ∧
      Lists (t'.set a none) (Function.update L i (l₁ ++ l₂)) := by
  have hwalk := hL ▸ h.walk i
  have hdup := hL ▸ h.nodup i
  obtain ⟨prev, next, hm, hprev, hnext, hbridge⟩ := hwalk.unlink hdup
  have hmem₁ : ∀ p, prev = some p → p ∈ addrs l₁ := fun p hp => List.mem_of_getLast? (hprev ▸ hp)
  have hmem₂ : ∀ n, next = some n → n ∈ addrs l₂ := fun n hn => List.mem_of_mem_head? (hnext ▸ hn)
  have halloc : ∀ n ∈ addrs (L i), t.mem n ≠ none := by
    intro n hn hnone
    obtain ⟨node, hnode⟩ := (h.walk i).allocated hn
    rw [hnone] at hnode
    cases hnode
  have hLi : ∀ n, n ∈ addrs (L i) ↔ n ∈ addrs (l₁ ++ l₂) ∨ n = a := by
    intro n
    rw [hL]
    simp only [addrs_append, addrs_cons, List.mem_append, List.mem_cons]
    tauto
  have hsub₁ : ∀ n ∈ addrs l₁, n ∈ addrs (L i) := fun n hn => (hLi n).mpr (.inl (by simp [hn]))
  have hsub₂ : ∀ n ∈ addrs l₂, n ∈ addrs (L i) := fun n hn => (hLi n).mpr (.inl (by simp [hn]))
  obtain ⟨t', hunlink, hmem, hnext', hfirst, hlast⟩ := unlink_eq i v
    (fun p hp => halloc p (hsub₁ p (hmem₁ p hp))) (fun n hn => halloc n (hsub₂ n (hmem₂ n hn)))
  refine ⟨_, t', hm, rfl, hnext, hunlink, hnext', ?_⟩
  rw [addrs_append, addrs_cons] at hdup
  obtain ⟨hd₁, hd₂, hdis⟩ := List.nodup_append.mp hdup
  have ha₁ : a ∉ addrs l₁ := fun hmem => hdis a hmem a List.mem_cons_self rfl
  have ha₂ : a ∉ addrs l₂ := (List.nodup_cons.mp hd₂).1
  have ha : a ∉ addrs (l₁ ++ l₂) := by simp [ha₁, ha₂]
  have hnone₁ : prev = none ↔ l₁ = [] := by
    rw [hprev, List.getLast?_eq_none_iff, addrs, List.map_eq_nil_iff]
  have hnone₂ : next = none ↔ l₂ = [] := by
    rw [hnext, List.head?_eq_none_iff, addrs, List.map_eq_nil_iff]
  have hout : ∀ n, n ∉ addrs (L i) → t'.mem n = t.mem n := by
    intro n hn
    rw [hmem, withPrev_of_ne (fun hn' => hn (hsub₂ n (hmem₂ n hn'))),
      withNext_of_ne (fun hn' => hn (hsub₁ n (hmem₁ n hn')))]
  refine h.replace ?_ ?_ ?_ ?_ ?_ ?_ ?_ ?_ hnext'.ge ?_
  · have hsame : Seg t'.mem none (t'.first i) (l₁ ++ l₂) (t'.last i) none := by
      rw [hmem]
      convert hbridge using 1
      · rw [hfirst]
        simp only [hnone₁]
        split <;> simp
      · rw [hlast]
        simp only [hnone₂]
        split <;> simp
    exact hsame.update ha none
  · rw [addrs_append]
    exact List.nodup_append.mpr ⟨hd₁, (List.nodup_cons.mp hd₂).2,
      fun b hb c hc => hdis b hb c (List.mem_cons_of_mem _ hc)⟩
  · intro x hx
    apply h.placed i x
    rw [hL]
    simp only [List.mem_append, List.mem_cons] at hx ⊢
    tauto
  · intro j hj
    simp only [set, hfirst]
    split
    · exact Function.update_of_ne hj _ _
    · rfl
  · intro j hj
    simp only [set, hlast]
    split
    · exact Function.update_of_ne hj _ _
    · rfl
  · intro n hn _
    have hna : n ≠ a := fun hna => hn ((hLi n).mpr (.inr hna))
    exact (Function.update_of_ne hna _ _).trans (hout n hn)
  · intro n hn hnl
    obtain hn | rfl := (hLi n).mp hn
    · exact absurd hn hnl
    · exact Function.update_self _ _ _
  · intro n hn
    exact .inl ((hLi n).mpr (.inl hn))
  · intro n hn
    have hlt := h.lt_next ((hLi n).mpr (.inl hn))
    rwa [← hnext'] at hlt

/-- A session that was allocated can be linked in at the top of the bucket it hashes to. -/
theorem Lists.link (h : Lists t L) (v : Session) :
    ∃ t', (t.sessionAlloc v).2.sessionLink (t.sessionAlloc v).1 = .ok t' ∧ t'.next = t.next + 1 ∧
      Lists t' (Function.update L (sessionBucket v.addr v.sessid)
        ((t.next, v) :: L (sessionBucket v.addr v.sessid))) := by
  let i := sessionBucket v.addr v.sessid
  let t₁ : Sessiontable := (t.sessionAlloc v).2
  have hm₁ : t₁.mem t.next = some ⟨none, none, v⟩ := Function.update_self _ _ _
  have hnew : t.next ∉ addrs (L i) := fun hmem => absurd (h.lt_next hmem) (Nat.lt_irrefl _)
  have hwalk₁ : Seg t₁.mem none (t.first i) (L i) (t.last i) none := (h.walk i).update hnew _
  -- what there is to show once the pointers are set
  have hlists (t' : Sessiontable)
      (hwalk : Seg t'.mem none (t'.first i) ((t.next, v) :: L i) (t'.last i) none)
      (hfirst : ∀ j, j ≠ i → t'.first j = t.first j) (hlast : ∀ j, j ≠ i → t'.last j = t.last j)
      (hmem : ∀ n, n ∉ addrs (L i) → n ≠ t.next → t'.mem n = t.mem n) (hnext : t'.next = t.next + 1) :
      Lists t' (Function.update L i ((t.next, v) :: L i)) := by
    refine h.replace hwalk (List.nodup_cons.mpr ⟨hnew, h.nodup i⟩) ?_ hfirst hlast ?_ ?_ ?_
      (hnext.ge.trans' (Nat.le_succ _)) ?_
    · intro x hx
      obtain rfl | hx := List.mem_cons.mp hx
      · rfl
      · exact h.placed i x hx
    · intro n hn hnl
      exact hmem n hn (List.ne_of_not_mem_cons hnl)
    · intro n hn hnl
      exact absurd (List.mem_cons_of_mem _ hn) hnl
    · intro n hn
      obtain rfl | hn := List.mem_cons.mp hn
      · exact .inr (h.fresh _ le_rfl)
      · exact .inl hn
    · intro n hn
      rw [hnext]
      obtain rfl | hn := List.mem_cons.mp hn
      · exact Nat.lt_succ_self _
      · exact (h.lt_next hn).trans (Nat.lt_succ_self _)
  unfold sessionLink
  rw [show (t.sessionAlloc v).1 = t.next from rfl, show (t.sessionAlloc v).2 = t₁ from rfl,
    read_eq hm₁, Outcome.ok_bind]
  cases hf : t.first i with
  | none =>
    have hf₁ : t₁.first (sessionBucket v.addr v.sessid) = none := hf
    simp only [hf₁]
    have hempty : L i = [] := by
      have hhead := (h.walk i).first_eq
      rw [hf] at hhead
      rwa [eq_comm, List.head?_eq_none_iff, addrs, List.map_eq_nil_iff] at hhead
    refine ⟨_, rfl, rfl, hlists _ ?_ ?_ ?_ ?_ rfl⟩
    · rw [hempty]
      exact ⟨by simp [setFirst, setLast, i], none, hm₁, by simp [setLast, i], rfl⟩
    · intro j hj
      exact Function.update_of_ne hj _ _
    · intro j hj
      exact Function.update_of_ne hj _ _
    · intro n _ hn
      exact Function.update_of_ne hn _ _
  | some b =>
    have hf₁ : t₁.first (sessionBucket v.addr v.sessid) = some b := hf
    simp only [hf₁]
    have hb : b ∈ addrs (L i) := List.mem_of_mem_head? ((h.walk i).first_eq ▸ hf)
    have hbn : b ≠ t.next := ne_of_mem_of_not_mem hb hnew
    let t₂ := t₁.set t.next (some ⟨none, some b, v⟩)
    have hwalk₂ : Seg t₂.mem none (t.first i) (L i) (t.last i) none := hwalk₁.update hnew _
    obtain ⟨node, hm₂⟩ := hwalk₂.allocated hb
    have hwrite : t₁.write t.next (fun n => { n with next := some b }) = .ok t₂ := write_eq hm₁ _
    simp only [hwrite, Outcome.ok_bind, write_eq hm₂, Outcome.pure_ok]
    have hled := hwalk₂.ledFrom (h.nodup i) (some t.next)
    have hne : L i ≠ [] := List.ne_nil_of_mem (List.mem_map.mp hb).choose_spec.1
    rw [if_neg hne, hf, withPrev, hm₂] at hled
    refine ⟨_, rfl, rfl, hlists _ ?_ ?_ (fun _ _ => rfl) ?_ rfl⟩
    · refine ⟨Function.update_self _ _ _, some b, ?_, hled⟩
      exact (Function.update_of_ne hbn.symm _ _).trans (Function.update_self _ _ _)
    · intro j hj
      exact Function.update_of_ne hj _ _
    · intro n hn hnn
      have hnb : n ≠ b := by
        rintro rfl
        exact hn hb
      refine (Function.update_of_ne hnb _ _).trans ?_
      exact (Function.update_of_ne hnn _ _).trans (Function.update_of_ne hnn _ _)

/-- Following a bucket finds the first session that matches. -/
theorem findFrom_seg {addrpart sess_id : BitVec 32} {q r f : Option Nat}
    (h : Seg t.mem q f l r none) (hfuel : l.length ≤ fuel) :
    findFrom t addrpart sess_id fuel f =
      .ok ((l.find? fun x => x.2.matches addrpart sess_id).map Prod.fst) := by
  induction l generalizing q f fuel with
  | nil =>
    obtain ⟨-, rfl⟩ := h
    cases fuel <;> rfl
  | cons x l ih =>
    obtain ⟨rfl, next, hm, hl⟩ := h
    cases fuel with
    | zero => simp at hfuel
    | succ fuel =>
      rw [findFrom, read_eq hm, Outcome.ok_bind]
      cases hp : x.2.matches addrpart sess_id with
      | true => simp [hp]
      | false => simpa [hp] using ih hl (Nat.le_of_succ_le_succ hfuel)

theorem Lists.find (h : Lists t L) (addrpart sess_id : BitVec 32) :
    t.sessionFind addrpart sess_id = .ok (((L (sessionBucket addrpart sess_id)).find? fun x =>
      x.2.matches addrpart sess_id).map Prod.fst) :=
  findFrom_seg (h.walk _) (h.length_le _)

/-- The session a lookup finds, in its place. -/
theorem Lists.find_some (h : Lists t L) {addrpart sess_id : BitVec 32}
    (hfind : t.sessionFind addrpart sess_id = .ok (some a)) :
    ∃ l₁ v l₂, L (sessionBucket addrpart sess_id) = l₁ ++ (a, v) :: l₂ ∧
      v.matches addrpart sess_id = true ∧ ∀ x ∈ l₁, x.2.matches addrpart sess_id = false := by
  rw [h.find] at hfind
  obtain ⟨⟨_, v⟩, hx, rfl⟩ := Option.map_eq_some_iff.mp (Except.ok.inj hfind)
  obtain ⟨hp, l₁, l₂, hL, hl₁⟩ := List.find?_eq_some_iff_append.mp hx
  exact ⟨l₁, v, l₂, hL, hp, fun x hx => by simpa using hl₁ x hx⟩

theorem Lists.find_none (h : Lists t L) {addrpart sess_id : BitVec 32}
    (hfind : t.sessionFind addrpart sess_id = .ok none) :
    ∀ x ∈ L (sessionBucket addrpart sess_id), x.2.matches addrpart sess_id = false := by
  rw [h.find] at hfind
  have hnone := Option.map_eq_none_iff.mp (Except.ok.inj hfind)
  intro x hx
  simpa using List.find?_eq_none.mp hnone x hx

section Register

variable (tenantid hostid : Uuid) (host : Nat) (addrpart sess_id : BitVec 32) (sess_key : AesKey)
  (ss : Sockaddr) (tnow : Nat)

/-- The session a registration finds, afterwards. -/
def renewedBy (v : Session) : Session :=
  { v with lastcycle := tnow, key := sess_key, remote := ss }

/-- The session a registration makes. -/
def registeredAs : Session where
  tenantid := tenantid
  hostid := hostid
  addr := addrpart
  sessid := sess_id
  lastserial := 0
  key := sess_key
  lastcycle := tnow
  remote := ss
  host := host
  expired := false

/-- A registration renews the session a lookup finds, or links in a new one. -/
theorem Lists.register (h : Lists t L) :
    (∃ t' a l₁ v l₂, t.sessionRegister tenantid hostid (some host) addrpart sess_id sess_key ss tnow =
        .ok (some a, t') ∧ L (sessionBucket addrpart sess_id) = l₁ ++ (a, v) :: l₂ ∧
      v.matches addrpart sess_id = true ∧ (∀ x ∈ l₁, x.2.matches addrpart sess_id = false) ∧
      t'.next = t.next ∧ Lists t' (Function.update L (sessionBucket addrpart sess_id)
        (l₁ ++ (a, renewedBy sess_key ss tnow v) :: l₂))) ∨
    (∃ t', t.sessionRegister tenantid hostid (some host) addrpart sess_id sess_key ss tnow =
        .ok (some t.next, t') ∧
      (∀ x ∈ L (sessionBucket addrpart sess_id), x.2.matches addrpart sess_id = false) ∧
      t'.next = t.next + 1 ∧ Lists t' (Function.update L (sessionBucket addrpart sess_id)
        ((t.next, registeredAs tenantid hostid host addrpart sess_id sess_key ss tnow) ::
          L (sessionBucket addrpart sess_id)))) := by
  cases hfind : t.sessionFind addrpart sess_id with
  | error e =>
    rw [h.find] at hfind
    cases hfind
  | ok r =>
    cases r with
    | some a =>
      obtain ⟨l₁, v, l₂, hL, hmatch, hfirst⟩ := h.find_some hfind
      obtain ⟨node, hm, rfl, -, hset⟩ := h.setVal hL
      refine .inl ⟨t.set a (some { node with val := renewedBy sess_key ss tnow node.val }), a, l₁, _,
        l₂, ?_, hL, hmatch, hfirst, rfl, hset _ rfl rfl⟩
      simp only [sessionRegister, hfind, Outcome.ok_bind, write_eq hm]
      rfl
    | none =>
      obtain ⟨t', hlink, hnext, h'⟩ :=
        h.link (registeredAs tenantid hostid host addrpart sess_id sess_key ss tnow)
      refine .inr ⟨t', ?_, h.find_none hfind, hnext, h'⟩
      simp only [sessionRegister, hfind, Outcome.ok_bind]
      exact Outcome.bind_ok_iff.mpr ⟨t', hlink, rfl⟩

end Register

/-- A loop over the buckets that does to each of them what `g` does to its list. -/
theorem foldlM_buckets {f : Sessiontable → BitVec 8 → Except Fault Sessiontable}
    {g : List (Nat × Session) → List (Nat × Session)}
    (hf : ∀ t L i, Lists t L →
      ∃ t', f t i = .ok t' ∧ t'.next = t.next ∧ Lists t' (Function.update L i (g (L i))))
    (h : Lists t L) :
    ∃ t', buckets.foldlM f t = .ok t' ∧ t'.next = t.next ∧ Lists t' fun i => g (L i) := by
  have hloop : ∀ bs : List (BitVec 8), bs.Nodup → ∀ t L, Lists t L →
      ∃ t', bs.foldlM f t = .ok t' ∧ t'.next = t.next ∧
        Lists t' fun i => if i ∈ bs then g (L i) else L i := by
    intro bs
    induction bs with
    | nil =>
      intro _ t L h
      exact ⟨t, rfl, rfl, by simpa using h⟩
    | cons b bs ih =>
      intro hbs t L h
      obtain ⟨hb, hbs⟩ := List.nodup_cons.mp hbs
      obtain ⟨t₁, hstep, hnext₁, h₁⟩ := hf t L b h
      obtain ⟨t', hrest, hnext', h'⟩ := ih hbs t₁ _ h₁
      refine ⟨t', ?_, hnext'.trans hnext₁, ?_⟩
      · rw [List.foldlM_cons, hstep]
        exact hrest
      · convert h' using 2 with i
        by_cases hi : i = b
        · subst hi
          simp [hb]
        · simp [hi]
  have hall : ∀ i : BitVec 8, i ∈ buckets := by
    intro i
    exact List.mem_map.mpr ⟨i.toNat, List.mem_range.mpr i.isLt, BitVec.ofNat_toNat 8 i⟩
  have hnodup : buckets.Nodup := by
    refine (List.nodup_range).map_on ?_
    intro a ha b hb hab
    have hab := congrArg BitVec.toNat hab
    rwa [BitVec.toNat_ofNat, BitVec.toNat_ofNat, Nat.mod_eq_of_lt (List.mem_range.mp ha),
      Nat.mod_eq_of_lt (List.mem_range.mp hb)] at hab
  obtain ⟨t', hfold, hnext, h'⟩ := hloop buckets hnodup t L h
  refine ⟨t', hfold, hnext, ?_⟩
  simpa only [hall, if_true] using h'

/-- What `sessiondb_remove_tenant` makes of a session. -/
def removed (tenantid : Uuid) (x : Nat × Session) : Nat × Session :=
  (x.1, if x.2.tenantid = tenantid then { x.2 with expired := true } else x.2)

/-- The loop over a bucket, `l₁` of which it has passed. -/
theorem removeTenantFrom_lists (tenantid : Uuid) (h : Lists t L) (hL : L i = l₁ ++ l₂)
    (hfuel : l₂.length ≤ fuel) :
    ∃ t', removeTenantFrom tenantid fuel (addrs l₂).head? t = .ok t' ∧ t'.next = t.next ∧
      Lists t' (Function.update L i (l₁ ++ l₂.map (removed tenantid))) := by
  induction l₂ generalizing l₁ fuel t L with
  | nil =>
    refine ⟨t, by cases fuel <;> rfl, rfl, ?_⟩
    rwa [List.map_nil, ← hL, Function.update_eq_self]
  | cons x l₂ ih =>
    obtain ⟨a, v⟩ := x
    obtain ⟨node, hm, rfl, hnext, hset⟩ := h.setVal hL
    cases fuel with
    | zero => simp at hfuel
    | succ fuel =>
      have hfuel := Nat.le_of_succ_le_succ hfuel
      rw [addrs_cons, List.head?_cons, removeTenantFrom, read_eq hm, Outcome.ok_bind, hnext]
      split
      · rename_i hof
        have h₁ := hset { node.val with expired := true } rfl rfl
        rw [write_eq hm, Outcome.ok_bind]
        have hL₁ : Function.update L i (l₁ ++ (a, { node.val with expired := true }) :: l₂) i =
            (l₁ ++ [(a, { node.val with expired := true })]) ++ l₂ := by simp
        obtain ⟨t', hloop, hnext', h'⟩ := ih h₁ hL₁ hfuel
        refine ⟨t', hloop, hnext', ?_⟩
        rw [Function.update_idem] at h'
        simpa [removed, hof] using h'
      · rename_i hnot
        have hL₁ : L i = (l₁ ++ [(a, node.val)]) ++ l₂ := by simp [hL]
        obtain ⟨t', hloop, hnext', h'⟩ := ih h hL₁ hfuel
        refine ⟨t', hloop, hnext', ?_⟩
        simpa [removed, hnot] using h'

theorem Lists.removeTenant (h : Lists t L) (tenantid : Uuid) :
    ∃ t', t.sessiondbRemoveTenant tenantid = .ok t' ∧ t'.next = t.next ∧
      Lists t' fun i => (L i).map (removed tenantid) := by
  refine foldlM_buckets (fun t L i h => ?_) h
  have hloop := removeTenantFrom_lists tenantid h (List.nil_append _).symm (h.length_le i)
  rwa [← (h.walk i).first_eq] at hloop

/-- Whether an expiry leaves a session alone. -/
def stays (cutoff : Nat) (x : Nat × Session) : Bool := !(x.2.expired || x.2.lastcycle < cutoff)

/-- A session that is marked is unlinked and freed. -/
theorem expireFrom_marked (cutoff fuel : Nat) (h : Lists t L) (hL : L i = l₁ ++ (a, v) :: l₂) (hv : v.expired = true) :
    ∃ t', expireFrom cutoff i (fuel + 1) (some a) t = expireFrom cutoff i fuel (addrs l₂).head? t' ∧
      t'.next = t.next ∧ Lists t' (Function.update L i (l₁ ++ l₂)) := by
  obtain ⟨node, t₁, hm, rfl, hnext, hunlink, hnext₁, h₁⟩ := h.unlink hL
  refine ⟨t₁.set a none, ?_, hnext₁, h₁⟩
  rw [expireFrom, read_eq hm, Outcome.ok_bind, if_pos (.inl hv), if_neg (by simp [hv]), hunlink,
    Outcome.ok_bind, hnext]

/-- The loop over a bucket, of which it has left `l₁`. It comes back to a session once, after it
marked it. -/
theorem expireFrom_lists (cutoff : Nat) (h : Lists t L) (hL : L i = l₁ ++ l₂) (hfuel : 2 * l₂.length ≤ fuel) :
    ∃ t', expireFrom cutoff i fuel (addrs l₂).head? t = .ok t' ∧ t'.next = t.next ∧
      Lists t' (Function.update L i (l₁ ++ l₂.filter (stays cutoff))) := by
  induction l₂ generalizing l₁ fuel t L with
  | nil =>
    refine ⟨t, by cases fuel <;> rfl, rfl, ?_⟩
    rwa [List.filter_nil, ← hL, Function.update_eq_self]
  | cons x l₂ ih =>
    obtain ⟨a, v⟩ := x
    obtain ⟨fuel, rfl⟩ : ∃ n, fuel = n + 2 := by
      rw [List.length_cons] at hfuel
      exact ⟨fuel - 2, by omega⟩
    have hless : 2 * l₂.length ≤ fuel := by
      rw [List.length_cons] at hfuel
      omega
    obtain ⟨node, hm, rfl, hnext, hset⟩ := h.setVal hL
    rw [addrs_cons, List.head?_cons]
    cases hexp : node.val.expired with
    | true =>
      obtain ⟨t₁, hdrop, hnext₁, h₁⟩ := expireFrom_marked cutoff (fuel + 1) h hL hexp
      rw [hdrop]
      obtain ⟨t', hloop, hnext', h'⟩ := ih h₁ (Function.update_self _ _ _) (hless.trans (Nat.le_succ _))
      refine ⟨t', hloop, hnext'.trans hnext₁, ?_⟩
      rw [Function.update_idem] at h'
      simpa [stays, hexp] using h'
    | false =>
      rw [expireFrom, read_eq hm, Outcome.ok_bind]
      by_cases hold : node.val.lastcycle < cutoff
      · rw [if_pos (.inr hold), if_pos (by simp [hexp]), write_eq hm, Outcome.ok_bind]
        have h₁ := hset { node.val with expired := true } rfl rfl
        obtain ⟨t₂, hdrop, hnext₂, h₂⟩ := expireFrom_marked cutoff fuel h₁
          (Function.update_self _ _ _) rfl
        rw [hdrop]
        rw [Function.update_idem] at h₂
        obtain ⟨t', hloop, hnext', h'⟩ := ih h₂ (Function.update_self _ _ _) hless
        refine ⟨t', hloop, hnext'.trans hnext₂, ?_⟩
        rw [Function.update_idem] at h'
        simpa [stays, hold] using h'
      · rw [if_neg (by simp [hexp, hold]), hnext]
        have hL₁ : L i = (l₁ ++ [(a, node.val)]) ++ l₂ := by simp [hL]
        obtain ⟨t', hloop, hnext', h'⟩ := ih h hL₁ (hless.trans (Nat.le_succ _))
        refine ⟨t', hloop, hnext', ?_⟩
        simpa [stays, hexp, hold] using h'

theorem Lists.expire (h : Lists t L) (cutoff : Nat) :
    ∃ t', t.sessionExpire cutoff = .ok t' ∧ t'.next = t.next ∧
      Lists t' fun i => (L i).filter (stays cutoff) := by
  refine foldlM_buckets (fun t L i h => ?_) h
  have hloop := expireFrom_lists cutoff h (List.nil_append _).symm
    (Nat.mul_le_mul_left 2 (h.length_le i))
  rwa [← (h.walk i).first_eq] at hloop

end Sessiontable

end Opticon
