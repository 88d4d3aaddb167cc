import Mathlib.Data.List.Perm.Subperm
import Opticon.Meter.Chain
import Opticon.Meter.IdLaws

/-! What the operations on the meters of a host do to the list that they are linked in. -/

namespace Opticon

open Linked

namespace LinkedHost

variable {h h' : LinkedHost} {l l₁ l₂ : List (Nat × Meter)} {a : Nat} {v : Meter} {id rid : MeterId}

@[simp] theorem read_eq {node : Node Meter} (hm : h.mem a = some node) : h.read a = .ok node := by
  simp [read, hm]

@[simp] theorem write_eq {node : Node Meter} (hm : h.mem a = some node)
    (f : Node Meter → Node Meter) : h.write a f = .ok (h.set a (some (f node))) := by
  simp [write, read_eq hm]

/-- The pointers make one chain of these meters, which is as long as the counter says. -/
structure Chain (h : LinkedHost) (l : List (Nat × Meter)) : Prop where
  walk : Seg h.mem none h.first l h.last none
  nodup : (addrs l).Nodup
  below : ∀ a ∈ addrs l, a < h.next
  trash : h.trash = none
  count : h.mcount = l.length

theorem Chain.alloc : Chain alloc [] := by
  refine ⟨⟨rfl, rfl⟩, List.nodup_nil, ?_, rfl, rfl⟩
  intro a ha
  cases ha

theorem Chain.length_le (c : h.Chain l) : l.length ≤ h.next := by
  have hsub : addrs l ⊆ List.range h.next := fun a ha => List.mem_range.mpr (c.below a ha)
  have hlen := (c.nodup.subperm hsub).length_le
  rwa [List.length_range, addrs, List.length_map] at hlen

/-- The chain and its time are what counts. -/
theorem Chain.congr (c : h.Chain l) (hmem : h'.mem = h.mem) (hfirst : h'.first = h.first)
    (hlast : h'.last = h.last) (htrash : h'.trash = h.trash) (hcount : h'.mcount = h.mcount)
    (hnext : h'.next = h.next) : h'.Chain l :=
  ⟨by rw [hmem, hfirst, hlast]; exact c.walk, c.nodup, by rw [hnext]; exact c.below,
    htrash.trans c.trash, hcount.trans c.count⟩

/-! ### Lookups -/

/-- A pointer to the meter at a position, or none at all. -/
def PointsTo (as : List Nat) : Option Nat → Option Nat → Prop := Option.Rel fun a i => as[i]? = some a

theorem findFrom_seg {p : Meter → Bool} {q r f : Option Nat} {fuel : Nat}
    (hl : Seg h.mem q f l r none) (hfuel : l.length ≤ fuel) :
    ∃ o, h.findFrom p fuel f = .ok o ∧ PointsTo (addrs l) o ((l.map Prod.snd).findIdx? p) := by
  induction l generalizing q f fuel with
  | nil =>
    obtain ⟨-, rfl⟩ := hl
    cases fuel <;> exact ⟨none, rfl, .none⟩
  | cons x l ih =>
    obtain ⟨rfl, next, hm, hl⟩ := hl
    cases fuel with
    | zero => simp at hfuel
    | succ fuel =>
      rw [LinkedHost.findFrom, read_eq hm, Outcome.ok_bind, List.map_cons, List.findIdx?_cons]
      dsimp only
      cases p x.2 with
      | true => exact ⟨some x.1, rfl, .some rfl⟩
      | false =>
        obtain ⟨o, hfind, hrel⟩ := ih hl (Nat.le_of_succ_le_succ hfuel)
        refine ⟨o, by simpa using hfind, ?_⟩
        simp only [Bool.false_eq_true, if_false]
        generalize (l.map Prod.snd).findIdx? p = i at hrel
        cases hrel with
        | none => exact .none
        | some hi => exact .some hi

theorem Chain.findFrom (c : h.Chain l) (p : Meter → Bool) :
    ∃ o, h.findFrom p h.next h.first = .ok o ∧ PointsTo (addrs l) o ((l.map Prod.snd).findIdx? p) :=
  findFrom_seg c.walk c.length_le

/-! ### Changes of a meter -/

/-- A change of a meter through a pointer changes nothing else. -/
theorem Chain.updateMeter (c : h.Chain (l₁ ++ (a, v) :: l₂)) (f : Meter → Except Fault Meter) :
    Outcome.Alike (fun h' v' => h'.Chain (l₁ ++ (a, v') :: l₂) ∧ h'.lastmodified = h.lastmodified)
      (h.updateMeter a f) (f v) := by
  obtain ⟨n, hm, rfl, -⟩ := c.walk.setVal c.nodup v
  unfold LinkedHost.updateMeter
  rw [read_eq hm, Outcome.ok_bind]
  cases hf : f n.val with
  | error e => exact .error e
  | ok v' =>
    obtain ⟨n', hm', -, hseg⟩ := c.walk.setVal c.nodup v'
    obtain rfl := Option.some.inj (hm.symm.trans hm')
    have haddrs : addrs (l₁ ++ (a, v') :: l₂) = addrs (l₁ ++ (a, n.val) :: l₂) := by
      rw [addrs_append, addrs_append]
      rfl
    refine .ok ⟨⟨hseg, haddrs ▸ c.nodup, haddrs ▸ c.below, c.trash, ?_⟩, rfl⟩
    rw [show (h.set a _).mcount = h.mcount from rfl, c.count]
    simp

/-! ### New meters -/

/-- What a lookup for an id accepts. -/
def accepts (rid : MeterId) (m : Meter) : Bool :=
  m.id == rid || (m.name == rid &&& MMASK_NAME && m.count == SZ_EMPTY_ARRAY)

theorem accepts_iff {m : Meter} : accepts rid m = true ↔
    m.id = rid ∨ m.name = rid &&& MMASK_NAME ∧ m.count = SZ_EMPTY_ARRAY := by
  simp [accepts]

theorem getLoop_accepted {n m : Nat} {node : Node Meter} (hm : h.mem m = some node)
    (ha : accepts rid node.val = true) : getLoop rid (n + 1) m h = .ok (h, m) := by
  rw [getLoop, read_eq hm, Outcome.ok_bind]
  by_cases hid : node.val.id = rid
  · rw [if_pos hid]
    rfl
  · rw [if_neg hid, if_pos ((accepts_iff.mp ha).resolve_left hid)]
    rfl

theorem getLoop_passed {n m : Nat} {node : Node Meter} (hm : h.mem m = some node)
    (ha : accepts rid node.val = false) :
    (∀ next, node.next = some next → getLoop rid (n + 1) m h = getLoop rid n next h) ∧
      (node.next = none → getLoop rid (n + 1) m h = h.linkMeter rid m) := by
  have hno := mt accepts_iff.mpr (Bool.eq_false_iff.mp ha)
  rw [not_or] at hno
  rw [getLoop, read_eq hm, Outcome.ok_bind, if_neg hno.1, if_neg hno.2]
  exact ⟨fun next hnext => by rw [hnext], fun hnone => by rw [hnone]⟩

/-- The loop stops at the first meter that is accepted, or links a new one behind the last. -/
theorem getLoop_seg {q f r : Option Nat} {n : Nat} (hl : Seg h.mem q f ((a, v) :: l) r none)
    (hfuel : l.length < n) :
    (∃ i b, (((a, v) :: l).map Prod.snd).findIdx? (accepts rid) = some i ∧
      getLoop rid n a h = .ok (h, b) ∧ (addrs ((a, v) :: l))[i]? = some b) ∨
    ((((a, v) :: l).map Prod.snd).findIdx? (accepts rid) = none ∧
      ∃ m, r = some m ∧ getLoop rid n a h = h.linkMeter rid m) := by
  induction l generalizing a v q f n with
  | nil =>
    obtain ⟨-, next, hm, rfl, rfl⟩ := hl
    cases n with
    | zero => cases hfuel
    | succ n =>
      rw [List.map_cons, List.findIdx?_cons]
      cases ha : accepts rid v with
      | true => exact .inl ⟨0, a, by simp, getLoop_accepted hm ha, rfl⟩
      | false => exact .inr ⟨by simp, a, rfl, (getLoop_passed hm ha).2 rfl⟩
  | cons x l ih =>
    obtain ⟨b, w⟩ := x
    obtain ⟨-, next, hm, hl⟩ := hl
    cases n with
    | zero => cases hfuel
    | succ n =>
      obtain rfl : next = some b := hl.1
      rw [List.map_cons, List.findIdx?_cons]
      cases ha : accepts rid v with
      | true => exact .inl ⟨0, a, by simp, getLoop_accepted hm ha, rfl⟩
      | false =>
        have hstep : getLoop rid (n + 1) a h = getLoop rid n b h := (getLoop_passed hm ha).1 b rfl
        obtain ⟨i, c, hi, hget, hc⟩ | ⟨hno, m, hr, hget⟩ := ih hl (Nat.lt_of_succ_lt_succ hfuel)
        · exact .inl ⟨i + 1, c, congrArg (Option.map (· + 1)) hi, hstep.trans hget, hc⟩
        · exact .inr ⟨congrArg (Option.map (· + 1)) hno, m, hr, hstep.trans hget⟩

theorem Chain.next_not_mem (c : h.Chain l) : h.next ∉ addrs l :=
  fun hmem => absurd (c.below _ hmem) (Nat.lt_irrefl _)

theorem Chain.nodup_concat (c : h.Chain l) (v : Meter) : (addrs (l ++ [(h.next, v)])).Nodup := by
  rw [addrs_append, List.nodup_append_comm]
  exact List.nodup_cons.mpr ⟨c.next_not_mem, c.nodup⟩

theorem Chain.below_concat (c : h.Chain l) (v : Meter) : ∀ a ∈ addrs (l ++ [(h.next, v)]), a < h.next + 1 := by
  intro a ha
  rw [addrs_append, List.mem_append] at ha
  obtain ha | ha := ha
  · exact Nat.lt_succ_of_lt (c.below a ha)
  · rw [List.mem_singleton.mp ha]
    exact Nat.lt_succ_self _

/-- A new meter goes to the end of the chain. -/
theorem Chain.linkMeter (c : h.Chain (l ++ [(a, v)])) (rid : MeterId) :
    ∃ h', h.linkMeter rid a = .ok (h', h.next) ∧ h'.Chain (l ++ [(a, v)] ++ [(h.next, meterAlloc rid)]) ∧
      h'.lastmodified = h.lastmodified := by
  have hne : a ≠ h.next := Nat.ne_of_lt (c.below a (by simp))
  have ha : a ∉ addrs l := by
    have hnodup := c.nodup
    rw [addrs_append, List.nodup_append_comm] at hnodup
    exact (List.nodup_cons.mp hnodup).1
  let h₁ : LinkedHost := (h.allocMeter rid).2
  have hwalk : Seg h₁.mem none h.first (l ++ [(a, v)]) h.last none := c.walk.update c.next_not_mem _
  obtain ⟨node, hm, hwalk₂⟩ := hwalk.setNext ha (some h.next)
  let h₂ : LinkedHost := h₁.set a (some { node with next := some h.next })
  have hnew : h₂.mem h.next = some ⟨none, none, meterAlloc rid⟩ :=
    (Function.update_of_ne hne.symm _ _).trans (Function.update_self _ _ _)
  unfold LinkedHost.linkMeter
  rw [show (h.allocMeter rid) = (h.next, h₁) from rfl]
  dsimp only
  rw [write_eq hm, Outcome.ok_bind, write_eq hnew, Outcome.ok_bind]
  have hwalk₃ := hwalk₂.update (a := h.next) c.next_not_mem (some ⟨some a, none, meterAlloc rid⟩)
  refine ⟨_, rfl, ⟨seg_append.mpr ⟨_, _, hwalk₃, rfl, none, ?_, rfl, rfl⟩, c.nodup_concat _,
    c.below_concat _, c.trash, ?_⟩, rfl⟩
  · exact Function.update_self _ _ _
  · show h.mcount + 1 = _
    rw [c.count, List.length_append, List.length_append, List.length_append]
    rfl

/-- `host_get_meter` finds a meter of the chain, or puts a new one at its end. -/
theorem Chain.hostGetMeter (c : h.Chain l) (id : MeterId) :
    (∃ i b, (l.map Prod.snd).findIdx? (accepts (id &&& (MMASK_TYPE ||| MMASK_NAME))) = some i ∧
      h.hostGetMeter id = .ok (h, b) ∧ (addrs l)[i]? = some b) ∨
    ((l.map Prod.snd).findIdx? (accepts (id &&& (MMASK_TYPE ||| MMASK_NAME))) = none ∧
      ∃ h', h.hostGetMeter id = .ok (h', h.next) ∧ h'.lastmodified = h.lastmodified ∧
        h'.Chain (l ++ [(h.next, meterAlloc (id &&& (MMASK_TYPE ||| MMASK_NAME)))])) := by
  unfold LinkedHost.hostGetMeter
  dsimp only
  cases l with
  | nil =>
    have hfirst : h.first = none := c.walk.2
    rw [hfirst]
    refine .inr ⟨rfl, _, rfl, rfl, ⟨⟨rfl, none, Function.update_self _ _ _, rfl, rfl⟩, c.nodup_concat _,
      c.below_concat _, c.trash, rfl⟩⟩
  | cons x l =>
    have hfirst : h.first = some x.1 := c.walk.1
    have hwalk := c.walk
    rw [hfirst] at hwalk ⊢
    dsimp only
    obtain ⟨i, b, hi, hget, hb⟩ | ⟨hno, m, hr, hget⟩ := getLoop_seg hwalk c.length_le
    · exact .inl ⟨i, b, hi, hget, hb⟩
    · refine .inr ⟨hno, ?_⟩
      obtain ⟨l₀, ⟨b, w⟩, hl⟩ := List.eq_nil_or_concat' (x :: l) |>.resolve_left (List.cons_ne_nil x l)
      rw [hl] at c hwalk ⊢
      have hlast := hwalk.last_eq
      rw [hr] at hlast
      obtain rfl : m = b := by simpa using hlast
      obtain ⟨h', hlink, hchain, hsame⟩ := c.linkMeter (id &&& (MMASK_TYPE ||| MMASK_NAME))
      exact ⟨h', hget.trans hlink, hsame, hchain⟩

/-! ### Meters that go -/

/-- The four ways to bridge a meter. -/
theorem unlink_eq (v : Meter) {prev next : Option Nat} (hprev : ∀ p, prev = some p → h.mem p ≠ none)
    (hnext : ∀ n, next = some n → h.mem n ≠ none) :
    ∃ h', h.unlink ⟨prev, next, v⟩ = .ok h' ∧ h'.mem = withPrev (withNext h.mem prev next) next prev ∧
      h'.first = (if prev = none then next else h.first) ∧
      h'.last = (if next = none then prev else h.last) ∧
      h'.lastmodified = h.lastmodified ∧ h'.trash = h.trash ∧ h'.mcount = h.mcount ∧ h'.next = h.next := by
  have hsome {h : LinkedHost} {p : Option Nat} (hp : ∀ a, p = some a → h.mem a ≠ none) {a : Nat}
      (ha : p = some a) : ∃ node, h.mem a = some node := Option.ne_none_iff_exists'.mp (hp a ha)
  unfold unlink
  cases prev with
  | none =>
    cases next with
    | none => exact ⟨_, rfl, rfl, rfl, rfl, rfl, rfl, rfl, rfl⟩
    | some n =>
      obtain ⟨node, hn⟩ := hsome hnext rfl
      simp only [write_eq hn, Outcome.ok_bind, Outcome.pure_ok]
      refine ⟨_, rfl, ?_, rfl, rfl, rfl, rfl, rfl, rfl⟩
      simp [set, withPrev, withNext, hn]
  | some p =>
    obtain ⟨node, hp⟩ := hsome hprev rfl
    cases next with
    | none =>
      simp only [write_eq hp, Outcome.ok_bind, Outcome.pure_ok]
      refine ⟨_, rfl, ?_, rfl, rfl, rfl, rfl, rfl, rfl⟩
      simp [set, withPrev, withNext, hp]
    | some n =>
      have hn : ∃ node', (h.set p (some { node with next := some n })).mem n = some node' := by
        by_cases hnp : n = p
        · subst hnp
          exact ⟨_, Function.update_self _ _ _⟩
        · obtain ⟨node', hn⟩ := hsome hnext rfl
          exact ⟨node', (Function.update_of_ne hnp _ _).trans hn⟩
      obtain ⟨node', hn⟩ := hn
      simp only [write_eq hp, Outcome.ok_bind, write_eq hn]
      refine ⟨_, rfl, ?_, rfl, rfl, rfl, rfl, rfl, rfl⟩
      simp only [set] at hn ⊢
      simp only [withPrev, withNext, hp, Option.map_some, hn]

/-- A meter can be taken out wherever it is. -/
theorem Chain.hostDeleteMeter (c : h.Chain (l₁ ++ (a, v) :: l₂)) :
    ∃ h', h.hostDeleteMeter a = .ok h' ∧ h'.Chain (l₁ ++ l₂) ∧ h'.lastmodified = h.lastmodified ∧
      h'.next = h.next ∧ ∀ n, n ∉ addrs (l₁ ++ (a, v) :: l₂) → h'.mem n = h.mem n := by
  obtain ⟨prev, next, hm, hprev, hnext, hbridge⟩ := c.walk.unlink c.nodup
  have hmem₁ : ∀ p, prev = some p → p ∈ addrs l₁ := fun p hp => List.mem_of_getLast? (hprev ▸ hp)
  have hmem₂ : ∀ n, next = some n → n ∈ addrs l₂ := fun n hn => List.mem_of_mem_head? (hnext ▸ hn)
  have hin : ∀ n, n ∈ addrs l₁ ∨ n ∈ addrs l₂ → n ∈ addrs (l₁ ++ (a, v) :: l₂) := by
    intro n hn
    rw [addrs_append, addrs_cons, List.mem_append, List.mem_cons]
    tauto
  have halloc : ∀ n ∈ addrs (l₁ ++ (a, v) :: l₂), h.mem n ≠ none := by
    intro n hn hnone
    obtain ⟨node, hnode⟩ := c.walk.allocated hn
    rw [hnone] at hnode
    cases hnode
  obtain ⟨h₁, hunlink, hmem, hfirst, hlast, htime, htrash, hcount, hnext'⟩ := unlink_eq v
    (fun p hp => halloc p (hin p (.inl (hmem₁ p hp)))) (fun n hn => halloc n (hin n (.inr (hmem₂ n hn))))
  have hnodup := c.nodup
  rw [addrs_append, addrs_cons] at hnodup
  obtain ⟨hd₁, hd₂, hdis⟩ := List.nodup_append.mp hnodup
  have ha₁ : a ∉ addrs l₁ := fun hmem => hdis a hmem a List.mem_cons_self rfl
  have ha₂ : a ∉ addrs l₂ := (List.nodup_cons.mp hd₂).1
  have ha : a ∉ addrs (l₁ ++ l₂) := by simp [ha₁, ha₂]
  have hout : ∀ n, n ∉ addrs l₁ → n ∉ addrs l₂ → h₁.mem n = h.mem n := by
    intro n hn₁ hn₂
    rw [hmem, withPrev_of_ne (fun hn => hn₂ (hmem₂ n hn)), withNext_of_ne (fun hn => hn₁ (hmem₁ n hn))]
  have hma : h₁.mem a = some ⟨prev, next, v⟩ := (hout a ha₁ ha₂).trans hm
  -- the node itself is emptied and belongs to no list then
  obtain ⟨v', hempty⟩ : ∃ v', meterSetEmpty h₁.lastmodified v = .ok v' := ⟨_, rfl⟩
  have hset : (({ h₁ with mcount := h₁.mcount - 1 } : LinkedHost).set a (some ⟨prev, next, v'⟩)).mem a =
      some ⟨prev, next, v'⟩ := Function.update_self _ _ _
  have hseg : Seg h₁.mem none h₁.first (l₁ ++ l₂) h₁.last none := by
    have hnone₁ : prev = none ↔ l₁ = [] := by
      rw [hprev, List.getLast?_eq_none_iff, addrs, List.map_eq_nil_iff]
    have hnone₂ : next = none ↔ l₂ = [] := by
      rw [hnext, List.head?_eq_none_iff, addrs, List.map_eq_nil_iff]
    rw [hmem, hfirst, hlast]
    simpa only [hnone₁, hnone₂] using hbridge
  have hdelete : h.hostDeleteMeter a = .ok
      ((({ h₁ with mcount := h₁.mcount - 1 } : LinkedHost).set a (some ⟨prev, next, v'⟩)).set a
        (some ⟨none, none, { v' with lastmodified := 0 }⟩)) := by
    unfold LinkedHost.hostDeleteMeter LinkedHost.updateMeter
    rw [read_eq hm, Outcome.ok_bind, hunlink, Outcome.ok_bind]
    dsimp only
    rw [read_eq (h := { h₁ with mcount := h₁.mcount - 1 }) hma, Outcome.ok_bind, hempty, Outcome.ok_bind,
      Outcome.pure_ok, Outcome.ok_bind, write_eq hset, Outcome.ok_bind]
    simp only [set, htrash.trans c.trash, Outcome.pure_ok]
  refine ⟨_, hdelete, ⟨(hseg.update ha _).update ha _, ?_, ?_, htrash.trans c.trash, ?_⟩, htime, hnext', ?_⟩
  · rw [addrs_append, List.nodup_append]
    exact ⟨hd₁, (List.nodup_cons.mp hd₂).2, fun b hb d hd => hdis b hb d (List.mem_cons_of_mem _ hd)⟩
  · intro b hb
    show b < h₁.next
    rw [hnext']
    rw [addrs_append, List.mem_append] at hb
    exact c.below b (hin b hb)
  · show h₁.mcount - 1 = _
    rw [hcount, c.count]
    simp only [List.length_append, List.length_cons]
    omega
  · intro n hn
    have hna : n ≠ a := by
      rintro rfl
      exact hn (by simp)
    have hn₁ : n ∉ addrs l₁ := fun hmem => hn (hin n (.inl hmem))
    have hn₂ : n ∉ addrs l₂ := fun hmem => hn (hin n (.inr hmem))
    calc _ = h₁.mem n := (Function.update_of_ne hna _ _).trans (Function.update_of_ne hna _ _)
      _ = h.mem n := hout n hn₁ hn₂

end LinkedHost

end Opticon
