import Opticon.Collector.Packets
import Opticon.Lib.Transition
import Opticon.Wire.LinkedPacket
import Opticon.Wire.Readable

/-! Whether the meters of a host stay one chain, and which of them the end of an update removes. -/

namespace Opticon

open Linked

namespace LinkedHost

/-- What is reached from a meter on. -/
def walkFrom (mem : Heap Meter) : Nat → Option Nat → List (Nat × Meter)
  | n + 1, some m =>
    match mem m with
    | some node => (m, node.val) :: walkFrom mem n node.next
    | none => []
  | _, _ => []

/-- The meters of a host, as its loops come by them. -/
def meters (h : LinkedHost) : List (Nat × Meter) := walkFrom h.mem h.next h.first

/-- `first`, `last` and the pointers of the meters make one chain, as long as the counter says. -/
structure Intact (h : LinkedHost) : Prop where
  walk : Seg h.mem none h.first h.meters h.last none
  once : (addrs h.meters).Nodup
  count : h.mcount = h.meters.length

end LinkedHost

inductive HostOp where
  | getMeter (id : MeterId)
  | deleteMeter (m : Nat)
  | decode (io : Ioport) (strbuf : List UInt8)
  | beginUpdate (t : Nat)
  | endUpdate

namespace HostOp

def apply : HostOp → LinkedHost → Except Fault LinkedHost
  | .getMeter id, h => do return (← h.hostGetMeter id).1
  | .deleteMeter m, h => h.hostDeleteMeter m
  | .decode io strbuf, h => do return (← h.pktcodecDecodeHost io strbuf).2.host
  | .beginUpdate t, h => .ok (h.hostBeginUpdate t)
  | .endUpdate, h => h.hostEndUpdate

/-- Only a meter of the host is deleted, and time does not go back. -/
def Allowed (h : LinkedHost) : HostOp → Prop
  | .deleteMeter m => m ∈ addrs h.meters
  | .beginUpdate t => h.lastmodified ≤ t
  | _ => True

end HostOp

/-- A host from its allocation on. -/
def operated : Transition LinkedHost HostOp where
  init h := h = .alloc
  step h op h' := op.Allowed h ∧ op.apply h = .ok h'

/-- Whether the status among these meters, if there is one, is that of a stale host. -/
def staleIn (ms : List Meter) : Except Fault Bool :=
  match ms.find? fun m => m.id == makeid (asc "status") MTYPE_STR with
  | none => .ok false
  | some m => do return (← meterGetStr m 0).str == asc "STALE"

/-- The meters after the end of an update: those of a stale host are refreshed, of others those go that
were last modified more than ten minutes before the update. -/
def ended (stale : Bool) (last : Nat) (l : List (Nat × Meter)) : List (Nat × Meter) :=
  if stale then l.map fun x => (x.1, { x.2 with lastmodified := last })
  else l.filter fun x => !(x.2.lastmodified < last && 600 < last - x.2.lastmodified)

namespace LinkedHost

variable {h h' : LinkedHost} {l l₁ l₂ : List (Nat × Meter)}

theorem walkFrom_seg {mem : Heap Meter} {q r f : Option Nat} {n : Nat} (hl : Seg mem q f l r none)
    (hn : l.length ≤ n) : walkFrom mem n f = l := by
  induction l generalizing q f n with
  | nil =>
    obtain ⟨-, rfl⟩ := hl
    cases n <;> rfl
  | cons x l ih =>
    obtain ⟨rfl, next, hm, hl⟩ := hl
    cases n with
    | zero => cases hn
    | succ n =>
      rw [walkFrom, hm]
      exact congrArg (x :: ·) (ih hl (Nat.le_of_succ_le_succ hn))

theorem Chain.meters_eq (c : h.Chain l) : h.meters = l := walkFrom_seg c.walk c.length_le

theorem Chain.intact (c : h.Chain l) : h.Intact := by
  refine ⟨?_, ?_, ?_⟩
  · rw [c.meters_eq]
    exact c.walk
  · rw [c.meters_eq]
    exact c.nodup
  · rw [c.meters_eq]
    exact c.count

theorem ended_cons (stale : Bool) (last : Nat) (x : Nat × Meter) (l : List (Nat × Meter)) :
    ended stale last (x :: l) = ended stale last [x] ++ ended stale last l := by
  unfold ended
  split_ifs
  · rfl
  · rw [← List.singleton_append, List.filter_append]

/-- The loop of `host_end_update`, with the meters it has gone by and those that are left. -/
theorem endLoop_chain (stale : Bool) (last : Nat) {n : Nat} (c : h.Chain (l₁ ++ l₂)) (hn : l₂.length ≤ n) :
    ∃ h', endLoop stale last n (addrs l₂).head? h = .ok h' ∧ h'.Chain (l₁ ++ ended stale last l₂) ∧
      h'.lastmodified = h.lastmodified := by
  induction l₂ generalizing l₁ h n with
  | nil =>
    refine ⟨h, by cases n <;> rfl, ?_, rfl⟩
    unfold ended
    split_ifs <;> exact c
  | cons x l₂ ih =>
    obtain ⟨a, v⟩ := x
    cases n with
    | zero => cases hn
    | succ n =>
      have hn := Nat.le_of_succ_le_succ hn
      obtain ⟨q, _, -, rfl, next, hm, htail⟩ := seg_append.mp c.walk
      obtain rfl : next = (addrs l₂).head? := htail.first_eq
      rw [addrs_cons, List.head?_cons, endLoop, read_eq hm, Outcome.ok_bind, ended_cons,
        ← List.append_assoc]
      dsimp only
      cases stale with
      | true =>
        have hu := c.updateMeter fun m => .ok { m with lastmodified := last }
        obtain ⟨h₁, hwrite, c₁, htime⟩ := hu.of_ok
        have hwrite : h.write a (fun x => { x with val := { x.val with lastmodified := last } }) = .ok h₁ := by
          rw [updateMeter, read_eq hm] at hwrite
          rw [write_eq hm]
          exact hwrite
        rw [List.append_cons] at c₁
        obtain ⟨h', hloop, c', htime'⟩ := ih c₁ hn
        rw [if_pos rfl, hwrite, Outcome.ok_bind]
        exact ⟨h', hloop, c', htime'.trans htime⟩
      | false =>
        rw [if_neg Bool.false_ne_true]
        by_cases hold : v.lastmodified < last ∧ 600 < last - v.lastmodified
        · obtain ⟨h₁, hdelete, c₁, htime, -⟩ := c.hostDeleteMeter
          obtain ⟨h', hloop, c', htime'⟩ := ih c₁ hn
          have hgone : ended false last [(a, v)] = [] := by simp [ended, hold]
          rw [if_pos hold, hdelete, Outcome.ok_bind, hgone, List.append_nil]
          exact ⟨h', hloop, c', htime'.trans htime⟩
        · have hstays : ended false last [(a, v)] = [(a, v)] := by
            rw [ended, if_neg Bool.false_ne_true, List.filter_cons_of_pos (by simpa [imp_iff_not_or] using hold),
              List.filter_nil]
          rw [List.append_cons] at c
          rw [if_neg hold, Outcome.ok_bind, hstays]
          exact ih c hn

/-- The lookup of the status, and what it says. -/
theorem Chain.isStale (c : h.Chain l) :
    ∃ o, h.hostFindMeter (makeid (asc "status") MTYPE_STR) = .ok o ∧
      h.isStale o = staleIn (l.map Prod.snd) := by
  obtain ⟨o, hfind, hpoints⟩ := c.findFrom fun m =>
    m.id == makeid (asc "status") MTYPE_STR &&& (MMASK_TYPE ||| MMASK_NAME)
  refine ⟨o, hfind, ?_⟩
  have hid : makeid (asc "status") MTYPE_STR &&& (MMASK_TYPE ||| MMASK_NAME) =
      makeid (asc "status") MTYPE_STR := by decide
  rw [hid] at hpoints
  unfold staleIn
  generalize hi : (l.map Prod.snd).findIdx? _ = i at hpoints
  cases hpoints with
  | none =>
    have hnone : ((l.map Prod.snd).find? fun m => m.id == makeid (asc "status") MTYPE_STR) = none := by
      rw [List.find?_eq_none]
      intro m hm
      simpa using List.findIdx?_eq_none_iff.mp hi m hm
    rw [hnone]
    rfl
  | @some a i ha =>
    obtain ⟨hlt, hp, hmin⟩ := List.findIdx?_eq_some_iff_getElem.mp hi
    have hsome : ((l.map Prod.snd).find? fun m => m.id == makeid (asc "status") MTYPE_STR) =
        some (l.map Prod.snd)[i] :=
      List.find?_eq_some_iff_getElem.mpr ⟨hp, i, hlt, rfl, fun j hj => by simpa using hmin j hj⟩
    rw [hsome]
    rw [addrs, List.getElem?_map, Option.map_eq_some_iff] at ha
    obtain ⟨x, hx, rfl⟩ := ha
    obtain ⟨hlt', rfl⟩ := List.getElem?_eq_some_iff.mp hx
    have hmem : (l[i].1, l[i].2) ∈ l := List.getElem_mem hlt'
    obtain ⟨node, hm, hval⟩ := c.walk.lookup hmem
    unfold LinkedHost.isStale
    dsimp only
    rw [read_eq hm, Outcome.ok_bind, hval, List.getElem_map]

/-- The end of an update, unless the status cannot be read. -/
theorem Chain.hostEndUpdate (c : h.Chain l) :
    Outcome.Alike (fun h' stale => h'.Chain (ended stale h.lastmodified l) ∧
      h'.lastmodified = h.lastmodified) h.hostEndUpdate (staleIn (l.map Prod.snd)) := by
  obtain ⟨o, hfind, hstale⟩ := c.isStale
  have htrash : h.hostEmptyTrash = .ok h := by
    unfold hostEmptyTrash
    rw [c.trash]
    have hdone : emptyTrashLoop h.next none h = .ok h := by cases h.next <;> rfl
    rw [hdone, Outcome.ok_bind, ← c.trash]
    rfl
  unfold LinkedHost.hostEndUpdate
  rw [hfind, Outcome.ok_bind, htrash, Outcome.ok_bind, hstale]
  cases staleIn (l.map Prod.snd) with
  | error e => exact .error e
  | ok stale =>
    obtain ⟨h', hloop, c', htime⟩ := endLoop_chain stale h.lastmodified (show h.Chain ([] ++ l) from c)
      c.length_le
    rw [← c.walk.first_eq] at hloop
    rw [Outcome.ok_bind, hloop]
    exact .ok ⟨c', htime⟩

end LinkedHost

/-! ### The list of the meters -/

open LinkedHost

variable {h h' : LinkedHost} {l : List (Nat × Meter)} {op : HostOp}

theorem staleIn_storedStatus (h : Host) :
    staleIn h.meters = storedStatus h >>= fun status => .ok (status.str == asc "STALE") := by
  unfold staleIn storedStatus
  cases h.meters.find? fun m => m.id == makeid (asc "status") MTYPE_STR with
  | none => rfl
  | some m => rfl

theorem map_ended (stale : Bool) (last : Nat) (l : List (Nat × Meter)) :
    (ended stale last l).map Prod.snd =
      if stale then (l.map Prod.snd).map fun m => { m with lastmodified := last }
      else (l.map Prod.snd).filter fun m => !meterTimedOut last m := by
  unfold ended
  split_ifs
  · rw [List.map_map, List.map_map]
    rfl
  · rw [List.filter_map]
    rfl

/-- The end of an update does the same to the meters in memory as to the list of them. -/
theorem LinkedHost.Represents.hostEndUpdate {H : Host} (r : h.Represents l H) :
    Outcome.Alike (fun h' H' => ∃ l', h'.Represents l' H') h.hostEndUpdate (Opticon.hostEndUpdate H) := by
  have hend := r.chain.hostEndUpdate
  rw [← r.meters, staleIn_storedStatus] at hend
  unfold Opticon.hostEndUpdate
  cases hstatus : storedStatus H with
  | error e =>
    rw [hstatus] at hend
    generalize h.hostEndUpdate = x at hend
    cases hend
    exact .error e
  | ok status =>
    rw [hstatus] at hend
    obtain ⟨h', hend, c', htime⟩ := hend.of_ok
    have hmeters := map_ended (status.str == asc "STALE") h.lastmodified l
    rw [hend, Outcome.ok_bind]
    dsimp only
    have hlen : (ended (status.str == asc "STALE") h.lastmodified l).length =
        ((ended (status.str == asc "STALE") h.lastmodified l).map Prod.snd).length := (List.length_map _).symm
    by_cases hstale : status.str = asc "STALE"
    · rw [if_pos (by simpa using hstale)] at hmeters
      rw [if_pos hstale]
      refine .ok ⟨_, c', ?_, ?_, r.lastmodified.trans htime.symm⟩
      · rw [hmeters, r.meters, r.lastmodified]
      · rw [c'.count, hlen, hmeters, r.mcount, r.chain.count, List.length_map, List.length_map]
    · rw [if_neg (by simpa using hstale)] at hmeters
      rw [if_neg hstale]
      refine .ok ⟨_, c', ?_, ?_, r.lastmodified.trans htime.symm⟩
      · rw [hmeters, r.meters, r.lastmodified]
      · have hcount := List.length_eq_countP_add_countP (meterTimedOut h.lastmodified) (l := l.map Prod.snd)
        rw [List.length_map] at hcount
        rw [c'.count, hlen, hmeters, ← List.countP_eq_length_filter, r.mcount, r.chain.count, r.meters,
          r.lastmodified]
        dsimp only
        have hsame : (List.map Prod.snd l).countP (fun m => !meterTimedOut h.lastmodified m) =
            (List.map Prod.snd l).countP (fun m => decide ¬ meterTimedOut h.lastmodified m = true) := by
          apply List.countP_congr
          intro m _
          simp
        omega

/-! ### Runs -/

theorem addrs_filter {l₁ l₂ : List (Nat × Meter)} {a : Nat} {v : Meter}
    (hl : (addrs (l₁ ++ (a, v) :: l₂)).Nodup) :
    (l₁ ++ (a, v) :: l₂).filter (fun x => x.1 ≠ a) = l₁ ++ l₂ := by
  have hkeep {l : List (Nat × Meter)} (ha : a ∉ addrs l) : l.filter (fun x => x.1 ≠ a) = l := by
    rw [List.filter_eq_self]
    intro x hx
    have hne : x.1 ≠ a := ne_of_mem_of_not_mem (List.mem_map_of_mem hx) ha
    simpa using hne
  rw [addrs_append, addrs_cons, List.nodup_middle, List.nodup_cons, List.mem_append, not_or] at hl
  rw [List.filter_append, List.filter_cons_of_neg (by simp), hkeep hl.1.1, hkeep hl.1.2]

/-- A meter of the host can be deleted, and the others stay. -/
theorem LinkedHost.Chain.delete (c : h.Chain l) {m : Nat} (hm : m ∈ addrs l) :
    ∃ h', h.hostDeleteMeter m = .ok h' ∧ h'.Chain (l.filter fun x => x.1 ≠ m) := by
  obtain ⟨⟨_, v⟩, hx, rfl⟩ := List.mem_map.mp hm
  obtain ⟨l₁, l₂, rfl⟩ := List.append_of_mem hx
  obtain ⟨h', hdelete, c', -⟩ := c.hostDeleteMeter
  exact ⟨h', hdelete, addrs_filter c.nodup ▸ c'⟩

/-- A lookup leaves a host as it is, or puts a new meter behind its others. -/
theorem LinkedHost.Chain.lookup (c : h.Chain l) (id : MeterId) :
    ∃ h' m, h.hostGetMeter id = .ok (h', m) ∧
      (h' = h ∧ m ∈ addrs l ∨ h'.Chain (l ++ [(m, meterAlloc (id &&& (MMASK_TYPE ||| MMASK_NAME)))])) := by
  obtain ⟨i, b, -, hget, hb⟩ | ⟨-, h', hget, -, c'⟩ := c.hostGetMeter id
  · exact ⟨h, b, hget, .inl ⟨rfl, List.mem_of_getElem? hb⟩⟩
  · exact ⟨h', h.next, hget, .inr c'⟩

/-- A chain of meters whose values can be read. -/
structure LinkedHost.Sound (h : LinkedHost) (l : List (Nat × Meter)) : Prop where
  chain : h.Chain l
  readable : ∀ x ∈ l, x.2.Covered

theorem ended_readable {stale : Bool} {last : Nat} (hl : ∀ x ∈ l, x.2.Covered) :
    ∀ x ∈ ended stale last l, x.2.Covered := by
  intro x hx
  unfold ended at hx
  split_ifs at hx
  · obtain ⟨y, hy, rfl⟩ := List.mem_map.mp hx
    exact (hl y hy).of_shape rfl
  · exact hl x (List.mem_of_mem_filter hx)

theorem sound_step (hs : h.Sound l) (hstep : operated.step h op h') : ∃ l', h'.Sound l' := by
  obtain ⟨hallowed, hop⟩ := hstep
  obtain ⟨c, hl⟩ := hs
  cases op with
  | getMeter id =>
    obtain ⟨⟨h₁, m⟩, hget, hop⟩ := Outcome.bind_ok_iff.mp hop
    cases hop
    obtain ⟨h₂, m', hget', hcase⟩ := c.lookup id
    cases hget.symm.trans hget'
    obtain ⟨rfl, -⟩ | c' := hcase
    · exact ⟨l, c, hl⟩
    · refine ⟨_, c', fun x hx => ?_⟩
      obtain hx | hx := List.mem_append.mp hx
      · exact hl x hx
      · rw [List.mem_singleton.mp hx]
        exact meterAlloc_covered _
  | deleteMeter m =>
    have hm : m ∈ addrs h.meters := hallowed
    rw [c.meters_eq] at hm
    obtain ⟨h₁, hdelete, c'⟩ := c.delete hm
    cases hop.symm.trans hdelete
    exact ⟨_, c', fun x hx => hl x (List.mem_of_mem_filter hx)⟩
  | decode io strbuf =>
    obtain ⟨⟨ok, s⟩, hdecode, hop⟩ := Outcome.bind_ok_iff.mp hop
    cases hop
    let H : Host := { hostAlloc ⟨0, 0⟩ with
      lastmodified := h.lastmodified, meters := l.map Prod.snd, mcount := h.mcount }
    have r : h.Represents l H := ⟨c, rfl, rfl, rfl⟩
    have hends := r.pktcodecDecodeHost io strbuf
    rw [hdecode] at hends
    cases hlist : pktcodecDecodeHost io H strbuf with
    | error e =>
      rw [hlist] at hends
      cases hends
    | ok x' =>
      rw [hlist] at hends
      cases hends with
      | ok hends =>
        obtain ⟨-, as, -, -, -, l', -, r'⟩ := hends
        have hread : x'.2.host.Covered := by
          refine pktcodecDecodeHost_covered (h := H) (fun m hm => ?_) hlist
          obtain ⟨y, hy, rfl⟩ := List.mem_map.mp hm
          exact hl y hy
        refine ⟨l', r'.chain, fun x hx => hread x.2 ?_⟩
        rw [r'.meters]
        exact List.mem_map_of_mem hx
  | beginUpdate t =>
    cases hop
    exact ⟨l, c.congr rfl rfl rfl rfl rfl rfl, hl⟩
  | endUpdate =>
    have hend := c.hostEndUpdate
    rw [show h.hostEndUpdate = .ok h' from hop] at hend
    generalize staleIn _ = x at hend
    cases hend with
    | ok hends => exact ⟨_, hends.1, ended_readable hl⟩

end Opticon
