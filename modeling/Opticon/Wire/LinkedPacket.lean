import Opticon.Meter.ChainLaws
import Opticon.Wire.Records
import Opticon.Wire.EmptyArrays

/-! The packet codec over the meters as they are linked in memory (`codec_pkt.c`). -/

namespace Opticon

open Linked

/-- The local variables of `pktcodec_decode_host` that live from one record to the next. -/
structure LinkedDecode where
  io : Ioport
  host : LinkedHost
  lastpfx : MeterId
  strbuf : List UInt8

namespace LinkedHost

def emptyPrefixed (pfx : MeterId) : Nat → Option Nat → LinkedHost → Except Fault LinkedHost
  | _, none, h => .ok h
  | 0, some _, _ => .error .endlessLoop
  | n + 1, some crsr, h => do
    let h ← h.updateMeter crsr (meterSetEmptyArray h.lastmodified)
    let crsr ← h.hostFindPrefix pfx (some crsr)
    emptyPrefixed pfx n crsr h

/-- The treatment of a record with count `SZ_EMPTY_ARRAY`. -/
def decodeEmptyArray (h : LinkedHost) (mid : MeterId) : Except Fault (Bool × LinkedHost) := do
  match ← h.hostFindPrefix mid none with
  | some crsr => return (true, ← emptyPrefixed mid h.next (some crsr) h)
  | none =>
    match ← h.hostFindMeterName mid with
    | some crsr => return (false, ← h.updateMeter crsr (meterSetEmptyArray h.lastmodified))
    | none => return (false, h)

def displaceLoop (pfx : MeterId) : Nat → LinkedHost → List UInt8 → Except Fault (LinkedHost × List UInt8)
  | 0, _, _ => .error .endlessLoop
  | n + 1, h, strbuf => do
    match ← h.hostFindMeterName pfx with
    | none => return (h, strbuf)
    | some crsr =>
      let node ← h.read crsr
      let strbuf := overwrite strbuf (idChars node.val.id)
      let strbuf := strbuf.set (idEnd (idChars node.val.id) + 1) 0
      let h ← h.hostDeleteMeter crsr
      displaceLoop pfx n h strbuf

/-- The meter a record is decoded into; none if it is new and the host is full. -/
def decodeTarget (h : LinkedHost) (mid : MeterId) : Except Fault (LinkedHost × Option Nat) := do
  match ← h.hostFindMeterName mid with
  | some M => return (h, some M)
  | none =>
    if h.mcount ≤ default_host_max_meters then
      let (h, M) ← h.hostGetMeter mid
      return (h, some M)
    else return (h, none)

def updateTarget (h : LinkedHost) (M : Option Nat) (f : Meter → Except Fault Meter) :
    Except Fault LinkedHost :=
  match M with
  | none => .ok h
  | some m => h.updateMeter m f

end LinkedHost

namespace LinkedDecode

/-- If the id has a prefix, get rid of a possible node that has the prefix for its name. -/
def displace (s : LinkedDecode) (mid : MeterId) : Except Fault LinkedDecode :=
  let pfx := idgetprefix mid
  if pfx ≠ 0 ∧ pfx ≠ s.lastpfx then do
    let (host, strbuf) ← LinkedHost.displaceLoop pfx (s.host.next + 1) s.host s.strbuf
    return { s with host := host, lastpfx := pfx, strbuf := strbuf }
  else .ok s

/-- One value of the record; none if the type of the record is unknown. -/
def value (s : LinkedDecode) (mid : MeterId) (M : Option Nat) (i : Nat) :
    Except Fault (Option LinkedDecode) :=
  if mid &&& MMASK_TYPE = MTYPE_INT then do
    let (ival, io) := ioportReadEncint s.io
    let host ← s.host.updateTarget M fun m => meterSetUint s.host.lastmodified m i ival
    return some { s with io := io, host := host }
  else if mid &&& MMASK_TYPE = MTYPE_FRAC then do
    let (dval, io) := ioportReadEncfrac s.io
    let host ← s.host.updateTarget M fun m => meterSetFrac s.host.lastmodified m i dval
    return some { s with io := io, host := host }
  else if mid &&& MMASK_TYPE = MTYPE_STR then do
    let (_, strbuf, io) := ioportReadEncstring s.io s.strbuf
    let host ← s.host.updateTarget M fun m => meterSetStr s.host.lastmodified m i strbuf
    return some { s with io := io, host := host, strbuf := strbuf }
  else .ok none

/-- The values from position `i` on, `n` of them. -/
def values (mid : MeterId) (M : Option Nat) : Nat → Nat → LinkedDecode → Except Fault (Bool × LinkedDecode)
  | 0, _, s => .ok (true, s)
  | n + 1, i, s => do
    match ← s.value mid M i with
    | none => return (false, s)
    | some s => values mid M n (i + 1) s

/-- The part of a record's treatment that is about the meter of its name. -/
def meter (s : LinkedDecode) (mid : MeterId) : Except Fault (Bool × LinkedDecode) := do
  let count := (mid &&& MMASK_COUNT).toNat
  let s ← s.displace mid
  let (host, M) ← s.host.decodeTarget mid
  let host ← host.updateTarget M (decodeSetup host.lastmodified mid count)
  let s := { s with host := host }
  if SZ_EMPTY_VAL ≤ elemCount count then return (true, s)
  values mid M (elemCount count) 0 s

/-- A record behind its id word; the flag is false if decoding ends in failure. -/
def record (s : LinkedDecode) (mid : MeterId) : Except Fault (Bool × LinkedDecode) :=
  if (mid &&& MMASK_COUNT).toNat = SZ_EMPTY_ARRAY then do
    let (finished, host) ← s.host.decodeEmptyArray mid
    let s := { s with host := host }
    if finished then return (true, s) else s.meter mid
  else s.meter mid

/-- Every round of the loop takes eight bytes at least, so the bytes left bound the rounds. -/
def loop : Nat → LinkedDecode → Except Fault (Bool × LinkedDecode)
  | 0, s => .ok (true, s)
  | n + 1, s => do
    let (mid, io) := ioportReadU64 s.io
    let s := { s with io := io }
    if mid = 0 then return (true, s)
    let (ok, s) ← s.record mid
    if ok then loop n s else return (false, s)

end LinkedDecode

/-- `pktcodec_decode_host` for a host in memory. -/
def LinkedHost.pktcodecDecodeHost (io : Ioport) (h : LinkedHost) (strbuf : List UInt8) :
    Except Fault (Bool × LinkedDecode) :=
  LinkedDecode.loop (io.unread.length + 1) ⟨io, h, 0, strbuf⟩

/-! ### The meters of a host -/

/-- A host in memory and the meters it has. -/
structure LinkedHost.Represents (c : LinkedHost) (l : List (Nat × Meter)) (h : Host) : Prop where
  chain : c.Chain l
  meters : h.meters = l.map Prod.snd
  mcount : h.mcount = c.mcount
  lastmodified : h.lastmodified = c.lastmodified

namespace LinkedHost

variable {c c' : LinkedHost} {h h' : Host} {l l' l₁ l₂ : List (Nat × Meter)} {a i : Nat} {v : Meter}
  {id mid pfx : MeterId} {M M' : Option Nat}

theorem split_at (hi : (addrs l)[i]? = some a) :
    ∃ l₁ v l₂, l = l₁ ++ (a, v) :: l₂ ∧ l₁.length = i := by
  rw [addrs, List.getElem?_map, Option.map_eq_some_iff] at hi
  obtain ⟨⟨_, v⟩, hx, rfl⟩ := hi
  obtain ⟨l₁, l₂, hl⟩ := exists_split hx
  exact ⟨l₁, v, l₂, hl⟩

/-- The two ways to change a meter, through its address and at its position. -/
theorem Represents.updateMeter (r : c.Represents l h) (hi : (addrs l)[i]? = some a)
    (f : Meter → Except Fault Meter) :
    Outcome.Alike (fun c' h' => ∃ l', addrs l' = addrs l ∧ c'.Represents l' h') (c.updateMeter a f)
      (h.updateMeter i f) := by
  obtain ⟨l₁, v, l₂, rfl, rfl⟩ := split_at hi
  have hget : h.meters[l₁.length]? = some v := by
    rw [r.meters]
    simp
  have hu := r.chain.updateMeter f
  unfold Host.updateMeter
  rw [hget]
  dsimp only
  cases hf : f v with
  | error e =>
    rw [hf] at hu
    generalize c.updateMeter a f = x at hu
    cases hu
    exact .error e
  | ok v' =>
    rw [hf] at hu
    obtain ⟨c', hc, hchain, htime⟩ := hu.of_ok
    rw [hc]
    refine .ok ⟨_, addrs_setVal v', ⟨hchain, ?_, ?_, r.lastmodified.trans htime.symm⟩⟩
    · rw [r.meters]
      simp
    · rw [show h.mcount = c.mcount from r.mcount, r.chain.count, hchain.count]
      simp

theorem Represents.hostFindMeterName (r : c.Represents l h) (id : MeterId) :
    ∃ o, c.hostFindMeterName id = .ok o ∧ PointsTo (addrs l) o (Opticon.hostFindMeterName h id) := by
  unfold Opticon.hostFindMeterName
  rw [r.meters]
  exact r.chain.findFrom _

theorem Represents.hostFindPrefix {prev prev' : Option Nat} (r : c.Represents l h)
    (hprev : PointsTo (addrs l) prev prev') (pfx : MeterId) :
    ∃ o, c.hostFindPrefix pfx prev = .ok o ∧ PointsTo (addrs l) o (Opticon.hostFindPrefix h pfx prev') := by
  unfold Opticon.hostFindPrefix
  dsimp only
  rw [r.meters]
  cases l with
  | nil =>
    have hnone : prev = none := by
      cases hprev with
      | none => rfl
      | some hi => cases hi
    have hfirst : c.first = none := r.chain.walk.2
    refine ⟨none, ?_, by simpa using .none⟩
    unfold LinkedHost.hostFindPrefix
    simp [hnone, hfirst]
  | cons x l =>
    obtain ⟨a, hor, hi⟩ : ∃ a, prev.or c.first = some a ∧ (addrs (x :: l))[prev'.getD 0]? = some a := by
      have hfirst : c.first = some x.1 := r.chain.walk.1
      cases hprev with
      | none => exact ⟨x.1, hfirst, rfl⟩
      | some hi => exact ⟨_, rfl, hi⟩
    obtain ⟨l₁, v, l₂, hl, hlen⟩ := split_at hi
    have hwalk := r.chain.walk
    have hlong := r.chain.length_le
    rw [hl] at hwalk hlong ⊢
    obtain ⟨q, _, -, rfl, next, hm, htail⟩ := seg_append.mp hwalk
    obtain ⟨o, hfind, hpoints⟩ := findFrom_seg
      (p := fun m => m.id &&& id2mask pfx == pfx &&& MMASK_NAME && idisprefix pfx m.id (id2mask pfx))
      htail (show l₂.length ≤ c.next by simp at hlong; omega)
    refine ⟨o, ?_, ?_⟩
    · unfold LinkedHost.hostFindPrefix
      simp only [hor, read_eq hm, Outcome.ok_bind]
      exact hfind
    · have hdrop : ((l₁ ++ (a, v) :: l₂).map Prod.snd).drop (prev'.getD 0 + 1) = l₂.map Prod.snd := by
        rw [← List.map_drop, ← hlen, List.drop_append]
        simp
      rw [hdrop]
      generalize (l₂.map Prod.snd).findIdx? _ = j at hpoints
      cases hpoints with
      | none => exact .none
      | @some b k hk =>
        refine .some ?_
        rw [addrs_append, addrs_cons, List.getElem?_append_right (by simp [addrs, ← hlen]; omega)]
        rw [show k + (prev'.getD 0 + 1) - (addrs l₁).length = k + 1 by simp [addrs, hlen]; omega]
        exact hk

theorem Represents.hostDeleteMeter (r : c.Represents l h) (hi : (addrs l)[i]? = some a) :
    ∃ c' l', c.hostDeleteMeter a = .ok c' ∧ c'.Represents l' (Opticon.hostDeleteMeter h i) ∧
      l.length = l'.length + 1 := by
  obtain ⟨l₁, v, l₂, rfl, rfl⟩ := split_at hi
  obtain ⟨c', hdelete, hchain, htime, -, -⟩ := r.chain.hostDeleteMeter
  refine ⟨c', l₁ ++ l₂, hdelete, ⟨hchain, ?_, ?_, r.lastmodified.trans htime.symm⟩, ?_⟩
  · unfold Opticon.hostDeleteMeter
    rw [r.meters, List.map_append, List.map_cons, List.map_append,
      List.eraseIdx_append_of_length_le (by simp)]
    simp
  · rw [show (Opticon.hostDeleteMeter h l₁.length).mcount = h.mcount - 1 from rfl, r.mcount,
      r.chain.count, hchain.count]
    simp
    omega
  · simp
    omega

theorem Represents.hostGetMeter (r : c.Represents l h) (id : MeterId) :
    ∃ c' b l', c.hostGetMeter id = .ok (c', b) ∧ c'.Represents l' (Opticon.hostGetMeter h id).1 ∧
      (addrs l')[(Opticon.hostGetMeter h id).2]? = some b := by
  have hfind : (h.meters.findIdx? fun m => m.id == id &&& (MMASK_TYPE ||| MMASK_NAME) ||
      (m.name == id &&& (MMASK_TYPE ||| MMASK_NAME) &&& MMASK_NAME && m.count == SZ_EMPTY_ARRAY)) =
      (l.map Prod.snd).findIdx? (accepts (id &&& (MMASK_TYPE ||| MMASK_NAME))) := by
    rw [r.meters]
    rfl
  obtain ⟨i, b, hi, hget, hb⟩ | ⟨hno, c', hget, htime, hchain⟩ := r.chain.hostGetMeter id
  · rw [hi] at hfind
    have hhost : Opticon.hostGetMeter h id = (h, i) := by simp only [Opticon.hostGetMeter, hfind]
    exact ⟨c, b, l, hget, by rw [hhost]; exact r, by rw [hhost]; exact hb⟩
  · rw [hno] at hfind
    refine ⟨c', c.next, l ++ [(c.next, meterAlloc (id &&& (MMASK_TYPE ||| MMASK_NAME)))], hget, ?_, ?_⟩
    · simp only [Opticon.hostGetMeter, hfind]
      refine ⟨hchain, by simp [r.meters], ?_, r.lastmodified.trans htime.symm⟩
      dsimp only
      rw [hchain.count, r.mcount, r.chain.count]
      split
      · rename_i hnil
        rw [r.meters, List.map_eq_nil_iff] at hnil
        simp [hnil]
      · simp
    · simp only [Opticon.hostGetMeter, hfind]
      rw [r.meters, addrs_append, List.length_map, List.getElem?_append_right (by simp [addrs])]
      simp [addrs]

end LinkedHost

namespace LinkedHost

variable {c c' : LinkedHost} {h h' : Host} {l l' : List (Nat × Meter)} {a i : Nat}
  {mid pfx : MeterId} {M M' : Option Nat}

/-! ### Decoding -/

theorem PointsTo.lt {as : List Nat} {o : Option Nat} {i : Nat} (hp : PointsTo as o (some i)) :
    i < as.length := by
  cases hp with
  | some hi => exact (List.getElem?_eq_some_iff.mp hi).1

theorem length_addrs (l : List (Nat × Meter)) : (addrs l).length = l.length := List.length_map _

/-- Both walks over the children of a name go on until there is none left. -/
theorem Represents.emptyPrefixed {n n' : Nat} {crsr crsr' : Option Nat} (r : c.Represents l h)
    (hp : PointsTo (addrs l) crsr crsr')
    (hn : ∀ i, crsr' = some i → l.length ≤ i + n ∧ l.length ≤ i + n') :
    Outcome.Alike (fun c' h' => ∃ l', addrs l' = addrs l ∧ c'.Represents l' h')
      (emptyPrefixed pfx n crsr c) (Opticon.emptyPrefixed pfx n' crsr' h) := by
  induction n generalizing c h l n' crsr crsr' with
  | zero =>
    cases hp with
    | none => cases n' <;> exact .ok ⟨l, rfl, r⟩
    | @some a i hi =>
      have hlt := (PointsTo.lt (.some hi)).trans_eq (length_addrs l)
      have hle := (hn i rfl).1
      omega
  | succ n ih =>
    cases hp with
    | none => cases n' <;> exact .ok ⟨l, rfl, r⟩
    | @some a i hi =>
      have hlt := (PointsTo.lt (.some hi)).trans_eq (length_addrs l)
      obtain ⟨hle, hle'⟩ := hn i rfl
      cases n' with
      | zero => omega
      | succ n' =>
        unfold LinkedHost.emptyPrefixed Opticon.emptyPrefixed
        rw [r.lastmodified]
        refine (r.updateMeter hi (meterSetEmptyArray c.lastmodified)).bind fun c₁ h₁ hr => ?_
        obtain ⟨l₁, haddrs, r₁⟩ := hr
        have hcrsr : PointsTo (addrs l₁) (some a) (some i) := haddrs ▸ Option.Rel.some hi
        obtain ⟨o, hfind, hpoints⟩ := r₁.hostFindPrefix hcrsr pfx
        have hlen : l₁.length = l.length := by rw [← length_addrs, haddrs, length_addrs]
        rw [hfind, Outcome.ok_bind, ← haddrs]
        refine ih r₁ hpoints fun j hj => ?_
        obtain ⟨-, -, -, hbehind, -⟩ := hostFindPrefix_found hj
        simp only [Option.getD_some] at hbehind
        omega

theorem Represents.decodeEmptyArray (r : c.Represents l h) (mid : MeterId) :
    Outcome.Alike (fun x x' => x.1 = x'.1 ∧ ∃ l', x.2.Represents l' x'.2)
      (c.decodeEmptyArray mid) (Opticon.decodeEmptyArray h mid) := by
  obtain ⟨o, hfind, hpoints⟩ := r.hostFindPrefix .none mid
  unfold LinkedHost.decodeEmptyArray Opticon.decodeEmptyArray
  rw [hfind, Outcome.ok_bind]
  generalize Opticon.hostFindPrefix h mid none = j at hpoints
  cases hpoints with
  | some hj =>
    have hlen : h.meters.length = l.length := by rw [r.meters, List.length_map]
    have hlong := r.chain.length_le
    refine (r.emptyPrefixed (.some hj) fun i _ => ⟨by omega, by omega⟩).bind fun c₁ h₁ hr => ?_
    obtain ⟨l₁, -, r₁⟩ := hr
    exact .ok ⟨rfl, l₁, r₁⟩
  | none =>
    obtain ⟨o, hfind, hpoints⟩ := r.hostFindMeterName mid
    dsimp only
    rw [hfind, Outcome.ok_bind]
    generalize Opticon.hostFindMeterName h mid = j at hpoints
    cases hpoints with
    | some hj =>
      dsimp only
      rw [r.lastmodified]
      refine (r.updateMeter hj (meterSetEmptyArray c.lastmodified)).bind fun c₁ h₁ hr => ?_
      obtain ⟨l₁, -, r₁⟩ := hr
      exact .ok ⟨rfl, l₁, r₁⟩
    | none => exact .ok ⟨rfl, l, r⟩

theorem Represents.displaceLoop {n n' : Nat} (r : c.Represents l h) (pfx : MeterId) (strbuf : List UInt8)
    (hn : l.length < n) (hn' : l.length ≤ n') :
    ∃ c' l', displaceLoop pfx n c strbuf = .ok (c', (Opticon.displaceLoop pfx n' h strbuf).2) ∧
      c'.Represents l' (Opticon.displaceLoop pfx n' h strbuf).1 := by
  induction n generalizing c h l n' strbuf with
  | zero => cases hn
  | succ n ih =>
    obtain ⟨o, hfind, hpoints⟩ := r.hostFindMeterName pfx
    unfold LinkedHost.displaceLoop
    rw [hfind, Outcome.ok_bind]
    generalize hj : Opticon.hostFindMeterName h pfx = j at hpoints
    cases hpoints with
    | none =>
      have hdone : Opticon.displaceLoop pfx n' h strbuf = (h, strbuf) := by
        cases n' with
        | zero => rfl
        | succ n' => simp only [Opticon.displaceLoop, hj]
      exact ⟨c, l, by rw [hdone]; rfl, by rw [hdone]; exact r⟩
    | @some a i hi =>
      have hlt := (PointsTo.lt (.some hi)).trans_eq (length_addrs l)
      cases n' with
      | zero => omega
      | succ n' =>
        obtain ⟨l₁, v, l₂, hl, hlen⟩ := split_at hi
        obtain ⟨node, hm, hval⟩ := r.chain.walk.lookup (a := a) (v := v) (hl ▸ by simp)
        have hid : (h.meters[i]?.map Meter.id).getD 0 = node.val.id := by
          rw [r.meters, hl, hval, ← hlen]
          simp
        obtain ⟨c', l', hdelete, r', hshort⟩ := r.hostDeleteMeter hi
        have hfew : l'.length < n := by omega
        have hfew' : l'.length ≤ n' := by omega
        simp only [Opticon.displaceLoop, hj, hid, read_eq hm, Outcome.ok_bind, hdelete]
        exact ih r' _ hfew hfew'

theorem Represents.decodeTarget (r : c.Represents l h) (mid : MeterId) :
    ∃ c' M l', c.decodeTarget mid = .ok (c', M) ∧ c'.Represents l' (Opticon.decodeTarget h mid).1 ∧
      PointsTo (addrs l') M (Opticon.decodeTarget h mid).2 := by
  obtain ⟨o, hfind, hpoints⟩ := r.hostFindMeterName mid
  unfold LinkedHost.decodeTarget Opticon.decodeTarget
  rw [hfind, Outcome.ok_bind]
  generalize Opticon.hostFindMeterName h mid = j at hpoints
  cases hpoints with
  | some hj => exact ⟨c, _, l, rfl, r, .some hj⟩
  | none =>
    dsimp only
    rw [r.mcount]
    by_cases hroom : c.mcount ≤ default_host_max_meters
    · obtain ⟨c', b, l', hget, r', hb⟩ := r.hostGetMeter mid
      rw [if_pos hroom, if_pos hroom, hget]
      exact ⟨c', some b, l', rfl, r', .some hb⟩
    · rw [if_neg hroom, if_neg hroom]
      exact ⟨c, none, l, rfl, r, .none⟩

theorem Represents.updateTarget (r : c.Represents l h) (hM : PointsTo (addrs l) M M')
    (f : Meter → Except Fault Meter) :
    Outcome.Alike (fun c' h' => ∃ l', addrs l' = addrs l ∧ c'.Represents l' h')
      (c.updateTarget M f) (h.updateTarget M' f) := by
  cases hM with
  | none => exact .ok ⟨l, rfl, r⟩
  | some hi => exact r.updateMeter hi f

end LinkedHost

namespace LinkedDecode

open LinkedHost (PointsTo length_addrs)

variable {s : LinkedDecode} {t : DecodeState} {as : List Nat} {M M' : Option Nat} {mid : MeterId}

/-- The two decoders have come to the same, and the meters are at these addresses. -/
structure Represents (as : List Nat) (s : LinkedDecode) (t : DecodeState) : Prop where
  io : s.io = t.io
  lastpfx : s.lastpfx = t.lastpfx
  strbuf : s.strbuf = t.strbuf
  host : ∃ l, addrs l = as ∧ s.host.Represents l t.host

theorem Represents.value (r : Represents as s t) (hM : PointsTo as M M') (mid : MeterId) (i : Nat) :
    Outcome.Alike (Option.Rel (Represents as)) (s.value mid M i) (decodeValue t mid M' i) := by
  obtain ⟨io, c, lastpfx, strbuf⟩ := s
  obtain ⟨io, h, lastpfx, strbuf⟩ := t
  obtain ⟨rfl, rfl, rfl, l, rfl, r'⟩ := r
  dsimp only at r'
  unfold LinkedDecode.value decodeValue
  dsimp only
  rw [r'.lastmodified]
  split_ifs
  · exact (r'.updateTarget hM _).bind fun c' h' hr => .ok (.some ⟨rfl, rfl, rfl, hr⟩)
  · exact (r'.updateTarget hM _).bind fun c' h' hr => .ok (.some ⟨rfl, rfl, rfl, hr⟩)
  · exact (r'.updateTarget hM _).bind fun c' h' hr => .ok (.some ⟨rfl, rfl, rfl, hr⟩)
  · exact .ok .none

theorem Represents.values (r : Represents as s t) (hM : PointsTo as M M') (mid : MeterId) (n i : Nat) :
    Outcome.Alike (fun x x' => x.1 = x'.1 ∧ Represents as x.2 x'.2) (values mid M n i s)
      (decodeValues mid M' n i t) := by
  induction n generalizing s t i with
  | zero => exact .ok ⟨rfl, r⟩
  | succ n ih =>
    unfold LinkedDecode.values decodeValues
    refine (r.value hM mid i).bind fun o o' hr => ?_
    cases hr with
    | none => exact .ok ⟨rfl, r⟩
    | some r' => exact ih r' (i + 1)

theorem Represents.displace (r : Represents as s t) (mid : MeterId) :
    ∃ s' as', s.displace mid = .ok s' ∧ Represents as' s' (decodeDisplace t mid) := by
  obtain ⟨io, c, lastpfx, strbuf⟩ := s
  obtain ⟨io, h, lastpfx, strbuf⟩ := t
  obtain ⟨rfl, rfl, rfl, l, rfl, r'⟩ := r
  dsimp only at r'
  unfold LinkedDecode.displace decodeDisplace
  dsimp only
  split_ifs
  · have hlen : h.meters.length = l.length := by rw [r'.meters, List.length_map]
    have hlong := r'.chain.length_le
    obtain ⟨c', l', hloop, r''⟩ := r'.displaceLoop ( idgetprefix mid) strbuf
      (show l.length < c.next + 1 by omega) (show l.length ≤ h.meters.length by omega)
    rw [hloop, Outcome.ok_bind]
    exact ⟨_, _, rfl, rfl, rfl, rfl, l', rfl, r''⟩
  · exact ⟨_, _, rfl, rfl, rfl, rfl, l, rfl, r'⟩

/-- How a decoder of each kind comes out of a record. -/
def Ends (x : Bool × LinkedDecode) (x' : Bool × DecodeState) : Prop :=
  x.1 = x'.1 ∧ ∃ as, Represents as x.2 x'.2

theorem Represents.meter (r : Represents as s t) (mid : MeterId) :
    Outcome.Alike Ends (s.meter mid) (decodeMeter t mid) := by
  obtain ⟨s', as', hdisplace, r⟩ := r.displace mid
  unfold LinkedDecode.meter decodeMeter
  rw [hdisplace, Outcome.ok_bind]
  generalize decodeDisplace t mid = t' at r
  obtain ⟨io, c, lastpfx, strbuf⟩ := s'
  obtain ⟨io, h, lastpfx, strbuf⟩ := t'
  obtain ⟨rfl, rfl, rfl, l, rfl, r'⟩ := r
  obtain ⟨c', M, l', htarget, r', hM⟩ := r'.decodeTarget mid
  dsimp only at htarget r' hM ⊢
  rw [htarget, Outcome.ok_bind]
  dsimp only
  rw [r'.lastmodified]
  refine (r'.updateTarget hM _).bind fun c'' h'' hr => ?_
  have hr : Represents (addrs l') ⟨io, c'', lastpfx, strbuf⟩ ⟨io, h'', lastpfx, strbuf⟩ := ⟨rfl, rfl, rfl, hr⟩
  split_ifs
  · exact .ok ⟨rfl, _, hr⟩
  · have hvalues := hr.values hM mid (elemCount (mid &&& MMASK_COUNT).toNat) 0
    generalize LinkedDecode.values _ _ _ _ _ = x at hvalues ⊢
    generalize decodeValues _ _ _ _ _ = x' at hvalues ⊢
    cases hvalues with
    | ok hends => exact .ok ⟨hends.1, _, hends.2⟩
    | error e => exact .error e

theorem Represents.record (r : Represents as s t) (mid : MeterId) :
    Outcome.Alike Ends (s.record mid) (decodeRecord t mid) := by
  unfold LinkedDecode.record decodeRecord
  split_ifs
  · obtain ⟨io, c, lastpfx, strbuf⟩ := s
    obtain ⟨io, h, lastpfx, strbuf⟩ := t
    obtain ⟨rfl, rfl, rfl, l, rfl, r'⟩ := r
    refine (r'.decodeEmptyArray mid).bind fun x x' hr => ?_
    obtain ⟨finished, c'⟩ := x
    obtain ⟨finished', h'⟩ := x'
    obtain ⟨rfl, l', r''⟩ := hr
    have hr : Represents (addrs l') ⟨io, c', lastpfx, strbuf⟩ ⟨io, h', lastpfx, strbuf⟩ :=
      ⟨rfl, rfl, rfl, l', rfl, r''⟩
    dsimp only
    split_ifs
    · exact .ok ⟨rfl, _, hr⟩
    · exact hr.meter mid
  · exact r.meter mid

theorem Represents.loop (r : Represents as s t) (n : Nat) :
    Outcome.Alike Ends (loop n s) (decodeLoop n t) := by
  induction n generalizing s t as with
  | zero => exact .ok ⟨rfl, as, r⟩
  | succ n ih =>
    unfold LinkedDecode.loop decodeLoop
    rw [r.io]
    have hr : Represents as { s with io := (ioportReadU64 t.io).2 } { t with io := (ioportReadU64 t.io).2 } :=
      ⟨rfl, r.lastpfx, r.strbuf, r.host⟩
    dsimp only
    split_ifs
    · exact .ok ⟨rfl, as, hr⟩
    · refine (hr.record _).bind fun x x' hends => ?_
      obtain ⟨ok, s'⟩ := x
      obtain ⟨ok', t'⟩ := x'
      obtain ⟨rfl, as', r'⟩ := hends
      dsimp only at r' ⊢
      split_ifs
      · exact ih r'
      · exact .ok ⟨rfl, as', r'⟩

end LinkedDecode

/-- The decoder does the same to the meters in memory as to the list of them: it ends with the same
error, or leaves a host in memory that has the meters of the list. -/
theorem LinkedHost.Represents.pktcodecDecodeHost {c : LinkedHost} {h : Host} {l : List (Nat × Meter)}
    (r : c.Represents l h) (io : Ioport) (strbuf : List UInt8) :
    Outcome.Alike LinkedDecode.Ends (c.pktcodecDecodeHost io strbuf) (Opticon.pktcodecDecodeHost io h strbuf) := by
  have hr : LinkedDecode.Represents (addrs l) ⟨io, c, 0, strbuf⟩ ⟨io, h, 0, strbuf⟩ :=
    ⟨rfl, rfl, rfl, l, rfl, r⟩
  exact hr.loop _

end Opticon
