import Opticon.Db.Record
import Opticon.Wire.LinkedPacket

/-! Ranges of values out of the records of a host (`db_local.c`). -/

namespace Opticon

/-- `localdb_get_record` for a host in memory. There are no files for the days before 1970. -/
def LinkedHost.localdbGetRecord (dir : HostDir) (when : ℤ) (into : LinkedHost) (strbuf : List UInt8) :
    Except Fault (Bool × LinkedHost) := do
  if when < 0 then return (false, into)
  let dt := time2date when.toNat
  match localdbOpenDbfile dir dt true, localdbOpenIndexfile dir dt true with
  | some dbf, some ixf =>
    match ← localdbFindIndex ixf when.toNat with
    | none => return (false, into)
    | some offs =>
      let dbport := Ioport.fileReader (dbf.drop offs)
      let (pad, dbport) := ioportReadU64 dbport
      if pad ≠ 0 then return (false, into)
      let (_, dbport) := ioportReadU64 dbport
      let (res, s) ← into.pktcodecDecodeHost dbport strbuf
      return (res, s.host)
  | _, _ => return (false, into)

/-- The meter that is read from, given one value before the first record. -/
def LinkedHost.rangeMeter (h : LinkedHost) (key : MeterId) : Except Fault (LinkedHost × Nat) := do
  let (h, m) ← h.hostGetMeter key
  return (← h.updateMeter m fun val => meterSetcount h.lastmodified val 0, m)

section Loop

variable {α : Type} (zero : α) (get : Meter → Nat → Except Fault α) (dir : HostDir) (strbuf : List UInt8)

/-- The value at a time, or `zero` if there is no record for it. -/
def rangeSample (m arrayindex : Nat) (pos : ℤ) (h : LinkedHost) : Except Fault (α × LinkedHost) := do
  let (found, h) ← h.localdbGetRecord dir pos strbuf
  if found then
    let node ← h.read m
    return (← get node.val arrayindex, h)
  else return (zero, h)

/-- The value behind the loop, whether there is a record or not. -/
def rangeLast (m arrayindex : Nat) (end' : ℤ) (h : LinkedHost) : Except Fault (α × LinkedHost) := do
  let (_, h) ← h.localdbGetRecord dir end' strbuf
  let node ← h.read m
  return (← get node.val arrayindex, h)

/-- The values from `pos` on, into a buffer that has room for as many as `room` yet. -/
def fillRange (sample final : ℤ → LinkedHost → Except Fault (α × LinkedHost)) (end' skip : ℤ) :
    Nat → ℤ → LinkedHost → Except Fault (List α × LinkedHost)
  | 0, pos, h => (if pos < end' then sample pos h else final end' h) >>= fun _ => .error .outOfBounds
  | room + 1, pos, h =>
    if pos < end' then do
      let (val, h) ← sample pos h
      let (vals, h) ← fillRange sample final end' skip room (pos + skip) h
      return (val :: vals, h)
    else do
      let (val, h) ← final end' h
      return ([val], h)

/-- The quotient is assigned to an `int`. -/
def rangeSkip (start end' numsamples : Nat) : ℤ :=
  (BitVec.ofNat 32 ((end' - start) / (numsamples - 1))).toInt

def localdbGetValueRange (start end' numsamples : Nat) (key : MeterId) (arrayindex : Nat)
    (h : LinkedHost) : Except Fault (Option (List α) × LinkedHost) := do
  if end' ≤ start then return (none, h)
  if numsamples < 2 then return (none, h)
  if 1024 < numsamples then return (none, h)
  let (h, m) ← h.rangeMeter key
  let (res, h) ← fillRange (rangeSample zero get dir strbuf m arrayindex)
    (rangeLast get dir strbuf m arrayindex) end' (rangeSkip start end' numsamples) (numsamples + 1) start h
  return (some res, h)

end Loop

def localdbGetValueRangeInt (dir : HostDir) (strbuf : List UInt8) (start end' numsamples : Nat)
    (key : MeterId) (arrayindex : Nat) (h : LinkedHost) :
    Except Fault (Option (List (BitVec 64)) × LinkedHost) :=
  localdbGetValueRange 0 meterGetUint dir strbuf start end' numsamples key arrayindex h

def localdbGetValueRangeFrac (dir : HostDir) (strbuf : List UInt8) (start end' numsamples : Nat)
    (key : MeterId) (arrayindex : Nat) (h : LinkedHost) :
    Except Fault (Option (List Double) × LinkedHost) :=
  localdbGetValueRange (.fin 0) meterGetFrac dir strbuf start end' numsamples key arrayindex h

variable {α : Type} {zero : α} {get : Meter → Nat → Except Fault α} {dir : HostDir} {strbuf : List UInt8}
  {start end' numsamples : Nat} {key : MeterId} {arrayindex m : Nat} {h : LinkedHost}

/-! ### Records of a host in memory -/

/-- The host in memory and the host that it is go on alike. -/
theorem LinkedHost.Represents.localdbGetRecord {c : LinkedHost} {l : List (Nat × Meter)} {h : Host}
    (r : c.Represents l h) (dir : HostDir) (when : Nat) (strbuf : List UInt8) :
    Outcome.Alike (fun x x' => x.1 = x'.1 ∧ ∃ l', x.2.Represents l' x'.2)
      (c.localdbGetRecord dir when strbuf) (Opticon.localdbGetRecord dir when h strbuf) := by
  unfold LinkedHost.localdbGetRecord Opticon.localdbGetRecord
  rw [if_neg (by omega), Int.toNat_natCast]
  dsimp only
  cases localdbOpenDbfile dir (time2date when) true with
  | none => exact .ok ⟨rfl, l, r⟩
  | some dbf =>
    cases localdbOpenIndexfile dir (time2date when) true with
    | none => exact .ok ⟨rfl, l, r⟩
    | some ixf =>
      dsimp only
      cases localdbFindIndex ixf when with
      | error e => exact .error e
      | ok found =>
        rw [Outcome.ok_bind, Outcome.ok_bind]
        cases found with
        | none => exact .ok ⟨rfl, l, r⟩
        | some offs =>
          dsimp only
          split_ifs
          · exact .ok ⟨rfl, l, r⟩
          · refine (r.pktcodecDecodeHost _ strbuf).bind fun x x' hends => ?_
            obtain ⟨hres, as, hd⟩ := hends
            obtain ⟨l', -, hr⟩ := hd.host
            exact .ok ⟨hres, l', hr⟩

/-! ### The number of the values -/

/-- The meter of a key can be looked up, and whatever records are read into the host then, none of them
faults and a value can be read from the meter. -/
def Sampled (dir : HostDir) (strbuf : List UInt8) (key : MeterId) (arrayindex : Nat) (h : LinkedHost) : Prop :=
  ∃ h₁ m, h.rangeMeter key = .ok (h₁, m) ∧ ∃ I : LinkedHost → Prop, I h₁ ∧ ∀ h, I h → ∀ when,
    ∃ found h', h.localdbGetRecord dir when strbuf = .ok (found, h') ∧ I h' ∧
      ∃ node, h'.read m = .ok node ∧ (∃ val, meterGetUint node.val arrayindex = .ok val) ∧
        ∃ val, meterGetFrac node.val arrayindex = .ok val

section Fill

variable {sample final : ℤ → LinkedHost → Except Fault (α × LinkedHost)} {I : LinkedHost → Prop}
  {stop skip pos : ℤ} {room n : Nat}

theorem fillRange_pos {vals : List α} {h' : LinkedHost}
    (hrun : fillRange sample final stop skip room pos h = .ok (vals, h')) : 0 < room ∧ 0 < vals.length := by
  cases room with
  | zero =>
    unfold fillRange at hrun
    obtain ⟨-, -, hrun⟩ := Outcome.bind_ok_iff.mp hrun
    cases hrun
  | succ room =>
    refine ⟨Nat.succ_pos room, ?_⟩
    unfold fillRange at hrun
    split_ifs at hrun
    · obtain ⟨x, -, hrun⟩ := Outcome.bind_ok_iff.mp hrun
      obtain ⟨y, -, hrun⟩ := Outcome.bind_ok_iff.mp hrun
      cases hrun
      exact Nat.succ_pos _
    · obtain ⟨x, -, hrun⟩ := Outcome.bind_ok_iff.mp hrun
      cases hrun
      exact Nat.succ_pos _

/-- Where no value faults, the loop has as many rounds as steps fit in front of the end, and the buffer
has to have room for one value more. -/
theorem fillRange_length (hsample : ∀ h, I h → ∀ pos, ∃ val h', sample pos h = .ok (val, h') ∧ I h')
    (hfinal : ∀ h, I h → ∃ val h', final stop h = .ok (val, h')) (hh : I h) :
    (∃ vals h', fillRange sample final stop skip room pos h = .ok (vals, h') ∧ vals.length = n + 1) ↔
      n < room ∧ (∀ j < n, pos + j * skip < stop) ∧ stop ≤ pos + n * skip := by
  induction room generalizing pos n h with
  | zero =>
    refine iff_of_false ?_ fun hlt => absurd hlt.1 (Nat.not_lt_zero n)
    rintro ⟨vals, h', hrun, -⟩
    exact absurd (fillRange_pos hrun).1 (Nat.lt_irrefl 0)
  | succ room ih =>
    unfold fillRange
    by_cases hpos : pos < stop
    · obtain ⟨val, h₁, hval, hh₁⟩ := hsample h hh pos
      rw [if_pos hpos, hval, Outcome.ok_bind]
      cases n with
      | zero =>
        refine iff_of_false ?_ fun hle => ?_
        · rintro ⟨vals, h', hrun, hlen⟩
          obtain ⟨⟨vals', h''⟩, hrest, hrun⟩ := Outcome.bind_ok_iff.mp hrun
          cases hrun
          have hpos' := (fillRange_pos hrest).2
          rw [List.length_cons] at hlen
          omega
        · have hle := hle.2.2
          rw [Nat.cast_zero, zero_mul, add_zero] at hle
          omega
      | succ n =>
        have hstep (j : Nat) : pos + ((j + 1 : Nat) : ℤ) * skip = pos + skip + j * skip := by
          push_cast
          ring
        have hiff : (∃ vals h', fillRange sample final stop skip room (pos + skip) h₁ = .ok (vals, h') ∧
            vals.length = n + 1) ↔ _ := ih hh₁
        constructor
        · rintro ⟨vals, h', hrun, hlen⟩
          obtain ⟨⟨vals', h''⟩, hrest, hrun⟩ := Outcome.bind_ok_iff.mp hrun
          cases hrun
          obtain ⟨hroom, hbefore, hstop⟩ := hiff.mp ⟨_, _, hrest, Nat.succ.inj hlen⟩
          refine ⟨Nat.succ_lt_succ hroom, fun j hj => ?_, by rwa [hstep]⟩
          cases j with
          | zero => simpa using hpos
          | succ j =>
            rw [hstep]
            exact hbefore j (Nat.lt_of_succ_lt_succ hj)
        · rintro ⟨hroom, hbefore, hstop⟩
          rw [hstep] at hstop
          obtain ⟨vals, h', hrest, hlen⟩ := hiff.mpr ⟨Nat.lt_of_succ_lt_succ hroom,
            fun j hj => by rw [← hstep]; exact hbefore (j + 1) (Nat.succ_lt_succ hj), hstop⟩
          exact ⟨val :: vals, h', Outcome.bind_ok_iff.mpr ⟨_, hrest, rfl⟩, congrArg Nat.succ hlen⟩
    · obtain ⟨val, h₁, hval⟩ := hfinal h hh
      rw [if_neg hpos, hval]
      cases n with
      | zero =>
        refine iff_of_true ⟨_, _, rfl, rfl⟩ ⟨Nat.succ_pos room, fun j hj => absurd hj (Nat.not_lt_zero j), ?_⟩
        simpa using hpos
      | succ n =>
        refine iff_of_false ?_ fun hlt => hpos ?_
        · rintro ⟨vals, h', hrun, hlen⟩
          cases hrun
          cases hlen
        · simpa using hlt.2.1 0 (Nat.succ_pos n)

end Fill

/-- An `int` takes the numbers that it has room for. -/
theorem toInt_ofNat_le (q : Nat) :
    (BitVec.ofNat 32 q).toInt ≤ q ∧ (BitVec.ofNat 32 q).toInt < 2 ^ 31 ∧
      (q < 2 ^ 31 → (BitVec.ofNat 32 q).toInt = q) := by
  rw [BitVec.toInt_ofNat', Int.bmod_def]
  norm_num
  refine ⟨?_, ?_, fun hlt => ?_⟩
  all_goals
    split_ifs
    all_goals omega

/-- Steps of the size that is assigned get to the end in one round less than there are samples exactly
if nothing of the quotient is lost. -/
theorem rangeSkip_right (hlt : start < end') (hn : 2 ≤ numsamples) :
    ((∀ j < numsamples - 1, (start : ℤ) + (j : Nat) * rangeSkip start end' numsamples < end') ∧
        (end' : ℤ) ≤ start + (numsamples - 1 : Nat) * rangeSkip start end' numsamples) ↔
      numsamples - 1 ∣ end' - start ∧ (end' - start) / (numsamples - 1) < 2 ^ 31 := by
  obtain ⟨k, hk⟩ : ∃ k, numsamples - 1 = k := ⟨_, rfl⟩
  obtain ⟨d, hd, hpos⟩ : ∃ d, end' = start + d ∧ 0 < d := ⟨end' - start, by omega, by omega⟩
  have hkpos : 0 < k := by omega
  have hdiv : end' - start = d := by omega
  unfold rangeSkip
  rw [hk, hdiv, hd, Nat.cast_add]
  obtain ⟨hle, hint, heq⟩ := toInt_ofNat_le (d / k)
  generalize (BitVec.ofNat 32 (d / k)).toInt = skip at hle hint heq
  have hmul : k * (d / k) ≤ d := Nat.mul_div_le d k
  constructor
  · rintro ⟨-, hstop⟩
    -- as the steps are rounded down, they get to the end only if they are exact
    have hsteps : (k : ℤ) * skip ≤ k * (d / k : Nat) := Int.mul_le_mul_of_nonneg_left hle (by omega)
    have hmul' : (k : ℤ) * (d / k : Nat) ≤ d := by exact_mod_cast hmul
    have hexact : (k : ℤ) * (d / k : Nat) = d := by omega
    have hskip : skip = (d / k : Nat) := by
      have hboth : (k : ℤ) * skip = k * (d / k : Nat) := by omega
      exact Int.eq_of_mul_eq_mul_left (by omega) hboth
    refine ⟨⟨d / k, by exact_mod_cast hexact.symm⟩, ?_⟩
    rw [hskip] at hint
    exact_mod_cast hint
  · rintro ⟨hdvd, hroom⟩
    rw [heq hroom]
    have hexact : k * (d / k) = d := Nat.mul_div_cancel' hdvd
    refine ⟨fun j hj => ?_, ?_⟩
    · have hqpos : 0 < d / k := Nat.pos_of_ne_zero fun hzero => by simp [hzero] at hexact; omega
      have hless : j * (d / k) < k * (d / k) := Nat.mul_lt_mul_of_pos_right hj hqpos
      have hless' : (j : ℤ) * (d / k : Nat) < d := by exact_mod_cast hless.trans_eq hexact
      omega
    · have hexact' : (k : ℤ) * (d / k : Nat) = d := by exact_mod_cast hexact
      omega

/-- A range of values from a host whose records can be read. -/
theorem localdbGetValueRange_length (hlt : start < end') (h2 : 2 ≤ numsamples) (hmax : numsamples ≤ 1024)
    {h₁ : LinkedHost} {I : LinkedHost → Prop} (hm : h.rangeMeter key = .ok (h₁, m)) (hh : I h₁)
    (hI : ∀ h, I h → ∀ when, ∃ found h', h.localdbGetRecord dir when strbuf = .ok (found, h') ∧ I h' ∧
      ∃ node, h'.read m = .ok node ∧ ∃ val, get node.val arrayindex = .ok val) :
    (∃ vals h', localdbGetValueRange zero get dir strbuf start end' numsamples key arrayindex h =
        .ok (some vals, h') ∧ vals.length = numsamples) ↔
      numsamples - 1 ∣ end' - start ∧ (end' - start) / (numsamples - 1) < 2 ^ 31 := by
  have hsample : ∀ h, I h → ∀ pos, ∃ val h',
      rangeSample zero get dir strbuf m arrayindex pos h = .ok (val, h') ∧ I h' := by
    intro h hh pos
    obtain ⟨found, h', hrec, hh', node, hread, val, hget⟩ := hI h hh pos
    unfold rangeSample
    rw [hrec, Outcome.ok_bind]
    cases found with
    | false => exact ⟨zero, h', rfl, hh'⟩
    | true =>
      dsimp only
      rw [if_pos rfl, hread, Outcome.ok_bind, hget]
      exact ⟨val, h', rfl, hh'⟩
  have hfinal : ∀ h, I h → ∃ val h', rangeLast get dir strbuf m arrayindex (end' : ℤ) h = .ok (val, h') := by
    intro h hh
    obtain ⟨found, h', hrec, -, node, hread, val, hget⟩ := hI h hh end'
    unfold rangeLast
    rw [hrec, Outcome.ok_bind]
    dsimp only
    rw [hread, Outcome.ok_bind, hget]
    exact ⟨val, h', rfl⟩
  obtain ⟨n, rfl⟩ : ∃ n, numsamples = n + 1 := ⟨numsamples - 1, by omega⟩
  have hfill := @fillRange_length _ _ _ _ I end' (rangeSkip start end' (n + 1)) start (n + 1 + 1) n hsample
    hfinal hh
  have hskip := rangeSkip_right hlt h2
  rw [Nat.add_sub_cancel] at hskip ⊢
  rw [and_iff_right (show n < n + 1 + 1 by omega), hskip] at hfill
  rw [← hfill]
  unfold localdbGetValueRange
  rw [if_neg (not_le_of_gt hlt), if_neg (not_lt_of_ge h2), if_neg (not_lt_of_ge hmax), hm,
    Outcome.ok_bind]
  dsimp only
  constructor
  · rintro ⟨vals, h', hrun, hlen⟩
    obtain ⟨⟨res, h''⟩, hrest, hrun⟩ := Outcome.bind_ok_iff.mp hrun
    cases hrun
    exact ⟨_, _, hrest, hlen⟩
  · rintro ⟨vals, h', hrest, hlen⟩
    exact ⟨vals, h', Outcome.bind_ok_iff.mpr ⟨_, hrest, rfl⟩, hlen⟩

/-- Ranges of values end with as many values as there are samples, which their buffer has room for, only
if the interval has as many steps of the same size, one less than there are samples. -/
theorem value_ranges_right (hlt : start < end') (h2 : 2 ≤ numsamples) (hmax : numsamples ≤ 1024)
    (hs : Sampled dir strbuf key arrayindex h) :
    ((∃ vals h', localdbGetValueRangeInt dir strbuf start end' numsamples key arrayindex h =
          .ok (some vals, h') ∧ vals.length = numsamples) ∧
        ∃ vals h', localdbGetValueRangeFrac dir strbuf start end' numsamples key arrayindex h =
          .ok (some vals, h') ∧ vals.length = numsamples) ↔
      numsamples - 1 ∣ end' - start ∧ (end' - start) / (numsamples - 1) < 2 ^ 31 := by
  obtain ⟨h₁, m, hm, I, hh, hI⟩ := hs
  have hint := @localdbGetValueRange_length _ 0 meterGetUint dir strbuf start end' numsamples key arrayindex
    m h hlt h2 hmax h₁ I hm hh fun h hh when => by
      obtain ⟨found, h', hrec, hh', node, hread, hval, -⟩ := hI h hh when
      exact ⟨found, h', hrec, hh', node, hread, hval⟩
  have hfrac := @localdbGetValueRange_length _ (.fin 0) meterGetFrac dir strbuf start end' numsamples key
    arrayindex m h hlt h2 hmax h₁ I hm hh fun h hh when => by
      obtain ⟨found, h', hrec, hh', node, hread, -, hval⟩ := hI h hh when
      exact ⟨found, h', hrec, hh', node, hread, hval⟩
  exact (and_congr hint hfrac).trans and_self_iff

/-- An empty directory has no records. -/
theorem alloc_sampled : Sampled .empty [] (makeid (asc "pcpu") MTYPE_FRAC) 0 .alloc := by
  refine ⟨_, 0, rfl, (· = _), rfl, ?_⟩
  rintro h rfl when
  refine ⟨false, _, ?_, rfl, _, rfl, ⟨_, rfl⟩, ⟨_, rfl⟩⟩
  unfold LinkedHost.localdbGetRecord
  split_ifs <;> rfl

theorem value_ranges_right_load :
    ((∃ vals h', localdbGetValueRangeInt .empty [] 60 360 4 (makeid (asc "pcpu") MTYPE_FRAC) 0 .alloc =
          .ok (some vals, h') ∧ vals.length = 4) ∧
        ∃ vals h', localdbGetValueRangeFrac .empty [] 60 360 4 (makeid (asc "pcpu") MTYPE_FRAC) 0 .alloc =
          .ok (some vals, h') ∧ vals.length = 4) ↔
      4 - 1 ∣ 360 - 60 ∧ (360 - 60) / (4 - 1) < 2 ^ 31 :=
  value_ranges_right (by decide) (by decide) (by decide) alloc_sampled

/-- Three samples of one second: the steps have no length, and what is written leaves the buffer. -/
theorem short_range_overflows :
    Sampled .empty [] (makeid (asc "pcpu") MTYPE_FRAC) 0 .alloc ∧
      localdbGetValueRangeFrac .empty [] 60 61 3 (makeid (asc "pcpu") MTYPE_FRAC) 0 .alloc =
        .error .outOfBounds :=
  ⟨alloc_sampled, rfl⟩

end Opticon
