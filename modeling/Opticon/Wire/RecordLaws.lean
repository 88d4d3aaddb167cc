import Opticon.Wire.Records
import Opticon.Wire.RoundTrip

/-! The plain meters that prefixed records displace, and the number of meters a host gets. -/

namespace Opticon

variable {f f' : Feeding} {s s' : DecodeState} {h : Host} {mid : MeterId} {ok : Bool}
  {es : List FeedStep}

/-! ### Plain meters -/

/-- There is no meter that is named like the prefix of an id. -/
def Host.Displaced (h : Host) (mid : MeterId) : Prop :=
  ∀ m ∈ h.meters, m.name ≠ idgetprefix mid &&& MMASK_NAME

theorem displaced_iff : h.Displaced mid ↔ idgetprefix mid &&& MMASK_NAME ∉ h.names := by
  simp [Host.Displaced, Host.names]

/-- A record with a prefix finds no meter of that name; or the prefix is another one than the
decoder remembers, and the record is not done once it has emptied the children of its name. -/
def RidsOfPlain (f : Feeding) : FeedStep → Prop
  | .record mid => idgetprefix mid ≠ 0 →
    f.s.host.Displaced mid ∨ idgetprefix mid ≠ f.s.lastpfx ∧ ¬ EmptiesChildren f.s.host mid
  | _ => True

/-- A record gives no meter the name of its own prefix. -/
theorem namesAfter_prefix (hp : idgetprefix mid ≠ 0) :
    idgetprefix mid &&& MMASK_NAME ∈ h.namesAfter mid ↔
      idgetprefix mid &&& MMASK_NAME ∈ h.names := by
  unfold Host.namesAfter
  split
  · rfl
  · simp [idgetprefix_name_ne hp]

theorem remaining_prefix {lastpfx : MeterId} (hp : idgetprefix mid ≠ 0) :
    idgetprefix mid &&& MMASK_NAME ∈ (h.remaining lastpfx mid).names ↔
      idgetprefix mid &&& MMASK_NAME ∈ h.names ∧ idgetprefix mid = lastpfx := by
  unfold Host.remaining
  by_cases hlast : idgetprefix mid = lastpfx
  · rw [if_neg (by simp [hlast])]
    simp [hlast]
  · rw [if_pos ⟨hp, hlast⟩]
    simp [Host.names, Host.without, hlast]

theorem displaced_step (hp : idgetprefix mid ≠ 0) (hd : decodeRecord s mid = .ok (ok, s')) :
    s'.host.Displaced mid ↔ s.host.Displaced mid ∨
      idgetprefix mid ≠ s.lastpfx ∧ ¬ EmptiesChildren s.host mid := by
  simp only [displaced_iff]
  obtain ⟨hchildren, htally, -⟩ | ⟨hno, hnames, -⟩ := decodeRecord_names hd
  · have hnames : s'.host.names = s.host.names := congrArg Prod.fst htally
    simp [hnames, hchildren]
  · rw [hnames, namesAfter_prefix hp, remaining_prefix hp]
    tauto

/-- In every run in which each record with a prefix rids the host of the meter of that name, no
host has such a meter behind the record; and behind a further record it has none exactly if that
one does so too. -/
theorem plain_displaced_iff
    (hr : ((feeding fun _ => True).guard RidsOfPlain).History es f) :
    (∀ mid, es.getLast? = some (.record mid) → idgetprefix mid ≠ 0 → f.s.host.Displaced mid) ∧
      ∀ mid f', (feeding fun _ => True).step f (.record mid) f' → idgetprefix mid ≠ 0 →
        (f'.s.host.Displaced mid ↔ RidsOfPlain f (.record mid)) := by
  have hstep {f f' : Feeding} {mid : MeterId} (hs : (feeding fun _ => True).step f (.record mid) f')
      (hp : idgetprefix mid ≠ 0) : f'.s.host.Displaced mid ↔ RidsOfPlain f (.record mid) := by
    obtain ⟨-, -, -, hd⟩ := hs
    exact (displaced_step hp hd).trans ⟨fun h _ => h, fun h => h hp⟩
  refine ⟨?_, fun mid f' hs hp => hstep hs hp⟩
  apply hr.induction (I := fun es f => ∀ mid, es.getLast? = some (.record mid) →
    idgetprefix mid ≠ 0 → f.s.host.Displaced mid)
  · intro f _ mid hlast
    cases hlast
  · intro es f e f' _ hs mid hlast hp
    obtain rfl : e = .record mid := by simpa using hlast
    exact (hstep hs.2 hp).mpr hs.1

/-- What the next record of a packet leads to. -/
def Feeding.after (f : Feeding) : Feeding :=
  match decodeRecord { f.s with io := (ioportReadU64 f.s.io).2 } (ioportReadU64 f.s.io).1 with
  | .ok r => ⟨r.2, r.1⟩
  | .error _ => f

theorem takes_after (hrunning : f.running = true) (hmid : (ioportReadU64 f.s.io).1 = mid) (h0 : mid ≠ 0)
    (hok : (decodeRecord { f.s with io := (ioportReadU64 f.s.io).2 } mid).isOk = true) :
    (FeedStep.record mid).Takes f f.after := by
  refine ⟨hrunning, hmid, h0, ?_⟩
  rw [Feeding.after, hmid]
  generalize decodeRecord { f.s with io := (ioportReadU64 f.s.io).2 } mid = r at hok
  cases r with
  | error e => cases hok
  | ok r => rfl

/-- A child, a meter that has the name of the prefix, and another child. -/
def plainPacket : Packet where
  now := 1
  bytes := be64 (makeid (asc "a/x") MTYPE_INT) ++ [1] ++ be64 (makeid (asc "a") MTYPE_INT) ++ [2] ++
    be64 (makeid (asc "a/y") MTYPE_INT) ++ [3]
  strbuf := []

def plainFeeding : Feeding := ⟨plainPacket.start (hostAlloc ⟨0, 0⟩), true⟩

def idleFeeding : Feeding := ⟨⟨.reader [], hostAlloc ⟨0, 0⟩, 0, []⟩, false⟩

theorem plainFeeding_start : FeedStep.Takes idleFeeding (.packet plainPacket) plainFeeding :=
  ⟨rfl, rfl⟩

theorem plainFeeding_first :
    FeedStep.Takes plainFeeding (.record (makeid (asc "a/x") MTYPE_INT)) plainFeeding.after :=
  takes_after rfl (by decide) (by decide) (by decide)

theorem plain_displaced_first :
    plainFeeding.after.s.host.Displaced (makeid (asc "a/x") MTYPE_INT) := by
  have hrids : RidsOfPlain plainFeeding (.record (makeid (asc "a/x") MTYPE_INT)) := by
    intro _
    exact .inl (by simp [Host.Displaced, plainFeeding, Packet.start, hostAlloc])
  have hinit : ((feeding fun _ => True).guard RidsOfPlain).History [] idleFeeding :=
    Transition.History.init ⟨trivial, rfl⟩
  have hstart := feeding_guarded hinit (.packet plainPacket) trivial plainFeeding_start
  have hr := feeding_guarded hstart _ hrids plainFeeding_first
  exact (plain_displaced_iff hr).1 _ rfl (by decide)

/-- The meter that the second record makes anew is still there behind the third one. -/
theorem plain_made_anew : ¬ ∀ es f mid,
    (feeding fun _ => True).History (es ++ [.record mid]) f → idgetprefix mid ≠ 0 →
      f.s.host.Displaced mid := by
  intro hall
  have hinit : (feeding fun _ => True).History [] idleFeeding := Transition.History.init ⟨trivial, rfl⟩
  have hfirst := feeding_history (feeding_history hinit _ plainFeeding_start) _ plainFeeding_first
  have hsecond : FeedStep.Takes plainFeeding.after (.record (makeid (asc "a") MTYPE_INT))
      plainFeeding.after.after := takes_after (by decide) (by decide) (by decide) (by decide)
  have hthird : FeedStep.Takes plainFeeding.after.after (.record (makeid (asc "a/y") MTYPE_INT))
      plainFeeding.after.after.after := takes_after (by decide) (by decide) (by decide) (by decide)
  have hr := feeding_history (feeding_history hfirst _ hsecond) _ hthird
  have hno := displaced_iff.mp (hall _ _ _ hr (by decide))
  exact hno (by decide)

/-! ### The quota -/

/-- A host without meters, as `host_alloc` leaves it. -/
def Host.Unused (h : Host) : Prop := h.meters = [] ∧ h.mcount = 0

def Host.WithinQuota (h : Host) : Prop := (h.meters.length : Int) ≤ default_host_max_meters

/-- A record of a name that the host does not have, behind the displacement. -/
def IsNew (f : Feeding) (mid : MeterId) : Prop :=
  ¬ EmptiesChildren f.s.host mid ∧ mid &&& MMASK_NAME ∉ (f.s.host.remaining f.s.lastpfx mid).names

/-- A record of a new name does not come to a host that has as many meters as it may have. -/
def FindsRoom (f : Feeding) : FeedStep → Prop
  | .record mid => IsNew f mid →
    ((f.s.host.remaining f.s.lastpfx mid).meters.length : Int) ≠ default_host_max_meters
  | _ => True

/-- The counter of a host is right. -/
def Host.Counted (h : Host) : Prop := h.mcount = h.names.length

theorem remaining_counted {lastpfx : MeterId} (hc : h.Counted) :
    (h.remaining lastpfx mid).Counted ∧
      (h.remaining lastpfx mid).names.length ≤ h.names.length := by
  unfold Host.remaining
  split
  · refine ⟨?_, ?_⟩
    · have hsplit : h.meters.length =
          (h.meters.countP fun m => m.name == idgetprefix mid &&& MMASK_NAME) +
            (h.meters.filter fun m => m.name != idgetprefix mid &&& MMASK_NAME).length := by
        rw [List.countP_eq_length_filter]
        exact List.length_eq_length_filter_add _
      simp only [Host.Counted, Host.without, Host.names, List.length_map] at hc ⊢
      omega
    · exact (List.filter_sublist.map _).length_le
  · exact ⟨hc, le_rfl⟩

theorem counted_step {e : FeedStep} (hc : f.s.host.Counted) (hs : e.Takes f f') :
    f'.s.host.Counted := by
  cases e with
  | packet p =>
    obtain ⟨-, rfl⟩ := hs
    exact hc
  | terminator =>
    obtain ⟨-, -, rfl⟩ := hs
    exact hc
  | record mid =>
    obtain ⟨-, -, -, hd⟩ := hs
    obtain ⟨-, htally, -⟩ | ⟨-, hnames, hcount⟩ := decodeRecord_names hd
    · obtain ⟨hnames, hcount⟩ := Prod.mk.inj htally
      rw [Host.Counted, hnames, hcount]
      exact hc
    · rw [Host.Counted, hnames]
      exact hcount (remaining_counted hc).1

theorem quota_step {e : FeedStep} (hc : f.s.host.Counted) (hq : f.s.host.WithinQuota)
    (hs : e.Takes f f') : f'.s.host.WithinQuota ↔ FindsRoom f e := by
  cases e with
  | packet p =>
    obtain ⟨-, rfl⟩ := hs
    exact iff_of_true hq trivial
  | terminator =>
    obtain ⟨-, -, rfl⟩ := hs
    exact iff_of_true hq trivial
  | record mid =>
    obtain ⟨-, -, -, hd⟩ := hs
    have hlen (h : Host) : h.meters.length = h.names.length := (List.length_map _).symm
    have hroom : FindsRoom f (.record mid) ↔ (¬ EmptiesChildren f.s.host mid →
        mid &&& MMASK_NAME ∉ (f.s.host.remaining f.s.lastpfx mid).names →
        ((f.s.host.remaining f.s.lastpfx mid).names.length : Int) ≠ default_host_max_meters) := by
      rw [← hlen]
      exact and_imp
    rw [hroom]
    unfold Host.WithinQuota at hq ⊢
    rw [hlen] at hq ⊢
    obtain ⟨hchildren, htally, -⟩ | ⟨hno, hnames, -⟩ := decodeRecord_names hd
    · rw [show f'.s.host.names = f.s.host.names from congrArg Prod.fst htally]
      exact iff_of_true hq fun hno => absurd hchildren hno
    · obtain ⟨hcounted, hle⟩ := @remaining_counted _ mid f.s.lastpfx hc
      rw [hnames]
      simp only [show ¬ EmptiesChildren f.s.host mid from hno, not_false_iff, true_imp_iff]
      generalize f.s.host.remaining f.s.lastpfx mid = R at hcounted hle ⊢
      by_cases hold : mid &&& MMASK_NAME ∈ R.names
      · rw [namesAfter_kept (.inl hold)]
        exact iff_of_true (by omega) fun hnew => absurd hold hnew
      · rw [namesAfter_new hold (by rw [hcounted]; omega), List.length_append, List.length_singleton]
        simp only [hold, not_false_iff, true_imp_iff]
        omega

/-- A record that is not taken leaves the meters that are not displaced as they are, and decoding
goes on where it does for any other host. -/
structure Skipped (s : DecodeState) (mid : MeterId) : Prop where
  host : ∃ ok s', decodeRecord s mid = .ok (ok, s') ∧ s'.host = s.host.remaining s.lastpfx mid
  place : ∀ ok s', decodeRecord s mid = .ok (ok, s') → ∀ s₂ ok₂ s₂', s₂.io = s.io →
    decodeRecord s₂ mid = .ok (ok₂, s₂') → ok₂ = ok ∧ s₂'.io = s'.io

theorem remaining_own {lastpfx : MeterId} :
    mid &&& MMASK_NAME ∈ (h.remaining lastpfx mid).names ↔ mid &&& MMASK_NAME ∈ h.names := by
  unfold Host.remaining
  split
  · rename_i hp
    have hne := (idgetprefix_name_ne hp.1).symm
    simp only [Host.names, Host.without, List.mem_map, List.mem_filter, bne_iff_ne, ne_eq]
    constructor
    · rintro ⟨m, ⟨hm, -⟩, hname⟩
      exact ⟨m, hm, hname⟩
    · rintro ⟨m, hm, hname⟩
      exact ⟨m, ⟨hm, hname ▸ hne⟩, hname⟩
  · rfl

theorem decodeMeter_skipped (hnew : mid &&& MMASK_NAME ∉ (s.host.remaining s.lastpfx mid).names)
    (hfull : default_host_max_meters < (s.host.remaining s.lastpfx mid).mcount) :
    ∃ ok s', decodeMeter s mid = .ok (ok, s') ∧ s'.host = s.host.remaining s.lastpfx mid := by
  rw [← decodeDisplace_host] at hnew hfull ⊢
  have hnone : hostFindMeterName (decodeDisplace s mid).host mid = none := by
    simpa [mem_names] using hnew
  have htarget : decodeTarget (decodeDisplace s mid).host mid = ((decodeDisplace s mid).host, none) := by
    rw [decodeTarget, hnone]
    exact if_neg (not_le_of_gt hfull)
  unfold decodeMeter
  simp only [htarget, Host.updateTarget, Outcome.ok_bind]
  split
  · exact ⟨true, _, rfl, rfl⟩
  · exact decodeValues_untaken _ _ _ (decodeDisplace s mid)

theorem skipped (hno : ¬ EmptiesChildren s.host mid)
    (hnew : mid &&& MMASK_NAME ∉ (s.host.remaining s.lastpfx mid).names)
    (hfull : default_host_max_meters < (s.host.remaining s.lastpfx mid).mcount) : Skipped s mid := by
  refine ⟨?_, ?_⟩
  · have hnone : hostFindMeterName s.host mid = none := by
      rw [remaining_own] at hnew
      simpa [mem_names] using hnew
    unfold decodeRecord
    split
    · rename_i hcount
      have hprefix : hostFindPrefix s.host mid none = none := by
        simpa [EmptiesChildren, hcount] using hno
      have hempty : decodeEmptyArray s.host mid = .ok (false, s.host) := by
        simp only [decodeEmptyArray, hprefix, hnone]
      simp only [hempty, Outcome.ok_bind]
      exact decodeMeter_skipped hnew hfull
    · exact decodeMeter_skipped hnew hfull
  · intro ok s' hd s₂ ok₂ s₂' hio hd₂
    have hplace := (decodeRecord_place hd₂).symm.trans (hio ▸ decodeRecord_place hd)
    exact Prod.mk.inj hplace

theorem counted_reachable (hr : (feeding Host.Unused).Reachable f) : f.s.host.Counted := by
  apply hr.induction (I := fun f => f.s.host.Counted)
  · intro f hinit
    rw [Host.Counted, Host.names, hinit.1.1, hinit.1.2]
    rfl
  · intro f e f' hc hs
    exact counted_step hc hs

/-- In every run of packets into a host without meters in which no record of a new name comes to a
host that is full, the host keeps to its quota, and it does so behind a further step exactly if that
one finds room too; and in every run whatever, a record of a new name that comes to a host with more
meters than that is skipped. -/
theorem quota_kept_iff (hr : ((feeding Host.Unused).guard FindsRoom).History es f) :
    f.s.host.WithinQuota ∧
      (∀ e f', (feeding Host.Unused).step f e f' → (f'.s.host.WithinQuota ↔ FindsRoom f e)) ∧
      ∀ f mid, (feeding Host.Unused).Reachable f → IsNew f mid →
        default_host_max_meters < (f.s.host.remaining f.s.lastpfx mid).meters.length →
        Skipped { f.s with io := (ioportReadU64 f.s.io).2 } mid := by
  have hq : f.s.host.WithinQuota := by
    have hboth := hr.induction (I := fun _ f => f.s.host.Counted ∧ f.s.host.WithinQuota) ?_ ?_
    · exact hboth.2
    · intro f hinit
      refine ⟨counted_reachable (Transition.Reachable.init hinit), ?_⟩
      rw [Host.WithinQuota, hinit.1.1]
      decide
    · intro es f e f' hf hs
      obtain ⟨hc, hq⟩ := hf
      exact ⟨counted_step hc hs.2, (quota_step hc hq hs.2).mpr hs.1⟩
  refine ⟨hq, fun e f' hs => quota_step (counted_reachable hr.of_guard.reachable) hq hs, ?_⟩
  intro f mid hr hnew hfull
  refine skipped hnew.1 hnew.2 ?_
  have hc : (f.s.host.remaining f.s.lastpfx mid).Counted := (remaining_counted (counted_reachable hr)).1
  rw [Host.Counted, Host.names, List.length_map] at hc
  dsimp only
  omega

theorem quota_kept_first : plainFeeding.after.s.host.WithinQuota := by
  have hroom : FindsRoom plainFeeding (.record (makeid (asc "a/x") MTYPE_INT)) := by
    intro _
    decide
  have hinit : ((feeding Host.Unused).guard FindsRoom).History [] idleFeeding :=
    Transition.History.init ⟨⟨rfl, rfl⟩, rfl⟩
  have hstart := feeding_guarded hinit (.packet plainPacket) trivial plainFeeding_start
  exact (quota_kept_iff (feeding_guarded hstart _ hroom plainFeeding_first)).1

/-! ### More than 256 meters -/

/-- Different names of two letters, in the id word of a meter without a value. -/
def crowdId (k : Nat) : MeterId :=
  BitVec.ofNat 64 ((k / 16 + 1) * 0x1000 + (k % 16 + 1) * 0x80 + 0x1e)

theorem crowdId_facts : ∀ k < 257, crowdId k ≠ 0 ∧ (crowdId k &&& MMASK_COUNT).toNat = SZ_EMPTY_VAL ∧
    idgetprefix (crowdId k) = 0 ∧
      (crowdId k &&& MMASK_NAME).toNat = (k / 16 + 1) * 0x1000 + (k % 16 + 1) * 0x80 := by
  decide +kernel

def crowdPacket (k : Nat) : Packet := ⟨1, be64 (crowdId k), []⟩

theorem crowd_step {k : Nat} (hk : k < 257) (hf : (feeding Host.Unused).Reachable f)
    (hidle : f.running = false) (hrep : f.s.host.Represented) (hq : f.s.host.mcount ≤ default_host_max_meters)
    (hnew : crowdId k &&& MMASK_NAME ∉ f.s.host.names) :
    ∃ f', (feeding Host.Unused).Reachable f' ∧ f'.running = false ∧ f'.s.host.Represented ∧
      f'.s.host.names = f.s.host.names ++ [crowdId k &&& MMASK_NAME] := by
  obtain ⟨h0, hcount, hpfx, -⟩ := crowdId_facts k hk
  have hstart := feeding_step hf (.packet (crowdPacket k)) ⟨hidle, rfl⟩
  set start : DecodeState := (crowdPacket k).start f.s.host
  have hread : ioportReadU64 start.io = (crowdId k, .reader []) :=
    ioportReadU64_be64 (List.append_nil _).symm
  have hfits : RecordFits f.s.host (crowdId k) := .inl hcount.ge
  obtain ⟨ok, s', hd, hrep'⟩ :=
    (decodeRecord_represented (s := { start with io := .reader [] }) (crowdId k) hrep).mpr hfits
  have hplace := decodeRecord_place hd
  rw [skipRecord, hcount] at hplace
  obtain ⟨rfl, hio⟩ := Prod.mk.inj hplace
  have hrecord : FeedStep.Takes ⟨start, true⟩ (.record (crowdId k)) ⟨s', true⟩ := by
    refine ⟨rfl, congrArg Prod.fst hread, h0, ?_⟩
    rw [hread]
    exact hd
  have hend : FeedStep.Takes ⟨s', true⟩ .terminator ⟨{ s' with io := (ioportReadU64 s'.io).2 }, false⟩ := by
    refine ⟨rfl, ?_, rfl⟩
    rw [← hio]
    rfl
  refine ⟨_, feeding_step (feeding_step hstart _ hrecord) _ hend, rfl, hrep', ?_⟩
  obtain ⟨hchildren, -⟩ | ⟨-, hnames, -⟩ := decodeRecord_names hd
  · have hne : SZ_EMPTY_VAL ≠ SZ_EMPTY_ARRAY := by decide
    exact absurd (hcount.symm.trans hchildren.1) hne
  · have hremaining : start.host.remaining start.lastpfx (crowdId k) = start.host := by
      rw [Host.remaining, hpfx, if_neg (by simp)]
    have hnames : s'.host.names = (start.host.remaining start.lastpfx (crowdId k)).namesAfter (crowdId k) :=
      hnames
    rw [hremaining] at hnames
    exact hnames.trans (namesAfter_new hnew hq)

theorem crowd_reached {n : Nat} (hn : n ≤ 257) :
    ∃ f, (feeding Host.Unused).Reachable f ∧ f.running = false ∧ f.s.host.Represented ∧
      f.s.host.names = (List.range n).map fun k => crowdId k &&& MMASK_NAME := by
  induction n with
  | zero =>
    refine ⟨idleFeeding, Transition.Reachable.init ⟨⟨rfl, rfl⟩, rfl⟩, rfl, hostAlloc_represented _, rfl⟩
  | succ n ih =>
    obtain ⟨f, hf, hidle, hrep, hnames⟩ := ih (by omega)
    have hcount : f.s.host.mcount = n := by
      rw [counted_reachable hf, hnames]
      simp
    have hnew : crowdId n &&& MMASK_NAME ∉ f.s.host.names := by
      rw [hnames]
      intro hmem
      obtain ⟨k, hk, heq⟩ := List.mem_map.mp hmem
      have hk := List.mem_range.mp hk
      have hvalue := congrArg BitVec.toNat heq
      rw [(crowdId_facts k (by omega)).2.2.2, (crowdId_facts n (by omega)).2.2.2] at hvalue
      omega
    have hq : f.s.host.mcount ≤ default_host_max_meters := by
      rw [hcount, default_host_max_meters]
      omega
    obtain ⟨f', hf', hidle', hrep', hnames'⟩ := crowd_step (by omega) hf hidle hrep hq hnew
    refine ⟨f', hf', hidle', hrep', ?_⟩
    rw [hnames', hnames, List.range_succ, List.map_append]
    rfl

/-- The comparison of the counter lets one meter too many in. -/
theorem quota_exceeded : ¬ ∀ f, (feeding Host.Unused).Reachable f → f.s.host.WithinQuota := by
  intro hall
  obtain ⟨f, hf, -, -, hnames⟩ := crowd_reached le_rfl
  have hq := hall f hf
  have hlen : f.s.host.names.length = f.s.host.meters.length := List.length_map _
  rw [hnames, List.length_map, List.length_range] at hlen
  rw [Host.WithinQuota, ← hlen] at hq
  exact absurd hq (by decide)

end Opticon
