import Mathlib.Data.ENat.Basic
import Opticon.Collector.Summary
import Opticon.Lib.Outcome
import Opticon.Var.ChildLaws
import Opticon.Var.CopyLaws
import Opticon.Var.Leaves

/-! What a round of summaries reports. -/

namespace Opticon

/-- A call that adds a summary. -/
inductive SummaryCall where
  | avg (name : List UInt8) (mid : MeterId)
  | total (name : List UInt8) (mid : MeterId)
  | count (name : List UInt8) (mid : MeterId) (text : List UInt8)

namespace SummaryCall

def apply (self : List Summary) : SummaryCall → List Summary
  | .avg name mid => summaryinfoAddSummaryAvg self name mid
  | .total name mid => summaryinfoAddSummaryTotal self name mid
  | .count name mid text => summaryinfoAddSummaryCount self name mid text

/-- The summary that is added. -/
def conf : SummaryCall → Summarydata
  | .avg name mid => ⟨FString.strncpy name, mid, .avg⟩
  | .total name mid => ⟨FString.strncpy name, mid, .total⟩
  | .count name mid text =>
    ⟨FString.strncpy name, mid &&& MMASK_NAME ||| MTYPE_STR, .count (FString.strncpy text)⟩

end SummaryCall

/-- The summaries that are added to none. -/
def summaryinfoOf (calls : List SummaryCall) : List Summary := calls.foldl SummaryCall.apply []

/-- Rounds that follow each other. -/
def summaryRounds (o : Doubles) (self : List Summary) (rounds : List (List Meter)) :
    Except Fault (List Summary) :=
  rounds.foldlM (summaryRound o) self

/-! ### What is due -/

/-- The whole part; none of the whole numbers for a double that the language does not cast. -/
def Double.whole : Double → ℕ∞
  | .fin d => if -1 < d then (⌊d⌋.toNat : ℕ∞) else ⊤
  | .inf => ⊤

def Double.sum (ds : List Double) : Double := ds.foldr Double.add (.fin 0)

namespace Meter

/-- The first value of a meter, converted from the type the meter has. -/
def sample {α : Type} (m : Meter) (zero : α) (int : BitVec 64 → α) (frac : Double → α)
    (str : FString → α) : α :=
  if m.type = MTYPE_INT then int (m.uint 0)
  else if m.type = MTYPE_FRAC then frac (m.frac 0)
  else if m.type = MTYPE_STR then str (m.str 0)
  else zero

def whole (m : Meter) : ℕ∞ :=
  m.sample 0 (fun v => v.toNat) Double.whole fun s => (strtoullOf s.str).toNat

def double (m : Meter) : Double :=
  m.sample (.fin 0) (fun v => .fin v.toNat) (fun d => d) fun s => .fin (atofOf s.str)

/-- The first value is there. -/
def Valued (m : Meter) : Prop := ∀ sz, sizeofType m.type = some sz → m.inBounds sz 0 = .ok ()

end Meter

namespace Summarydata

def metertype (c : Summarydata) : MeterId := c.meter &&& MMASK_TYPE

def Named (c : Summarydata) (m : Meter) : Prop := c.meter &&& MMASK_NAME = m.id &&& MMASK_NAME

instance (c : Summarydata) (m : Meter) : Decidable (c.Named m) := inferInstanceAs (Decidable (_ = _))

/-- The meters with values that a summary is about. -/
def samples (c : Summarydata) (ms : List Meter) : List Meter :=
  ms.filter fun m => c.Named m ∧ m.d.isSome

def Matches (text : FString) (m : Meter) : Prop := m.type = MTYPE_STR ∧ m.str 0 = text

instance (text : FString) (m : Meter) : Decidable (Matches text m) :=
  inferInstanceAs (Decidable (_ ∧ _))

def total (c : Summarydata) (ms : List Meter) : ℕ∞ := ((c.samples ms).map Meter.whole).sum

/-- The value is the sum, the average or the number of matches over the meters that have values. In
strings there is nothing to add up. -/
def Due (o : Doubles) (c : Summarydata) (ms : List Meter) (v : VarValue) : Prop :=
  match c.type with
  | .count text => ∃ i : BitVec 64, v = .int i ∧
      i.toNat = (c.samples ms).countP fun m => Matches text m
  | .total =>
    if c.metertype = MTYPE_INT then ∃ i : BitVec 64, v = .int i ∧ (i.toNat : ℕ∞) = c.total ms
    else if c.metertype = MTYPE_FRAC then
      v = .double (o.dval (Double.sum ((c.samples ms).map Meter.double)))
    else v = .int 0
  | .avg =>
    if c.metertype = MTYPE_INT then ∃ (i : BitVec 64) (t : ℕ), v = .int i ∧ c.total ms = t ∧
      i.toNat = t / (c.samples ms).length
    else if c.metertype = MTYPE_FRAC then
      v = .double (o.dval ((Double.sum ((c.samples ms).map Meter.double)).div (c.samples ms).length))
    else v = .int 0

/-- Whether a summary looks at the value of a meter. -/
def Reads (c : Summarydata) (m : Meter) : Prop :=
  c.Named m ∧ (c.metertype = MTYPE_INT ∨ c.metertype = MTYPE_FRAC ∨
    c.metertype = MTYPE_STR ∧ m.type = MTYPE_STR)

/-- The values that a summary looks at are there. -/
def Readable (c : Summarydata) (ms : List Meter) : Prop := ∀ m ∈ ms, c.Reads m → m.Valued

/-- Sums fit into 64 bits, the number of samples into an `int`, and no meter without values counts as
one. -/
def Fits (c : Summarydata) (ms : List Meter) : Prop :=
  match c.type with
  | .count text => ((c.samples ms).countP fun m => Matches text m) < 2 ^ 31
  | .total => c.metertype = MTYPE_INT → c.total ms < 2 ^ 64
  | .avg => c.metertype = MTYPE_INT ∨ c.metertype = MTYPE_FRAC →
    (c.metertype = MTYPE_INT → c.total ms < 2 ^ 64) ∧
      (ms.countP fun m => c.Named m) < 2 ^ 31 ∧ ∀ m ∈ ms, c.Named m → m.d.isSome

end Summarydata

/-- The names under which summaries are reported are not empty, and differ. -/
structure Nameable (l : List Summarydata) : Prop where
  ne : ∀ c ∈ l, c.name.str ≠ []
  nodup : (l.map Summarydata.name).Nodup

/-- A round takes no value from where there is none, and the tally has for every summary what is due. -/
def SummaryRight (ihash : BitVec 32) (o : Doubles) (calls : List SummaryCall) (self : List Summary)
    (ms : List Meter) : Prop :=
  ∃ self', summaryRound o self ms = .ok self' ∧
    ∀ call ∈ calls, ∃ id h v, varChild ihash (summaryinfoTallyRound ihash o self') call.conf.name.str =
      some (.leaf id h v) ∧ call.conf.Due o ms v

/-! ### Feeding meters -/

variable {ihash : BitVec 32} {o : Doubles} {s s' : Summary} {m : Meter} {ms : List Meter}

namespace Meter

theorem valued_of_type {sz : Nat} (hsz : sizeofType m.type = some sz) :
    m.Valued ↔ m.inBounds sz 0 = .ok () := by
  unfold Valued
  rw [hsz]
  simp

theorem inBounds_bind {α : Type} {sz : Nat} {a b : α} :
    (m.inBounds sz 0 >>= fun _ => .ok a) = .ok b ↔ m.inBounds sz 0 = .ok () ∧ b = a := by
  rw [Outcome.bind_ok_iff]
  constructor
  · rintro ⟨u, hu, ha⟩
    exact ⟨hu, (Except.ok.inj ha).symm⟩
  · rintro ⟨hu, rfl⟩
    exact ⟨(), hu, rfl⟩

end Meter

theorem summarySample_ok_iff {α : Type} {zero x : α} {int : BitVec 64 → α} {frac : Double → α}
    {str : FString → α} : summarySample m zero int frac str = .ok x ↔
      m.Valued ∧ x = m.sample zero int frac str := by
  unfold summarySample Meter.sample
  split_ifs with hint hfrac hstr
  · rw [Meter.valued_of_type (by rw [hint]; rfl)]
    exact Meter.inBounds_bind
  · rw [Meter.valued_of_type (by rw [hfrac]; rfl)]
    exact Meter.inBounds_bind
  · rw [Meter.valued_of_type (by rw [hstr]; rfl)]
    exact Meter.inBounds_bind
  · have hvalued : m.Valued := by
      intro sz hsz
      unfold sizeofType at hsz
      rw [if_neg hint, if_neg hfrac, if_neg hstr] at hsz
      cases hsz
    exact ⟨fun h => ⟨hvalued, (Except.ok.inj h).symm⟩, fun h => h.2 ▸ rfl⟩

namespace Summary

/-- What a meter whose value is there makes of a summary. -/
def fed (o : Doubles) (s : Summary) (m : Meter) : Summary :=
  if s.Named m then
    if s.metertype = MTYPE_INT then { s with
      d := some (.int ((s.d.map Slot.u64).getD 0 +
        m.sample 0 id o.toUint fun s => strtoullOf s.str))
      samplecount := s.samplecount + 1 }
    else if s.metertype = MTYPE_FRAC then { s with
      d := some (.frac (((s.d.map Slot.double).getD (.fin 0)).add m.double))
      samplecount := s.samplecount + 1 }
    else if s.metertype = MTYPE_STR then { s with
      d := some (.str ((s.d.map Slot.text).getD FString.empty))
      samplecount := if Summarydata.Matches ((s.d.map Slot.text).getD FString.empty) m then
        s.samplecount + 1 else s.samplecount }
    else s
  else s

theorem fed_conf : (s.fed o m).toSummarydata = s.toSummarydata := by
  unfold fed
  split_ifs <;> rfl

end Summary

theorem metertype_distinct : MTYPE_FRAC ≠ MTYPE_INT ∧ MTYPE_STR ≠ MTYPE_INT ∧ MTYPE_STR ≠ MTYPE_FRAC := by
  decide

theorem not_reads (hint : s.metertype ≠ MTYPE_INT) (hfrac : s.metertype ≠ MTYPE_FRAC)
    (hstr : s.metertype = MTYPE_STR → m.type ≠ MTYPE_STR) : ¬ s.Reads m := by
  rintro ⟨-, h | h | h⟩
  · exact hint h
  · exact hfrac h
  · exact hstr h.1 h.2

theorem summarydataAdd_ok_iff (hn : s.Named m) : summarydataAdd o s m = .ok s' ↔
    (s.Reads m → m.Valued) ∧ s' = s.fed o m := by
  have hfold : s.meter &&& MMASK_TYPE = s.metertype := rfl
  unfold summarydataAdd Summary.fed
  rw [hfold, if_pos hn]
  by_cases hint : s.metertype = MTYPE_INT
  · have hr : s.Reads m := ⟨hn, .inl hint⟩
    rw [if_pos hint, if_pos hint, Outcome.bind_ok_iff]
    constructor
    · rintro ⟨x, hx, h⟩
      obtain ⟨hv, rfl⟩ := summarySample_ok_iff.mp hx
      exact ⟨fun _ => hv, (Except.ok.inj h).symm⟩
    · rintro ⟨hv, rfl⟩
      exact ⟨_, summarySample_ok_iff.mpr ⟨hv hr, rfl⟩, rfl⟩
  rw [if_neg hint, if_neg hint]
  by_cases hfrac : s.metertype = MTYPE_FRAC
  · have hr : s.Reads m := ⟨hn, .inr (.inl hfrac)⟩
    rw [if_pos hfrac, if_pos hfrac, Outcome.bind_ok_iff]
    constructor
    · rintro ⟨x, hx, h⟩
      obtain ⟨hv, rfl⟩ := summarySample_ok_iff.mp hx
      exact ⟨fun _ => hv, (Except.ok.inj h).symm⟩
    · rintro ⟨hv, rfl⟩
      exact ⟨_, summarySample_ok_iff.mpr ⟨hv hr, rfl⟩, rfl⟩
  rw [if_neg hfrac, if_neg hfrac]
  by_cases hstr : s.metertype = MTYPE_STR
  · rw [if_pos hstr, if_pos hstr]
    by_cases htype : m.type = MTYPE_STR
    · have hr : s.Reads m := ⟨hn, .inr (.inr ⟨hstr, htype⟩)⟩
      have hmatch : Summarydata.Matches ((s.d.map Slot.text).getD FString.empty) m ↔
          m.str 0 = (s.d.map Slot.text).getD FString.empty := and_iff_right htype
      rw [imp_iff_right hr, Meter.valued_of_type (by rw [htype]; rfl)]
      dsimp only
      rw [if_neg (not_not.mpr htype)]
      by_cases hm : m.str 0 = (s.d.map Slot.text).getD FString.empty
      · rw [if_pos hm, if_pos (hmatch.mpr hm)]
        exact Meter.inBounds_bind
      · rw [if_neg hm, if_neg (mt hmatch.mp hm)]
        exact Meter.inBounds_bind
    · have hr : ¬ s.Reads m := not_reads hint hfrac fun _ => htype
      dsimp only
      rw [if_pos htype, if_neg fun h => htype h.1]
      exact ⟨fun h => ⟨fun h => absurd h hr, (Except.ok.inj h).symm⟩, fun h => h.2 ▸ rfl⟩
  · have hr : ¬ s.Reads m := not_reads hint hfrac fun h => absurd h hstr
    rw [if_neg hstr, if_neg hstr]
    exact ⟨fun h => ⟨fun h => absurd h hr, (Except.ok.inj h).symm⟩, fun h => h.2 ▸ rfl⟩

theorem feed_ok_iff : s.feed o m = .ok s' ↔ (s.Reads m → m.Valued) ∧ s' = s.fed o m := by
  have hfold : s.meter &&& MMASK_NAME = m.id &&& MMASK_NAME ↔ s.Named m := Iff.rfl
  unfold Summary.feed
  by_cases hn : s.Named m
  · rw [if_pos (hfold.mpr hn), summarydataAdd_ok_iff hn]
  · rw [if_neg (mt hfold.mp hn), Summary.fed, if_neg hn]
    exact ⟨fun h => ⟨fun hr => absurd hr.1 hn, (Except.ok.inj h).symm⟩, fun h => h.2 ▸ rfl⟩

theorem foldl_fed_conf : (ms.foldl (Summary.fed o) s).toSummarydata = s.toSummarydata := by
  induction ms generalizing s with
  | nil => rfl
  | cons m ms ih => rw [List.foldl_cons, ih, Summary.fed_conf]

theorem foldlM_feed_ok_iff : ms.foldlM (Summary.feed o) s = .ok s' ↔
    s.Readable ms ∧ s' = ms.foldl (Summary.fed o) s := by
  induction ms generalizing s with
  | nil =>
    have hnil : s.Readable [] := fun m hm => absurd hm List.not_mem_nil
    exact ⟨fun h => ⟨hnil, (Except.ok.inj h).symm⟩, fun h => h.2 ▸ rfl⟩
  | cons m ms ih =>
    have hcons : s.Readable (m :: ms) ↔ (s.Reads m → m.Valued) ∧ s.Readable ms := List.forall_mem_cons
    rw [List.foldlM_cons, Outcome.bind_ok_iff, List.foldl_cons, hcons, and_assoc]
    simp only [feed_ok_iff, ih]
    constructor
    · rintro ⟨t, ⟨hv, rfl⟩, hms, rfl⟩
      exact ⟨hv, Summary.fed_conf (s := s) ▸ hms, rfl⟩
    · rintro ⟨hv, hms, rfl⟩
      refine ⟨_, ⟨hv, rfl⟩, ?_, rfl⟩
      rwa [Summary.fed_conf]

/-! ### What the samples come to -/

variable {c : Summarydata} {t : ℕ}

/-- The meters of a summary's name, with or without values. -/
def Summarydata.named (c : Summarydata) (ms : List Meter) : List Meter := ms.filter fun m => c.Named m

theorem named_cons (m : Meter) (ms : List Meter) :
    c.named (m :: ms) = if c.Named m then m :: c.named ms else c.named ms := by
  unfold Summarydata.named
  by_cases hn : c.Named m
  · rw [if_pos hn, List.filter_cons_of_pos (by simpa using hn)]
  · rw [if_neg hn, List.filter_cons_of_neg (by simpa using hn)]

theorem toUint_of_whole {d : Double} (hw : d.whole = t) (ht : t < 2 ^ 64) :
    o.toUint d = BitVec.ofNat 64 t := by
  cases d with
  | inf => exact absurd hw (ENat.top_ne_natCast t)
  | fin d =>
    change (if -1 < d then (⌊d⌋.toNat : ℕ∞) else ⊤) = t at hw
    split_ifs at hw with hd
    · have hw : ⌊d⌋.toNat = t := Nat.cast_inj.mp hw
      have hlt : d < 2 ^ 64 := by
        have hfloor : ⌊d⌋ < 2 ^ 64 := by omega
        exact_mod_cast Int.floor_lt.mp hfloor
      rw [Doubles.toUint, if_pos ⟨hd, hlt⟩, hw]
    · exact absurd hw (ENat.top_ne_natCast t)

theorem sample_of_whole (hw : m.whole = t) (ht : t < 2 ^ 64) :
    m.sample 0 (fun v => v) o.toUint (fun s => strtoullOf s.str) = BitVec.ofNat 64 t := by
  unfold Meter.whole Meter.sample at hw
  unfold Meter.sample
  split_ifs at hw ⊢
  · rw [← Nat.cast_inj.mp hw, BitVec.ofNat_toNat, BitVec.setWidth_eq]
  · exact toUint_of_whole hw ht
  · rw [← Nat.cast_inj.mp hw, BitVec.ofNat_toNat, BitVec.setWidth_eq]
  · have h0 : (0 : ℕ) = t := Nat.cast_inj.mp hw
    rw [← h0]
    rfl

/-- The integers that were added up. -/
theorem foldl_fed_u64 (hc : s.toSummarydata = c) (hint : c.metertype = MTYPE_INT)
    (ht : ((c.named ms).map Meter.whole).sum = t) (hlt : t < 2 ^ 64) :
    ((ms.foldl (Summary.fed o) s).d.map Slot.u64).getD 0 =
      (s.d.map Slot.u64).getD 0 + BitVec.ofNat 64 t := by
  induction ms generalizing s t with
  | nil =>
    have h0 : (0 : ℕ) = t := Nat.cast_inj.mp ht
    rw [← h0]
    exact (BitVec.add_zero _).symm
  | cons m ms ih =>
    have hfed : (s.fed o m).toSummarydata = c := Summary.fed_conf.trans hc
    rw [named_cons] at ht
    by_cases hn : c.Named m
    · rw [if_pos hn, List.map_cons, List.sum_cons] at ht
      obtain ⟨a, b, ha, hb, hab⟩ := WithTop.add_eq_coe.mp ht
      have hsum : a + b = t := hab
      have hd : (s.fed o m).d = some (.int ((s.d.map Slot.u64).getD 0 + BitVec.ofNat 64 a)) := by
        unfold Summary.fed
        rw [hc, if_pos hn, if_pos hint, ← sample_of_whole (o := o) ha.symm (by omega)]
        rfl
      rw [List.foldl_cons, ih hfed hb.symm (by omega), hd, ← hsum, BitVec.ofNat_add]
      exact BitVec.add_assoc _ _ _
    · have hstay : s.fed o m = s := by rw [Summary.fed, hc, if_neg hn]
      rw [if_neg hn] at ht
      rw [List.foldl_cons, hstay, ih hc ht hlt]

theorem Double.add_of_zero (d : Double) : Double.add (.fin 0) d = d := by
  cases d with
  | inf => rfl
  | fin d => exact congrArg Double.fin (zero_add d)

theorem Double.add_add (a b c : Double) : (a.add b).add c = a.add (b.add c) := by
  cases a <;> cases b <;> cases c <;> first | rfl | exact congrArg Double.fin (add_assoc _ _ _)

/-- The doubles that were added up. -/
theorem foldl_fed_double (hc : s.toSummarydata = c) (hfrac : c.metertype = MTYPE_FRAC) :
    ((ms.foldl (Summary.fed o) s).d.map Slot.double).getD (.fin 0) =
      ((s.d.map Slot.double).getD (.fin 0)).add (Double.sum ((c.named ms).map Meter.double)) := by
  induction ms generalizing s with
  | nil =>
    change (s.d.map Slot.double).getD (.fin 0) = Double.add _ (.fin 0)
    cases (s.d.map Slot.double).getD (.fin 0) with
    | inf => rfl
    | fin d => exact congrArg Double.fin (add_zero d).symm
  | cons m ms ih =>
    have hfed : (s.fed o m).toSummarydata = c := Summary.fed_conf.trans hc
    rw [List.foldl_cons, ih hfed, named_cons]
    by_cases hn : c.Named m
    · have hint : c.metertype ≠ MTYPE_INT := by
        rw [hfrac]
        exact metertype_distinct.1
      have hd : (s.fed o m).d = some (.frac (((s.d.map Slot.double).getD (.fin 0)).add m.double)) := by
        unfold Summary.fed
        rw [hc, if_pos hn, if_neg hint, if_pos hfrac]
      rw [if_pos hn, hd]
      exact Double.add_add _ _ _
    · rw [if_neg hn, Summary.fed, hc, if_neg hn]

theorem fed_samplecount (hc : s.toSummarydata = c) (hnum : c.metertype = MTYPE_INT ∨ c.metertype = MTYPE_FRAC) :
    (s.fed o m).samplecount = if c.Named m then s.samplecount + 1 else s.samplecount := by
  unfold Summary.fed
  rw [hc]
  by_cases hn : c.Named m
  · rw [if_pos hn, if_pos hn]
    by_cases hint : c.metertype = MTYPE_INT
    · rw [if_pos hint]
    · rw [if_neg hint, if_pos (hnum.resolve_left hint)]
  · rw [if_neg hn, if_neg hn]

/-- A counter that goes up by one for some of the elements. -/
theorem ofNat_countP_cons {α : Type} {p : α → Bool} (n : BitVec 32) (a : α) (l : List α) :
    (if p a then n + 1 else n) + BitVec.ofNat 32 (l.countP p) = n + BitVec.ofNat 32 ((a :: l).countP p) := by
  rw [List.countP_cons]
  by_cases hp : p a
  · rw [if_pos hp, if_pos hp, BitVec.ofNat_add, BitVec.add_assoc,
      BitVec.add_comm (BitVec.ofNat 32 (l.countP p))]
    rfl
  · rw [if_neg hp, if_neg hp]
    rfl

/-- The samples that were counted. -/
theorem foldl_fed_samplecount (hc : s.toSummarydata = c)
    (hnum : c.metertype = MTYPE_INT ∨ c.metertype = MTYPE_FRAC) :
    (ms.foldl (Summary.fed o) s).samplecount =
      s.samplecount + BitVec.ofNat 32 (ms.countP fun m => c.Named m) := by
  induction ms generalizing s with
  | nil => exact (BitVec.add_zero _).symm
  | cons m ms ih =>
    have hfed : (s.fed o m).toSummarydata = c := Summary.fed_conf.trans hc
    rw [List.foldl_cons, ih hfed, fed_samplecount hc hnum, ← ofNat_countP_cons]
    simp only [decide_eq_true_eq]

/-- The matches that were counted. -/
theorem foldl_fed_matches {text : FString} (hc : s.toSummarydata = c) (hstr : c.metertype = MTYPE_STR)
    (hd : s.d = some (.str text)) :
    (ms.foldl (Summary.fed o) s).d = some (.str text) ∧
      (ms.foldl (Summary.fed o) s).samplecount = s.samplecount +
        BitVec.ofNat 32 (ms.countP fun m => c.Named m ∧ Summarydata.Matches text m) := by
  obtain ⟨-, hsi, hsf⟩ := metertype_distinct
  induction ms generalizing s with
  | nil => exact ⟨hd, (BitVec.add_zero _).symm⟩
  | cons m ms ih =>
    have hfed : (s.fed o m).toSummarydata = c := Summary.fed_conf.trans hc
    have hstep : (s.fed o m).d = some (.str text) ∧ (s.fed o m).samplecount =
        if c.Named m ∧ Summarydata.Matches text m then s.samplecount + 1 else s.samplecount := by
      unfold Summary.fed
      rw [hc]
      by_cases hn : c.Named m
      · rw [if_pos hn, if_neg (hstr ▸ hsi), if_neg (hstr ▸ hsf), if_pos hstr, hd]
        simp only [hn, true_and]
        exact ⟨rfl, rfl⟩
      · rw [if_neg hn, if_neg fun h => hn h.1]
        exact ⟨hd, rfl⟩
    obtain ⟨hlast, hcount⟩ := ih hfed hstep.1
    rw [List.foldl_cons, ← ofNat_countP_cons]
    refine ⟨hlast, ?_⟩
    rw [hcount, hstep.2]
    simp only [decide_eq_true_eq]

/-- Elements that change nothing can be left out of a fold. -/
theorem foldr_filter {α β : Type} {op : β → β → β} {z : β} {f : α → β} {p q : α → Bool} {l : List α}
    (h : ∀ a ∈ l, p a → ¬ q a → ∀ b, op (f a) b = b) :
    ((l.filter fun a => p a && q a).map f).foldr op z = ((l.filter p).map f).foldr op z := by
  induction l with
  | nil => rfl
  | cons a l ih =>
    have ih := ih fun b hb => h b (List.mem_cons_of_mem a hb)
    by_cases hp : p a
    · by_cases hq : q a
      · rw [List.filter_cons_of_pos (by simp [hp, hq]), List.filter_cons_of_pos hp, List.map_cons,
          List.map_cons, List.foldr_cons, List.foldr_cons, ih]
      · rw [List.filter_cons_of_neg (by simp [hq]), List.filter_cons_of_pos hp, List.map_cons,
          List.foldr_cons, h a List.mem_cons_self hp hq, ih]
    · rw [List.filter_cons_of_neg (by simp [hp]), List.filter_cons_of_neg hp, ih]

namespace Summarydata

theorem samples_eq (c : Summarydata) (ms : List Meter) :
    c.samples ms = ms.filter fun m => decide (c.Named m) && m.d.isSome := by
  unfold samples
  simp only [Bool.decide_and, Bool.decide_eq_true]

/-- A meter without values that could be read all the same adds nothing. -/
theorem sample_of_none {α : Type} {zero : α} {int : BitVec 64 → α} {frac : Double → α} {str : FString → α}
    (hv : m.Valued) (hd : ¬ m.d.isSome) : m.sample zero int frac str = zero := by
  have hnone : m.d = none := by simpa using hd
  have hno : ∀ sz, sizeofType m.type ≠ some sz := by
    intro sz hsz
    have hb := hv sz hsz
    rw [Meter.inBounds, hnone] at hb
    cases hb
  unfold Meter.sample
  split_ifs with hint hfrac hstr
  · exact absurd (by rw [hint]; rfl) (hno 8)
  · exact absurd (by rw [hfrac]; rfl) (hno 8)
  · exact absurd (by rw [hstr]; rfl) (hno 128)
  · rfl

section Numeric

variable (hr : c.Readable ms) (hnum : c.metertype = MTYPE_INT ∨ c.metertype = MTYPE_FRAC)
include hr hnum

theorem Readable.valued (hm : m ∈ ms) (hn : c.Named m) : m.Valued :=
  hr m hm ⟨hn, hnum.imp_right .inl⟩

theorem Readable.total_eq : c.total ms = ((c.named ms).map Meter.whole).sum := by
  rw [total, samples_eq, List.sum_eq_foldr, List.sum_eq_foldr]
  refine foldr_filter fun m hm hn hd b => ?_
  have hzero : m.whole = 0 := sample_of_none (hr.valued hnum hm (of_decide_eq_true hn)) hd
  rw [hzero]
  exact zero_add b

theorem Readable.doubles_eq :
    Double.sum ((c.samples ms).map Meter.double) = Double.sum ((c.named ms).map Meter.double) := by
  rw [samples_eq]
  refine foldr_filter fun m hm hn hd b => ?_
  have hzero : m.double = .fin 0 := sample_of_none (hr.valued hnum hm (of_decide_eq_true hn)) hd
  rw [hzero]
  exact Double.add_of_zero b

end Numeric

theorem length_samples (hall : ∀ m ∈ ms, c.Named m → m.d.isSome) :
    (c.samples ms).length = ms.countP fun m => c.Named m := by
  rw [samples, ← List.countP_eq_length_filter]
  refine List.countP_congr fun m hm => ?_
  simp only [decide_eq_true_eq]
  exact ⟨And.left, fun hn => ⟨hn, hall m hm hn⟩⟩

theorem Readable.matches_eq {text : FString} (hr : c.Readable ms) (hstr : c.metertype = MTYPE_STR) :
    ((c.samples ms).countP fun m => Matches text m) =
      ms.countP fun m => c.Named m ∧ Matches text m := by
  rw [samples, List.countP_filter]
  refine List.countP_congr fun m hm => ?_
  simp only [Bool.and_eq_true, decide_eq_true_eq]
  constructor
  · rintro ⟨hmatch, hn, -⟩
    exact ⟨hn, hmatch⟩
  · rintro ⟨hn, hmatch⟩
    refine ⟨hmatch, hn, ?_⟩
    have hv := hr m hm ⟨hn, .inr (.inr ⟨hstr, hmatch.1⟩)⟩ 128 (by rw [hmatch.1]; rfl)
    cases hd : m.d with
    | none =>
      rw [Meter.inBounds, hd] at hv
      cases hv
    | some a => rfl

end Summarydata

/-! ### One summary -/

/-- The text that a summary looks for is where its adder put it. -/
def Summary.Kept (s : Summary) : Prop :=
  ∀ text, s.type = .count text → s.metertype = MTYPE_STR ∧ s.d = some (.str text)

theorem clearSample_conf : (summarydataClearSample s).toSummarydata = s.toSummarydata := by
  unfold summarydataClearSample
  split_ifs <;> rfl

theorem clearSample_samplecount : (summarydataClearSample s).samplecount = 0 := by
  unfold summarydataClearSample
  split_ifs <;> rfl

theorem clearSample_string (hstr : s.metertype = MTYPE_STR) : (summarydataClearSample s).d = s.d := by
  have hfold : s.meter &&& MMASK_TYPE = MTYPE_STR := hstr
  rw [summarydataClearSample, if_pos hfold]

theorem clearSample_number (hnum : s.metertype = MTYPE_INT ∨ s.metertype = MTYPE_FRAC) :
    (summarydataClearSample s).d = none := by
  have hfold : s.meter &&& MMASK_TYPE ≠ MTYPE_STR := by
    change s.metertype ≠ MTYPE_STR
    obtain h | h := hnum
    · rw [h]
      exact metertype_distinct.2.1.symm
    · rw [h]
      exact metertype_distinct.2.2.symm
  rw [summarydataClearSample, if_neg hfold]
  rfl

/-- A summary at the end of a round. -/
def Summary.after (o : Doubles) (s : Summary) (ms : List Meter) : Summary :=
  ms.foldl (Summary.fed o) (summarydataClearSample s)

theorem after_conf : (s.after o ms).toSummarydata = s.toSummarydata := by
  rw [Summary.after, foldl_fed_conf, clearSample_conf]

theorem after_samplecount (hnum : s.metertype = MTYPE_INT ∨ s.metertype = MTYPE_FRAC) :
    (s.after o ms).samplecount = BitVec.ofNat 32 (ms.countP fun m => s.Named m) := by
  rw [Summary.after, foldl_fed_samplecount clearSample_conf hnum, clearSample_samplecount]
  exact BitVec.zero_add _

theorem after_u64 (hint : s.metertype = MTYPE_INT) (hr : s.Readable ms) (ht : s.total ms = t)
    (hlt : t < 2 ^ 64) : ((s.after o ms).d.map Slot.u64).getD 0 = BitVec.ofNat 64 t := by
  rw [hr.total_eq (.inl hint)] at ht
  rw [Summary.after, foldl_fed_u64 clearSample_conf hint ht hlt, clearSample_number (.inl hint)]
  exact BitVec.zero_add _

theorem after_double (hfrac : s.metertype = MTYPE_FRAC) (hr : s.Readable ms) :
    ((s.after o ms).d.map Slot.double).getD (.fin 0) = Double.sum ((s.samples ms).map Meter.double) := by
  rw [Summary.after, foldl_fed_double clearSample_conf hfrac, clearSample_number (.inr hfrac),
    hr.doubles_eq (.inr hfrac)]
  exact Double.add_of_zero _

theorem after_matches {text : FString} (hk : s.Kept) (htype : s.type = .count text) :
    (s.after o ms).d = some (.str text) ∧ (s.after o ms).samplecount =
      BitVec.ofNat 32 (ms.countP fun m => s.Named m ∧ Summarydata.Matches text m) := by
  obtain ⟨hstr, hd⟩ := hk text htype
  have hd := (clearSample_string hstr).trans hd
  refine ⟨(foldl_fed_matches clearSample_conf hstr hd).1, ?_⟩
  rw [Summary.after, (foldl_fed_matches clearSample_conf hstr hd).2, clearSample_samplecount]
  exact BitVec.zero_add _

theorem after_kept (hk : s.Kept) : (s.after o ms).Kept := by
  intro text htype
  have hsame : (s.after o ms).type = s.type := congrArg Summarydata.type after_conf
  have hconf : (s.after o ms).metertype = s.metertype := congrArg Summarydata.metertype after_conf
  have htype := hsame.symm.trans htype
  exact ⟨hconf.trans (hk text htype).1, (after_matches hk htype).1⟩

/-- A counter below the limit of `int` reads as itself. -/
theorem signExtend_count {n : ℕ} (hn : n < 2 ^ 31) :
    ((BitVec.ofNat 32 n).signExtend 64).toNat = n ∧ (BitVec.ofNat 32 n).toInt = n := by
  have hnat : (BitVec.ofNat 32 n).toNat = n := by
    rw [BitVec.toNat_ofNat]
    exact Nat.mod_eq_of_lt (by omega)
  have hmsb : (BitVec.ofNat 32 n).msb = false := by
    rw [BitVec.msb_eq_decide, hnat]
    exact decide_eq_false (by omega)
  constructor
  · rw [BitVec.toNat_signExtend, hmsb, BitVec.toNat_setWidth, hnat]
    have hlt : n % 2 ^ 64 = n := Nat.mod_eq_of_lt (by omega)
    rw [hlt]
    rfl
  · rw [BitVec.toInt_eq_toNat_of_msb hmsb, hnat]

theorem calcTotal_int (hint : s.metertype = MTYPE_INT) :
    summarydataCalcTotal o s = .int ((s.d.map Slot.u64).getD 0) := by
  have hfold : s.meter &&& MMASK_TYPE = MTYPE_INT := hint
  unfold summarydataCalcTotal Summary.zero
  rw [hfold]
  cases s.d <;> rfl

theorem calcTotal_frac (hfrac : s.metertype = MTYPE_FRAC) :
    summarydataCalcTotal o s = .double (o.dval ((s.d.map Slot.double).getD (.fin 0))) := by
  have hfold : s.meter &&& MMASK_TYPE = MTYPE_FRAC := hfrac
  unfold summarydataCalcTotal Summary.zero
  rw [hfold]
  cases s.d <;> rfl

theorem calcAvg_int (hint : s.metertype = MTYPE_INT) :
    summarydataCalcAvg o s = .int ((s.d.map Slot.u64).getD 0 / s.count) := by
  have hfold : s.meter &&& MMASK_TYPE = MTYPE_INT := hint
  have hzero : s.zero = .int 0 := by
    rw [Summary.zero, hfold]
    rfl
  unfold summarydataCalcAvg
  rw [hfold, hzero]
  cases s.d with
  | none => exact congrArg VarValue.int BitVec.zero_udiv.symm
  | some x =>
    by_cases h0 : s.samplecount = 0
    · have hcount : s.count = 0 := by
        rw [Summary.count, h0]
        rfl
      change (if s.samplecount = 0 then _ else _) = _
      rw [if_pos h0, hcount]
      exact congrArg VarValue.int BitVec.udiv_zero.symm
    · change (if s.samplecount = 0 then _ else _) = _
      rw [if_neg h0]
      rfl

theorem calcAvg_frac (hfrac : s.metertype = MTYPE_FRAC)
    (hnone : s.samplecount = 0 → (s.d.map Slot.double).getD (.fin 0) = .fin 0) :
    summarydataCalcAvg o s =
      .double (o.dval (((s.d.map Slot.double).getD (.fin 0)).div s.samplecount.toInt)) := by
  have hfold : s.meter &&& MMASK_TYPE = MTYPE_FRAC := hfrac
  have hzero : s.zero = .double 0 := by
    rw [Summary.zero, hfold]
    rfl
  have hdiv (n : ℤ) : VarValue.double 0 = .double (o.dval (Double.div (.fin 0) n)) :=
    congrArg VarValue.double (zero_div (n : ℚ)).symm
  unfold summarydataCalcAvg
  rw [hfold, hzero]
  by_cases h0 : s.samplecount = 0
  · rw [hnone h0]
    cases s.d with
    | none => exact hdiv _
    | some x =>
      change (if s.samplecount = 0 then _ else _) = _
      rw [if_pos h0]
      exact hdiv _
  · cases s.d with
    | none => exact hdiv _
    | some x =>
      change (if s.samplecount = 0 then _ else _) = _
      rw [if_neg h0]
      rfl

theorem calc_other (hint : s.metertype ≠ MTYPE_INT) (hfrac : s.metertype ≠ MTYPE_FRAC) :
    summarydataCalcTotal o s = .int 0 ∧ summarydataCalcAvg o s = .int 0 := by
  have hfold : s.meter &&& MMASK_TYPE = s.metertype := rfl
  have hzero : s.zero = .int 0 := by rw [Summary.zero, hfold, if_neg hfrac]
  unfold summarydataCalcTotal summarydataCalcAvg
  rw [hfold, hzero]
  cases s.d with
  | none => exact ⟨rfl, rfl⟩
  | some x =>
    dsimp only
    rw [if_neg hint, if_neg hint, if_neg hfrac, if_neg hfrac, ite_self]
    exact ⟨rfl, rfl⟩

theorem total_due (htype : s.type = .total) (hr : s.Readable ms) (hf : s.Fits ms) :
    s.Due o ms (summarydataCalcTotal o (s.after o ms)) := by
  have hconf : (s.after o ms).metertype = s.metertype := congrArg Summarydata.metertype after_conf
  unfold Summarydata.Fits at hf
  unfold Summarydata.Due
  rw [htype] at hf ⊢
  dsimp only at hf ⊢
  split_ifs with hint hfrac
  · obtain ⟨t, ht⟩ := ENat.ne_top_iff_exists.mp (ne_top_of_lt (hf hint))
    have hlt : t < 2 ^ 64 := by
      have h := hf hint
      rw [← ht] at h
      exact_mod_cast h
    rw [calcTotal_int (hconf.trans hint), after_u64 hint hr ht.symm hlt]
    refine ⟨_, rfl, ?_⟩
    rw [BitVec.toNat_ofNat, Nat.mod_eq_of_lt hlt, ht]
  · rw [calcTotal_frac (hconf.trans hfrac), after_double hfrac hr]
  · exact (calc_other (hconf ▸ hint) (hconf ▸ hfrac)).1

theorem avg_due (htype : s.type = .avg) (hr : s.Readable ms) (hf : s.Fits ms) :
    s.Due o ms (summarydataCalcAvg o (s.after o ms)) := by
  have hconf : (s.after o ms).metertype = s.metertype := congrArg Summarydata.metertype after_conf
  unfold Summarydata.Fits at hf
  unfold Summarydata.Due
  rw [htype] at hf ⊢
  dsimp only at hf ⊢
  split_ifs with hint hfrac
  · obtain ⟨hsum, hfew, hall⟩ := hf (.inl hint)
    obtain ⟨t, ht⟩ := ENat.ne_top_iff_exists.mp (ne_top_of_lt (hsum hint))
    have hlt : t < 2 ^ 64 := by
      have h := hsum hint
      rw [← ht] at h
      exact_mod_cast h
    rw [calcAvg_int (hconf.trans hint), after_u64 hint hr ht.symm hlt, Summary.count,
      after_samplecount (.inl hint)]
    refine ⟨_, t, rfl, ht.symm, ?_⟩
    rw [BitVec.toNat_udiv, BitVec.toNat_ofNat, Nat.mod_eq_of_lt hlt, (signExtend_count hfew).1,
      Summarydata.length_samples hall]
  · obtain ⟨-, hfew, hall⟩ := hf (.inr hfrac)
    have hcount : (s.after o ms).samplecount = BitVec.ofNat 32 (ms.countP fun m => s.Named m) :=
      after_samplecount (.inr hfrac)
    have hnone : (s.after o ms).samplecount = 0 →
        ((s.after o ms).d.map Slot.double).getD (.fin 0) = .fin 0 := by
      intro h0
      have hn : (ms.countP fun m => s.Named m) = 0 := by
        rw [← (signExtend_count hfew).1, ← hcount, h0]
        rfl
      have hnil : s.samples ms = [] := by
        rw [← List.length_eq_zero_iff, Summarydata.length_samples hall, hn]
      rw [after_double hfrac hr, hnil]
      rfl
    rw [calcAvg_frac (hconf.trans hfrac) hnone, after_double hfrac hr, hcount, (signExtend_count hfew).2,
      Summarydata.length_samples hall]
  · exact (calc_other (hconf ▸ hint) (hconf ▸ hfrac)).2

theorem tally_due (hk : s.Kept) (hr : s.Readable ms) (hf : s.Fits ms) :
    s.Due o ms ((s.after o ms).tally o) := by
  have hsame : (s.after o ms).type = s.type := congrArg Summarydata.type after_conf
  unfold Summary.tally
  rw [hsame]
  cases htype : s.type with
  | avg => exact avg_due htype hr hf
  | total => exact total_due htype hr hf
  | count text =>
    unfold Summarydata.Fits at hf
    unfold Summarydata.Due
    rw [htype] at hf ⊢
    refine ⟨_, rfl, ?_⟩
    rw [Summary.count, (after_matches hk htype).2, ← hr.matches_eq (hk text htype).1]
    exact (signExtend_count hf).1

/-- A total that is due fits. -/
theorem total_fits {v : VarValue} (htype : c.type = .total) (hd : c.Due o ms v) : c.Fits ms := by
  unfold Summarydata.Due at hd
  unfold Summarydata.Fits
  rw [htype] at hd ⊢
  dsimp only at hd ⊢
  intro hint
  rw [if_pos hint] at hd
  obtain ⟨i, -, hi⟩ := hd
  rw [← hi]
  exact_mod_cast i.isLt

/-! ### All summaries -/

variable {self self' : List Summary} {calls : List SummaryCall}

/-- A round ends if all values that are looked at are there, and every summary has its own part of it. -/
theorem summaryRound_ok_iff : summaryRound o self ms = .ok self' ↔
    (∀ s ∈ self, s.Readable ms) ∧ self' = self.map fun s => s.after o ms := by
  unfold summaryRound summaryinfoStartRound summaryinfoAddMeterdata
  rw [Outcome.foldlM_mapM_ok_iff, List.forall₂_map_left_iff]
  simp only [foldlM_feed_ok_iff, clearSample_conf]
  constructor
  · intro h
    induction h with
    | nil => exact ⟨fun s hs => absurd hs List.not_mem_nil, rfl⟩
    | cons hs _ ih => exact ⟨List.forall_mem_cons.mpr ⟨hs.1, ih.1⟩, congrArg₂ List.cons hs.2 ih.2⟩
  · rintro ⟨hr, rfl⟩
    rw [List.forall₂_map_right_iff, List.forall₂_same]
    exact fun s hs => ⟨hr s hs, rfl⟩

/-- The summaries that were added, each with its text where it belongs. -/
structure Added (calls : List SummaryCall) (l : List Summary) : Prop where
  confs : l.map Summary.toSummarydata = calls.map SummaryCall.conf
  kept : ∀ s ∈ l, s.Kept

theorem SummaryCall.apply_eq (call : SummaryCall) (self : List Summary) :
    ∃ s : Summary, call.apply self = self ++ [s] ∧ s.toSummarydata = call.conf ∧ s.Kept := by
  cases call with
  | avg name mid => exact ⟨_, rfl, rfl, fun text htype => by cases htype⟩
  | total name mid => exact ⟨_, rfl, rfl, fun text htype => by cases htype⟩
  | count name mid text =>
    refine ⟨_, rfl, rfl, fun text htype => ?_⟩
    cases htype
    refine ⟨?_, rfl⟩
    change (mid &&& MMASK_NAME ||| MTYPE_STR) &&& MMASK_TYPE = MTYPE_STR
    unfold MMASK_NAME MTYPE_STR MMASK_TYPE
    ext i hi
    simp only [BitVec.getElem_and, BitVec.getElem_or]
    interval_cases i <;> simp

theorem Added.call (ha : Added calls self) (call : SummaryCall) :
    Added (calls ++ [call]) (call.apply self) := by
  obtain ⟨s, happly, hconf, hk⟩ := call.apply_eq self
  rw [happly]
  refine ⟨?_, ?_⟩
  · rw [List.map_append, List.map_append, ha.confs, List.map_singleton, List.map_singleton, hconf]
  · intro x hx
    obtain hx | hx := List.mem_append.mp hx
    · exact ha.kept x hx
    · exact List.mem_singleton.mp hx ▸ hk

theorem added_summaryinfoOf (calls : List SummaryCall) : Added calls (summaryinfoOf calls) := by
  have hfold (before : List SummaryCall) (l : List Summary) (hl : Added before l) :
      Added (before ++ calls) (calls.foldl SummaryCall.apply l) := by
    induction calls generalizing before l with
    | nil =>
      rw [List.append_nil]
      exact hl
    | cons call calls ih =>
      rw [List.append_cons]
      exact ih _ _ (hl.call call)
  exact hfold [] [] ⟨rfl, fun s hs => absurd hs List.not_mem_nil⟩

theorem Added.round (ha : Added calls self) (hround : summaryRound o self ms = .ok self') :
    Added calls self' := by
  obtain ⟨-, rfl⟩ := summaryRound_ok_iff.mp hround
  refine ⟨?_, ?_⟩
  · rw [List.map_map, ← ha.confs]
    exact List.map_congr_left fun s _ => after_conf
  · intro s hs
    obtain ⟨s₀, hs₀, rfl⟩ := List.mem_map.mp hs
    exact after_kept (ha.kept s₀ hs₀)

theorem Added.rounds {earlier : List (List Meter)} (ha : Added calls self)
    (hrun : summaryRounds o self earlier = .ok self') : Added calls self' := by
  induction earlier generalizing self with
  | nil =>
    cases hrun
    exact ha
  | cons ms earlier ih =>
    obtain ⟨s₁, hround, hrun⟩ := Outcome.bind_ok_iff.mp hrun
    exact ih (ha.round hround) hrun

/-! ### The tally -/

/-- The tally has the results under the names, in their order. -/
theorem tallyRound_eq {id : FString} {h : BitVec 32} (hne : ∀ s ∈ self, s.name.str ≠ [])
    (hnodup : (self.map fun s => s.name).Nodup) :
    self.foldl (fun res crsr => varSetForkey ihash res crsr.name.str (crsr.tally o)) (.dict id h []) =
      .dict id h (leaves ihash (self.map fun s => (s.name, s.tally o))) := by
  have hkeys : ∀ w ∈ self.map fun s => (s.name, s.tally o), w.1.str ≠ [] := by
    intro w hw
    obtain ⟨s, hs, rfl⟩ := List.mem_map.mp hw
    exact hne s hs
  have hapart : (([] : List (FString × VarValue)).map Prod.fst ++
      (self.map fun s => (s.name, s.tally o)).map Prod.fst).Nodup := by
    rw [List.map_map]
    exact hnodup
  have hfold := @foldl_varSetForkey_leaves ihash id h [] _ hkeys
  rw [KeyedWrites.writeAll_new hapart, List.nil_append, List.foldl_map] at hfold
  exact hfold

theorem childIn_of_mem {cs : List Var} {x : Var} (hx : x ∈ cs) (hnodup : (cs.map Var.id).Nodup)
    (hash : x.hashcode = hashToken ihash x.id.str) : childIn ihash x.id.str cs = some x := by
  induction cs with
  | nil => cases hx
  | cons y cs ih =>
    rw [List.map_cons, List.nodup_cons] at hnodup
    rw [childIn_cons]
    obtain rfl | hx := List.mem_cons.mp hx
    · rw [if_pos ⟨.inr hash, rfl⟩]
    · have hne : y.id.str ≠ x.id.str := by
        intro heq
        exact hnodup.1 (FString.ext heq ▸ List.mem_map_of_mem hx)
      rw [if_neg fun h => hne h.2]
      exact ih hx hnodup.2

/-- Under different names, every summary is found in the tally. -/
theorem tally_child (hne : ∀ s ∈ self, s.name.str ≠ []) (hnodup : (self.map fun s => s.name).Nodup)
    (hs : s ∈ self) : varChild ihash (summaryinfoTallyRound ihash o self) s.name.str =
      some (.leaf s.name (hashToken ihash s.name.str) (s.tally o)) := by
  have hdict : summaryinfoTallyRound ihash o self = self.foldl
      (fun res crsr => varSetForkey ihash res crsr.name.str (crsr.tally o)) (.dict FString.empty 0 []) := by
    cases self with
    | nil => cases hs
    | cons s self => rfl
  rw [hdict, tallyRound_eq hne hnodup, varChild_dict]
  have hmem : Var.leaf s.name (hashToken ihash s.name.str) (s.tally o) ∈
      leaves ihash (self.map fun s => (s.name, s.tally o)) :=
    List.mem_map_of_mem (List.mem_map_of_mem hs)
  refine childIn_of_mem hmem ?_ rfl
  rw [leaves, List.map_map, List.map_map]
  exact hnodup

theorem Added.mem (ha : Added calls self) {call : SummaryCall} (hcall : call ∈ calls) :
    ∃ s ∈ self, s.toSummarydata = call.conf := by
  have hmem : call.conf ∈ self.map Summary.toSummarydata := by
    rw [ha.confs]
    exact List.mem_map_of_mem hcall
  exact List.mem_map.mp hmem

theorem Added.forall_iff (ha : Added calls self) {P : Summarydata → Prop} :
    (∀ s ∈ self, P s.toSummarydata) ↔ ∀ call ∈ calls, P call.conf := by
  rw [← List.forall_mem_map, ha.confs, List.forall_mem_map]

theorem Added.right (ha : Added calls self) (hnames : Nameable (calls.map SummaryCall.conf))
    (hfits : ∀ call ∈ calls, call.conf.Readable ms ∧ call.conf.Fits ms) :
    SummaryRight ihash o calls self ms := by
  have hall := (ha.forall_iff (P := fun c => c.Readable ms ∧ c.Fits ms)).mpr hfits
  have hround : summaryRound o self ms = .ok (self.map fun s => s.after o ms) :=
    summaryRound_ok_iff.mpr ⟨fun s hs => (hall s hs).1, rfl⟩
  have ha' := ha.round hround
  have hne : ∀ s ∈ self.map fun s => s.after o ms, s.name.str ≠ [] :=
    (ha'.forall_iff (P := fun c => c.name.str ≠ [])).mpr fun call hcall =>
      hnames.ne _ (List.mem_map_of_mem hcall)
  have hnodup : ((self.map fun s => s.after o ms).map fun s => s.name).Nodup := by
    have h := hnames.nodup
    rw [← ha'.confs, List.map_map] at h
    exact h
  refine ⟨_, hround, fun call hcall => ?_⟩
  obtain ⟨s, hs, hconf⟩ := ha.mem hcall
  have hname : (s.after o ms).name = call.conf.name := congrArg Summarydata.name (after_conf.trans hconf)
  refine ⟨_, _, _, hname ▸ tally_child hne hnodup (List.mem_map_of_mem hs), ?_⟩
  rw [← hconf]
  exact tally_due (ha.kept s hs) (hall s hs).1 (hall s hs).2

/-- What the collector takes from a configuration are calls of the adders, under keys of it. -/
theorem summaryinfoLoop_calls (cs : List Var) :
    ∃ calls : List SummaryCall, calls.map SummaryCall.conf = summaryinfoLoop ihash cs ∧
      ((summaryinfoLoop ihash cs).map Summarydata.name).Sublist (cs.map Var.id) := by
  induction cs with
  | nil => exact ⟨[], rfl, List.Sublist.slnil⟩
  | cons crsr rest ih =>
    obtain ⟨calls, hcalls, hnames⟩ := ih
    have hnone : ∃ calls : List SummaryCall, calls.map SummaryCall.conf = [] ∧
        (([] : List Summarydata).map Summarydata.name).Sublist ((crsr :: rest).map Var.id) :=
      ⟨[], rfl, List.nil_sublist _⟩
    have hsome (call : SummaryCall) (c : Summarydata) (hconf : call.conf = c) (hname : c.name = crsr.id) :
        ∃ calls : List SummaryCall, calls.map SummaryCall.conf = c :: summaryinfoLoop ihash rest ∧
          ((c :: summaryinfoLoop ihash rest).map Summarydata.name).Sublist ((crsr :: rest).map Var.id) := by
      refine ⟨call :: calls, by rw [List.map_cons, hconf, hcalls], ?_⟩
      rw [List.map_cons, List.map_cons, hname]
      exact hnames.cons_cons _
    unfold summaryinfoLoop
    split
    · rename_i mid mtype func _ _ _
      dsimp only
      split_ifs
      · exact hsome (.avg crsr.id.str (makeid mid mtype)) _ (by simp [SummaryCall.conf]) rfl
      · exact hsome (.total crsr.id.str (makeid mid mtype)) _ (by simp [SummaryCall.conf]) rfl
      · split
        · exact hnone
        · rename_i text _
          exact hsome (.count crsr.id.str (makeid mid mtype) text) _ (by simp [SummaryCall.conf]) rfl
      · exact ⟨calls, hcalls, hnames.cons _⟩
    · exact hnone

/-- The summaries of a document have names to report them under. -/
theorem summaryinfoLoop_nameable {n : ℕ} {id : FString} {h : BitVec 32} {cs : List Var}
    (hv : (Var.dict id h cs).Clean ihash n) : Nameable (summaryinfoLoop ihash cs) := by
  obtain ⟨-, -, hsub⟩ := @summaryinfoLoop_calls ihash cs
  cases hv with
  | dict hnodup hkeyed _ =>
    refine ⟨fun c hc => ?_, hnodup.sublist hsub⟩
    obtain ⟨x, hx, hname⟩ := List.mem_map.mp (hsub.mem (List.mem_map_of_mem hc))
    rw [← hname]
    exact (hkeyed x hx).ne

/-- Whatever rounds went before, a round gets to its end if and only if all values are there that a
summary looks at. With names to report under, and where sums and counts fit, its tally has for every
summary what is due; a total that does not fit is not reported. -/
theorem summaryRound_right {earlier : List (List Meter)}
    (hrun : summaryRounds o (summaryinfoOf calls) earlier = .ok self) :
    ((∃ self', summaryRound o self ms = .ok self') ↔ ∀ call ∈ calls, call.conf.Readable ms) ∧
      (Nameable (calls.map SummaryCall.conf) →
        (∀ call ∈ calls, call.conf.Readable ms ∧ call.conf.Fits ms) → SummaryRight ihash o calls self ms) ∧
      (SummaryRight ihash o calls self ms →
        ∀ call ∈ calls, call.conf.type = .total → call.conf.Fits ms) := by
  have ha := (added_summaryinfoOf calls).rounds hrun
  refine ⟨?_, fun hnames hfits => ha.right hnames hfits, ?_⟩
  · rw [← ha.forall_iff (P := fun c => c.Readable ms)]
    constructor
    · rintro ⟨self', hround⟩
      exact (summaryRound_ok_iff.mp hround).1
    · exact fun hr => ⟨_, summaryRound_ok_iff.mpr ⟨hr, rfl⟩⟩
  · rintro ⟨self', -, hdue⟩ call hcall htype
    obtain ⟨_, _, v, -, hv⟩ := hdue call hcall
    exact total_fits htype hv

def loadSummaries : List SummaryCall := [.total (asc "load") (makeid (asc "load") MTYPE_INT)]

def loadMeter : Meter :=
  { meterAlloc (makeid (asc "load") MTYPE_INT) with count := 0, d := some ⟨8, [.int 5]⟩ }

theorem summaryRound_right_load :
    SummaryRight 0 plainDoubles loadSummaries (summaryinfoOf loadSummaries) [loadMeter] := by
  have hrun : summaryRounds plainDoubles (summaryinfoOf loadSummaries) [] =
      .ok (summaryinfoOf loadSummaries) := rfl
  refine (summaryRound_right hrun).2.1 ⟨?_, ?_⟩ ?_
  · decide
  · decide
  · intro call hcall
    rw [List.mem_singleton.mp hcall]
    refine ⟨?_, fun _ => ?_⟩
    · intro m hm _ sz hsz
      rw [List.mem_singleton.mp hm] at hsz ⊢
      cases hsz
      rfl
    · change ((5 : ℕ) : ℕ∞) + 0 < 2 ^ 64
      norm_num

def cpuSummaries : List SummaryCall := [.avg (asc "cpu") (makeid (asc "pcpu") MTYPE_FRAC)]

/-- The meters of a host on which one was looked up and has no value. -/
def unsetMeters : List Meter := (hostGetMeter (hostAlloc ⟨0, 1⟩) (makeid (asc "pcpu") MTYPE_FRAC)).1.meters

theorem unset_meter_followed :
    ¬ SummaryRight 0 plainDoubles cpuSummaries (summaryinfoOf cpuSummaries) unsetMeters := by
  rintro ⟨self', hround, -⟩
  cases hround

end Opticon
