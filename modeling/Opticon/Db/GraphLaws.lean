import Mathlib.Algebra.BigOperators.Group.List.Basic
import Mathlib.Data.List.Count
import Mathlib.Data.List.GetD
import Mathlib.Data.List.Nodup
import Mathlib.Data.List.Perm.Basic
import Mathlib.Tactic.FieldSimp
import Mathlib.Tactic.Ring
import Opticon.Db.Graph

/-! Which slots of a graph the samples of an interval are taken from. -/

namespace Opticon

variable {data : List ℚ} {now interval numsamples m n c q r crsr start start' x : Nat} {slots slots' : List Nat}

/-! ### Positions -/

/-- The `m` slots from a position on. -/
def slotWindow (m start : Nat) : List Nat := (List.range m).map fun j => (start + j) % GRAPHDATASZ

/-- The slots of one sample: those from a position on, but for the last, and the one behind it. -/
def sampleSlots (m c : Nat) : List Nat := slotWindow (m - 1) c ++ [(c + m) % GRAPHDATASZ]

def slotMean (data : List ℚ) (slots : List Nat) : ℚ :=
  (slots.map fun i => data.getD i 0).sum / slots.length

@[simp] theorem length_slotWindow (m start : Nat) : (slotWindow m start).length = m := by
  rw [slotWindow, List.length_map, List.length_range]

theorem mem_slotWindow : x ∈ slotWindow m start ↔ ∃ j < m, (start + j) % GRAPHDATASZ = x := by
  unfold slotWindow
  rw [List.mem_map]
  simp only [List.mem_range]

theorem length_sampleSlots (hm : 1 ≤ m) : (sampleSlots m c).length = m := by
  unfold sampleSlots
  rw [List.length_append, length_slotWindow, List.length_singleton]
  omega

theorem mem_sampleSlots : x ∈ sampleSlots m c ↔
    (∃ j < m - 1, (c + j) % GRAPHDATASZ = x) ∨ (c + m) % GRAPHDATASZ = x := by
  unfold sampleSlots
  rw [List.mem_append, mem_slotWindow, List.mem_singleton, eq_comm (a := x)]

theorem slotWindow_nodup (hm : m ≤ GRAPHDATASZ) (start : Nat) : (slotWindow m start).Nodup := by
  refine List.Nodup.map_on ?_ List.nodup_range
  unfold GRAPHDATASZ at *
  intro i hi j hj hij
  rw [List.mem_range] at hi hj
  omega

theorem slotWindow_lt (hx : x ∈ slotWindow m start) : x < GRAPHDATASZ := by
  obtain ⟨j, -, rfl⟩ := mem_slotWindow.mp hx
  exact Nat.mod_lt _ (by decide)

/-! ### The loops -/

theorem graphSlot_eq (hlen : data.length = GRAPHDATASZ) (hc : crsr < GRAPHDATASZ) :
    graphSlot data crsr = .ok (data.getD crsr 0) := by
  have hlt : crsr < data.length := hlen ▸ hc
  unfold graphSlot
  rw [List.getElem?_eq_getElem hlt, List.getD_eq_getElem _ _ hlt]

theorem slotWindow_succ (m start : Nat) :
    slotWindow (m + 1) start = start % GRAPHDATASZ :: slotWindow m (start + 1) := by
  unfold slotWindow
  rw [List.range_succ_eq_map, List.map_cons, List.map_map]
  congr 1
  refine List.map_congr_left fun j _ => ?_
  dsimp only [Function.comp]
  congr 1
  omega

/-- As many slots as are in front of the one before the target. -/
theorem sumSlots_eq (hlen : data.length = GRAPHDATASZ) (hr : r < n) (hn : n ≤ GRAPHDATASZ) (ra rc : ℚ) :
    sumSlots data ((c + r + 1) % GRAPHDATASZ) n (c % GRAPHDATASZ) ra rc =
      .ok ((c + r) % GRAPHDATASZ, ra + ((slotWindow r c).map fun i => data.getD i 0).sum, rc + r) := by
  induction r generalizing n c ra rc with
  | zero =>
    obtain ⟨n, rfl⟩ : ∃ k, n = k + 1 := ⟨n - 1, by omega⟩
    unfold sumSlots localdbOffsetNext
    rw [Nat.mod_add_mod, if_neg (not_not.mpr rfl)]
    simp [slotWindow]
  | succ r ih =>
    obtain ⟨n, rfl⟩ : ∃ k, n = k + 1 := ⟨n - 1, by omega⟩
    have hne : (c % GRAPHDATASZ + 1) % GRAPHDATASZ ≠ (c + (r + 1) + 1) % GRAPHDATASZ := by
      unfold GRAPHDATASZ at *
      omega
    have hsum : c + (r + 1) + 1 = c + 1 + r + 1 := by omega
    unfold sumSlots localdbOffsetNext
    rw [if_pos hne, graphSlot_eq hlen (Nat.mod_lt _ (by decide)), Outcome.ok_bind, Nat.mod_add_mod, hsum,
      ih (Nat.lt_of_succ_lt_succ hr) (by omega), slotWindow_succ, List.map_cons, List.sum_cons,
      show c + 1 + r = c + (r + 1) by omega]
    congr 2
    push_cast
    rw [add_assoc, add_assoc, add_comm (1 : ℚ)]

/-- Where the samples have the size of whole slots, each is the mean of its slots. -/
theorem graphSamples_eq (hlen : data.length = GRAPHDATASZ) (hm : 1 ≤ m) (hmax : m ≤ GRAPHDATASZ)
    (hq : q % GRAPHDATASZ = (c + m) % GRAPHDATASZ) (n : Nat) :
    graphSamples data m n (c % GRAPHDATASZ) q =
      .ok ((List.range n).map fun k => slotMean data (sampleSlots m (c + k * m))) := by
  induction n generalizing c q with
  | zero => rfl
  | succ n ih =>
    have hfloor : ⌊(q : ℚ)⌋.toNat = q := by rw [Int.floor_natCast, Int.toNat_natCast]
    have htarget : q % GRAPHDATASZ = (c + (m - 1) + 1) % GRAPHDATASZ := by
      rw [hq]
      congr 1
      omega
    have hdiff : (q : ℚ) - (⌊(q : ℚ)⌋ : ℤ) = 0 := by rw [Int.floor_natCast, Int.cast_natCast, sub_self]
    have hnext : localdbOffsetNext ((c + (m - 1)) % GRAPHDATASZ) = (c + m) % GRAPHDATASZ := by
      unfold localdbOffsetNext
      rw [Nat.mod_add_mod]
      congr 1
      omega
    have hcast : (q : ℚ) + m = ((q + m : Nat) : ℚ) := by push_cast; rfl
    have hcount : (0 : ℚ) + ((m - 1 : Nat) : ℚ) + 1 = m := by
      rw [zero_add]
      exact_mod_cast Nat.sub_add_cancel hm
    have hrest := ih (c := c + m) (q := q + m) (by rw [Nat.add_mod, hq, ← Nat.add_mod])
    unfold graphSamples
    rw [hfloor, htarget, sumSlots_eq hlen (by omega) le_rfl, Outcome.ok_bind]
    dsimp only
    rw [hnext, graphSlot_eq hlen (Nat.mod_lt _ (by decide)), Outcome.ok_bind, hdiff,
      if_neg (show ¬ (1 / 100 : ℚ) < 0 by norm_num)]
    dsimp only
    rw [hcount, if_neg (by exact_mod_cast (by omega : m ≠ 0)), hcast, hrest, List.range_succ_eq_map,
      List.map_cons, List.map_map]
    have hslots (k : Nat) : c + m + k * m = c + (k + 1) * m := by ring
    simp only [Outcome.ok_bind, Outcome.pure_ok, Function.comp_def, hslots]
    congr 2
    unfold slotMean
    rw [length_sampleSlots hm]
    unfold sampleSlots
    simp [zero_add]

theorem localdbGraphOffset_lt {ti : ℤ} (hti : 0 ≤ ti) : localdbGraphOffset ti < GRAPHDATASZ := by
  unfold localdbGraphOffset GRAPHDATASZ
  have hlt := Int.emod_lt_of_pos ti (show (0 : ℤ) < 30 * 86400 by decide)
  have hle := Int.emod_nonneg ti (show (30 * 86400 : ℤ) ≠ 0 by decide)
  rw [Int.tmod_eq_emod_of_nonneg hti, BitVec.toNat_ofInt, Int.emod_eq_of_lt hle (by omega)]
  dsimp only
  omega

/-! ### Means -/

/-- A graph with one point. -/
def pointGraph (x : Nat) : Graphdata where
  writepos := 0
  count := 0
  accumulator := 0
  data := (List.range GRAPHDATASZ).map fun i => if i = x then 1 else 0
  length_data := by rw [List.length_map, List.length_range]

theorem slotMean_pointGraph (hlt : ∀ i ∈ slots, i < GRAPHDATASZ) (x : Nat) :
    slotMean (pointGraph x).data slots = slots.count x / slots.length := by
  have hsum : (slots.map fun i => (pointGraph x).data.getD i 0).sum = slots.count x := by
    induction slots with
    | nil => rfl
    | cons i slots ih =>
      have hi := hlt i List.mem_cons_self
      have hget : (pointGraph x).data.getD i 0 = if i = x then 1 else 0 := by
        unfold pointGraph
        rw [List.getD_eq_getElem _ _ (by rw [List.length_map, List.length_range]; exact hi), List.getElem_map,
          List.getElem_range]
      rw [List.map_cons, List.sum_cons, ih fun j hj => hlt j (List.mem_cons_of_mem i hj), hget,
        List.count_cons]
      simp only [beq_iff_eq]
      split_ifs
      · push_cast
        ring
      · simp
  rw [slotMean, hsum]

/-- What has the same mean in every graph is the same slots. -/
theorem perm_of_slotMean (hlen : slots.length = slots'.length) (hlt : ∀ i ∈ slots, i < GRAPHDATASZ)
    (hlt' : ∀ i ∈ slots', i < GRAPHDATASZ)
    (hmean : ∀ graph : Graphdata, slotMean graph.data slots = slotMean graph.data slots') :
    slots.Perm slots' := by
  rw [List.perm_iff_count]
  intro x
  have hx := hmean (pointGraph x)
  rw [slotMean_pointGraph hlt, slotMean_pointGraph hlt', ← hlen] at hx
  cases slots with
  | nil => 
    rw [List.length_eq_zero_iff.mp hlen.symm]
  | cons i slots =>
    have hne : ((i :: slots).length : ℚ) ≠ 0 := by simp; positivity
    exact_mod_cast (div_left_inj' hne).mp hx

theorem slotMean_perm (h : slots.Perm slots') (data : List ℚ) : slotMean data slots = slotMean data slots' := by
  rw [slotMean, slotMean, (h.map _).sum_eq, h.length_eq]

/-- The slots of a sample follow each other only if it has one, or all but one of the graph. -/
theorem sampleSlots_perm (hm : 1 ≤ m) (hmax : m ≤ GRAPHDATASZ) :
    (∃ start, (sampleSlots m c).Perm (slotWindow m start)) ↔ m = 1 ∨ m + 1 = GRAPHDATASZ := by
  constructor
  · rintro ⟨start, hperm⟩
    by_contra hno
    rw [not_or] at hno
    have hnodup := hperm.nodup_iff.mpr (slotWindow_nodup hmax start)
    have hmem (x : Nat) := hperm.mem_iff (a := x)
    simp only [mem_sampleSlots, mem_slotWindow] at hmem
    have hwhole : m < GRAPHDATASZ := by
      refine lt_of_le_of_ne hmax fun hall => ?_
      unfold sampleSlots at hnodup
      rw [List.nodup_append] at hnodup
      refine hnodup.2.2 (c % GRAPHDATASZ) ?_ _ (List.mem_singleton_self _) ?_
      · exact mem_slotWindow.mpr ⟨0, by unfold GRAPHDATASZ at hall; omega, rfl⟩
      · rw [hall, Nat.add_mod_right]
    -- the last slot is in the row, but the slots on both sides of it are not
    obtain ⟨j, hj, hat⟩ := (hmem ((c + m) % GRAPHDATASZ)).mp (.inr rfl)
    have hbehind : ¬ j + 1 < m := by
      intro hlt
      have hin := (hmem ((start + (j + 1)) % GRAPHDATASZ)).mpr ⟨j + 1, hlt, rfl⟩
      unfold GRAPHDATASZ at *
      obtain ⟨i, hi, heq⟩ | heq := hin <;> omega
    have hin := (hmem ((start + (j - 1)) % GRAPHDATASZ)).mpr ⟨j - 1, by omega, rfl⟩
    unfold GRAPHDATASZ at *
    obtain ⟨i, hi, heq⟩ | heq := hin <;> omega
  · rintro (rfl | hall)
    · exact ⟨c + 1, .refl _⟩
    · refine ⟨c + m, ?_⟩
      obtain ⟨k, rfl⟩ : ∃ k, m = k + 1 := ⟨m - 1, by omega⟩
      unfold sampleSlots
      rw [slotWindow_succ, Nat.add_sub_cancel]
      have hsame : slotWindow k (c + (k + 1) + 1) = slotWindow k c := by
        unfold slotWindow
        refine List.map_congr_left fun j _ => ?_
        rw [show c + (k + 1) + 1 + j = c + j + (k + 1 + 1) by ring, hall, Nat.add_mod_right]
      rw [hsame]
      exact List.perm_append_singleton _ _

/-! ### Samples of an interval -/

/-- The slot that the samples of an interval start from. -/
def firstSlot (now interval : Nat) : Nat := localdbGraphOffset ((now : ℤ) - interval)

theorem localdbGetGraph_eq (hm : 1 ≤ m) (hint : interval = numsamples * 300 * m)
    (hmax : interval ≤ 30 * 86400) (hnow : interval ≤ now) (hn : numsamples ≠ 0) (graph : Graphdata) :
    localdbGetGraph now (some graph) interval numsamples = .ok (some ((List.range numsamples).map fun k =>
      slotMean graph.data (sampleSlots m (firstSlot now interval + k * m))), some graph) := by
  have hsize : (interval : ℚ) / (numsamples * 300) = m := by
    have hne : (numsamples : ℚ) ≠ 0 := by exact_mod_cast hn
    rw [hint]
    push_cast
    field_simp
  have hsmall : ¬ (m : ℚ) < 1 := by
    rw [not_lt]
    exact_mod_cast hm
  have hm' : m ≤ GRAPHDATASZ := by
    have hle : 300 * m ≤ numsamples * 300 * m := by
      rw [Nat.mul_assoc]
      exact Nat.le_mul_of_pos_left _ (Nat.pos_of_ne_zero hn)
    unfold GRAPHDATASZ
    omega
  have hfirst : firstSlot now interval % GRAPHDATASZ = firstSlot now interval :=
    Nat.mod_eq_of_lt (localdbGraphOffset_lt (by omega))
  have hrun := graphSamples_eq graph.length_data hm hm'
    (rfl : (firstSlot now interval + m) % GRAPHDATASZ = _) numsamples
  rw [hfirst, Nat.cast_add] at hrun
  unfold localdbGetGraph
  rw [if_neg hn]
  dsimp only
  rw [hsize, if_neg hsmall]
  change graphSamples graph.data m numsamples (firstSlot now interval) (firstSlot now interval + m) >>= _ = _
  rw [hrun]
  rfl

/-- Every sample is the mean of `m` slots that follow each other, and all of them together are a row of
slots, none of which is in two of them. -/
def SamplesPartition (now interval numsamples m : Nat) : Prop :=
  ∃ (first : Nat) (start : Nat → Nat), (slotWindow (numsamples * m) first).Nodup ∧
    ((List.range numsamples).flatMap fun k => slotWindow m (start k)).Perm (slotWindow (numsamples * m) first) ∧
    ∀ graph, ∃ res graph', localdbGetGraph now (some graph) interval numsamples = .ok (res, graph') ∧
      res.getD [] = (List.range numsamples).map fun k => slotMean graph.data (slotWindow m (start k))

theorem samplesPartition_of_starts (hm : 1 ≤ m) (hint : interval = numsamples * 300 * m)
    (hmax : interval ≤ 30 * 86400) (hnow : interval ≤ now) (hn : numsamples ≠ 0) (first : Nat)
    (start : Nat → Nat) (hrow : ((List.range numsamples).flatMap fun k => slotWindow m (start k)).Perm
      (slotWindow (numsamples * m) first))
    (hstart : ∀ k < numsamples, (sampleSlots m (firstSlot now interval + k * m)).Perm (slotWindow m (start k))) :
    SamplesPartition now interval numsamples m := by
  have hfit : numsamples * m ≤ GRAPHDATASZ := by
    rw [hint, Nat.mul_right_comm] at hmax
    unfold GRAPHDATASZ
    omega
  refine ⟨first, start, slotWindow_nodup hfit first, hrow, fun graph => ?_⟩
  refine ⟨_, _, localdbGetGraph_eq hm hint hmax hnow hn graph, List.map_congr_left fun k hk => ?_⟩
  exact slotMean_perm (hstart k (List.mem_range.mp hk)) _

/-- The samples of an interval are a partition of a row of slots only where each is one slot, or where
the only one has all slots but one. -/
theorem samples_partition (hm : 1 ≤ m) (hint : interval = numsamples * 300 * m)
    (hmax : interval ≤ 30 * 86400) (hnow : interval ≤ now) :
    SamplesPartition now interval numsamples m ↔
      numsamples = 0 ∨ m = 1 ∨ numsamples = 1 ∧ m + 1 = GRAPHDATASZ := by
  obtain rfl | hn := eq_or_ne numsamples 0
  · refine iff_of_true ⟨0, fun _ => 0, ?_, ?_, fun graph => ⟨none, some graph, rfl, rfl⟩⟩ (.inl rfl)
    · rw [Nat.zero_mul]
      exact List.nodup_nil
    · rw [Nat.zero_mul]
      exact .refl _
  have hfit : numsamples * m ≤ GRAPHDATASZ := by
    rw [hint, Nat.mul_right_comm] at hmax
    unfold GRAPHDATASZ
    omega
  have hm' : m ≤ GRAPHDATASZ := (Nat.le_mul_of_pos_left m (Nat.pos_of_ne_zero hn)).trans hfit
  rw [or_iff_right hn]
  constructor
  · rintro ⟨first, start, -, -, hmeans⟩
    have hmean (graph : Graphdata) : slotMean graph.data (sampleSlots m (firstSlot now interval)) =
        slotMean graph.data (slotWindow m (start 0)) := by
      obtain ⟨res, graph', hrun, hres⟩ := hmeans graph
      rw [localdbGetGraph_eq hm hint hmax hnow hn] at hrun
      cases hrun
      have hhead := List.map_inj_left.mp hres 0 (List.mem_range.mpr (Nat.pos_of_ne_zero hn))
      rwa [Nat.zero_mul, Nat.add_zero] at hhead
    have hperm := perm_of_slotMean ((length_sampleSlots hm).trans (length_slotWindow m _).symm)
      (fun i hi => ?_) (fun i hi => slotWindow_lt hi) hmean
    · obtain hone | hall := (sampleSlots_perm hm hm').mp ⟨_, hperm⟩
      · exact .inl hone
      · refine .inr ⟨?_, hall⟩
        by_contra hne
        have htwo : 2 * m ≤ numsamples * m := Nat.mul_le_mul_right m (by omega)
        unfold GRAPHDATASZ at *
        omega
    · obtain ⟨j, -, rfl⟩ | rfl := mem_sampleSlots.mp hi
      all_goals exact Nat.mod_lt _ (by decide)
  · rintro (rfl | ⟨rfl, hall⟩)
    · refine samplesPartition_of_starts hm hint hmax hnow hn (firstSlot now interval + 1)
        (fun k => firstSlot now interval + k * 1 + 1) (.of_eq ?_) fun k _ => .refl _
      rw [Nat.mul_one, slotWindow, List.map_eq_flatMap]
      refine List.flatMap_congr fun k _ => ?_
      change [(firstSlot now interval + k * 1 + 1 + 0) % GRAPHDATASZ] = _
      congr 2
      omega
    · obtain ⟨start, hperm⟩ := (sampleSlots_perm hm hm' (c := firstSlot now interval)).mpr (.inr hall)
      refine samplesPartition_of_starts hm hint hmax hnow hn start (fun _ => start) ?_ ?_
      · rw [Nat.one_mul]
        exact .of_eq (List.append_nil _)
      · intro k hk
        obtain rfl : k = 0 := by omega
        rwa [Nat.zero_mul, Nat.add_zero]

theorem samples_partition_load : SamplesPartition 9000 1500 5 1 ↔ 5 = 0 ∨ 1 = 1 ∨ 5 = 1 ∧ 1 + 1 = GRAPHDATASZ :=
  samples_partition le_rfl rfl (by decide) (by decide)

/-- Of two samples of ten minutes the first one has the slots 28 and 30, and the second one 30 and 32. -/
theorem samples_overlap : ¬ SamplesPartition 9600 1200 2 2 := by
  rintro ⟨first, start, -, -, hmeans⟩
  have hmean (graph : Graphdata) : slotMean graph.data (sampleSlots 2 28) =
      slotMean graph.data (slotWindow 2 (start 0)) := by
    obtain ⟨res, graph', hrun, hres⟩ := hmeans graph
    rw [localdbGetGraph_eq (show 1 ≤ 2 by decide) (show 1200 = 2 * 300 * 2 from rfl) (by decide) (by decide)
      (by decide)] at hrun
    cases hrun
    exact List.map_inj_left.mp hres 0 (by decide)
  have hperm : (sampleSlots 2 28).Perm (slotWindow 2 (start 0)) :=
    perm_of_slotMean rfl (by decide) (fun i hi => slotWindow_lt hi) hmean
  obtain hone | hall := (sampleSlots_perm (by decide) (by decide)).mp ⟨_, hperm⟩
  · cases hone
  · cases hall

end Opticon
