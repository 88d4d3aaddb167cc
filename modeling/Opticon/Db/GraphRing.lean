import Mathlib.Algebra.Order.Floor.Ring
import Opticon.Db.GraphLaws
import Opticon.Lib.Transition

/-! What the slots of a graph hold while values are written into it. -/

namespace Opticon

/-! ### Periods -/

/-- Five minutes. -/
def period (t : Nat) : Nat := t / 300

/-- The values that were written in a period. -/
def periodValues (log : List (Nat × ℚ)) (p : Nat) : List ℚ :=
  (log.filter fun e => period e.1 == p).map Prod.snd

/-- Their mean, or 0 if there are none. -/
def periodMean (log : List (Nat × ℚ)) (p : Nat) : ℚ :=
  (periodValues log p).sum / (periodValues log p).length

/-- The file of a graph, the time of the last value, and the values so far. -/
structure Graphing where
  file : Option Graphdata
  last : Nat
  log : List (Nat × ℚ)

/-- Values that are written, one after the other, into a graph that is not there in the beginning. -/
def graphing : Transition Graphing (Nat × ℚ) where
  init s := s = ⟨none, 0, []⟩
  step s e s' := s.last ≤ e.1 ∧ ∃ graph, localdbSetGraph e.1 s.file e.2 = .ok graph ∧
    s' = ⟨some graph, e.1, s.log ++ [e]⟩

/-- The value in the slot of a period, as it is read at a time. -/
def Graphing.slot (s : Graphing) (now p : Nat) : ℚ :=
  (localdbOpenGraph now s.file).data.getD (p % GRAPHDATASZ) 0

/-- The periods of an interval, as far back as there are slots. -/
def InInterval (now interval p : Nat) : Prop :=
  period (now - interval) ≤ p ∧ p ≤ period now ∧ period now < p + GRAPHDATASZ

/-- The slots that are read for an interval have the means of their periods. -/
def Graphing.Fresh (s : Graphing) (now interval : Nat) : Prop :=
  ∀ p, InInterval now interval p → s.slot now p = periodMean s.log p

/-- A value that comes into the slot of the one before it comes in the same period, and the values of a
period can be counted. -/
def Continues (s : Graphing) (e : Nat × ℚ) : Prop :=
  (∀ e' ∈ s.log.getLast?, period e'.1 % GRAPHDATASZ = period e.1 % GRAPHDATASZ → period e'.1 = period e.1) ∧
    (periodValues s.log (period e.1)).length + 1 < 2 ^ 32

/-- What is read for a period is from this period if anything was ever written into its slot. -/
def Renewed (log : List (Nat × ℚ)) (now interval : Nat) : Prop :=
  ∀ p, InInterval now interval p → (∃ e ∈ log, period e.1 % GRAPHDATASZ = p % GRAPHDATASZ) →
    ∃ e ∈ log, period e.1 = p

variable {s s' : Graphing} {graph : Graphdata} {log : List (Nat × ℚ)} {e : Nat × ℚ} {now interval p q i : Nat}

theorem periodValues_append (log : List (Nat × ℚ)) (e : Nat × ℚ) (p : Nat) :
    periodValues (log ++ [e]) p = periodValues log p ++ if period e.1 = p then [e.2] else [] := by
  unfold periodValues
  rw [List.filter_append, List.map_append]
  congr 1
  by_cases hp : period e.1 = p
  · simp [hp]
  · simp [hp]

theorem periodValues_eq_nil : periodValues log p = [] ↔ ∀ e ∈ log, period e.1 ≠ p := by
  unfold periodValues
  rw [List.map_eq_nil_iff, List.filter_eq_nil_iff]
  simp only [beq_iff_eq]

theorem localdbGraphOffset_period (t : Nat) : localdbGraphOffset t = period t % GRAPHDATASZ := by
  unfold localdbGraphOffset GRAPHDATASZ period
  have hlt := Int.emod_lt_of_pos (t : ℤ) (show (0 : ℤ) < 30 * 86400 by decide)
  have hle := Int.emod_nonneg (t : ℤ) (show (30 * 86400 : ℤ) ≠ 0 by decide)
  rw [Int.tmod_eq_emod_of_nonneg (Int.natCast_nonneg t), BitVec.toNat_ofInt,
    Int.emod_eq_of_lt hle (by omega)]
  dsimp only
  omega

/-! ### The invariant -/

/-- What a slot holds: nothing was ever written into it, or the values of the last period in which
something was. -/
inductive SlotHolds (log : List (Nat × ℚ)) (i : Nat) : ℚ → Prop
  | empty : (∀ e ∈ log, period e.1 % GRAPHDATASZ ≠ i) → SlotHolds log i 0
  | last {e : Nat × ℚ} : e ∈ log → period e.1 % GRAPHDATASZ = i →
      (∀ e' ∈ log, period e'.1 % GRAPHDATASZ = i → period e'.1 ≤ period e.1) →
      SlotHolds log i (periodMean log (period e.1))

/-- The graph after the values of a log, the last of which is `e`. -/
structure Graphdata.Follows (graph : Graphdata) (log : List (Nat × ℚ)) (e : Nat × ℚ) : Prop where
  writepos : graph.writepos = period e.1 % GRAPHDATASZ
  count : graph.count = (periodValues log (period e.1)).length
  accumulator : graph.accumulator = (periodValues log (period e.1)).sum
  holds : ∀ i < GRAPHDATASZ, SlotHolds log i (graph.data.getD i 0)

/-- What is known of a state of the run. -/
structure Graphing.Kept (s : Graphing) : Prop where
  times : ∀ e ∈ s.log, e.1 ≤ s.last
  file : s.file = none ∧ s.log = [] ∨
    ∃ graph e log, s.file = some graph ∧ s.log = log ++ [e] ∧ graph.Follows s.log e ∧ e.1 = s.last

theorem SlotHolds.append {v : ℚ} (h : SlotHolds log i v) (hi : period e.1 % GRAPHDATASZ ≠ i) :
    SlotHolds (log ++ [e]) i v := by
  cases h with
  | empty hno =>
    refine .empty fun e' he' => ?_
    obtain he' | he' := List.mem_append.mp he'
    · exact hno e' he'
    · rwa [List.mem_singleton.mp he']
  | @last e₁ he₁ hslot hmax =>
    have hmean : periodMean log (period e₁.1) = periodMean (log ++ [e]) (period e₁.1) := by
      have hne : ¬ period e.1 = period e₁.1 := fun heq => hi (heq ▸ hslot)
      rw [periodMean, periodMean, periodValues_append, if_neg hne, List.append_nil]
    rw [hmean]
    refine .last (List.mem_append_left _ he₁) hslot fun e' he' hslot' => ?_
    obtain he' | he' := List.mem_append.mp he'
    · exact hmax e' he' hslot'
    · rw [List.mem_singleton.mp he'] at hslot'
      exact absurd hslot' hi

theorem getD_set {data : List ℚ} {j : Nat} (hj : j < data.length) (v : ℚ) :
    (data.set j v).getD i 0 = if i = j then v else data.getD i 0 := by
  rw [List.getD_eq_getElem?_getD, List.getD_eq_getElem?_getD, List.getElem?_set]
  by_cases hi : i = j
  · rw [if_pos hi.symm, if_pos hj, if_pos hi]
    rfl
  · rw [if_neg (Ne.symm hi), if_neg hi]

/-- A value that is added to those of its period. -/
theorem Graphdata.add_follows {val : ℚ} (hlast : ∀ e ∈ log, e.1 ≤ now)
    (hroom : (periodValues log (period now)).length + 1 < 2 ^ 32)
    (hpos : graph.writepos = period now % GRAPHDATASZ)
    (hcount : graph.count = (periodValues log (period now)).length)
    (hsum : graph.accumulator = (periodValues log (period now)).sum)
    (hholds : ∀ i < GRAPHDATASZ, SlotHolds log i (graph.data.getD i 0)) :
    ∃ graph', graph.add val = .ok graph' ∧ graph'.Follows (log ++ [(now, val)]) (now, val) := by
  have hvalues : periodValues (log ++ [(now, val)]) (period now) = periodValues log (period now) ++ [val] := by
    rw [periodValues_append, if_pos rfl]
  have hlen : (periodValues (log ++ [(now, val)]) (period now)).length = graph.count + 1 := by
    rw [hvalues, List.length_append, List.length_singleton, hcount]
  have hsum' : (periodValues (log ++ [(now, val)]) (period now)).sum = graph.accumulator + val := by
    rw [hvalues, List.sum_append, List.sum_singleton, hsum]
  have hslot : graph.writepos < GRAPHDATASZ := hpos ▸ Nat.mod_lt _ (by decide)
  have hmod : (graph.count + 1) % 2 ^ 32 = graph.count + 1 := Nat.mod_eq_of_lt (hcount ▸ hroom)
  unfold Graphdata.add
  dsimp only
  rw [if_neg (by rw [hmod]; exact Nat.succ_ne_zero _), if_pos hslot]
  refine ⟨_, rfl, hpos, hmod.trans hlen.symm, hsum'.symm, fun i hi => ?_⟩
  dsimp only
  rw [getD_set (by rw [graph.length_data]; exact hslot)]
  split_ifs with heq
  · rw [← hsum', hmod, ← hlen]
    refine .last (List.mem_append_right log (List.mem_singleton_self (now, val))) (heq.trans hpos).symm ?_
    intro e' he' _
    obtain he' | he' := List.mem_append.mp he'
    · exact Nat.div_le_div_right (hlast e' he')
    · rw [List.mem_singleton.mp he']
  · exact (hholds i hi).append fun hsame => heq (hsame.symm.trans hpos.symm)

theorem holds_replicate (i : Nat) : SlotHolds [] i ((List.replicate GRAPHDATASZ (0 : ℚ)).getD i 0) := by
  have hzero : (List.replicate GRAPHDATASZ (0 : ℚ)).getD i 0 = 0 := by
    rw [List.getD_eq_getElem?_getD, List.getElem?_replicate]
    split_ifs <;> rfl
  rw [hzero]
  exact .empty fun e he => absurd he List.not_mem_nil

/-- A value that continues is written: the sum and the number go on where the graph has the slot
already. -/
theorem Graphing.Kept.step {val : ℚ} (hs : s.Kept) (hc : Continues s (now, val)) (hle : s.last ≤ now) :
    ∃ graph, localdbSetGraph now s.file val = .ok graph ∧
      graph.Follows (s.log ++ [(now, val)]) (now, val) := by
  have hlast : ∀ e ∈ s.log, e.1 ≤ now := fun e he => (hs.times e he).trans hle
  unfold localdbSetGraph Graphdata.moveTo
  dsimp only
  rw [localdbGraphOffset_period]
  obtain ⟨hfile, hlog⟩ | ⟨graph, e₀, log, hfile, hlog, hgraph, htime⟩ := hs.file
  · have hpos : (localdbOpenGraph now s.file).writepos = period now % GRAPHDATASZ := by
      rw [hfile]
      exact localdbGraphOffset_period now
    rw [if_neg (not_not.mpr hpos.symm)]
    refine Graphdata.add_follows hlast hc.2 hpos ?_ ?_ ?_
    · rw [hfile, hlog]
      rfl
    · rw [hfile, hlog]
      rfl
    · rw [hfile, hlog]
      exact fun i _ => holds_replicate i
  · have hopen : localdbOpenGraph now s.file = graph := by
      rw [hfile]
      rfl
    rw [hopen]
    split_ifs with hne
    · -- the period is later than that of the last value, so nothing was written in it yet
      have hnil : periodValues s.log (period now) = [] := by
        rw [periodValues_eq_nil]
        intro e' he' heq
        have hbefore : period e'.1 ≤ period e₀.1 :=
          Nat.div_le_div_right ((hs.times e' he').trans_eq htime.symm)
        have hafter : period e₀.1 ≤ period now := Nat.div_le_div_right (htime.trans_le hle)
        have hsame : period e₀.1 = period now := by omega
        exact hne (hgraph.writepos.trans (congrArg (· % GRAPHDATASZ) hsame)).symm
      refine Graphdata.add_follows hlast hc.2 rfl ?_ ?_ hgraph.holds
      · rw [hnil]
        rfl
      · rw [hnil]
        rfl
    · have hpos := (not_not.mp hne).symm
      have hsame : period e₀.1 = period now := by
        refine hc.1 e₀ ?_ (hgraph.writepos.symm.trans hpos)
        rw [hlog, List.getLast?_append, List.getLast?_singleton]
        rfl
      exact Graphdata.add_follows hlast hc.2 hpos (hsame ▸ hgraph.count) (hsame ▸ hgraph.accumulator)
        hgraph.holds

theorem graphing_kept {ls : List (Nat × ℚ)} (hist : (graphing.guard Continues).History ls s) : s.Kept := by
  refine hist.reachable.induction ?_ ?_
  · rintro s rfl
    exact ⟨fun e he => absurd he List.not_mem_nil, .inl ⟨rfl, rfl⟩⟩
  · rintro s e s' hs ⟨hc, hle, graph, hset, rfl⟩
    obtain ⟨graph', hset', hgraph⟩ := hs.step (show Continues s (e.1, e.2) from hc) hle
    cases hset.symm.trans hset'
    refine ⟨?_, .inr ⟨graph, e, s.log, rfl, rfl, hgraph, rfl⟩⟩
    intro e' he'
    obtain he' | he' := List.mem_append.mp he'
    · exact (hs.times e' he').trans hle
    · rw [List.mem_singleton.mp he']

/-! ### What is read -/

theorem Graphing.Kept.holds (hs : s.Kept) (now : Nat) (hi : i < GRAPHDATASZ) :
    SlotHolds s.log i ((localdbOpenGraph now s.file).data.getD i 0) := by
  obtain ⟨hfile, hlog⟩ | ⟨graph, e, log, hfile, -, hgraph, -⟩ := hs.file
  · rw [hfile, hlog]
    exact holds_replicate i
  · rw [hfile]
    exact hgraph.holds i hi

theorem Graphing.Kept.fresh (hs : s.Kept) (hnow : s.last ≤ now) (hr : Renewed s.log now interval) :
    s.Fresh now interval := by
  intro p hp
  obtain ⟨-, hle, hback⟩ := id hp
  have hslot : p % GRAPHDATASZ < GRAPHDATASZ := Nat.mod_lt _ (by decide)
  have hholds := hs.holds now hslot
  unfold Graphing.slot
  generalize (localdbOpenGraph now s.file).data.getD (p % GRAPHDATASZ) 0 = v at hholds
  cases hholds with
  | empty hno =>
    have hnil : periodValues s.log p = [] := by
      rw [periodValues_eq_nil]
      intro e he heq
      exact hno e he (congrArg (· % GRAPHDATASZ) heq)
    rw [periodMean, hnil, List.sum_nil, zero_div]
  | @last e he hin hmax =>
    obtain ⟨e', he', heq⟩ := hr p hp ⟨e, he, hin⟩
    have hge : p ≤ period e.1 := heq ▸ hmax e' he' (congrArg (· % GRAPHDATASZ) heq)
    have hbound : period e.1 ≤ period now := Nat.div_le_div_right ((hs.times e he).trans hnow)
    have hsame : period e.1 = p := by
      unfold GRAPHDATASZ at *
      omega
    rw [hsame]

/-! ### Samples -/

variable {data data' : List ℚ} {samplesize offsNext : ℚ} {n c last numsamples : Nat}

/-- Samples are made of the slots up to the last boundary only. -/
theorem graphSamples_congr (hlen : data.length = GRAPHDATASZ) (hlen' : data'.length = GRAPHDATASZ)
    (hone : 1 ≤ samplesize) (hall : samplesize ≤ GRAPHDATASZ) (hnext : (c : ℚ) + 1 ≤ offsNext)
    (hround : offsNext < c + GRAPHDATASZ + 1) (hlast : ∀ k < n, offsNext + (k : Nat) * samplesize < last + 1)
    (hsame : ∀ i, c ≤ i → i ≤ last → data.getD (i % GRAPHDATASZ) 0 = data'.getD (i % GRAPHDATASZ) 0) :
    graphSamples data samplesize n (c % GRAPHDATASZ) offsNext =
      graphSamples data' samplesize n (c % GRAPHDATASZ) offsNext := by
  induction n generalizing c offsNext with
  | zero => rfl
  | succ n ih =>
    -- the boundary lies in the slot behind `r` others
    obtain ⟨r, hr⟩ : ∃ r : Nat, ⌊offsNext⌋ = ((c + r + 1 : Nat) : ℤ) := by
      refine ⟨(⌊offsNext⌋ - c - 1).toNat, ?_⟩
      have hge : (c : ℤ) + 1 ≤ ⌊offsNext⌋ := Int.le_floor.mpr (by push_cast; exact hnext)
      push_cast
      omega
    have hfloor : ((c + r + 1 : Nat) : ℚ) ≤ offsNext ∧ offsNext < (c + r + 1 : Nat) + 1 := by
      have hle := Int.floor_le offsNext
      have hlt := Int.lt_floor_add_one offsNext
      rw [hr] at hle hlt
      exact_mod_cast And.intro hle hlt
    have hrlt : r < GRAPHDATASZ := by
      have hlt : ((c + r + 1 : Nat) : ℚ) < (c + GRAPHDATASZ + 1 : Nat) := by
        push_cast
        exact lt_of_le_of_lt (by exact_mod_cast hfloor.1) hround
      have hlt' : c + r + 1 < c + GRAPHDATASZ + 1 := by exact_mod_cast hlt
      omega
    have hbehind : c + r + 1 ≤ last := by
      have hlt := hlast 0 (Nat.succ_pos n)
      rw [Nat.cast_zero, zero_mul, add_zero] at hlt
      have hlt' : ((c + r + 1 : Nat) : ℚ) < (last + 1 : Nat) := by
        push_cast
        exact lt_of_le_of_lt (by exact_mod_cast hfloor.1) hlt
      exact Nat.lt_succ_iff.mp (by exact_mod_cast hlt')
    have hwindow : ((slotWindow r c).map fun i => data.getD i 0) = (slotWindow r c).map fun i => data'.getD i 0 := by
      unfold slotWindow
      rw [List.map_map, List.map_map]
      refine List.map_congr_left fun j hj => ?_
      have hlt := List.mem_range.mp hj
      exact hsame (c + j) (by omega) (by omega)
    have hslot := hsame (c + r + 1) (by omega) hbehind
    have hrest := @ih (offsNext + samplesize) (c + r + 1) (by linarith [hfloor.1]) (by linarith [hfloor.2])
      (fun k hk => by
        have hk' := hlast (k + 1) (Nat.succ_lt_succ hk)
        push_cast at hk'
        linarith)
      fun i hi => hsame i (by omega)
    have hstep : localdbOffsetNext ((c + r) % GRAPHDATASZ) = (c + r + 1) % GRAPHDATASZ := by
      unfold localdbOffsetNext
      rw [Nat.mod_add_mod]
    have hin : (c + r + 1) % GRAPHDATASZ < GRAPHDATASZ := Nat.mod_lt _ (by decide)
    unfold graphSamples
    rw [hr, Int.toNat_natCast, sumSlots_eq hlen hrlt le_rfl, sumSlots_eq hlen' hrlt le_rfl, hwindow,
      Outcome.ok_bind, Outcome.ok_bind]
    dsimp only
    rw [hstep, graphSlot_eq hlen hin, graphSlot_eq hlen' hin, hslot, hrest]

/-- Two graphs that have the same values in the slots of an interval give the same samples of it. -/
theorem localdbGetGraph_congr {file file' : Option Graphdata} (hmax : interval ≤ 30 * 86400)
    (hnow : interval ≤ now) (hsame : ∀ p, InInterval now interval p →
      (localdbOpenGraph now file).data.getD (p % GRAPHDATASZ) 0 =
        (localdbOpenGraph now file').data.getD (p % GRAPHDATASZ) 0) :
    Outcome.Alike (fun x x' => x.1 = x'.1) (localdbGetGraph now file interval numsamples)
      (localdbGetGraph now file' interval numsamples) := by
  unfold localdbGetGraph
  split_ifs with hn
  · exact .ok rfl
  dsimp only
  split_ifs with hsmall
  · exact .ok rfl
  have hpos : (0 : ℚ) < numsamples := by exact_mod_cast Nat.pos_of_ne_zero hn
  have hstart : ((now : ℤ) - interval) = ((now - interval : Nat) : ℤ) := by omega
  rw [hstart, localdbGraphOffset_period]
  have htotal : (numsamples : ℚ) * (interval / (numsamples * 300)) = interval / 300 := by
    field_simp
  have hsize : (interval : ℚ) / (numsamples * 300) ≤ GRAPHDATASZ := by
    have hle : (interval : ℚ) ≤ 30 * 86400 := by exact_mod_cast hmax
    have hone : (1 : ℚ) ≤ numsamples := by exact_mod_cast Nat.pos_of_ne_zero hn
    rw [div_le_iff₀ (by positivity)]
    unfold GRAPHDATASZ
    push_cast
    linarith
  have hlast : (interval : ℚ) / 300 < (interval / 300 : Nat) + 1 := by
    rw [div_lt_iff₀ (by norm_num)]
    have hlt : interval < (interval / 300 + 1) * 300 := by omega
    exact_mod_cast hlt
  generalize hss : (interval : ℚ) / (numsamples * 300) = ss at *
  obtain ⟨first, hfirst⟩ : ∃ first, period (now - interval) % GRAPHDATASZ = first := ⟨_, rfl⟩
  have hsamples := @graphSamples_congr _ _ ss ((first : ℚ) + ss) numsamples first (first + interval / 300)
    (localdbOpenGraph now file).length_data (localdbOpenGraph now file').length_data (not_lt.mp hsmall) hsize
    (by linarith [not_lt.mp hsmall]) (by linarith) (fun k hk => ?_) (fun i hi hi' => ?_)
  · rw [← hfirst, Nat.mod_mod] at hsamples
    rw [hsamples]
    generalize graphSamples (localdbOpenGraph now file').data ss numsamples _ _ = x
    cases x with
    | error e => exact .error e
    | ok res => exact .ok rfl
  · have hk' : (k : ℚ) + 1 ≤ numsamples := by exact_mod_cast hk
    have hle : ((k : ℚ) + 1) * ss ≤ numsamples * ss :=
      mul_le_mul_of_nonneg_right hk' (by linarith [not_lt.mp hsmall])
    push_cast
    linarith
  · -- the period of the slot, or the current one, which has the slot of the first one of 30 days
    unfold InInterval at hsame
    unfold GRAPHDATASZ period at *
    by_cases hback : now / 300 < (now - interval) / 300 + (i - first) + 8640
    · have hp := hsame ((now - interval) / 300 + (i - first)) (by omega)
      have hmod : ((now - interval) / 300 + (i - first)) % (12 * 24 * 30) = i % (12 * 24 * 30) := by omega
      rwa [hmod] at hp
    · have hp := hsame (now / 300) (by omega)
      have hmod : now / 300 % (12 * 24 * 30) = i % (12 * 24 * 30) := by omega
      rwa [hmod] at hp

/-- The graph as it is to be read at a time: each slot has the mean of the last period that it stands
for. -/
def idealGraph (log : List (Nat × ℚ)) (now : Nat) : Graphdata where
  writepos := 0
  count := 0
  accumulator := 0
  data := (List.range GRAPHDATASZ).map fun i =>
    periodMean log (period now - (period now + GRAPHDATASZ - i) % GRAPHDATASZ)
  length_data := by rw [List.length_map, List.length_range]

theorem idealGraph_slot (hp : InInterval now interval p) :
    (idealGraph log now).data.getD (p % GRAPHDATASZ) 0 = periodMean log p := by
  obtain ⟨-, hle, hback⟩ := hp
  have hin : p % GRAPHDATASZ < GRAPHDATASZ := Nat.mod_lt _ (by decide)
  have hperiod : period now - (period now + GRAPHDATASZ - p % GRAPHDATASZ) % GRAPHDATASZ = p := by
    unfold GRAPHDATASZ at *
    omega
  unfold idealGraph
  dsimp only
  rw [List.getD_eq_getElem _ _ (by rw [List.length_map, List.length_range]; exact hin), List.getElem_map,
    List.getElem_range, hperiod]

/-- In every run of values that continue each other, every one is written, and where what is read for a
period is from this period, it is their mean, so that the samples are those of the graph as it is to
be. -/
theorem graph_fresh {ls : List (Nat × ℚ)} (hist : (graphing.guard Continues).History ls s) :
    (∀ e, s.last ≤ e.1 → Continues s e → ∃ s', graphing.step s e s') ∧
      ∀ now interval, s.last ≤ now → interval ≤ now → interval ≤ 30 * 86400 → Renewed s.log now interval →
        s.Fresh now interval ∧ ∀ numsamples, Outcome.Alike (fun x x' => x.1 = x'.1)
          (localdbGetGraph now s.file interval numsamples)
          (localdbGetGraph now (some (idealGraph s.log now)) interval numsamples) := by
  have hs := graphing_kept hist
  refine ⟨fun e hle hc => ?_, fun now interval hnow hle hmax hr => ?_⟩
  · obtain ⟨graph, hset, -⟩ := hs.step (show Continues s (e.1, e.2) from hc) hle
    exact ⟨_, hle, graph, hset, rfl⟩
  · have hfresh := hs.fresh hnow hr
    refine ⟨hfresh, fun numsamples => localdbGetGraph_congr hmax hle fun p hp => ?_⟩
    exact (hfresh p hp).trans (idealGraph_slot hp).symm

/-! One value, read in its period and 30 days later. -/

theorem one_value_written :
    ∃ s, (graphing.guard Continues).History [(600, 5)] s ∧ s.log = [(600, 5)] ∧ s.last = 600 ∧
      ∃ graph, s.file = some graph ∧ graph.data.getD 2 0 = 5 := by
  have hstart : (graphing.guard Continues).History [] ⟨none, 0, []⟩ := .init rfl
  have hc : Continues ⟨none, 0, []⟩ (600, 5) := ⟨fun e he => (by cases he), by decide⟩
  have hkept := graphing_kept hstart
  obtain ⟨graph, hset, hgraph⟩ := hkept.step hc (Nat.zero_le 600)
  refine ⟨_, hstart.step ⟨hc, Nat.zero_le 600, graph, hset, rfl⟩, rfl, rfl, graph, rfl, ?_⟩
  have hholds := hgraph.holds 2 (by decide)
  generalize graph.data.getD 2 0 = v at hholds
  cases hholds with
  | empty hno => exact absurd rfl (hno (600, 5) (List.mem_singleton_self _))
  | @last e he _ _ =>
    obtain rfl := List.mem_singleton.mp he
    norm_num [periodMean, periodValues]

theorem graph_fresh_load :
    ∃ s : Graphing, s.log = [(600, 5)] ∧
      (∀ e, s.last ≤ e.1 → Continues s e → ∃ s', graphing.step s e s') ∧
        ∀ now interval, s.last ≤ now → interval ≤ now → interval ≤ 30 * 86400 → Renewed s.log now interval →
          s.Fresh now interval ∧ ∀ numsamples, Outcome.Alike (fun x x' => x.1 = x'.1)
            (localdbGetGraph now s.file interval numsamples)
            (localdbGetGraph now (some (idealGraph s.log now)) interval numsamples) := by
  obtain ⟨s, hist, hlog, -⟩ := one_value_written
  exact ⟨s, hlog, graph_fresh hist⟩

/-- Nothing was written in the last ten minutes, but the value of 30 days before is read. -/
theorem stale_slot_read : ∃ s, graphing.History [(600, 5)] s ∧ s.last ≤ 2592900 ∧ ¬ s.Fresh 2592900 600 := by
  obtain ⟨s, hist, hlog, hlast, graph, hfile, hdata⟩ := one_value_written
  refine ⟨s, Transition.History.of_guard hist, by rw [hlast]; decide, fun hfresh => ?_⟩
  have hslot := hfresh 8642 ⟨by decide, by decide, by decide⟩
  have hread : s.slot 2592900 8642 = 5 := by
    unfold Graphing.slot
    rw [hfile]
    exact hdata
  rw [hread, hlog] at hslot
  norm_num [periodMean, periodValues, period] at hslot

end Opticon
