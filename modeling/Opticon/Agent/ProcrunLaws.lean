import Opticon.Agent.Procrun

/-! The array of processes as a table of slots, and what a round makes of it. -/

namespace Opticon

open Outcome SlotTable

variable {p : Procrun} {es es₁ es₂ : List Tproc} {spare : List (Option Tproc)} {a t : Tproc}
  {pid : ℕ} {now : ℤ}

/-- The slots in use are `es`, and there is room behind them as `arraysz` says. -/
structure Laid (p : Procrun) (es : List Tproc) : Prop where
  array : ∃ spare, p.array = es.map some ++ spare
  count : p.count = es.length
  size : p.arraysz = p.array.length
  room : 0 < p.arraysz

/-! ## Reading and writing -/

theorem readSlot_middle (h : p.array = es₁.map some ++ some a :: spare) :
    readSlot p es₁.length = .ok a := by
  rw [readSlot, h, List.getElem?_append_right (by simp)]
  simp

theorem writeSlot_middle {x : Option Tproc} {front back : List (Option Tproc)}
    (h : p.array = front ++ x :: back) (t : Tproc) :
    writeSlot p front.length t = .ok { p with array := front ++ some t :: back } := by
  rw [writeSlot, if_pos (by simp [h]), h, List.set_append_right _ _ (Nat.le_refl _),
    Nat.sub_self, List.set_cons_zero]

theorem modify_middle {α : Type} (f : α → α) (x : α) (front back : List α) :
    (front ++ x :: back).modify front.length f = front ++ f x :: back := by
  induction front with
  | nil => rfl
  | cons y front ih => simpa [List.modify_cons] using ih

theorem writeBeat_middle {x : Option Tproc} {front back : List (Option Tproc)}
    (h : p.array = front ++ x :: back) :
    ∃ y, writeBeat p front.length = .ok { p with array := front ++ y :: back } := by
  refine ⟨x.map ({ · with beat := p.tiNow }), ?_⟩
  rw [writeBeat, if_pos (by simp [h]), h, modify_middle]

/-- The scan passes slots with other pids. -/
theorem scanSlots_append (h : ∀ b ∈ es₂, b.pid ≠ pid) (fuel : ℕ)
    (harray : p.array = es₁.map some ++ (es₂.map some ++ spare)) :
    scanSlots p pid (es₂.length + fuel) es₁.length =
      scanSlots p pid fuel (es₁ ++ es₂).length := by
  induction es₂ generalizing es₁ with
  | nil => simp
  | cons b es₂ ih =>
    have hread : readSlot p es₁.length = .ok b := readSlot_middle harray
    have hrest : scanSlots p pid (es₂.length + fuel) (es₁ ++ [b]).length =
        scanSlots p pid fuel (es₁ ++ [b] ++ es₂).length :=
      ih (fun c hc => h c (List.mem_cons_of_mem _ hc)) (by simp [harray])
    rw [List.length_append, List.length_singleton, List.append_assoc,
      List.singleton_append] at hrest
    rw [List.length_cons, Nat.add_right_comm, scanSlots, hread, ok_bind,
      if_neg (h b List.mem_cons_self), hrest]

theorem scanSlots_found (h : ∀ b ∈ es₁, b.pid ≠ pid) (ha : a.pid = pid)
    (harray : p.array = (es₁ ++ a :: es₂).map some ++ spare) :
    scanSlots p pid (es₁ ++ a :: es₂).length 0 = .ok (some es₁.length) := by
  have hpass : scanSlots p pid (es₁.length + (a :: es₂).length) [].length =
      scanSlots p pid (a :: es₂).length ([] ++ es₁).length :=
    scanSlots_append h _ (by simpa using harray)
  have hread : readSlot p es₁.length = .ok a := readSlot_middle (by simpa using harray)
  rw [List.length_append]
  refine hpass.trans ?_
  rw [List.nil_append, List.length_cons, scanSlots, hread, ok_bind, if_pos ha]

theorem scanSlots_none (h : ∀ b ∈ es, b.pid ≠ pid) (harray : p.array = es.map some ++ spare) :
    scanSlots p pid es.length 0 = .ok none := by
  have hpass : scanSlots p pid (es.length + 0) [].length =
      scanSlots p pid 0 ([] ++ es).length :=
    scanSlots_append h 0 (by simpa using harray)
  exact hpass

/-! ## One report -/

/-- What a report makes of the slot of its process, or of none. -/
def reported (now : ℤ) (r : ProcReport) : Option Tproc → Tproc
  | none => newTproc now r
  | some t => runTproc now r t

/-- What only the clock and the end of a round change. -/
structure SameClock (p q : Procrun) : Prop where
  start : q.tiStart = p.tiStart
  now : q.tiNow = p.tiNow

theorem SameClock.refl (p : Procrun) : SameClock p p := ⟨rfl, rfl⟩

theorem SameClock.trans {q s : Procrun} (h : SameClock p q) (h' : SameClock q s) :
    SameClock p s := ⟨h'.start.trans h.start, h'.now.trans h.now⟩

/-- A free slot is taken. -/
theorem procrunAlloc_free (harray : p.array = (es₁ ++ a :: es₂).map some ++ spare)
    (hcount : p.count = (es₁ ++ a :: es₂).length) (ha : a.pid = 0)
    (hbefore : ∀ b ∈ es₁, b.pid ≠ 0) :
    ∃ y, procrunAlloc p = .ok (es₁.length,
      { p with array := es₁.map some ++ y :: (es₂.map some ++ spare) }) := by
  have hscan : scanSlots p 0 p.count 0 = .ok (some es₁.length) := by
    rw [hcount]
    exact scanSlots_found hbefore ha harray
  have hmiddle : p.array = es₁.map some ++ some a :: (es₂.map some ++ spare) := by
    simpa using harray
  obtain ⟨y, hbeat⟩ := writeBeat_middle hmiddle
  rw [List.length_map] at hbeat
  refine ⟨y, ?_⟩
  rw [procrunAlloc, hscan, ok_bind]
  simp only [hbeat, ok_bind]

/-- A slot behind those in use is taken, of an array that is doubled when it is full. -/
theorem procrunAlloc_spare (h : Laid p es) (hfull : ∀ b ∈ es, b.pid ≠ 0) :
    ∃ q y spare, procrunAlloc p = .ok (es.length, q) ∧ q.array = es.map some ++ y :: spare ∧
      q.count = es.length + 1 ∧ q.arraysz = q.array.length ∧ 0 < q.arraysz ∧ SameClock p q := by
  obtain ⟨⟨spare, harray⟩, hcount, hsize, hroom⟩ := h
  have hscan : scanSlots p 0 p.count 0 = .ok none := by
    rw [hcount]
    exact scanSlots_none hfull harray
  rw [procrunAlloc, hscan, ok_bind]
  by_cases hspare : p.count < p.arraysz
  · simp only [if_pos hspare]
    cases spare with
    | nil =>
      rw [List.append_nil] at harray
      rw [hsize, harray, List.length_map] at hspare
      omega
    | cons x spare =>
      obtain ⟨y, hbeat⟩ := writeBeat_middle harray
      rw [List.length_map, ← hcount] at hbeat
      rw [hbeat, ok_bind]
      refine ⟨{ p with array := es.map some ++ y :: spare, count := p.count + 1 }, y, spare,
        by rw [hcount], rfl, congrArg (· + 1) hcount, ?_, hroom, rfl, rfl⟩
      simp only [hsize, harray, List.length_append, List.length_cons]
  · simp only [if_neg hspare]
    have hgrow : growArray p (p.arraysz * 2) =
        es.map some ++ none :: List.replicate (p.arraysz - 1) none := by
      have hlen : es.length + spare.length = p.arraysz := by
        rw [hsize, harray, List.length_append, List.length_map]
      have hnil : spare = [] := List.length_eq_zero_iff.mp (by omega)
      rw [growArray, List.take_of_length_le (by omega), ← hsize,
        show p.arraysz * 2 - p.arraysz = p.arraysz - 1 + 1 by omega, List.replicate_succ,
        harray, hnil, List.append_nil]
    obtain ⟨y, hbeat⟩ := writeBeat_middle (p := { p with
      arraysz := p.arraysz * 2, array := growArray p (p.arraysz * 2) }) hgrow
    rw [List.length_map, ← hcount] at hbeat
    rw [hbeat, ok_bind]
    refine ⟨{ p with
        arraysz := p.arraysz * 2
        array := es.map some ++ y :: List.replicate (p.arraysz - 1) none
        count := p.count + 1 }, y, _, by rw [hcount], rfl, congrArg (· + 1) hcount, ?_, ?_,
      rfl, rfl⟩
    · have := congrArg List.length hgrow
      simp only [growArray, List.length_append, List.length_take, List.length_replicate,
        List.length_map, List.length_cons] at this ⊢
      omega
    · exact Nat.mul_pos hroom (by decide)

theorem procrunSetproc_laid (h : Laid p es) (r : ProcReport) :
    ∃ q, procrunSetproc p r = .ok q ∧
      Laid q (put Tproc.pid 0 r.pid (reported p.tiNow r) es) ∧ SameClock p q := by
  by_cases hfound : r.pid ∈ es.map Tproc.pid
  · obtain ⟨es₁, a, es₂, rfl, ha, hbefore⟩ := split_at_key hfound
    obtain ⟨⟨spare, harray⟩, hcount, hsize, hroom⟩ := h
    have hmiddle : p.array = es₁.map some ++ some a :: (es₂.map some ++ spare) := by
      simpa using harray
    have hfind : procrunFindproc p r.pid = .ok (some es₁.length) := by
      rw [procrunFindproc, hcount]
      exact scanSlots_found hbefore ha harray
    have hwrite := writeSlot_middle hmiddle (runTproc p.tiNow r a)
    rw [List.length_map] at hwrite
    rw [put_found ha hbefore, procrunSetproc, hfind, ok_bind]
    simp only [readSlot_middle hmiddle, ok_bind, hwrite]
    refine ⟨_, rfl, ⟨⟨spare, by simp [reported]⟩, by simp [hcount], ?_, hroom⟩, rfl, rfl⟩
    simp [hsize, hmiddle]
  · have hnone : procrunFindproc p r.pid = .ok none := by
      obtain ⟨spare, harray⟩ := h.array
      rw [procrunFindproc, h.count]
      exact scanSlots_none (fun b hb hbr => hfound (List.mem_map.mpr ⟨b, hb, hbr⟩)) harray
    rw [procrunSetproc, hnone, ok_bind]
    by_cases hfree : 0 ∈ es.map Tproc.pid
    · obtain ⟨es₁, a, es₂, rfl, ha, hbefore⟩ := split_at_key hfree
      obtain ⟨⟨spare, harray⟩, hcount, hsize, hroom⟩ := h
      obtain ⟨y, halloc⟩ := procrunAlloc_free harray hcount ha hbefore
      have hwrite := writeSlot_middle (p := { p with
        array := es₁.map some ++ y :: (es₂.map some ++ spare) }) rfl (newTproc p.tiNow r)
      rw [List.length_map] at hwrite
      rw [put_free hfound ha hbefore]
      simp only [halloc, ok_bind, hwrite]
      refine ⟨_, rfl, ⟨⟨spare, by simp [reported]⟩, by simp [hcount], ?_, hroom⟩, rfl, rfl⟩
      simp [hsize, harray]
    · have hfull : ∀ b ∈ es, b.pid ≠ 0 := fun b hb hb0 => hfree (List.mem_map.mpr ⟨b, hb, hb0⟩)
      obtain ⟨q, y, spare, halloc, hq, hcount, hsize, hroom, hclock⟩ := procrunAlloc_spare h hfull
      have hwrite := writeSlot_middle hq (newTproc q.tiNow r)
      rw [List.length_map] at hwrite
      rw [put_new hfound hfree]
      simp only [halloc, ok_bind, hwrite]
      refine ⟨_, rfl, ⟨⟨spare, by simp [reported, hclock.now]⟩, by simp [hcount], ?_, hroom⟩,
        hclock.start, hclock.now⟩
      simp [hsize, hq]

/-! ## A round -/

/-- The table after the reports of a round. -/
def sampled (now : ℤ) (reports : List ProcReport) (es : List Tproc) : List Tproc :=
  putAll Tproc.pid 0 ProcReport.pid (reported now) reports es

theorem reported_keyed (now : ℤ) : Keyed Tproc.pid ProcReport.pid (reported now) :=
  ⟨fun _ => rfl, fun _ _ => rfl⟩

theorem reports_laid (h : Laid p es) (reports : List ProcReport) :
    ∃ q, reports.foldlM procrunSetproc p = .ok q ∧ Laid q (sampled p.tiNow reports es) ∧
      SameClock p q := by
  induction reports generalizing p es with
  | nil => exact ⟨p, rfl, h, SameClock.refl p⟩
  | cons r reports ih =>
    obtain ⟨q, hq, hlaid, hclock⟩ := procrunSetproc_laid h r
    obtain ⟨s, hs, hlaid, hclock'⟩ := ih hlaid
    rw [hclock.now] at hlaid
    refine ⟨s, ?_, hlaid, hclock.trans hclock'⟩
    rw [List.foldlM_cons, hq, ok_bind, hs]

/-- A loop that changes its slot and the sum only is a map over the slots in use. -/
theorem eachSlot_map {body : Procrun → Tproc → Procrun × Tproc} {g : Tproc → Tproc}
    (hframe : ∀ q t, ∃ n, (body q t).1 = { q with totalTicks := n })
    (hslot : ∀ q t, q.tiNow = now → (body q t).2 = g t) (hnow : p.tiNow = now)
    (harray : p.array = es₁.map some ++ (es.map some ++ spare)) :
    ∃ n, eachSlot body es.length es₁.length p = .ok { p with
      array := es₁.map some ++ ((es.map g).map some ++ spare), totalTicks := n } := by
  induction es generalizing p es₁ with
  | nil =>
    refine ⟨p.totalTicks, ?_⟩
    rw [List.map_nil, ← harray]
    rfl
  | cons t es ih =>
    obtain ⟨n, hn⟩ := hframe p t
    have hmiddle : p.array = es₁.map some ++ some t :: (es.map some ++ spare) := harray
    have hread : readSlot p es₁.length = .ok t := readSlot_middle hmiddle
    have hwrite := writeSlot_middle (p := { p with totalTicks := n }) hmiddle (g t)
    rw [List.length_map] at hwrite
    have hnext : es₁.map some ++ some (g t) :: (es.map some ++ spare) =
        (es₁ ++ [g t]).map some ++ (es.map some ++ spare) := by simp
    obtain ⟨m, hm⟩ := ih (p := { p with
      array := es₁.map some ++ some (g t) :: (es.map some ++ spare), totalTicks := n }) hnow hnext
    refine ⟨m, ?_⟩
    rw [List.length_append, List.length_singleton] at hm
    rw [List.length_cons, eachSlot, hread, ok_bind, hn, hslot p t hnow, hwrite, ok_bind, hm]
    simp

/-- What a loop makes of the slots in use. -/
theorem Laid.eachSlot (h : Laid p es) {body : Procrun → Tproc → Procrun × Tproc}
    {g : Tproc → Tproc} (hframe : ∀ q t, ∃ n, (body q t).1 = { q with totalTicks := n })
    (hslot : ∀ q t, q.tiNow = p.tiNow → (body q t).2 = g t) :
    ∃ q, eachSlot body p.count 0 p = .ok q ∧ Laid q (es.map g) ∧ SameClock p q := by
  obtain ⟨⟨spare, harray⟩, hcount, hsize, hroom⟩ := h
  have hfront : p.array = ([] : List Tproc).map some ++ (es.map some ++ spare) := harray
  obtain ⟨n, hn⟩ := eachSlot_map hframe hslot rfl hfront
  rw [← hcount, List.length_nil] at hn
  refine ⟨_, hn, ⟨⟨spare, by simp⟩, by simp [hcount], ?_, hroom⟩, rfl, rfl⟩
  simp [hsize, harray]

/-- The percentage is noted of a process. -/
def calced (tdelta : ℕ) (t : Tproc) : Tproc :=
  if t.pid ≠ 0 then { t with pcpu := 10000 * ustime tdelta t / tdelta } else t

/-- A slot for the next round. -/
def restarted (now : ℤ) (t : Tproc) : Tproc :=
  if t.pid ≠ 0 then
    if 10 < now - t.beat then { t with pid := 0 }
    else
      { t with
        utimeStart := t.utimeStart + t.utimeRun
        stimeStart := t.stimeStart + t.stimeRun
        utimeRun := 0
        stimeRun := 0
        pcpu := 0
        beat := now }
  else t

@[simp] theorem calced_pid (tdelta : ℕ) (t : Tproc) : (calced tdelta t).pid = t.pid := by
  rw [calced]
  split <;> rfl

@[simp] theorem calced_beat (tdelta : ℕ) (t : Tproc) : (calced tdelta t).beat = t.beat := by
  rw [calced]
  split <;> rfl

theorem procrunCalc_laid (h : Laid p es) :
    ∃ q, procrunCalc p = .ok q ∧ Laid q (es.map (calced (tickDelta p))) ∧ SameClock p q := by
  have hzero : Laid { p with totalTicks := 0 } es := ⟨h.array, h.count, h.size, h.room⟩
  have hframe : ∀ q t, ∃ n, (calcSlot (tickDelta p) q t).1 = { q with totalTicks := n } :=
    fun q t => by
      rw [calcSlot]
      split
      · exact ⟨_, rfl⟩
      · exact ⟨q.totalTicks, rfl⟩
  have hslot : ∀ q t, (calcSlot (tickDelta p) q t).2 = calced (tickDelta p) t := fun q t => by
    rw [calcSlot, calced]
    split <;> rfl
  obtain ⟨q, hq, hlaid, hclock⟩ := hzero.eachSlot hframe fun q t _ => hslot q t
  rw [procrunCalc]
  simp only [hq, ok_bind]
  exact ⟨_, rfl, ⟨hlaid.array, hlaid.count, hlaid.size, hlaid.room⟩, hclock.start, hclock.now⟩

theorem procrunNewround_laid (h : Laid p es) :
    ∃ q, procrunNewround p = .ok q ∧ Laid q (es.map (restarted p.tiNow)) ∧ q.tiStart = p.tiNow := by
  have hframe : ∀ q t, ∃ n, (newroundSlot q t).1 = { q with totalTicks := n } := fun q t =>
    ⟨q.totalTicks, by
      rw [newroundSlot]
      split
      · split <;> rfl
      · rfl⟩
  have hslot : ∀ q t, q.tiNow = p.tiNow → (newroundSlot q t).2 = restarted p.tiNow t :=
    fun q t hnow => by
      rw [newroundSlot, restarted, hnow]
      split
      · split <;> rfl
      · rfl
  obtain ⟨q, hq, hlaid, hclock⟩ := h.eachSlot hframe hslot
  rw [procrunNewround, hq, ok_bind]
  exact ⟨_, rfl, ⟨hlaid.array, hlaid.count, hlaid.size, hlaid.room⟩, hclock.now⟩

theorem sampleRound_laid (h : Laid p es) (r : ProcRound) :
    ∃ q, sampleRound p r = .ok q ∧ SameClock (procrunInitsample p r.time) q ∧
      Laid q ((sampled r.time r.reports es).map
        (calced (tickDelta (procrunInitsample p r.time)))) := by
  have hstart : Laid (procrunInitsample p r.time) es := ⟨h.array, h.count, h.size, h.room⟩
  obtain ⟨q, hq, hlaid, hclock⟩ := reports_laid hstart r.reports
  obtain ⟨s, hs, hlaid', hclock'⟩ := procrunCalc_laid hlaid
  have hdelta : tickDelta q = tickDelta (procrunInitsample p r.time) := by
    rw [tickDelta, tickDelta, hclock.start, hclock.now]
  rw [hdelta] at hlaid'
  refine ⟨s, ?_, hclock.trans hclock', hlaid'⟩
  rw [sampleRound, hq, ok_bind, hs]

end Opticon
