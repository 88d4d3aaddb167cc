import Mathlib.Data.List.GetD
import Mathlib.Data.List.Induction
import Opticon.Lib.Outcome
import Opticon.Meter.Data

/-! The log of a host (`db_local.c`). -/

namespace Opticon

structure Hostlogrecord where
  when : Nat
  subsystem : List UInt8
  message : List UInt8
  deriving DecidableEq

/-- A record of zeros. -/
def Hostlogrecord.zero : Hostlogrecord := ⟨0, [], []⟩

def HOSTLOGSZ : Nat := 63

structure Hostlogdata where
  writepos : Nat
  records : List Hostlogrecord
  length_records : records.length = HOSTLOGSZ

/-- A file that is not there is made. -/
def localdbOpenLog (file : Option Hostlogdata) : Hostlogdata :=
  file.getD
    { writepos := 0
      records := List.replicate HOSTLOGSZ .zero
      length_records := List.length_replicate }

/-- A call of `localdb_write_log`, and when it is made. -/
structure LogEntry where
  now : Nat
  subsystem : List UInt8
  msg : List UInt8

/-- The texts as far as there is room. -/
def LogEntry.record (e : LogEntry) : Hostlogrecord :=
  ⟨e.now, (e.subsystem.take 11).takeWhile (· != 0), (e.msg.take 239).takeWhile (· != 0)⟩

def localdbWriteLog (file : Option Hostlogdata) (e : LogEntry) : Except Fault Hostlogdata :=
  let log := localdbOpenLog file
  let wpos := log.writepos
  if wpos < HOSTLOGSZ then .ok
    { writepos := (wpos + 1) % 63
      records := log.records.set wpos e.record
      length_records := (List.length_set ..).trans log.length_records }
  else .error .outOfBounds

/-- What is at a position of the records; `behind` is the memory behind the last one. -/
def Hostlogdata.at (log : Hostlogdata) (behind : Hostlogrecord) (rpos : Nat) : Hostlogrecord :=
  log.records.getD rpos behind

/-- The positions that are read, from `rpos` on, and the records that have a time. -/
def getLogLoop (log : Hostlogdata) (behind : Hostlogrecord) :
    Nat → Nat → Except Fault (List Nat × List Hostlogrecord)
  | 0, _ => .error .endlessLoop
  | n + 1, rpos =>
    if rpos ≠ log.writepos then do
      let irec := log.at behind rpos
      let (ps, res) ← getLogLoop log behind n (if rpos ≠ 0 then rpos - 1 else 63)
      return (rpos :: ps, if irec.when ≠ 0 then irec :: res else res)
    else .ok ([], [])

/-- There are 64 positions to go through. -/
def localdbGetLog (file : Option Hostlogdata) (behind : Hostlogrecord) :
    Except Fault (List Nat × List Hostlogrecord) :=
  let log := localdbOpenLog file
  let rpos := if log.writepos ≠ 0 then log.writepos - 1 else 63
  let rpos := if 63 < rpos then 63 else rpos
  getLogLoop log behind 65 rpos

/-- One call after the other, for a host that has no log in the beginning. -/
def localdbWriteLogs (entries : List LogEntry) : Except Fault (Option Hostlogdata) :=
  entries.foldlM (fun file e => do return some (← localdbWriteLog file e)) none

/-- The log is written and read inside of its records, and what is read are the last 62 messages or all
of them, the newest one first. -/
def LogRight (behind : Hostlogrecord) (entries : List LogEntry) : Prop :=
  ∃ file ps res, localdbWriteLogs entries = .ok file ∧ localdbGetLog file behind = .ok (ps, res) ∧
    (∀ p ∈ ps, p < HOSTLOGSZ) ∧ res = (entries.reverse.take 62).map LogEntry.record

variable {log : Hostlogdata} {behind : Hostlogrecord} {entries : List LogEntry} {e : LogEntry}
  {file : Option Hostlogdata} {n rpos : Nat}

/-! ### Reading -/

/-- The records at some positions that have a time. -/
def Hostlogdata.timed (log : Hostlogdata) (behind : Hostlogrecord) (ps : List Nat) : List Hostlogrecord :=
  (ps.map (log.at behind)).filter fun irec => irec.when ≠ 0

/-- The positions from `r` down, `n` of them. -/
def downFrom (r n : Nat) : List Nat := (List.range n).map fun i => r - i

theorem downFrom_succ (r n : Nat) : downFrom r (n + 1) = r :: downFrom (r - 1) n := by
  unfold downFrom
  rw [List.range_succ_eq_map, List.map_cons, List.map_map, Nat.sub_zero]
  congr 1
  refine List.map_congr_left fun i _ => ?_
  dsimp only [Function.comp]
  omega

theorem getLogLoop_step (hne : rpos ≠ log.writepos) {ps : List Nat}
    (hrest : getLogLoop log behind n (if rpos ≠ 0 then rpos - 1 else 63) = .ok (ps, log.timed behind ps)) :
    getLogLoop log behind (n + 1) rpos = .ok (rpos :: ps, log.timed behind (rpos :: ps)) := by
  unfold getLogLoop
  rw [if_pos hne, hrest, Outcome.ok_bind]
  unfold Hostlogdata.timed
  rw [List.map_cons, List.filter_cons]
  simp only [decide_eq_true_eq]
  rfl

/-- Above the position of the next write the loop goes down to it. -/
theorem getLogLoop_above (hle : log.writepos ≤ rpos) (hn : rpos - log.writepos < n) :
    getLogLoop log behind n rpos = .ok (downFrom rpos (rpos - log.writepos),
      log.timed behind (downFrom rpos (rpos - log.writepos))) := by
  induction n generalizing rpos with
  | zero => omega
  | succ n ih =>
    obtain heq | hlt := Nat.eq_or_lt_of_le hle
    · rw [← heq, Nat.sub_self]
      unfold getLogLoop
      rw [if_neg (not_not.mpr rfl)]
      rfl
    · obtain ⟨k, hk⟩ : ∃ k, rpos - log.writepos = k + 1 := ⟨rpos - log.writepos - 1, by omega⟩
      have hrest := @ih (rpos - 1) (by omega) (by omega)
      rw [show rpos - 1 - log.writepos = k by omega] at hrest
      rw [hk, downFrom_succ]
      refine getLogLoop_step (Nat.ne_of_gt hlt) ?_
      rwa [if_pos (by omega)]

/-- Below it the loop goes down to the first record and on from behind the last one. -/
theorem getLogLoop_below (hlt : rpos < log.writepos) (hw : log.writepos ≤ 63)
    (hn : rpos + 1 + (63 - log.writepos) < n) :
    getLogLoop log behind n rpos =
      .ok (downFrom rpos (rpos + 1) ++ downFrom 63 (63 - log.writepos),
        log.timed behind (downFrom rpos (rpos + 1) ++ downFrom 63 (63 - log.writepos))) := by
  induction rpos generalizing n with
  | zero =>
    obtain ⟨n, rfl⟩ : ∃ k, n = k + 1 := ⟨n - 1, by omega⟩
    refine getLogLoop_step (Nat.ne_of_lt hlt) ?_
    rw [if_neg (not_not.mpr rfl)]
    exact getLogLoop_above hw (by omega)
  | succ rpos ih =>
    obtain ⟨n, rfl⟩ : ∃ k, n = k + 1 := ⟨n - 1, by omega⟩
    rw [downFrom_succ, List.cons_append]
    refine getLogLoop_step (Nat.ne_of_lt hlt) ?_
    rw [if_pos (Nat.succ_ne_zero rpos)]
    exact ih (Nat.lt_of_succ_lt hlt) (by omega)

/-- The positions that are read while the next write goes to `w`. -/
def logPositions (w : Nat) : List Nat := downFrom (w - 1) w ++ downFrom 63 (63 - w)

theorem localdbGetLog_eq (hw : (localdbOpenLog file).writepos < HOSTLOGSZ) :
    localdbGetLog file behind = .ok (logPositions (localdbOpenLog file).writepos,
      (localdbOpenLog file).timed behind (logPositions (localdbOpenLog file).writepos)) := by
  unfold localdbGetLog HOSTLOGSZ at *
  dsimp only
  generalize localdbOpenLog file = log at *
  obtain hzero | hpos := Nat.eq_zero_or_pos log.writepos
  · rw [if_neg (not_not.mpr hzero), if_neg (by decide)]
    have hrun := @getLogLoop_above log behind 65 63 (by omega) (by omega)
    rw [hrun, hzero]
    rfl
  · have hfirst : (if log.writepos ≠ 0 then log.writepos - 1 else 63) = log.writepos - 1 :=
      if_pos (Nat.ne_of_gt hpos)
    rw [hfirst, if_neg (by omega)]
    have hrun := @getLogLoop_below log behind 65 (log.writepos - 1) (by omega) (by omega) (by omega)
    rw [hrun, Nat.sub_add_cancel hpos]
    rfl

/-! ### Writing -/

/-- The positions of the records, from that of the last one written back to that of the next one. -/
def backFrom (w j : Nat) : Nat := (w + (62 - j)) % 63

/-- The newest messages stand in front of the next position. -/
structure Hostlogdata.Keeps (log : Hostlogdata) (entries : List LogEntry) : Prop where
  writepos : log.writepos < HOSTLOGSZ
  newest : ∀ j < HOSTLOGSZ, log.records.getD (backFrom log.writepos j) .zero =
    (entries.reverse.map LogEntry.record).getD j .zero

theorem keeps_nil : (localdbOpenLog none).Keeps [] := by
  refine ⟨by decide, fun j _ => ?_⟩
  have hzero (i : Nat) : (List.replicate HOSTLOGSZ Hostlogrecord.zero).getD i .zero = .zero := by
    rw [List.getD_eq_getElem?_getD, List.getElem?_replicate]
    split_ifs <;> rfl
  exact hzero _

theorem Hostlogdata.Keeps.write (hk : (localdbOpenLog file).Keeps entries) (e : LogEntry) :
    ∃ log, localdbWriteLog file e = .ok log ∧ log.Keeps (entries ++ [e]) := by
  have hw := hk.writepos
  have hlen := (localdbOpenLog file).length_records
  unfold localdbWriteLog
  dsimp only
  rw [if_pos hw]
  refine ⟨_, rfl, Nat.mod_lt _ (by decide), fun j hj => ?_⟩
  have hnewest := hk.newest
  unfold HOSTLOGSZ at *
  dsimp only
  rw [List.reverse_append, List.reverse_singleton, List.singleton_append, List.map_cons]
  generalize (localdbOpenLog file).writepos = w at *
  generalize (localdbOpenLog file).records = records at *
  rw [List.getD_eq_getElem?_getD, List.getElem?_set]
  cases j with
  | zero =>
    have hat : backFrom ((w + 1) % 63) 0 = w := by
      unfold backFrom
      omega
    rw [hat, if_pos rfl, if_pos (hlen ▸ hw)]
    rfl
  | succ j =>
    have hat : backFrom ((w + 1) % 63) (j + 1) = backFrom w j := by
      unfold backFrom
      omega
    have hne : w ≠ backFrom w j := by
      unfold backFrom
      omega
    rw [hat, if_neg hne, ← List.getD_eq_getElem?_getD, hnewest j (by omega)]
    rfl

/-- Every call writes its message. -/
theorem localdbWriteLogs_keeps (entries : List LogEntry) :
    ∃ file, localdbWriteLogs entries = .ok file ∧ (localdbOpenLog file).Keeps entries := by
  induction entries using List.reverseRecOn with
  | nil => exact ⟨none, rfl, keeps_nil⟩
  | append_singleton entries e ih =>
    obtain ⟨file, hrun, hk⟩ := ih
    obtain ⟨log, hwrite, hk'⟩ := hk.write e
    refine ⟨some log, ?_, hk'⟩
    unfold localdbWriteLogs at hrun ⊢
    rw [List.foldlM_append, hrun, Outcome.ok_bind, List.foldlM_cons, hwrite]
    rfl

/-- Whatever was written, the record behind the last one is read. -/
theorem log_read_behind (behind : Hostlogrecord) (entries : List LogEntry) :
    ¬ LogRight behind entries := by
  rintro ⟨file, ps, res, hwrite, hread, hps, -⟩
  obtain ⟨file', hwrite', hk⟩ := localdbWriteLogs_keeps entries
  cases hwrite.symm.trans hwrite'
  rw [localdbGetLog_eq hk.writepos] at hread
  cases hread
  have hw := hk.writepos
  unfold HOSTLOGSZ at *
  refine absurd (hps 63 (List.mem_append_right _ ?_)) (by decide)
  unfold downFrom
  exact List.mem_map.mpr ⟨0, List.mem_range.mpr (by omega), rfl⟩

/-- An empty log, with zeros behind it. -/
theorem empty_log_read_behind : ¬ LogRight .zero [] := by
  rintro ⟨file, ps, res, hwrite, hread, hps, -⟩
  cases hwrite
  cases hread
  exact absurd (hps 63 List.mem_cons_self) (by decide)

theorem filter_timed {l : List Hostlogrecord} (hl : ∀ irec ∈ l, irec.when ≠ 0) (m : Nat) :
    (((List.range m).map fun j => l.getD j .zero).filter fun irec => irec.when ≠ 0) = l.take m := by
  induction m generalizing l with
  | zero => rfl
  | succ m ih =>
    rw [List.range_succ_eq_map, List.map_cons, List.map_map]
    cases l with
    | nil =>
      refine List.filter_eq_nil_iff.mpr fun irec hirec => ?_
      obtain rfl | hirec := List.mem_cons.mp hirec
      · simp [Hostlogrecord.zero]
      · obtain ⟨j, -, rfl⟩ := List.mem_map.mp hirec
        simp [Hostlogrecord.zero]
    | cons irec l =>
      have hrest := ih fun x hx => hl x (List.mem_cons_of_mem irec hx)
      rw [List.filter_cons_of_pos (by simpa using hl irec List.mem_cons_self), List.take_succ_cons]
      exact congrArg _ hrest

theorem timed_append (ps qs : List Nat) :
    log.timed behind (ps ++ qs) = log.timed behind ps ++ log.timed behind qs := by
  unfold Hostlogdata.timed
  rw [List.map_append, List.filter_append]

/-- But for the position behind the records they are gone through from the newest one on. -/
theorem backFrom_positions {w : Nat} (hw : w < HOSTLOGSZ) :
    downFrom (w - 1) w ++ downFrom 62 (62 - w) = (List.range 62).map (backFrom w) := by
  unfold HOSTLOGSZ at hw
  have hrange : List.range 62 = List.range w ++ (List.range (62 - w)).map (w + ·) := by
    rw [← List.range_add]
    congr 1
    omega
  rw [hrange, List.map_append, List.map_map]
  unfold downFrom
  congr 1
  · refine List.map_congr_left fun j hj => ?_
    rw [List.mem_range] at hj
    unfold backFrom
    omega
  · refine List.map_congr_left fun j hj => ?_
    rw [List.mem_range] at hj
    unfold backFrom
    dsimp only [Function.comp]
    omega

theorem Hostlogdata.Keeps.timed (hk : log.Keeps entries) (hbehind : behind.when = 0)
    (htimes : ∀ e ∈ entries, e.now ≠ 0) :
    log.timed behind (logPositions log.writepos) = (entries.reverse.take 62).map LogEntry.record := by
  have hw := hk.writepos
  have hskip : downFrom 63 (63 - log.writepos) = 63 :: downFrom 62 (62 - log.writepos) := by
    unfold HOSTLOGSZ at hw
    rw [show 63 - log.writepos = 62 - log.writepos + 1 by omega, downFrom_succ]
  have hout : log.at behind 63 = behind := by
    have hlen : log.records.length ≤ 63 := log.length_records.le
    exact List.getD_eq_default _ _ hlen
  have hcons (ps : List Nat) : log.timed behind (63 :: ps) = log.timed behind ps := by
    unfold Hostlogdata.timed
    rw [List.map_cons, List.filter_cons_of_neg (by simp [hout, hbehind])]
  have hsame : ((List.range 62).map (backFrom log.writepos)).map (log.at behind) =
      (List.range 62).map fun j => (entries.reverse.map LogEntry.record).getD j .zero := by
    rw [List.map_map]
    refine List.map_congr_left fun j hj => ?_
    have hlt : backFrom log.writepos j < log.records.length := by
      rw [log.length_records]
      exact Nat.mod_lt _ (by decide)
    have hj' := List.mem_range.mp hj
    rw [← hk.newest j (by unfold HOSTLOGSZ; omega)]
    dsimp only [Function.comp, Hostlogdata.at]
    rw [List.getD_eq_getElem _ _ hlt, List.getD_eq_getElem _ _ hlt]
  unfold logPositions
  rw [hskip, timed_append, hcons, ← timed_append, backFrom_positions hw, Hostlogdata.timed, hsame,
    filter_timed, ← List.map_take]
  intro irec hirec
  obtain ⟨e, he, rfl⟩ := List.mem_map.mp hirec
  exact htimes e (List.mem_reverse.mp he)

/-- What is read are the newest messages all the same, as long as the memory behind the records is
zero. -/
theorem log_messages (hbehind : behind.when = 0) (htimes : ∀ e ∈ entries, e.now ≠ 0) :
    ∃ file ps, localdbWriteLogs entries = .ok file ∧
      localdbGetLog file behind = .ok (ps, (entries.reverse.take 62).map LogEntry.record) := by
  obtain ⟨file, hwrite, hk⟩ := localdbWriteLogs_keeps entries
  have hread := @localdbGetLog_eq behind file hk.writepos
  rw [hk.timed hbehind htimes] at hread
  exact ⟨file, _, hwrite, hread⟩

end Opticon
