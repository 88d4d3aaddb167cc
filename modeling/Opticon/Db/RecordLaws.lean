import Opticon.Db.IndexLaws
import Opticon.Db.Record
import Opticon.Wire.RoundTrip

/-! What a query of the record files gives after any run of saves. -/

namespace Opticon

/-- The bytes a host is encoded in. -/
def hostBytes (h : Host) : List UInt8 :=
  match pktcodecEncodeHost .writer h with
  | .ok (_, io) => io.written
  | .error _ => []

namespace Saved

/-- A record as it stands in a file. -/
def frame (r : Saved) : List UInt8 :=
  be64 0 ++ (be64 (BitVec.ofNat 64 r.time) ++ hostBytes r.host)

def frames (rs : List Saved) : List UInt8 := rs.flatMap frame

/-- The times and offsets of records that stand one after the other from `pos` on. -/
def entries : Nat → List Saved → List (Nat × Nat)
  | _, [] => []
  | pos, r :: rs => (r.time, pos) :: entries (pos + r.frame.length) rs

/-- The records of the day that `when` belongs to. -/
def onDay (log : List Saved) (when : Nat) : List Saved :=
  log.filter fun r => r.time / 86400 = when / 86400

/-- A file is there from its first record on. -/
def file {α : Type} (bytes : List Saved → List α) (rs : List Saved) : Option (List α) :=
  if rs = [] then none else some (bytes rs)

theorem entries_ne_nil {pos : Nat} {rs : List Saved} : entries pos rs = [] ↔ rs = [] := by
  cases rs <;> simp [entries]

@[simp] theorem length_entries (pos : Nat) (rs : List Saved) :
    (entries pos rs).length = rs.length := by
  induction rs generalizing pos with
  | nil => rfl
  | cons r rs ih => simp [entries, ih]

end Saved

open Saved

/-- The files hold the records of the log, in the order in which they were saved. -/
structure Store.Filed (s : Store) : Prop where
  db : ∀ when, s.dir.db (time2date when) = file frames (onDay s.log when)
  idx : ∀ when, s.dir.idx (time2date when) = file (indexWords ∘ entries 0) (onDay s.log when)
  ascending : s.log.Pairwise fun r r' => r.time < r'.time
  last : ∀ r ∈ s.log, s.last.any (r.time ≤ ·)

/-- A query decodes the record `r`: the index gives the offset at which `r` stands. -/
def Store.Answers (s : Store) (when : Nat) (r : Saved) : Prop :=
  ∃ pre post ixf, onDay s.log when = pre ++ r :: post ∧ s.dir.idx (time2date when) = some ixf ∧
    localdbFindIndex ixf when = .ok (some (frames pre).length)

/-- The latest record that is not later than the query, if it is at most 90 seconds older. -/
structure Saved.Due (log : List Saved) (when : Nat) (r : Saved) : Prop where
  mem : r ∈ log
  le : r.time ≤ when
  latest : ∀ r' ∈ log, r'.time ≤ when → r'.time ≤ r.time
  recent : when ≤ r.time + 90

namespace Store.Filed

variable {s : Store} (hs : s.Filed) {when : Nat}

include hs

end Store.Filed

@[simp] theorem ioportReadU64_fileReader (i : BitVec 64) (rest : List UInt8) :
    ioportReadU64 (.fileReader (be64 i ++ rest)) = (i, .fileReader rest) :=
  ioportReadU64_be64 rfl

/-- The bytes at the offset of a record are its own and those of the later ones. -/
theorem Store.Filed.getRecord_answers {s : Store} (hs : s.Filed) {when : Nat} {r : Saved}
    (h : s.Answers when r) :
    ∃ post, ∀ into strbuf, localdbGetRecord s.dir when into strbuf = do
      let (res, sd) ← pktcodecDecodeHost (.fileReader (hostBytes r.host ++ frames post)) into strbuf
      return (res, sd.host) := by
  obtain ⟨pre, post, ixf, hsplit, hidx, hfind⟩ := h
  have hdb : s.dir.db (time2date when) = some (frames (onDay s.log when)) := by
    rw [hs.db, file, if_neg (by simp [hsplit])]
  have hdrop : (frames (onDay s.log when)).drop (frames pre).length =
      be64 0 ++ (be64 (BitVec.ofNat 64 r.time) ++ (hostBytes r.host ++ frames post)) := by
    rw [hsplit]
    simp only [frames, List.flatMap_append, List.drop_left, List.flatMap_cons, frame,
      List.append_assoc]
  refine ⟨post, fun into strbuf => ?_⟩
  simp only [localdbGetRecord, localdbOpenDbfile, localdbOpenIndexfile, openFile, hdb, hidx, hfind,
    Outcome.ok_bind, hdrop, ioportReadU64_fileReader]
  rfl

theorem Store.Filed.returns {s : Store} (hs : s.Filed) {when : Nat} {r : Saved}
    (hr : s.Answers when r) (henc : r.host.Encodable) (uuid : Uuid) (now : Nat)
    (strbuf : List UInt8) :
    ∃ h, localdbGetRecord s.dir when { hostAlloc uuid with lastmodified := now } strbuf =
      .ok (true, h) ∧ List.Forall₂ Meter.RoundTrips r.host.meters h.meters := by
  obtain ⟨post, hpost⟩ := hs.getRecord_answers hr
  have hbytes : hostBytes r.host = r.host.meters.flatMap meterBytes := by
    rw [hostBytes, show Ioport.writer = .port [] from rfl, pktcodecEncodeHost,
      encodeMeters_port henc.values]
    rfl
  have htail : EndsMeters (frames post) := by
    cases post with
    | nil => exact endsMeters_nil
    | cons r' post =>
      simp only [frames, List.flatMap_cons, frame, List.append_assoc]
      exact endsMeters_zero _
  obtain ⟨sd, hdec, hall⟩ := decodeHost_written henc uuid now strbuf htail
    (Ioport.fileReader (hostBytes r.host ++ frames post)) (by rw [hbytes]; rfl)
  exact ⟨sd.host, by rw [hpost, hdec]; rfl, hall⟩

end Opticon
