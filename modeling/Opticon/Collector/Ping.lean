import Mathlib.Algebra.Order.Ring.Unbundled.Rat
import Mathlib.Data.List.Count
import Mathlib.Tactic.Linarith
import Mathlib.Tactic.NormNum
import Mathlib.Tactic.Ring
import Opticon.Lib.Ring
import Opticon.Lib.Transition

/-! The pings of one target, their replies, and what is kept of them (`ping.c`). -/

namespace Opticon

structure Timeval where
  tv_sec : ℤ
  tv_usec : Fin 1000000

/-- Calculates difference in milliseconds between two timevals. -/
def pingDiff (sent now : Timeval) : ℚ :=
  let secdiff := (now.tv_sec - sent.tv_sec).bmod (2 ^ 32)
  let usecdiff : ℤ := now.tv_usec.val - sent.tv_usec.val
  if secdiff < 0 then 0
  else if secdiff = 0 ∧ usecdiff < 0 then 0
  else 1000 * secdiff + usecdiff / 1000

/-- What is kept of a target. `written` is not in the source: it holds every value that was ever
written, of which `data` keeps the last. -/
structure Pingtarget where
  wpos : Fin 32
  sequence : BitVec 32
  data : Fin 32 → ℚ
  tsent : Timeval
  populated : Bool
  written : List ℚ

def lossMark : ℚ := -1

/-- Allocates and initializes a pingtarget. Its `tsent` has whatever was in the memory. -/
def pingtargetCreate (tsent : Timeval) : Pingtarget := ⟨0, 0, fun _ => 0, tsent, false, []⟩

/-- Generates a new sequence number. -/
def pingSequence (counter : BitVec 32) : BitVec 32 × BitVec 32 := (counter, counter + 1)

namespace Pingtarget

/-- Writes a new rtt time to the target. -/
def pingtargetWrite (self : Pingtarget) (rtt : ℚ) : Pingtarget :=
  if ¬ self.populated then
    { self with data := fun _ => rtt, populated := true, written := self.written ++ [rtt] }
  else
    { self with
      data := Function.update self.data self.wpos rtt
      wpos := self.wpos + 1
      written := self.written ++ [rtt] }

/-- Registers a lost reply packet for the target. -/
def pingtargetWriteLoss (self : Pingtarget) : Pingtarget := self.pingtargetWrite lossMark

/-- Calculates 5 minute packet loss percentage from gathered data. -/
def pingtargetGetLoss (self : Pingtarget) : ℚ :=
  let losscount : UInt8 := (List.finRange 32).foldl (fun n i => if self.data i < 0 then n + 1 else n) 0
  100 * (losscount.toNat / 32)

/-- The body of the loop of the sender, for one target. -/
def runSender (tgt : Pingtarget) (seq : BitVec 32) (tsent : Timeval) : Pingtarget :=
  let tgt := if tgt.sequence ≠ 0 then tgt.pingtargetWriteLoss else tgt
  { tgt with sequence := seq, tsent := tsent }

/-- What the receiver does with an echo reply from the target. -/
def runReceiver (tgt : Pingtarget) (in_seq : BitVec 16) (tv : Timeval) : Pingtarget :=
  if tgt.sequence &&& 0xffff = in_seq.setWidth 32 then
    { tgt with sequence := 0 }.pingtargetWrite (pingDiff tgt.tsent tv)
  else tgt

end Pingtarget

/-- A ping that was sent. -/
structure Ping where
  index : ℕ
  sequence : BitVec 32
  tsent : Timeval

/-- A reply carries the low half of the number of the ping. -/
def Ping.Answered (p : Ping) (in_seq : BitVec 16) : Prop := in_seq = p.sequence.setWidth 16

instance (p : Ping) (in_seq : BitVec 16) : Decidable (p.Answered in_seq) :=
  inferInstanceAs (Decidable (_ = _))

inductive PingStep
  /-- The sender comes to the target. -/
  | visit (tsent : Timeval)
  /-- The sender comes to another target. -/
  | elsewhere
  /-- An echo reply comes from the target's address. -/
  | reply (in_seq : BitVec 16) (tv : Timeval)

/-- A value in the ring, with the ping that was outstanding when it was written. -/
structure PingEntry where
  ping : Option Ping
  cause : PingStep
  value : ℚ

/-- A target with its pings: how many were sent, the last one as long as it was neither answered nor
given up, and what was written since the start, when `base` was in the ring. -/
structure Pinging where
  counter : BitVec 32
  target : Pingtarget
  sent : ℕ
  outstanding : Option Ping
  base : List ℚ
  log : List PingEntry

namespace Pinging

/-- The log with all that was written into a target. -/
def logged (s : Pinging) (e : PingStep) (target : Pingtarget) : List PingEntry :=
  s.log ++ (target.written.drop s.target.written.length).map fun v => ⟨s.outstanding, e, v⟩

def pingStep (s : Pinging) : PingStep → Pinging
  | .visit tsent =>
    let (seq, counter) := pingSequence s.counter
    let target := s.target.runSender seq tsent
    { s with
      counter := counter
      target := target
      sent := s.sent + 1
      outstanding := some ⟨s.sent, seq, tsent⟩
      log := s.logged (.visit tsent) target }
  | .elsewhere => { s with counter := (pingSequence s.counter).2 }
  | .reply in_seq tv =>
    let target := s.target.runReceiver in_seq tv
    { s with
      target := target
      outstanding := s.outstanding.filter fun p => ¬ p.Answered in_seq
      log := s.logged (.reply in_seq tv) target }

end Pinging

/-- What the ring can hold. -/
def Measured (v : ℚ) : Prop := v = lossMark ∨ 0 ≤ v

namespace Pingtarget

/-- The ring of the target. -/
def ring (t : Pingtarget) : Ring.Buffer ℚ 32 := ⟨t.wpos, t.data⟩

end Pingtarget

namespace Pinging

/-- The target's field says what is outstanding. A ping whose number is 0 is outstanding as others
are, though the target does not know of it. -/
structure Sound (s : Pinging) : Prop where
  idle : s.outstanding = none → s.target.sequence = 0
  waiting : ∀ p, s.outstanding = some p →
    s.target.sequence = p.sequence ∧ s.target.tsent = p.tsent ∧ p.index < s.sent
  measured : ∀ i, Measured (s.target.data i)

end Pinging

/-- All that can come to a target that has values, in any order. -/
def pings : Transition Pinging PingStep where
  init s := s.Sound ∧ s.target.populated ∧ s.base = s.target.ring.contents ∧ s.log = []
  step s e s' := s' = s.pingStep e

/-- An entry is the round-trip time of a ping, written when a reply to it came, or the mark of its
loss. -/
def PingEntry.Right (e : PingEntry) : Prop :=
  ∃ p, e.ping = some p ∧
    match e.cause with
    | .visit _ => e.value = lossMark
    | .elsewhere => False
    | .reply in_seq tv => p.Answered in_seq ∧ e.value = pingDiff p.tsent tv

namespace Pinging

/-- The values that were in the ring and those that were written since. -/
def values (s : Pinging) : List ℚ := s.base ++ s.log.map PingEntry.value

structure Accounted (s : Pinging) : Prop where
  right : ∀ e ∈ s.log, e.Right
  once : (s.log.map fun e => e.ping.map Ping.index).Nodup
  kept : s.target.ring.contents = s.values.rtake 32
  loss : s.target.pingtargetGetLoss = 100 / 32 * (s.values.rtake 32).count lossMark

/-- No reply with the number 0 comes while nothing is outstanding. -/
def NoStray (s : Pinging) : PingStep → Prop
  | .reply in_seq _ => in_seq = 0 → s.outstanding ≠ none
  | _ => True

end Pinging

/-! ### What is written -/

theorem pingDiff_nonneg (sent now : Timeval) : 0 ≤ pingDiff sent now := by
  have hsent := sent.tv_usec.isLt
  unfold pingDiff
  dsimp only
  generalize (now.tv_sec - sent.tv_sec).bmod (2 ^ 32) = secdiff
  split_ifs with hneg hback
  · exact le_rfl
  · exact le_rfl
  · have hms : (0 : ℤ) ≤ 1000000 * secdiff + (now.tv_usec.val - sent.tv_usec.val) := by omega
    have hq : (0 : ℚ) ≤ 1000000 * secdiff + ((now.tv_usec.val - sent.tv_usec.val : ℤ) : ℚ) := by
      exact_mod_cast hms
    linarith

theorem measured_pingDiff (sent now : Timeval) : Measured (pingDiff sent now) := .inr (pingDiff_nonneg sent now)

theorem Measured.neg_iff {v : ℚ} (hv : Measured v) : v < 0 ↔ v = lossMark := by
  obtain rfl | hv := hv
  · exact iff_of_true (by norm_num [lossMark]) rfl
  · refine iff_of_false (not_lt.mpr hv) fun h => ?_
    rw [h] at hv
    norm_num [lossMark] at hv

theorem low_half (x : BitVec 32) (n : BitVec 16) : x &&& 0xffff = n.setWidth 32 ↔ n = x.setWidth 16 := by
  have hmask : (0xffff : BitVec 32).toNat = 2 ^ 16 - 1 := rfl
  have hn : n.toNat % 2 ^ 32 = n.toNat := Nat.mod_eq_of_lt (n.isLt.trans (by decide))
  rw [BitVec.toNat_inj.symm, BitVec.toNat_and, hmask, Nat.and_two_pow_sub_one_eq_mod, BitVec.toNat_setWidth,
    hn, BitVec.toNat_inj.symm, BitVec.toNat_setWidth]
  exact eq_comm

namespace Pingtarget

variable {t t' : Pingtarget} {v : ℚ} {vs : List ℚ}

/-- Values were added to what is in the ring. -/
structure Adds (t t' : Pingtarget) (vs : List ℚ) : Prop where
  written : t'.written = t.written ++ vs
  ring : t'.ring = vs.foldl Ring.Buffer.push t.ring
  populated : t'.populated

theorem adds_write (hp : t.populated) (v : ℚ) : t.Adds (t.pingtargetWrite v) [v] := by
  unfold pingtargetWrite
  rw [if_neg (not_not.mpr hp)]
  exact ⟨rfl, rfl, hp⟩

theorem adds_none (hp : t.populated) : t.Adds t [] := ⟨(List.append_nil _).symm, rfl, hp⟩

theorem runSender_adds (hp : t.populated) (seq : BitVec 32) (tsent : Timeval) :
    t.Adds (t.runSender seq tsent) (if t.sequence ≠ 0 then [lossMark] else []) := by
  unfold runSender
  dsimp only
  split_ifs
  · obtain ⟨hwritten, hring, hpop⟩ := adds_write hp lossMark
    exact ⟨hwritten, hring, hpop⟩
  · obtain ⟨hwritten, hring, hpop⟩ := adds_none hp
    exact ⟨hwritten, hring, hpop⟩

theorem runReceiver_adds (hp : t.populated) (in_seq : BitVec 16) (tv : Timeval) :
    t.Adds (t.runReceiver in_seq tv)
      (if in_seq = t.sequence.setWidth 16 then [pingDiff t.tsent tv] else []) := by
  unfold runReceiver
  rw [if_congr (low_half _ _) rfl rfl]
  split_ifs
  · obtain ⟨hwritten, hring, hpop⟩ := @adds_write { t with sequence := 0 } hp (pingDiff t.tsent tv)
    exact ⟨hwritten, hring, hpop⟩
  · exact adds_none hp

theorem measured_write (ht : ∀ i, Measured (t.data i)) (hv : Measured v) (i : Fin 32) :
    Measured ((t.pingtargetWrite v).data i) := by
  unfold pingtargetWrite
  split_ifs
  · dsimp only
    by_cases hi : i = t.wpos
    · rw [hi, Function.update_self]
      exact hv
    · rw [Function.update_of_ne hi]
      exact ht i
  · exact hv

theorem measured_runSender (ht : ∀ i, Measured (t.data i)) (seq : BitVec 32) (tsent : Timeval) (i : Fin 32) :
    Measured ((t.runSender seq tsent).data i) := by
  unfold runSender
  dsimp only
  split_ifs
  · exact measured_write ht (.inl rfl) i
  · exact ht i

theorem measured_runReceiver (ht : ∀ i, Measured (t.data i)) (in_seq : BitVec 16) (tv : Timeval) (i : Fin 32) :
    Measured ((t.runReceiver in_seq tv).data i) := by
  unfold runReceiver
  split_ifs
  · exact @measured_write { t with sequence := 0 } _ ht (measured_pingDiff _ _) i
  · exact ht i

theorem pingtargetWrite_sequence : (t.pingtargetWrite v).sequence = t.sequence := by
  unfold pingtargetWrite
  split_ifs <;> rfl

theorem pingtargetWrite_tsent : (t.pingtargetWrite v).tsent = t.tsent := by
  unfold pingtargetWrite
  split_ifs <;> rfl

theorem runReceiver_sequence (in_seq : BitVec 16) (tv : Timeval) :
    (t.runReceiver in_seq tv).sequence = if in_seq = t.sequence.setWidth 16 then 0 else t.sequence := by
  unfold runReceiver
  rw [if_congr (low_half _ _) rfl rfl]
  split_ifs
  · exact pingtargetWrite_sequence
  · rfl

theorem runReceiver_tsent (in_seq : BitVec 16) (tv : Timeval) : (t.runReceiver in_seq tv).tsent = t.tsent := by
  unfold runReceiver
  split_ifs
  · exact pingtargetWrite_tsent
  · rfl

theorem foldl_losses {ι : Type} (p : ι → Prop) [DecidablePred p] (l : List ι) (n : UInt8) :
    l.foldl (fun n i => if p i then n + 1 else n) n = n + UInt8.ofNat (l.countP p) := by
  induction l generalizing n with
  | nil => simp
  | cons i l ih =>
    rw [List.foldl_cons, ih, List.countP_cons]
    by_cases hi : p i
    · simp only [hi, decide_true, if_true, UInt8.ofNat_add]
      rw [UInt8.add_assoc, UInt8.add_comm 1]
      rfl
    · simp [hi]

/-- The loss is what part of the ring are marks of it. -/
theorem pingtargetGetLoss_eq (ht : ∀ i, Measured (t.data i)) :
    t.pingtargetGetLoss = 100 / 32 * t.ring.contents.count lossMark := by
  have hcount : (List.finRange 32).countP (fun i => t.data i < 0) = t.ring.contents.count lossMark := by
    have hdata : List.ofFn t.data = (List.finRange 32).map t.data := List.ofFn_eq_map
    have hperm : (List.ofFn t.data).Perm t.ring.contents :=
      @Ring.Buffer.contents_perm ℚ 32 _ t.ring
    rw [← hperm.count_eq, hdata, List.count, List.countP_map]
    refine List.countP_congr fun i _ => ?_
    simpa using (ht i).neg_iff
  have hle : (List.finRange 32).countP (fun i => t.data i < 0) ≤ 32 :=
    List.countP_le_length.trans_eq List.length_finRange
  unfold pingtargetGetLoss
  dsimp only
  rw [foldl_losses, UInt8.zero_add, UInt8.toNat_ofNat', Nat.mod_eq_of_lt (by omega), hcount]
  ring

end Pingtarget

/-! ### What a step adds to the log -/

namespace Pinging

variable {s : Pinging} {e : PingStep} {es : List PingStep} {t' : Pingtarget} {vs : List ℚ}

theorem logged_eq (ha : s.target.Adds t' vs) :
    s.logged e t' = s.log ++ vs.map fun v => ⟨s.outstanding, e, v⟩ := by
  rw [logged, ha.written, List.drop_left]

theorem sound_step (hs : s.Sound) (e : PingStep) : (s.pingStep e).Sound := by
  cases e with
  | visit tsent =>
    refine ⟨(fun h => by cases h), fun p hp => ?_, Pingtarget.measured_runSender hs.measured _ _⟩
    cases hp
    exact ⟨rfl, rfl, Nat.lt_succ_self _⟩
  | elsewhere => exact ⟨hs.idle, hs.waiting, hs.measured⟩
  | reply in_seq tv =>
    refine ⟨fun hnone => ?_, fun p hp => ?_, Pingtarget.measured_runReceiver hs.measured _ _⟩
    · change (s.target.runReceiver in_seq tv).sequence = 0
      rw [Pingtarget.runReceiver_sequence]
      split_ifs with hmatch
      · rfl
      · cases hout : s.outstanding with
        | none => exact hs.idle hout
        | some p =>
          have hans : p.Answered in_seq := by
            by_contra hno
            have hkept : s.outstanding.filter (fun p => ¬ p.Answered in_seq) = some p := by
              rw [hout]
              simpa using hno
            cases hkept.symm.trans hnone
          rw [Ping.Answered, ← (hs.waiting p hout).1] at hans
          exact absurd hans hmatch
    · obtain ⟨hout, hno⟩ := Option.filter_eq_some_iff.mp hp
      obtain ⟨hseq, htsent, hsent⟩ := hs.waiting p hout
      have hmatch : in_seq ≠ s.target.sequence.setWidth 16 := by
        rw [hseq]
        exact of_decide_eq_true hno
      refine ⟨?_, (Pingtarget.runReceiver_tsent _ _).trans htsent, hsent⟩
      change (s.target.runReceiver in_seq tv).sequence = _
      rw [Pingtarget.runReceiver_sequence, if_neg hmatch]
      exact hseq

/-- What a step adds: a mark when a ping is given up, a time when a reply fits, at most one value. -/
def adds (s : Pinging) : PingStep → List ℚ
  | .visit _ => if s.target.sequence ≠ 0 then [lossMark] else []
  | .elsewhere => []
  | .reply in_seq tv =>
    if in_seq = s.target.sequence.setWidth 16 then [pingDiff s.target.tsent tv] else []

theorem step_adds (hp : s.target.populated) (e : PingStep) :
    s.target.Adds (s.pingStep e).target (s.adds e) ∧
      (s.pingStep e).log = s.log ++ (s.adds e).map fun v => ⟨s.outstanding, e, v⟩ := by
  cases e with
  | visit tsent =>
    have ha := Pingtarget.runSender_adds hp s.counter tsent
    exact ⟨ha, logged_eq ha⟩
  | elsewhere => exact ⟨Pingtarget.adds_none hp, (List.append_nil _).symm⟩
  | reply in_seq tv =>
    have ha := Pingtarget.runReceiver_adds hp in_seq tv
    exact ⟨ha, logged_eq ha⟩

/-- The ring is what becomes of the first one when all values of the log are written into it. -/
structure Kept (s : Pinging) : Prop where
  sound : s.Sound
  populated : s.target.populated
  ring : ∃ r : Ring.Buffer ℚ 32, r.contents = s.base ∧
    s.target.ring = (s.log.map PingEntry.value).foldl Ring.Buffer.push r

theorem kept_step (hs : s.Kept) (e : PingStep) : (s.pingStep e).Kept := by
  obtain ⟨⟨-, hring, hpop⟩, hlog⟩ := step_adds hs.populated e
  obtain ⟨r, hbase, hr⟩ := hs.ring
  refine ⟨sound_step hs.sound e, hpop, r, ?_, ?_⟩
  · rw [hbase]
    cases e <;> rfl
  · rw [hring, hlog, hr, List.map_append, List.foldl_append, List.map_map]
    congr 1
    exact (List.map_id _).symm

theorem pings_kept (hr : pings.Reachable s) : s.Kept := by
  refine hr.induction ?_ ?_
  · rintro s ⟨hs, hpop, hbase, hlog⟩
    refine ⟨hs, hpop, s.target.ring, hbase.symm, ?_⟩
    rw [hlog]
    rfl
  · rintro s e s' hs rfl
    exact kept_step hs e

theorem Kept.contents (hs : s.Kept) : s.target.ring.contents = s.values.rtake 32 := by
  obtain ⟨r, hbase, hr⟩ := hs.ring
  rw [hr, Ring.Buffer.contents_pushAll, hbase, values]

theorem Kept.loss (hs : s.Kept) :
    s.target.pingtargetGetLoss = 100 / 32 * (s.values.rtake 32).count lossMark := by
  rw [Pingtarget.pingtargetGetLoss_eq hs.sound.measured, hs.contents]

/-! ### What the entries belong to -/

/-- Every entry so far belongs to a ping of its own, and none to the one that is outstanding. -/
structure Owned (s : Pinging) : Prop where
  right : ∀ e ∈ s.log, e.Right
  once : (s.log.map fun e => e.ping.map Ping.index).Nodup
  old : ∀ e ∈ s.log, ∀ p, e.ping = some p → p.index < s.sent
  unsettled : ∀ p, s.outstanding = some p → some p.index ∉ s.log.map fun e => e.ping.map Ping.index

theorem Accounted.of_owned (hs : s.Kept) (ho : s.Owned) : s.Accounted :=
  ⟨ho.right, ho.once, hs.contents, hs.loss⟩

theorem adds_cases (s : Pinging) (e : PingStep) : s.adds e = [] ∨ ∃ v, s.adds e = [v] := by
  cases e with
  | visit tsent =>
    simp only [adds]
    split_ifs
    · exact .inr ⟨_, rfl⟩
    · exact .inl rfl
  | elsewhere => exact .inl rfl
  | reply in_seq tv =>
    simp only [adds]
    split_ifs
    · exact .inr ⟨_, rfl⟩
    · exact .inl rfl

theorem adds_right {v : ℚ} (hs : s.Sound) (hg : s.NoStray e) (hv : v ∈ s.adds e) :
    ∃ p, s.outstanding = some p ∧ PingEntry.Right ⟨s.outstanding, e, v⟩ := by
  cases e with
  | visit tsent =>
    simp only [adds] at hv
    split_ifs at hv with hseq
    · cases hout : s.outstanding with
      | none => exact absurd (hs.idle hout) hseq
      | some p => exact ⟨p, rfl, p, rfl, List.mem_singleton.mp hv⟩
    · cases hv
  | elsewhere => cases hv
  | reply in_seq tv =>
    simp only [adds] at hv
    split_ifs at hv with hmatch
    · cases hout : s.outstanding with
      | none =>
        rw [hs.idle hout] at hmatch
        exact absurd hout (hg hmatch)
      | some p =>
        obtain ⟨hseq, htsent, -⟩ := hs.waiting p hout
        rw [hseq] at hmatch
        rw [htsent] at hv
        exact ⟨p, rfl, p, rfl, hmatch, List.mem_singleton.mp hv⟩
    · cases hv

/-- Whatever is in the log behind a step belongs to a ping that was sent before it. -/
theorem Owned.before (ho : s.Owned) (hs : s.Kept) {x : PingEntry} (hx : x ∈ (s.pingStep e).log) {p : Ping}
    (hp : x.ping = some p) : p.index < s.sent := by
  rw [(step_adds hs.populated e).2] at hx
  obtain hx | hx := List.mem_append.mp hx
  · exact ho.old x hx p hp
  · obtain ⟨v, -, rfl⟩ := List.mem_map.mp hx
    exact (hs.sound.waiting p hp).2.2

theorem owned_step (hs : s.Kept) (ho : s.Owned) (hg : s.NoStray e) : (s.pingStep e).Owned := by
  have hlog := (step_adds hs.populated e).2
  have hsent : s.sent ≤ (s.pingStep e).sent := by cases e <;> simp [pingStep]
  refine ⟨fun x hx => ?_, ?_, fun x hx p hp => (ho.before hs hx hp).trans_le hsent, fun p hp => ?_⟩
  · rw [hlog] at hx
    obtain hx | hx := List.mem_append.mp hx
    · exact ho.right x hx
    · obtain ⟨v, hv, rfl⟩ := List.mem_map.mp hx
      obtain ⟨p, -, hright⟩ := adds_right hs.sound hg hv
      exact hright
  · rw [hlog, List.map_append, List.map_map]
    refine List.nodup_append.mpr ⟨ho.once, ?_, fun i hi j hj => ?_⟩
    · obtain hnone | ⟨v, hone⟩ := adds_cases s e
      · rw [hnone]
        exact List.nodup_nil
      · rw [hone]
        exact List.nodup_singleton _
    · obtain ⟨v, hv, rfl⟩ := List.mem_map.mp hj
      obtain ⟨p, hout, -⟩ := adds_right hs.sound hg hv
      rintro rfl
      refine ho.unsettled p hout ?_
      simpa [hout] using hi
  · cases e with
    | visit tsent =>
      cases hp
      intro hmem
      obtain ⟨x, hx, hidx⟩ := List.mem_map.mp hmem
      obtain ⟨q, hq, hval⟩ := Option.map_eq_some_iff.mp hidx
      have hlt := ho.before hs hx hq
      dsimp only at hval
      omega
    | elsewhere => exact ho.unsettled p hp
    | reply in_seq tv =>
      obtain ⟨hout, hno⟩ := Option.filter_eq_some_iff.mp hp
      have hnone : s.adds (.reply in_seq tv) = [] := by
        refine if_neg ?_
        rw [(hs.sound.waiting p hout).1]
        exact of_decide_eq_true hno
      rw [hlog, hnone, List.map_nil, List.append_nil]
      exact ho.unsettled p hout

theorem stray_unaccounted (hs : s.Kept) (hg : ¬ s.NoStray e) : ¬ (s.pingStep e).Accounted := by
  cases e with
  | visit tsent => exact absurd trivial hg
  | elsewhere => exact absurd trivial hg
  | reply in_seq tv =>
    obtain ⟨rfl, hout⟩ := Classical.not_imp.mp hg
    rw [not_not] at hout
    intro ha
    have hadds : s.adds (.reply 0 tv) = [pingDiff s.target.tsent tv] := by
      refine if_pos ?_
      rw [hs.sound.idle hout]
      rfl
    have hlog := (step_adds hs.populated (.reply 0 tv)).2
    rw [hadds] at hlog
    obtain ⟨p, hp, -⟩ := ha.right ⟨s.outstanding, .reply 0 tv, pingDiff s.target.tsent tv⟩
      (hlog ▸ List.mem_append_right _ List.mem_cons_self)
    cases hout.symm.trans hp

end Pinging

namespace Pinging

/-- A target that was just created, with nothing sent to it. -/
def created (counter : BitVec 32) (tsent : Timeval) : Pinging where
  counter := counter
  target := pingtargetCreate tsent
  sent := 0
  outstanding := none
  base := []
  log := []

theorem created_sound (counter : BitVec 32) (tsent : Timeval) (es : List PingStep) :
    (es.foldl pingStep (created counter tsent)).Sound := by
  induction es using List.reverseRecOn with
  | nil => exact ⟨fun _ => rfl, (fun p hp => by cases hp), fun _ => .inr (le_refl (0 : ℚ))⟩
  | append_singleton es e ih =>
    rw [List.foldl_append]
    exact sound_step ih e

/-- Whatever came to a created target, as soon as it has values it can be one that a run starts with. -/
theorem created_init {counter : BitVec 32} {tsent : Timeval} (es : List PingStep)
    (hp : (es.foldl pingStep (created counter tsent)).target.populated) :
    pings.init { es.foldl pingStep (created counter tsent) with
      base := (es.foldl pingStep (created counter tsent)).target.ring.contents
      log := [] } := by
  obtain ⟨hidle, hwaiting, hmeasured⟩ := created_sound counter tsent es
  exact ⟨⟨hidle, hwaiting, hmeasured⟩, hp, rfl, rfl⟩

end Pinging

/-- In every run in which no reply numbered 0 comes while nothing is outstanding, the pings are
accounted for, and behind a further step they are exactly if it is not such a reply. -/
theorem pings_accounted_iff {s : Pinging} {es : List PingStep}
    (h : (pings.guard Pinging.NoStray).History es s) :
    s.Accounted ∧ ∀ e s', pings.step s e s' → (s'.Accounted ↔ s.NoStray e) := by
  have hs := Pinging.pings_kept h.of_guard.reachable
  have ho : s.Owned := by
    refine (h.reachable.induction (I := fun s => s.Kept ∧ s.Owned) ?_ ?_).2
    · rintro s hinit
      refine ⟨Pinging.pings_kept (Transition.Reachable.init hinit), ?_⟩
      obtain ⟨-, -, -, hlog⟩ := hinit
      have hnone : ∀ e, e ∉ s.log := fun e he => by
        rw [hlog] at he
        cases he
      refine ⟨fun e he => absurd he (hnone e), ?_, fun e he => absurd he (hnone e), fun p _ => ?_⟩
      · rw [hlog]
        exact List.nodup_nil
      · rw [hlog]
        exact List.not_mem_nil
    · rintro s e s' ⟨hs, ho⟩ ⟨hg, rfl⟩
      exact ⟨Pinging.kept_step hs e, Pinging.owned_step hs ho hg⟩
  refine ⟨.of_owned hs ho, ?_⟩
  rintro e s' rfl
  constructor
  · intro ha
    by_contra hg
    exact Pinging.stray_unaccounted hs hg ha
  · intro hg
    exact .of_owned (Pinging.kept_step hs e) (Pinging.owned_step hs ho hg)

/-! A target whose next ping has a number that ends in 16 zero bits. -/

def roundPinging : Pinging where
  counter := 0x10000
  target := ⟨0, 0, fun _ => 12, ⟨0, 0⟩, true, [12]⟩
  sent := 0
  outstanding := none
  base := List.replicate 32 12
  log := []

theorem roundPinging_init : pings.init roundPinging := by
  refine ⟨⟨fun _ => rfl, (fun p hp => by cases hp), fun i => .inr ?_⟩, rfl, rfl, rfl⟩
  norm_num [roundPinging]

def roundAnswered : Pinging := (roundPinging.pingStep (.visit ⟨10, 0⟩)).pingStep (.reply 0 ⟨10, 40000⟩)

theorem roundAnswered_history :
    (pings.guard Pinging.NoStray).History [.visit ⟨10, 0⟩, .reply 0 ⟨10, 40000⟩] roundAnswered := by
  have hstart : (pings.guard Pinging.NoStray).History [] roundPinging := .init roundPinging_init
  have hvisit : roundPinging.NoStray (.visit ⟨10, 0⟩) := trivial
  have hsent := hstart.step ⟨hvisit, rfl⟩
  exact hsent.step ⟨(fun _ h => by cases h), rfl⟩

theorem pings_accounted_round : roundAnswered.Accounted ∧
    ∀ e s', pings.step roundAnswered e s' → (s'.Accounted ↔ roundAnswered.NoStray e) :=
  pings_accounted_iff roundAnswered_history

/-- The reply to the ping comes twice: the second one is written too, though nothing is outstanding. -/
theorem duplicate_reply_written :
    (∃ s, pings.History [.visit ⟨10, 0⟩, .reply 0 ⟨10, 40000⟩, .reply 0 ⟨10, 90000⟩] s ∧
      s.log.map PingEntry.value = [40, 90] ∧ s.sent = 1) ∧
      ¬ ∀ es s, pings.History es s → s.Accounted := by
  have hh := roundAnswered_history.of_guard
  have hdup := hh.step (l := .reply 0 ⟨10, 90000⟩) rfl
  have hstray : ¬ roundAnswered.NoStray (.reply 0 ⟨10, 90000⟩) := fun h => h rfl rfl
  refine ⟨⟨_, hdup, ?_, rfl⟩, fun hall => ?_⟩
  · decide +kernel
  · exact Pinging.stray_unaccounted (Pinging.pings_kept hh.reachable) hstray (hall _ _ hdup)

end Opticon
