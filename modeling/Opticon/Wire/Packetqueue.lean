import Opticon.Lib.Transition
import Mathlib.Data.Nat.ModEq

/-! The queue between the thread that receives packets and the one that handles them
(`packetqueue.c`). -/

universe u

namespace Opticon

/-- A received packet with its address, and its size, which is known to the queue later. -/
@[ext] structure Pktbuf (α : Type u) where
  pkt : α
  sz : Nat
  deriving DecidableEq

structure Packetqueue (α : Type u) where
  buffer : List (Pktbuf α)
  sz : Nat
  rpos : Nat
  wpos : Nat
  deriving DecidableEq

variable {α : Type u}

def packetqueueCreate (zero : α) (qcount : Nat) : Packetqueue α :=
  ⟨List.replicate qcount ⟨zero, 0⟩, qcount, 0, 0⟩

namespace Packetqueue

def next (self : Packetqueue α) (pos : Nat) : Nat :=
  if self.sz ≤ pos + 1 then pos + 1 - self.sz else pos + 1

/-- The transport fills the slot at the write cursor, without the lock. -/
def recv (self : Packetqueue α) (pkt : α) : Option (Packetqueue α) :=
  if self.wpos < self.buffer.length then
    some { self with buffer := self.buffer.modify self.wpos fun b => { b with pkt := pkt } }
  else none

/-- The section of the producer under the lock. -/
def publish (self : Packetqueue α) (sz : Nat) : Packetqueue α :=
  { self with
    buffer := self.buffer.modify self.wpos fun b => { b with sz := sz }
    wpos := self.next self.wpos }

/-- The first section of the consumer under the lock. -/
def havedata (self : Packetqueue α) : Bool := self.rpos != self.wpos

/-- The second one. The slot is used after the lock is gone. -/
def take (self : Packetqueue α) : Nat × Packetqueue α :=
  (self.rpos, { self with rpos := self.next self.rpos })

end Packetqueue

/-- The queue between two steps of its threads: the size of a packet that is received and
not published, whether the consumer saw that there is data, and the slot it was given last.
What was received and handed over so far, and how much was published, is kept on record. -/
structure Queueing (α : Type u) where
  queue : Packetqueue α
  pending : Option Nat
  havedata : Bool
  held : Option Nat
  received : List (Pktbuf α)
  published : Nat
  handed : List (Pktbuf α)

inductive QueueStep (α : Type u) where
  | receive (pkt : α) (sz : Nat)
  | publish
  | check
  | take

/-- Whichever thread takes the next step. A packet of size zero is not put on the queue. -/
def QueueStep.apply (s : Queueing α) : QueueStep α → Option (Queueing α)
  | .receive pkt sz =>
    if s.pending = none ∧ 0 < sz then
      (s.queue.recv pkt).map fun queue =>
        { s with queue := queue, pending := some sz, received := s.received ++ [⟨pkt, sz⟩] }
    else none
  | .publish =>
    s.pending.map fun sz =>
      { s with queue := s.queue.publish sz, pending := none, published := s.published + 1 }
  | .check =>
    if s.havedata then none else some { s with havedata := s.queue.havedata }
  | .take =>
    if s.havedata then
      s.queue.buffer[s.queue.rpos]?.map fun b =>
        { s with
          queue := s.queue.take.2
          havedata := false
          held := some s.queue.take.1
          handed := s.handed ++ [b] }
    else none

/-- The runs of a queue of `sz` slots. -/
def queueing (zero : α) (sz : Nat) : Transition (Queueing α) (QueueStep α) :=
  .ofFun (fun s => s = ⟨packetqueueCreate zero sz, none, false, none, [], 0, []⟩)
    fun s e => e.apply s

/-- No slot is taken that the producer fills at this time: where the read cursor is at the
write cursor, a packet that is received is published first. -/
def Unmixed (s : Queueing α) : QueueStep α → Prop
  | .take => s.queue.rpos = s.queue.wpos → s.pending = none
  | _ => True

/-- After it is published, a packet is one of `sz - 2` at most that are not taken. -/
def Roomy (s : Queueing α) : QueueStep α → Prop
  | .publish => s.published + 1 + 2 ≤ s.handed.length + s.queue.sz
  | _ => True

/-- Every packet that was published is handed over once, or the consumer sees that there is
one; the last one that was handed over is still where the consumer reads it. -/
structure Delivers (s : Queueing α) : Prop where
  handed : s.handed = s.received.take s.handed.length
  published : s.published ≤ s.received.length ∧ s.received.length ≤ s.published + 1
  waiting : s.queue.havedata = false ↔ s.handed.length = s.published
  held : ∀ b, s.handed.getLast? = some b →
    ∃ i, s.held = some i ∧ s.queue.buffer[i]? = some b

theorem mod_ne_mod {i j n : Nat} (h : i < j) (hj : j < i + n) : i % n ≠ j % n := by
  intro heq
  have hdvd : n ∣ j - i := (Nat.modEq_iff_dvd' h.le).mp heq
  have hle := Nat.le_of_dvd (Nat.sub_pos_of_lt h) hdvd
  omega

/-- The last `sz` of the first `n` elements of a list, in the slots of a ring. -/
def Slots {β : Type*} (g : Pktbuf α → β) (buffer : List (Pktbuf α)) (sz : Nat)
    (l : List (Pktbuf α)) (n : Nat) : Prop :=
  ∀ i < n, n ≤ i + sz → buffer[i % sz]?.map g = l[i]?.map g

section

variable {β : Type*} {g : Pktbuf α → β} {f : Pktbuf α → Pktbuf α} {buffer l l' : List (Pktbuf α)}
  {sz n j : Nat} {p : Pktbuf α}

theorem Slots.append (h : Slots g buffer sz l n) (hn : n ≤ l.length) :
    Slots g buffer sz (l ++ l') n := by
  intro i hi hwindow
  rw [h i hi hwindow, List.getElem?_append_left (hi.trans_le hn)]

theorem Slots.keep (h : Slots g buffer sz l n) (hf : ∀ b, g (f b) = g b) :
    Slots g (buffer.modify j f) sz l n := by
  intro i hi hwindow
  rw [← h i hi hwindow, List.getElem?_modify]
  cases buffer[i % sz]? with
  | none => rfl
  | some b =>
    simp only [Option.map_eq_map, Option.map_some, Option.some.injEq]
    split
    · exact hf b
    · rfl

theorem Slots.write (h : Slots g buffer sz l n) (hlt : n % sz < buffer.length)
    (hp : l[n]? = some p) (hf : ∀ b, g (f b) = g p) :
    Slots g (buffer.modify (n % sz) f) sz l (n + 1) := by
  intro i hi hwindow
  rw [List.getElem?_modify]
  obtain hi | rfl := Nat.lt_succ_iff_lt_or_eq.mp hi
  · have hne : n % sz ≠ i % sz := Ne.symm (mod_ne_mod hi (by omega))
    rw [← h i hi (by omega)]
    simp [hne]
  · simp [hp, hf, List.getElem?_eq_getElem hlt]

end

/-- Where the cursors stand when `taken` packets were taken, or passed by. The slots have
the packets that were received last, and the sizes that were published last. -/
structure Ring (s : Queueing α) (taken : Nat) : Prop where
  length : s.queue.buffer.length = s.queue.sz
  rpos : s.queue.rpos = taken % s.queue.sz
  wpos : s.queue.wpos = s.published % s.queue.sz
  taken_le : taken ≤ s.published
  le_taken : s.published ≤ taken + s.queue.sz
  seen : s.havedata = true → taken < s.published
  pending : s.pending = s.received[s.published]?.map Pktbuf.sz
  published : s.published ≤ s.received.length ∧ s.received.length ≤ s.published + 1
  pos : s.received ≠ [] → 0 < s.queue.sz
  pkts : Slots Pktbuf.pkt s.queue.buffer s.queue.sz s.received s.received.length
  sizes : Slots Pktbuf.sz s.queue.buffer s.queue.sz s.received s.published

variable {s s' : Queueing α} {taken sz : Nat} {zero pkt : α}

theorem Ring.init : Ring ⟨packetqueueCreate zero sz, none, false, none, [], 0, []⟩ 0 where
  length := List.length_replicate
  rpos := (Nat.zero_mod sz).symm
  wpos := (Nat.zero_mod sz).symm
  taken_le := le_rfl
  le_taken := Nat.zero_le _
  seen h := by cases h
  pending := rfl
  published := ⟨le_rfl, Nat.zero_le _⟩
  pos h := absurd rfl h
  pkts i h := absurd h (Nat.not_lt_zero i)
  sizes i h := absurd h (Nat.not_lt_zero i)

theorem Packetqueue.next_mod {queue : Packetqueue α} {n : Nat} (h : 0 < queue.sz) :
    queue.next (n % queue.sz) = (n + 1) % queue.sz := by
  have hlt := Nat.mod_lt n h
  rw [next, ← Nat.mod_add_mod n]
  split
  · rw [show n % queue.sz + 1 = queue.sz by omega, Nat.sub_self, Nat.mod_self]
  · rw [Nat.mod_eq_of_lt (show n % queue.sz + 1 < queue.sz by omega)]

theorem Ring.slot_lt (h : Ring s taken) (hpos : 0 < s.queue.sz) (n : Nat) :
    n % s.queue.sz < s.queue.buffer.length := by
  rw [h.length]
  exact Nat.mod_lt n hpos

/-- A step of the producer leaves what the consumer has. -/
theorem Ring.receive (h : Ring s taken) (hs : (QueueStep.receive pkt sz).apply s = some s') :
    Ring s' taken ∧ s' = { s with
      queue := s'.queue, pending := s'.pending, received := s.received ++ [⟨pkt, sz⟩] } ∧
      s'.queue.sz = s.queue.sz := by
  simp only [QueueStep.apply, Packetqueue.recv] at hs
  split at hs
  · rename_i hpending
    split at hs
    · rename_i hroom
      cases hs
      have hlen : s.received.length = s.published := by
        have hnone := h.pending.symm.trans hpending.1
        simp only [Option.map_eq_none_iff, List.getElem?_eq_none_iff] at hnone
        exact le_antisymm hnone h.published.1
      have hpos : 0 < s.queue.sz := by
        rw [h.length] at hroom
        exact Nat.zero_lt_of_lt hroom
      refine ⟨⟨?_, h.rpos, h.wpos, h.taken_le, h.le_taken, h.seen, ?_, ?_, fun _ => hpos, ?_, ?_⟩,
        rfl, rfl⟩
      · simpa using h.length
      · simp [← hlen]
      · simp [hlen]
      · dsimp only
        rw [h.wpos, ← hlen, List.length_append, List.length_singleton]
        exact (h.pkts.append le_rfl).write (h.slot_lt hpos _) List.getElem?_concat_length
          fun _ => rfl
      · exact (h.sizes.append h.published.1).keep fun _ => rfl
    · cases hs
  · cases hs

/-- When as many packets as there are slots were published, one more makes the consumer
pass by those. -/
theorem Ring.publish (h : Ring s taken) (hs : QueueStep.publish.apply s = some s') :
    Ring s' (if s.published = taken + s.queue.sz then s.published else taken) ∧
      s' = { s with queue := s'.queue, pending := none, published := s.published + 1 } ∧
      s'.queue.sz = s.queue.sz := by
  obtain ⟨n, hn, rfl⟩ := Option.map_eq_some_iff.mp hs
  obtain ⟨b, hb, rfl⟩ := Option.map_eq_some_iff.mp (h.pending.symm.trans hn)
  obtain ⟨hlt, -⟩ := List.getElem?_eq_some_iff.mp hb
  have hpos := h.pos (List.ne_nil_of_length_pos (Nat.zero_lt_of_lt hlt))
  have hle := h.taken_le
  have hle' := h.le_taken
  have hlen : s.received.length = s.published + 1 := le_antisymm h.published.2 hlt
  refine ⟨⟨?_, ?_, ?_, ?_, ?_, ?_, ?_, ?_, fun _ => hpos, ?_, ?_⟩, rfl, rfl⟩
  · simpa [Packetqueue.publish] using h.length
  · split
    · rename_i heq
      dsimp only [Packetqueue.publish]
      rw [heq, Nat.add_mod_right]
      exact h.rpos
    · exact h.rpos
  · dsimp only [Packetqueue.publish]
    rw [h.wpos]
    exact Packetqueue.next_mod hpos
  · dsimp only
    split <;> omega
  · dsimp only [Packetqueue.publish]
    split <;> omega
  · intro hseen
    have hltp := h.seen hseen
    dsimp only
    split <;> omega
  · simp [← hlen]
  · simp [hlen]
  · exact h.pkts.keep fun _ => rfl
  · dsimp only [Packetqueue.publish]
    rw [h.wpos]
    exact h.sizes.write (h.slot_lt hpos _) hb fun _ => rfl

theorem Ring.check (h : Ring s taken) (hs : QueueStep.check.apply s = some s') :
    Ring s' taken ∧ s' = { s with havedata := s'.havedata } := by
  simp only [QueueStep.apply] at hs
  split at hs
  · cases hs
  · cases hs
    refine ⟨{ h with seen := ?_ }, rfl⟩
    intro hdata
    simp only [Packetqueue.havedata, bne_iff_ne, ne_eq, h.rpos, h.wpos] at hdata
    apply h.taken_le.lt_of_ne
    rintro rfl
    exact hdata rfl

/-- A slot that still has what was received into it and published. -/
theorem Ring.slot (h : Ring s taken) {i : Nat} (hi : i < s.published)
    (hwindow : s.received.length ≤ i + s.queue.sz) :
    s.queue.buffer[i % s.queue.sz]? = s.received[i]? := by
  have hlt : i < s.received.length := hi.trans_le h.published.1
  have hpkt := h.pkts i hlt hwindow
  have hsz := h.sizes i hi (h.published.1.trans hwindow)
  rw [List.getElem?_eq_getElem hlt] at hpkt hsz ⊢
  obtain ⟨b, hb, hbpkt⟩ := Option.map_eq_some_iff.mp hpkt
  rw [hb] at hsz ⊢
  cases b
  simp only [Option.map_some, Option.some.injEq] at hsz
  rw [Option.some_inj, Pktbuf.ext_iff]
  exact ⟨hbpkt, hsz⟩

/-- The packet that is handed over, unless the producer is filling its slot. -/
theorem Ring.take (h : Ring s taken) (hs : QueueStep.take.apply s = some s')
    (hunmixed : s.queue.rpos = s.queue.wpos → s.pending = none) :
    ∃ b, s.received[taken]? = some b ∧ taken < s.published ∧ Ring s' (taken + 1) ∧
      s' = { s with queue := s'.queue, havedata := s'.havedata,
                    held := some (taken % s.queue.sz), handed := s.handed ++ [b] } ∧
      s'.queue.sz = s.queue.sz ∧ s'.queue.buffer = s.queue.buffer := by
  simp only [QueueStep.apply] at hs
  split at hs
  · rename_i hseen
    obtain ⟨b, hb, rfl⟩ := Option.map_eq_some_iff.mp hs
    have htaken := h.seen hseen
    have hlt : taken < s.received.length := htaken.trans_le h.published.1
    have hpos := h.pos (List.ne_nil_of_length_pos (Nat.zero_lt_of_lt hlt))
    have hle := h.le_taken
    have hwindow : s.received.length ≤ taken + s.queue.sz := by
      by_contra hover
      have heq : s.published = taken + s.queue.sz := by
        have := h.published.2
        omega
      have hnone := hunmixed (by rw [h.rpos, h.wpos, heq, Nat.add_mod_right])
      rw [h.pending, Option.map_eq_none_iff, List.getElem?_eq_none_iff] at hnone
      omega
    rw [h.rpos, h.slot htaken hwindow] at hb
    refine ⟨b, hb, htaken, ⟨h.length, ?_, h.wpos, htaken, ?_, ?_, h.pending, h.published, h.pos,
      h.pkts, h.sizes⟩, ?_, rfl, rfl⟩
    · dsimp only [Packetqueue.take]
      rw [h.rpos]
      exact Packetqueue.next_mod hpos
    · dsimp only [Packetqueue.take]
      omega
    · intro hfalse
      cases hfalse
    · simp [Packetqueue.take, h.rpos]
  · cases hs

theorem Ring.handed_sublist (h : ((queueing zero sz).guard Unmixed).Reachable s) :
    ∃ taken, Ring s taken ∧ s.handed.Sublist (s.received.take taken) := by
  apply h.induction (I := fun s => ∃ taken, Ring s taken ∧
    s.handed.Sublist (s.received.take taken))
  · rintro s rfl
    exact ⟨0, Ring.init, List.Sublist.refl []⟩
  · rintro s e s' ⟨taken, hr, hsub⟩ ⟨hunmixed, hs⟩
    cases e with
    | receive pkt sz =>
      obtain ⟨hr', heq, -⟩ := hr.receive hs
      rw [heq] at hr' ⊢
      refine ⟨taken, hr', ?_⟩
      dsimp only
      rwa [List.take_append_of_le_length (hr.taken_le.trans hr.published.1)]
    | publish =>
      obtain ⟨hr', heq, -⟩ := hr.publish hs
      rw [heq] at hr' ⊢
      refine ⟨_, hr', hsub.trans (List.take_sublist_take_left ?_)⟩
      split
      · exact hr.taken_le
      · exact le_rfl
    | check =>
      obtain ⟨hr', heq⟩ := hr.check hs
      rw [heq] at hr' ⊢
      exact ⟨taken, hr', hsub⟩
    | take =>
      obtain ⟨b, hb, -, hr', heq, -⟩ := hr.take hs hunmixed
      rw [heq] at hr' ⊢
      refine ⟨taken + 1, hr', ?_⟩
      rw [List.take_add_one, hb]
      exact hsub.append (List.Sublist.refl [b])

/-- What holds besides when there is always room. -/
structure Room (s : Queueing α) : Prop where
  ring : Ring s s.handed.length
  handed : s.handed = s.received.take s.handed.length
  room : s.published = s.handed.length ∨ s.published + 2 ≤ s.handed.length + s.queue.sz
  size : 0 < s.published → 3 ≤ s.queue.sz
  held : s.handed ≠ [] → s.held = some ((s.handed.length - 1) % s.queue.sz)

theorem Room.init : Room ⟨packetqueueCreate zero sz, none, false, none, [], 0, []⟩ :=
  ⟨Ring.init, rfl, .inl rfl, fun h => absurd h (lt_irrefl 0), fun h => absurd rfl h⟩

theorem Room.step {e : QueueStep α} (h : Room s) (hroomy : Roomy s e) (hs : e.apply s = some s') :
    Room s' := by
  have hle := h.ring.taken_le
  cases e with
  | receive pkt sz =>
    obtain ⟨hr, heq, hsz⟩ := h.ring.receive hs
    rw [heq] at hr hsz ⊢
    dsimp only at hr hsz
    refine ⟨hr, ?_, ?_, ?_, ?_⟩
    · dsimp only
      rw [List.take_append_of_le_length (hle.trans h.ring.published.1)]
      exact h.handed
    · dsimp only
      rw [hsz]
      exact h.room
    · dsimp only
      rw [hsz]
      exact h.size
    · dsimp only
      rw [hsz]
      exact h.held
  | publish =>
    obtain ⟨hr, heq, hsz⟩ := h.ring.publish hs
    have hroomy : s.published + 1 + 2 ≤ s.handed.length + s.queue.sz := hroomy
    rw [if_neg (by omega)] at hr
    rw [heq] at hr hsz ⊢
    dsimp only at hr hsz
    refine ⟨hr, h.handed, ?_, ?_, ?_⟩
    · dsimp only
      rw [hsz]
      exact .inr hroomy
    · dsimp only
      omega
    · dsimp only
      rw [hsz]
      exact h.held
  | check =>
    obtain ⟨hr, heq⟩ := h.ring.check hs
    rw [heq] at hr ⊢
    exact ⟨hr, h.handed, h.room, h.size, h.held⟩
  | take =>
    have hseen : s.havedata = true := by
      by_contra hno
      simp [QueueStep.apply, hno] at hs
    have hlt := h.ring.seen hseen
    have hroom := h.room
    have hne : s.queue.rpos ≠ s.queue.wpos := by
      rw [h.ring.rpos, h.ring.wpos]
      exact mod_ne_mod hlt (by omega)
    obtain ⟨b, hb, -, hr, heq, hsz, -⟩ := h.ring.take hs fun hpos => absurd hpos hne
    rw [heq] at hr hsz ⊢
    dsimp only at hr hsz
    refine ⟨?_, ?_, ?_, ?_, ?_⟩
    · simpa using hr
    · dsimp only
      rw [List.length_append, List.length_singleton, List.take_add_one, hb, ← h.handed]
      rfl
    · simp only [List.length_append, List.length_singleton, hsz]
      omega
    · dsimp only
      rw [hsz]
      exact h.size
    · simp [hsz]

theorem Room.delivers (h : Room s) : Delivers s := by
  have hle := h.ring.taken_le
  have hroom := h.room
  refine ⟨h.handed, h.ring.published, ?_, ?_⟩
  · rw [Packetqueue.havedata, bne_eq_false_iff_eq, h.ring.rpos, h.ring.wpos]
    constructor
    · intro hpos
      by_contra hne
      exact mod_ne_mod (lt_of_le_of_ne hle hne) (by omega) hpos
    · intro heq
      rw [heq]
  · intro b hb
    have hne : s.handed ≠ [] := by
      rintro hnil
      rw [hnil] at hb
      cases hb
    have hpos := List.length_pos_iff.mpr hne
    have hsize := h.size (hpos.trans_le hle)
    have hlen := h.ring.published.2
    have hlast : s.handed[s.handed.length - 1]? = s.received[s.handed.length - 1]? := by
      have htake := congrArg (fun l => l[s.handed.length - 1]?) h.handed
      exact htake.trans (List.getElem?_take_of_lt (Nat.sub_lt hpos Nat.one_pos))
    refine ⟨_, h.held hne, ?_⟩
    rw [h.ring.slot (by omega) (by omega), ← hlast, ← hb, List.getLast?_eq_getElem?]

/-- Unless a slot is taken that the producer fills at this time, packets are handed over in
the order they came in, none of them twice. With two slots to spare none is lost. -/
theorem packets_handed_over (zero : α) (sz : Nat) :
    (∀ s, ((queueing zero sz).guard Unmixed).Reachable s → s.handed.Sublist s.received) ∧
      ∀ s, ((queueing zero sz).guard Roomy).Reachable s → Delivers s := by
  constructor
  · intro s h
    obtain ⟨taken, -, hsub⟩ := Ring.handed_sublist h
    exact hsub.trans (List.take_sublist taken s.received)
  · intro s h
    apply Room.delivers
    apply h.induction
    · rintro s rfl
      exact Room.init
    · rintro s e s' hroom ⟨hroomy, hs⟩
      exact hroom.step hroomy hs

/-- One packet was received, published and taken. -/
def oneTaken : Queueing Nat :=
  ⟨⟨[⟨7, 1⟩, ⟨0, 0⟩, ⟨0, 0⟩], 3, 1, 1⟩, none, false, some 0, [⟨7, 1⟩], 1, [⟨7, 1⟩]⟩

theorem oneTaken_reachable :
    ((queueing 0 3).guard fun s e => Unmixed s e ∧ Roomy s e).Reachable oneTaken := by
  have hstart := Transition.Reachable.init (S := (queueing 0 3).guard fun s e =>
    Unmixed s e ∧ Roomy s e) (s := ⟨packetqueueCreate 0 3, none, false, none, [], 0, []⟩) rfl
  have hreceived := hstart.step (l := QueueStep.receive 7 1) ⟨⟨trivial, trivial⟩, rfl⟩
  have hpublished := hreceived.step (l := QueueStep.publish) ⟨⟨trivial, Nat.le_refl 3⟩, rfl⟩
  have hchecked := hpublished.step (l := QueueStep.check) ⟨⟨trivial, trivial⟩, rfl⟩
  exact hchecked.step (l := QueueStep.take) ⟨⟨fun _ => rfl, trivial⟩, rfl⟩

theorem packets_handed_over_one :
    oneTaken.handed.Sublist oneTaken.received ∧ Delivers oneTaken :=
  ⟨(packets_handed_over 0 3).1 _ (oneTaken_reachable.guard_mono fun _ _ h => h.1),
    (packets_handed_over 0 3).2 _ (oneTaken_reachable.guard_mono fun _ _ h => h.2)⟩

/-- Between its two sections the consumer is overrun: the slot it takes has the third packet
already, and the second one comes after it. -/
theorem packets_out_of_order : ¬ ∀ (sz : Nat) (s : Queueing Nat), (queueing 0 sz).Reachable s →
    s.handed.Sublist s.received := by
  intro hall
  have hrun : (queueing 0 2).History [.receive 7 1, .publish, .check, .receive 8 1, .publish,
      .receive 9 1, .take, .check, .take]
      ⟨⟨[⟨9, 1⟩, ⟨8, 1⟩], 2, 0, 0⟩, some 1, false, some 1, [⟨7, 1⟩, ⟨8, 1⟩, ⟨9, 1⟩], 2,
        [⟨9, 1⟩, ⟨8, 1⟩]⟩ :=
    .of_foldlM rfl rfl
  exact absurd (hall 2 _ hrun.reachable) (by decide)

end Opticon
