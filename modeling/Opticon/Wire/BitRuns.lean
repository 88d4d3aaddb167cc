import Opticon.Wire.ValueCodec

/-! Values of any widths up to eight bits, written one behind the other and read back. -/

namespace Opticon

open BitStream

/-- Values with their widths, up to the first one that cannot be written. -/
def writeBits (io : Ioport) : List (BitVec 8 × Nat) → Bool × Ioport
  | [] => (true, io)
  | (d, bits) :: fields =>
    let (ok, io) := ioportWriteBits io d bits
    if ok then writeBits io fields else (false, io)

def readBits (io : Ioport) : List Nat → List (BitVec 8) × Ioport
  | [] => ([], io)
  | numbits :: widths =>
    let (d, io) := ioportReadBits io numbits
    let (ds, io) := readBits io widths
    (d :: ds, io)

/-- The bits of all values, in their order. -/
def fieldBits (fields : List (BitVec 8 × Nat)) : List Bool := fields.flatMap fun f => low f.2 f.1

variable {io r : Ioport} {fields : List (BitVec 8 × Nat)} {rest : List Bool}

theorem length_fieldBits : (fieldBits fields).length = (fields.map Prod.snd).sum := by
  rw [fieldBits, List.length_flatMap]
  simp only [length_low]

theorem writeBits_spec (hw : io.Writable) (hf : ∀ f ∈ fields, f.2 ≤ 8) :
    (writeBits io fields).1 = true ∧ (writeBits io fields).2.Writable ∧
      (writeBits io fields).2.bitsWritten = io.bitsWritten ++ fieldBits fields ∧
      (writeBits io fields).2.unread = io.unread ∧ (writeBits io fields).2.file = io.file := by
  induction fields generalizing io with
  | nil => exact ⟨rfl, hw, (List.append_nil _).symm, rfl, rfl⟩
  | cons f fields ih =>
    obtain ⟨hw', hbits, hok, hunread, hfile⟩ := ioportWriteBits_spec hw f.1 (hf f List.mem_cons_self)
    obtain ⟨hok', hw'', hbits', hunread', hfile'⟩ := ih hw' fun f' hf' => hf f' (List.mem_cons_of_mem _ hf')
    have hstep : writeBits io (f :: fields) = writeBits (ioportWriteBits io f.1 f.2).2 fields := if_pos hok
    rw [hstep]
    refine ⟨hok', hw'', ?_, hunread'.trans hunread, hfile'.trans hfile⟩
    rw [hbits', hbits, List.append_assoc]
    rfl

/-- Whatever phase the port is in, the values come back one after the other. -/
theorem readBits_spec (hp : r.bitpos ≤ 8) (hf : ∀ f ∈ fields, 1 ≤ f.2 ∧ f.2 ≤ 8)
    (h : r.remaining = fieldBits fields ++ rest) :
    (readBits r (fields.map Prod.snd)).1.map BitVec.toNat = fields.map fun f => f.1.toNat % 2 ^ f.2 := by
  induction fields generalizing r with
  | nil => rfl
  | cons f fields ih =>
    obtain ⟨h1, h8⟩ := hf f List.mem_cons_self
    have hsplit : r.remaining = low f.2 f.1 ++ (fieldBits fields ++ rest) := h.trans (List.append_assoc _ _ _)
    have hlen : f.2 ≤ r.remaining.length := by
      rw [hsplit, List.length_append, length_low]
      omega
    obtain ⟨hlow, hzero, hrest, hpos, -⟩ := ioportReadBits_spec hp h1 h8 hlen
    rw [hsplit, List.take_left' (length_low _ _)] at hlow
    rw [hsplit, List.drop_left' (length_low _ _)] at hrest
    have hval : (ioportReadBits r f.2).1.toNat = f.1.toNat % 2 ^ f.2 := by
      rw [← low_mod hlow]
      exact (Nat.mod_eq_of_lt (toNat_lt_of_getLsbD hzero)).symm
    exact congrArg₂ List.cons hval (ih hpos.2 (fun f' hf' => hf f' (List.mem_cons_of_mem _ hf')) hrest)

/-- What is written and flushed, behind whatever bytes there are, is read back from its start by any
port that is at the start of a byte, and takes as many bytes as there are bits for. -/
theorem bits_read_back (w more : List UInt8) (hf : ∀ f ∈ fields, 1 ≤ f.2 ∧ f.2 ≤ 8) :
    ∃ io stream, writeBits (.port w) fields = (true, io) ∧ ioportFlushBits io = .port (w ++ stream) ∧
      stream.length = ((fields.map Prod.snd).sum + 7) / 8 ∧
      ∀ r : Ioport, r.bitpos = 0 → r.unread = stream ++ more →
        (readBits r (fields.map Prod.snd)).1.map BitVec.toNat = fields.map fun f => f.1.toNat % 2 ^ f.2 := by
  obtain ⟨hok, hw, hbits, hunread, hfile⟩ := writeBits_spec (writable_port w) fun f hm => (hf f hm).2
  rw [bitsWritten_port] at hbits
  obtain ⟨stream, pad, hflush, hpad, hstream⟩ := ioportFlushBits_behind hw hunread hfile hbits
  refine ⟨_, stream, Prod.ext hok rfl, hflush, ?_, fun r hpos hu => ?_⟩
  · have hlen := congrArg List.length hstream
    rw [length_bytes, List.length_append, length_fieldBits, List.length_replicate] at hlen
    omega
  · have hrest : r.remaining = fieldBits fields ++ (List.replicate pad false ++ bytes more) := by
      rw [Ioport.remaining, if_pos hpos, hu, bytes_append, hstream, List.append_assoc]
      rfl
    exact readBits_spec (by omega) hf hrest

/-- Four values that straddle their bytes, behind one byte. -/
theorem bits_read_back_four : ∃ io stream,
    writeBits (.port [7]) [(13, 4), (42, 6), (5, 3), (69, 7)] = (true, io) ∧
      ioportFlushBits io = .port ([7] ++ stream) ∧ stream.length = (([4, 6, 3, 7] : List Nat).sum + 7) / 8 ∧
      ∀ r : Ioport, r.bitpos = 0 → r.unread = stream ++ [1, 2] →
        (readBits r [4, 6, 3, 7]).1.map BitVec.toNat = [13, 42, 5, 69] :=
  @bits_read_back [(13, 4), (42, 6), (5, 3), (69, 7)] [7] [1, 2] (by decide)

end Opticon
