import WordMachine.Proofs.ReadOverWrite
import WordMachine.Proofs.Trace

/-!
# Writing many bytes

A write of many bytes is a row of writes of one byte each, at addresses that count up. It is refused as
a whole if the row would run past the end of the address space, and otherwise goes on up to the first
byte that cannot be written. The bytes may belong to any number of regions. The addresses are numbers
here, so that it shows that none of them wraps around.

* `writeEach_eq_eval`: a write is the plan of its byte writes.
* `recordedCalls_of_writeEach`: a write that reaches a device leaves a record of it.
* `writeEach_eq_ok_iff`: on a bus of memories a write succeeds if there is a byte for each of its own.
* `Replaced.cons`: the bytes that were written, one by one.
* `bulkWrite`: all that a write of many bytes does.
-/

namespace WordMachine.Bus

variable {δ : Type}

/-! ## The plan of a write -/

/-- Writes of bytes at the addresses from `a` on. -/
def byteWrites (a : Word) (bytes : List Byte) : List (Word × Request) :=
  bytes.mapIdx fun i byte => (.ofNat (a.toNat + i), .writeByte byte)

theorem byteWrites_cons (a : Word) (byte : Byte) (bytes : List Byte) :
    byteWrites a (byte :: bytes) = (a, .writeByte byte) :: byteWrites (a + 1) bytes := by
  have hnext : ∀ i, UInt16.ofNat (a.toNat + (i + 1)) = UInt16.ofNat ((a + 1).toNat + i) := by
    intro i
    rw [UInt16.ofNat_add, UInt16.ofNat_add, UInt16.ofNat_add, UInt16.ofNat_toNat, UInt16.ofNat_toNat,
      UInt16.add_assoc, UInt16.add_comm (.ofNat i)]
    rfl
  rw [byteWrites, List.mapIdx_cons, Nat.add_zero, UInt16.ofNat_toNat]
  simp only [hnext]
  rfl

section

variable [Device δ]

/-- Writing bytes one by one is their plan, up to the first one that fails. -/
theorem writeEach_eq_eval (bus : Bus δ) (a : Word) (bytes : List Byte) :
    bus.writeEach a bytes = (BusProgram.ofPlan (byteWrites a bytes)).eval bus := by
  induction bytes generalizing bus a with
  | nil => rfl
  | cons byte bytes ih =>
    rw [byteWrites_cons, BusProgram.ofPlan, BusProgram.eval, writeEach, device_answer]
    generalize bus.answer a (.writeByte byte) = outcome
    obtain ⟨_ | _, bus₁⟩ := outcome
    · rfl
    · exact ih bus₁ (a + 1)

/-! ## Calls to devices -/

/-- The calls to devices that a write of many bytes makes, each with the number of the region. -/
def writeCalls (bus : Bus δ) (a : Word) (bytes : List Byte) : List (Nat × Word × Request) :=
  (bus.recording.write a bytes).2.recordedCalls

omit [Device δ] in
theorem recordedCalls_recording (bus : Bus δ) : bus.recording.recordedCalls = [] := by
  rw [recordedCalls, recording, List.flatMap_map]
  exact List.flatMap_eq_nil_iff.mpr fun _ _ => rfl

omit [Device δ] in
theorem owner_of_recording {bus : Bus δ} {a : Word} (h : bus.recording.owner a = none) :
    bus.owner a = none := by
  rw [owner_eq_none_iff] at h ⊢
  exact fun region hregion => h _ (List.mem_map.mpr ⟨region, hregion, rfl⟩)

/-- No call is recorded only if nobody owns the address, and none was recorded before. -/
theorem recordedCalls_of_answer {bus : Bus (Recorded δ)} {a : Word} {request : Request}
    (h : (bus.answer a request).2.recordedCalls = []) :
    bus.owner a = none ∧ bus.recordedCalls = [] := by
  cases howner : bus.owner a with
  | none =>
    rw [answer_of_owner_eq_none howner] at h
    exact ⟨rfl, h⟩
  | some region =>
    obtain ⟨newer, older, -, hanswer⟩ := answer_of_owner howner request
    rw [hanswer, recordedCalls, List.flatMap_eq_nil_iff] at h
    have hcalls := h _ (List.mem_append_right _ List.mem_cons_self)
    exact absurd (List.append_eq_nil_iff.mp (List.map_eq_nil_iff.mp hcalls)).2 (by simp)

theorem recordedCalls_of_writeEach {bus : Bus (Recorded δ)} {a : Word} {bytes : List Byte}
    (h : (bus.writeEach a bytes).2.recordedCalls = []) :
    (bytes = [] ∨ bus.owner a = none) ∧ bus.recordedCalls = [] := by
  induction bytes generalizing bus a with
  | nil => exact ⟨Or.inl rfl, h⟩
  | cons byte bytes ih =>
    have hfirst : (bus.answer a (.writeByte byte)).2.recordedCalls = [] := by
      rw [writeEach] at h
      generalize bus.answer a (.writeByte byte) = outcome at h
      obtain ⟨_ | _, bus₁⟩ := outcome
      · exact h
      · exact (ih h).2
    obtain ⟨howner, hcalls⟩ := recordedCalls_of_answer hfirst
    exact ⟨Or.inr howner, hcalls⟩

/-- A write of many bytes, on a bus of any devices. -/
structure WritesInOrder (bus : Bus δ) (a : Word) (bytes : List Byte) : Prop where
  /-- it is refused without a call to a device if the bytes do not fit, and only then -/
  refused : (bus.write a bytes).1 = .error (.addressOverflow 0x10000) ∧ bus.writeCalls a bytes = [] ↔
    0x10000 < a.toNat + bytes.length
  unchanged : 0x10000 < a.toNat + bytes.length → (bus.write a bytes).2 = bus
  /-- otherwise the bytes are written in order, up to the first one that fails -/
  inOrder : a.toNat + bytes.length ≤ 0x10000 →
    bus.write a bytes = (BusProgram.ofPlan (byteWrites a bytes)).eval bus ∧
    Follows (byteWrites a bytes) ((BusProgram.ofPlan (byteWrites a bytes)).trace bus)
      (bus.write a bytes).1
  /-- no address wraps around -/
  addresses : a.toNat + bytes.length ≤ 0x10000 → ∀ i < bytes.length,
    (UInt16.ofNat (a.toNat + i)).toNat = a.toNat + i

theorem write_of_le {bus : Bus δ} {a : Word} {bytes : List Byte}
    (h : a.toNat + bytes.length ≤ 0x10000) : bus.write a bytes = bus.writeEach a bytes := if_pos h

theorem write_of_lt {bus : Bus δ} {a : Word} {bytes : List Byte}
    (h : 0x10000 < a.toNat + bytes.length) :
    bus.write a bytes = (.error (.addressOverflow 0x10000), bus) := if_neg (Nat.not_le.mpr h)

theorem writesInOrder (bus : Bus δ) (a : Word) (bytes : List Byte) : WritesInOrder bus a bytes where
  refused := by
    constructor
    · rintro ⟨hfault, hcalls⟩
      by_contra hfits
      replace hfits := Nat.le_of_not_lt hfits
      rw [writeCalls, write_of_le hfits] at hcalls
      rw [write_of_le hfits] at hfault
      obtain ⟨rfl | howner, -⟩ := recordedCalls_of_writeEach hcalls
      · cases hfault
      · -- the first address has no owner, which is another fault
        cases bytes with
        | nil => cases hfault
        | cons byte bytes =>
          rw [writeEach, answer_of_owner_eq_none (owner_of_recording howner)] at hfault
          cases hfault
    · intro hlt
      rw [writeCalls, write_of_lt hlt, write_of_lt hlt]
      exact ⟨rfl, recordedCalls_recording bus⟩
  unchanged h := by rw [write_of_lt h]
  inOrder h := by
    rw [write_of_le h, writeEach_eq_eval]
    refine ⟨rfl, ?_⟩
    have hfollows := (BusProgram.makes_ofPlan (byteWrites a bytes)).follows bus
    generalize (BusProgram.ofPlan (byteWrites a bytes)).eval bus = outcome at hfollows
    obtain ⟨_ | _, bus'⟩ := outcome <;> exact hfollows
  addresses h i hi := UInt16.toNat_ofNat_of_lt' (by
    change a.toNat + i < 0x10000
    omega)

end

/-! ## Memories -/

section

variable {bus bus' : Bus Ram} {a : Word}

/-- There is a byte of a memory at an address. -/
def HasByte (bus : Bus Ram) (b : Word) : Prop :=
  ∃ region, bus.owner b = some region ∧ (region.localAddress b).toNat < region.device.size

/-- Whether there is a byte is decided by the layout, and with it how an access to one byte ends. -/
theorem hasByte_iff {b : Word} : bus.HasByte b ↔ bus.layout.verdict b 1 = .ok () := by
  rw [HasByte, verdict, owner_layout]
  cases bus.owner b with
  | none => simp
  | some region =>
    change _ ↔ (if (region.localAddress b).toNat + 1 ≤ region.device.size then Except.ok ()
      else .error (Fault.outOfBounds (region.localAddress b) region.device.size)) = _
    constructor
    · rintro ⟨_, heq, hlt⟩
      cases heq
      exact if_pos hlt
    · intro h
      split at h
      next hlt => exact ⟨region, rfl, hlt⟩
      next => cases h

theorem hasByte_of_layout (h : bus'.layout = bus.layout) (b : Word) :
    bus'.HasByte b ↔ bus.HasByte b := by
  rw [hasByte_iff, hasByte_iff, h]

theorem ending_writeByte (bus : Bus Ram) (b : Word) (value : Byte) :
    Device.ending bus b (.writeByte value) = .ok () ↔ bus.HasByte b := by
  rw [ending_answer, hasByte_iff]
  rfl

/-- Bytes are written if there is one at each of their addresses. -/
theorem writeEach_eq_ok_iff {bytes : List Byte} :
    (bus.writeEach a bytes).1 = .ok () ↔ ∀ i < bytes.length, bus.HasByte (a + .ofNat i) := by
  induction bytes generalizing bus a with
  | nil => simp [writeEach]
  | cons byte bytes ih =>
    have hending := ending_writeByte bus a byte
    have hlayout := layout_answer bus a (.writeByte byte)
    rw [List.length_cons, Nat.forall_lt_succ_left, show a + .ofNat 0 = a by simp, ← hending, writeEach,
      Device.ending]
    change _ ↔ ((bus.answer a (.writeByte byte)).1.map fun _ => ()) = _ ∧ _
    generalize bus.answer a (.writeByte byte) = outcome at hlayout
    obtain ⟨fault | _, bus₁⟩ := outcome
    · simp [Except.map]
    · have hnext : ∀ i, a + 1 + .ofNat i = a + .ofNat (i + 1) := by
        intro i
        rw [UInt16.ofNat_add, UInt16.add_assoc, UInt16.add_comm 1]
        rfl
      dsimp only
      rw [ih]
      simp only [hasByte_of_layout hlayout, hnext]
      exact (and_iff_right rfl).symm

/-- Bytes at the addresses from a number on were replaced, and nothing else. -/
structure Replaced (bus after : Bus Ram) (start : Nat) (bytes : List Byte) : Prop where
  stored : ∀ i (hi : i < bytes.length), (after.answer (.ofNat (start + i)) .readByte).1 = .ok bytes[i]
  others : ∀ b : Word, b.toNat < start ∨ start + bytes.length ≤ b.toNat →
    (after.answer b .readByte).1 = (bus.answer b .readByte).1
  /-- no byte of a memory has changed, whether it can be read or not, unless one was stored in it -/
  cells : bus.Ordered → ∀ place j byte, bus.ByteAt j byte place →
    (∀ i (hi : i < bytes.length),
      ¬bus.StoresAt place j (.ofNat (start + i)) (.writeByte bytes[i])) → after.ByteAt j byte place

theorem replaced_nil (bus : Bus Ram) (start : Nat) : Replaced bus bus start [] where
  stored _ hi := nomatch hi
  others _ _ := rfl
  cells _ _ _ _ hbyte _ := hbyte

/-- One byte more, in front of the others. -/
theorem Replaced.cons {bus₁ after : Bus Ram} {start : Nat} {byte : Byte} {bytes : List Byte}
    (hstart : start < 0x10000)
    (hfirst : bus.answer (.ofNat start) (.writeByte byte) = (.ok (), bus₁))
    (h : Replaced bus₁ after (start + 1) bytes) : Replaced bus after start (byte :: bytes) where
  stored i hi := by
    cases i with
    | zero =>
      have hbyte := (afterByte (congrArg Prod.fst hfirst)).byte
      rw [hfirst] at hbyte
      rw [Nat.add_zero, h.others _ (Or.inl (by rw [UInt16.toNat_ofNat_of_lt' hstart]; omega)), hbyte]
      rfl
    | succ i =>
      rw [show start + (i + 1) = start + 1 + i by omega]
      exact h.stored i (Nat.lt_of_succ_lt_succ hi)
  others b hb := by
    rw [List.length_cons] at hb
    have hne : b ≠ .ofNat start := by
      rintro rfl
      rw [UInt16.toNat_ofNat_of_lt' hstart] at hb
      omega
    have hkept := (afterByte (congrArg Prod.fst hfirst)).otherByte b hne
    rw [hfirst] at hkept
    rw [h.others b (by omega), hkept]
  cells hordered place j value hvalue hstores := by
    have hlayout := layout_answer bus (.ofNat start) (.writeByte byte)
    have hkept := byteAt_answer hordered (hstores 0 (Nat.zero_lt_succ _)) hvalue
    rw [Nat.add_zero, List.getElem_cons_zero] at hkept
    rw [hfirst] at hlayout hkept
    refine h.cells (hordered.of_layout hlayout) place j value hkept fun i hi => ?_
    rw [storesAt_iff_of_layout hlayout, show start + 1 + i = start + (i + 1) by omega]
    exact hstores (i + 1) (Nat.succ_lt_succ hi)

theorem replaced_of_writeEach {start : Nat} {bytes : List Byte} (hfits : start + bytes.length ≤ 0x10000)
    (h : bus.writeEach (.ofNat start) bytes = (.ok (), bus')) : Replaced bus bus' start bytes := by
  induction bytes generalizing bus start with
  | nil =>
    cases h
    exact replaced_nil _ start
  | cons byte bytes ih =>
    rw [List.length_cons] at hfits
    rw [writeEach] at h
    split at h
    next reply bus₁ heq =>
      rw [show UInt16.ofNat start + 1 = .ofNat (start + 1) from (UInt16.ofNat_add start 1).symm] at h
      exact (ih (by omega) h).cons (by omega) heq
    next => cases h

end

/-- A write of many bytes, on a bus of memories. -/
structure WritesMemories (bus : Bus Ram) (a : Word) (bytes : List Byte) : Prop where
  /-- it succeeds if the bytes fit and there is a byte of a memory at each of their addresses -/
  succeeds : (bus.write a bytes).1 = .ok () ↔ a.toNat + bytes.length ≤ 0x10000 ∧
    ∀ i < bytes.length, bus.HasByte (.ofNat (a.toNat + i))
  /-- the bytes are there then, and nothing else has changed -/
  written : (bus.write a bytes).1 = .ok () → Replaced bus (bus.write a bytes).2 a.toNat bytes
  /-- a write that fails has replaced the bytes in front of the first one that cannot be written -/
  failed : ∀ fault, (bus.write a bytes).1 = .error fault → a.toNat + bytes.length ≤ 0x10000 →
    ∃ i, ∃ hi : i < bytes.length,
      (∀ j < i, bus.HasByte (.ofNat (a.toNat + j))) ∧ ¬bus.HasByte (.ofNat (a.toNat + i)) ∧
      (bus.answer (.ofNat (a.toNat + i)) (.writeByte bytes[i])).1 = .error fault ∧
      bus.write a (bytes.take i) = (.ok (), (bus.write a bytes).2) ∧
      Replaced bus (bus.write a bytes).2 a.toNat (bytes.take i)

section

variable {bus bus' : Bus Ram} {a : Word} {bytes : List Byte}

theorem add_ofNat_eq (a : Word) (i : Nat) : a + .ofNat i = .ofNat (a.toNat + i) := by
  rw [UInt16.ofNat_add, UInt16.ofNat_toNat]

theorem write_eq_ok_iff :
    (bus.write a bytes).1 = .ok () ↔ a.toNat + bytes.length ≤ 0x10000 ∧
      ∀ i < bytes.length, bus.HasByte (.ofNat (a.toNat + i)) := by
  by_cases hfits : a.toNat + bytes.length ≤ 0x10000
  · rw [write_of_le hfits, writeEach_eq_ok_iff, and_iff_right hfits]
    simp only [add_ofNat_eq]
  · rw [write_of_lt (Nat.lt_of_not_le hfits)]
    simp [hfits]

theorem replaced_of_write (h : bus.write a bytes = (.ok (), bus')) :
    Replaced bus bus' a.toNat bytes := by
  obtain ⟨hfits, -⟩ := write_eq_ok_iff.mp (congrArg Prod.fst h)
  rw [write_of_le hfits] at h
  refine replaced_of_writeEach hfits ?_
  rwa [UInt16.ofNat_toNat]

/-- The byte at which a write fails is not in a memory, and all in front of it are and were written. -/
theorem exists_failed_of_write {fault : Fault} (h : bus.write a bytes = (.error fault, bus'))
    (hfits : a.toNat + bytes.length ≤ 0x10000) :
    ∃ i, ∃ hi : i < bytes.length,
      (∀ j < i, bus.HasByte (.ofNat (a.toNat + j))) ∧ ¬bus.HasByte (.ofNat (a.toNat + i)) ∧
      (bus.answer (.ofNat (a.toNat + i)) (.writeByte bytes[i])).1 = .error fault ∧
      bus.write a (bytes.take i) = (.ok (), bus') := by
  rw [write_of_le hfits] at h
  obtain ⟨i, hi, hwrite, hfault⟩ := writeEach_of_error h
  have hlength : (bytes.take i).length = i := List.length_take_of_le (Nat.le_of_lt hi)
  have hwrite' : bus.write a (bytes.take i) = (.ok (), bus') := by
    rwa [write_of_le (by omega)]
  obtain ⟨-, hbytes⟩ := write_eq_ok_iff.mp (congrArg Prod.fst hwrite')
  rw [hlength] at hbytes
  -- the bytes written so far leave the layout alone, and with it how the next one ends
  have hlayout : bus'.layout = bus.layout := by
    have hkept := layout_writeEach bus a (bytes.take i)
    rwa [hwrite] at hkept
  have hending : Device.ending bus (.ofNat (a.toNat + i)) (.writeByte bytes[i]) = .error fault := by
    rw [ending_answer, ← hlayout, ← ending_answer, ← add_ofNat_eq, Device.ending]
    exact congrArg (·.1.map fun _ => ()) hfault
  refine ⟨i, hi, hbytes, fun hbyte => ?_, ?_, hwrite'⟩
  · rw [(ending_writeByte bus _ _).mpr hbyte] at hending
    cases hending
  · rw [Device.ending] at hending
    exact map_eq_error_iff.mp hending

theorem writesMemories (bus : Bus Ram) (a : Word) (bytes : List Byte) :
    WritesMemories bus a bytes where
  succeeds := write_eq_ok_iff
  written h := replaced_of_write (Prod.ext h rfl)
  failed fault h hfits := by
    obtain ⟨i, hi, hbefore, hnot, hfault, hwrite⟩ := exists_failed_of_write (Prod.ext h rfl) hfits
    exact ⟨i, hi, hbefore, hnot, hfault, hwrite, replaced_of_write hwrite⟩

end

/-- What a write of many bytes does, on a bus of any devices and on a bus of memories. -/
theorem bulkWrite (a : Word) (bytes : List Byte) :
    (∀ {δ : Type} [Device δ] (bus : Bus δ), WritesInOrder bus a bytes) ∧
      ∀ bus : Bus Ram, WritesMemories bus a bytes :=
  ⟨fun bus => writesInOrder bus a bytes, fun bus => writesMemories bus a bytes⟩

/-- Two memories side by side, the second of which ends before its region does. -/
def shortSecond : Bus Ram :=
  (empty.map (.zeroed 0x10) 0x1000 0x100f true).map (.zeroed 2) 0x1010 0x101f true

/-- The bytes that reach the second memory fail at its end. -/
example : (shortSecond.write 0x100f [1, 2, 3, 4]).1 = .error (.outOfBounds 2 2) := by decide +kernel

end WordMachine.Bus
