import WordMachine.Proofs.Memory

/-!
# The layout of a bus of memories

How an access to a bus of memories ends is decided by the ranges of the regions and the sizes of the
memories, whatever the memories hold. An access that fails changes nothing.

* `ending_answer`: how an access ends, computed from the layout.
* `layout_answer`: an access leaves the layout as it is.
* `answer_of_error`: an access that fails leaves the bus as it is.
* `write_of_error`: a write of many bytes that fails is one of fewer bytes that succeeds.
-/

namespace WordMachine

/-- How an access ends, apart from what is read. -/
def Device.ending {δ : Type} [Device δ] (device : δ) (address : Word) (request : Request) :
    Except Fault Unit :=
  (answer device address request).1.map fun _ => ()

/-- A device after accesses one after the other, of which any may fail. -/
def Device.after {δ : Type} [Device δ] (device : δ) (accesses : List (Word × Request)) : δ :=
  accesses.foldl (fun device access => (answer device access.1 access.2).2) device

theorem Device.exists_answer_eq_ok {δ : Type} [Device δ] {device : δ} {address : Word}
    {request : Request} (h : ending device address request = .ok ()) :
    ∃ reply device', answer device address request = (.ok reply, device') := by
  unfold ending at h
  generalize answer device address request = outcome at h
  obtain ⟨reply, device'⟩ := outcome
  cases reply with
  | ok reply => exact ⟨reply, device', rfl⟩
  | error fault => cases h

namespace Ram

variable {ram : Ram} {address : Word} {request : Request}

theorem ending_of_le (h : address.toNat + request.width ≤ ram.size) :
    Device.ending ram address request = .ok () := by
  cases request with
  | readByte =>
    have hlt : address.toNat < ram.bytes.size := h
    change (ram.readByte address).map _ = _
    rw [readByte, dif_pos hlt]
    rfl
  | readWord =>
    have hlt : address.toNat + 1 < ram.bytes.size := h
    change (ram.readWord address).map _ = _
    rw [readWord, dif_pos hlt]
    rfl
  | writeByte value =>
    have hlt : address.toNat < ram.bytes.size := h
    change (ram.writeByte address value).1.map _ = _
    rw [writeByte, dif_pos hlt]
    rfl
  | writeWord value =>
    have hlt : address.toNat + 1 < ram.bytes.size := h
    change (ram.writeWord address value).1.map _ = _
    rw [writeWord, dif_pos hlt]
    rfl

theorem answer_of_not_le (h : ¬address.toNat + request.width ≤ ram.size) :
    Device.answer ram address request = (.error (.outOfBounds address ram.size), ram) := by
  cases request with
  | readByte =>
    have hlt : ¬address.toNat < ram.bytes.size := h
    change (ram.readByte address, ram) = _
    rw [readByte, dif_neg hlt]
  | readWord =>
    have hlt : ¬address.toNat + 1 < ram.bytes.size := h
    change (ram.readWord address, ram) = _
    rw [readWord, dif_neg hlt]
  | writeByte value =>
    have hlt : ¬address.toNat < ram.bytes.size := h
    change ram.writeByte address value = _
    rw [writeByte, dif_neg hlt]
    rfl
  | writeWord value =>
    have hlt : ¬address.toNat + 1 < ram.bytes.size := h
    change ram.writeWord address value = _
    rw [writeWord, dif_neg hlt]
    rfl

theorem answer_of_error {fault : Fault}
    (h : (Device.answer ram address request).1 = .error fault) :
    (Device.answer ram address request).2 = ram := by
  by_cases hle : address.toNat + request.width ≤ ram.size
  · obtain ⟨reply, ram', hok⟩ := Device.exists_answer_eq_ok (ending_of_le hle)
    rw [hok] at h
    cases h
  · rw [answer_of_not_le hle]

end Ram

namespace Bus

/-- The ranges of the regions of a bus with the sizes of their memories. -/
def layout (bus : Bus Ram) : Bus Nat :=
  ⟨bus.regions.map fun r => r.withDevice r.device.size, bus.nextId⟩

/-- How an access of some bytes ends if memories are laid out in this way. -/
def verdict (layout : Bus Nat) (address : Word) (width : Nat) : Except Fault Unit :=
  match layout.owner address with
  | some region =>
    if (region.localAddress address).toNat + width ≤ region.device then .ok ()
    else .error (.outOfBounds (region.localAddress address) region.device)
  | none => .error (.unmapped address)

theorem owner_layout (bus : Bus Ram) (address : Word) :
    bus.layout.owner address = (bus.owner address).map fun r => r.withDevice r.device.size := by
  rw [owner, layout, List.find?_map]
  rfl

variable {bus bus' : Bus Ram} {address : Word} {request : Request}

/-- How an access ends depends on the layout and the number of bytes only. -/
theorem ending_answer (bus : Bus Ram) (address : Word) (request : Request) :
    Device.ending bus address request = bus.layout.verdict address request.width := by
  change (bus.answer address request).1.map _ = _
  rw [verdict, owner_layout]
  cases howner : bus.owner address with
  | none =>
    rw [answer_of_owner_eq_none howner]
    rfl
  | some region =>
    rw [answer_of_owner_eq_some howner]
    change Device.ending region.device (region.localAddress address) request = _
    change _ = if (region.localAddress address).toNat + request.width ≤ region.device.size then
      Except.ok () else .error (Fault.outOfBounds (region.localAddress address) region.device.size)
    split
    next h => exact Ram.ending_of_le h
    next h =>
      unfold Device.ending
      rw [Ram.answer_of_not_le h]
      rfl

/-- An access that fails changes no byte of any memory. -/
theorem answer_of_error {fault : Fault} (h : (bus.answer address request).1 = .error fault) :
    (bus.answer address request).2 = bus := by
  cases howner : bus.owner address with
  | none => rw [answer_of_owner_eq_none howner]
  | some region =>
    rw [answer_of_owner_eq_some howner] at h
    exact answer_of_device_eq howner (Ram.answer_of_error h)

/-- An access changes neither the ranges of the regions nor the sizes of the memories. -/
theorem layout_answer (bus : Bus Ram) (address : Word) (request : Request) :
    (bus.answer address request).2.layout = bus.layout := by
  cases howner : bus.owner address with
  | none => rw [answer_of_owner_eq_none howner]
  | some region =>
    obtain ⟨newer, older, hregions, hanswer⟩ := answer_of_owner howner request
    rw [hanswer, layout, layout, hregions, List.map_append, List.map_append, List.map_cons,
      List.map_cons]
    have hsize := Ram.size_answer region.device (region.localAddress address) request
    simp only [Region.device_withDevice, hsize]
    rfl

/-! ## Accesses to many bytes -/

theorem layout_writeEach (bus : Bus Ram) (address : Word) (bytes : List Byte) :
    (bus.writeEach address bytes).2.layout = bus.layout := by
  induction bytes generalizing bus address with
  | nil => rfl
  | cons byte bytes ih =>
    have hlayout := layout_answer bus address (.writeByte byte)
    rw [writeEach]
    generalize bus.answer address (.writeByte byte) = outcome at hlayout
    obtain ⟨_ | _, bus₁⟩ := outcome
    · exact hlayout
    · exact (ih bus₁ (address + 1)).trans hlayout

theorem writeEach_congr (hlayout : bus.layout = bus'.layout) {bytes bytes' : List Byte}
    (hlength : bytes.length = bytes'.length) (address : Word) :
    (bus.writeEach address bytes).1 = (bus'.writeEach address bytes').1 := by
  induction bytes generalizing bus bus' bytes' address with
  | nil =>
    obtain rfl := List.length_eq_zero_iff.mp hlength.symm
    rfl
  | cons byte bytes ih =>
    obtain _ | ⟨byte', bytes'⟩ := bytes'
    · cases hlength
    · have hending : Device.ending bus address (.writeByte byte) =
          Device.ending bus' address (.writeByte byte') := by
        rw [ending_answer, ending_answer, hlayout]
        rfl
      have h := layout_answer bus address (.writeByte byte)
      have h' := layout_answer bus' address (.writeByte byte')
      change (bus.answer address (.writeByte byte)).1.map _ =
        (bus'.answer address (.writeByte byte')).1.map _ at hending
      rw [writeEach, writeEach]
      generalize bus.answer address (.writeByte byte) = outcome at hending h
      generalize bus'.answer address (.writeByte byte') = outcome' at hending h'
      obtain ⟨_ | _, bus₁⟩ := outcome <;> obtain ⟨_ | _, bus₁'⟩ := outcome'
      · cases hending
        rfl
      · cases hending
      · cases hending
      · exact ih (h.trans (hlayout.trans h'.symm)) (Nat.succ.inj hlength) (address + 1)

theorem layout_write (bus : Bus Ram) (address : Word) (bytes : List Byte) :
    (bus.write address bytes).2.layout = bus.layout := by
  rw [write]
  split
  · exact layout_writeEach bus address bytes
  · rfl

/-- The layout decides whether the regions are in order. -/
theorem ordered_layout_iff : bus.layout.Ordered ↔ bus.Ordered := by
  constructor
  · rintro ⟨hdecreasing, hlt⟩
    exact ⟨List.pairwise_map.mp hdecreasing, List.forall_mem_map.mp hlt⟩
  · rintro ⟨hdecreasing, hlt⟩
    exact ⟨List.pairwise_map.mpr hdecreasing, List.forall_mem_map.mpr hlt⟩

theorem Ordered.of_layout (h : bus.Ordered) (hlayout : bus'.layout = bus.layout) : bus'.Ordered := by
  rw [← ordered_layout_iff, hlayout, ordered_layout_iff]
  exact h

/-- Whether many bytes can be written depends on the layout and their number only. -/
theorem write_congr (hlayout : bus.layout = bus'.layout) {bytes bytes' : List Byte}
    (hlength : bytes.length = bytes'.length) (address : Word) :
    (bus.write address bytes).1 = (bus'.write address bytes').1 := by
  rw [write, write, hlength]
  split
  · exact writeEach_congr hlayout hlength address
  · rfl

/-- If one of many bytes cannot be written, those in front of it have been. -/
theorem writeEach_of_error {bytes : List Byte} {fault : Fault}
    (h : bus.writeEach address bytes = (.error fault, bus')) :
    ∃ n, ∃ hn : n < bytes.length, bus.writeEach address (bytes.take n) = (.ok (), bus') ∧
      bus'.answer (address + .ofNat n) (.writeByte bytes[n]) = (.error fault, bus') := by
  induction bytes generalizing bus address with
  | nil => cases h
  | cons byte bytes ih =>
    have hkeep := @answer_of_error bus address (.writeByte byte)
    rw [writeEach] at h
    split at h
    next reply bus₁ heq =>
      obtain ⟨n, hn, hwrite, hfault⟩ := ih h
      refine ⟨n + 1, Nat.succ_lt_succ hn, ?_, ?_⟩
      · rw [List.take_succ_cons, writeEach, heq]
        exact hwrite
      · rwa [UInt16.add_assoc, UInt16.add_comm 1, ← show UInt16.ofNat (n + 1) = .ofNat n + 1 from
          UInt16.ofNat_add n 1] at hfault
    next fault' bus₁ heq =>
      cases h
      rw [heq] at hkeep
      obtain rfl : bus' = bus := hkeep rfl
      refine ⟨0, Nat.zero_lt_succ _, rfl, ?_⟩
      rw [show address + .ofNat 0 = address by simp]
      exact heq

/-- A write of many bytes that fails has written those in front of the byte at which it failed, and
    nothing else. -/
theorem write_of_error {bytes : List Byte} {fault : Fault}
    (h : bus.write address bytes = (.error fault, bus')) :
    ∃ n < bytes.length, bus.write address (bytes.take n) = (.ok (), bus') := by
  have haddress := address.toNat_lt
  rw [write] at h
  split at h
  next hfits =>
    obtain ⟨n, hn, hwrite, -⟩ := writeEach_of_error h
    refine ⟨n, hn, ?_⟩
    rw [write, if_pos, hwrite]
    rw [List.length_take]
    omega
  next hfits =>
    cases h
    unfold addressSpace at hfits
    refine ⟨0, by omega, ?_⟩
    rw [List.take_zero, write, if_pos]
    · rfl
    · unfold addressSpace
      rw [List.length_nil]
      omega

end Bus

end WordMachine
