import WordMachine.Proofs.Layout

/-!
# Reading what was written

The laws of a bus of memories that any sequence of changes and accesses has led to: what a write makes
visible, what it leaves alone, and that a byte of a memory stays what it is until something is stored
in it. The memory may be covered by newer regions meanwhile, or be taken off the bus and put on it
again somewhere else. Addresses are compared as numbers, so the last one has no next one.

* `afterWord`, `afterByte`: what can be read after a write.
* `byteAt_of_journey`: a byte stays in a memory wherever the memory goes.
* `readOverWrite_of_reached`: all of the laws.
-/

namespace WordMachine.Bus

/-! ## After a write -/

section

variable {bus : Bus Ram} {a : Word}

/-- What can be read after a word was written. The low byte is at the next address if the same region
    answers there. -/
structure AfterWord (bus after : Bus Ram) (a value : Word) : Prop where
  word : (after.answer a .readWord).1 = .ok value
  high : (after.answer a .readByte).1 = .ok (Word.high value)
  low : ∀ b, b.toNat = a.toNat + 1 → bus.owner b = bus.owner a →
    (after.answer b .readByte).1 = .ok (Word.low value)
  nextByte : ∀ b, b.toNat = a.toNat + 1 → bus.owner b ≠ bus.owner a →
    (after.answer b .readByte).1 = (bus.answer b .readByte).1
  otherByte : ∀ b, b ≠ a → b.toNat ≠ a.toNat + 1 →
    (after.answer b .readByte).1 = (bus.answer b .readByte).1
  otherWord : ∀ b, a.toNat + 2 ≤ b.toNat ∨ b.toNat + 2 ≤ a.toNat →
    (after.answer b .readWord).1 = (bus.answer b .readWord).1

/-- What can be read after a byte was written. The word at the address before it has another byte now,
    unless another region answers there. -/
structure AfterByte (bus after : Bus Ram) (a : Word) (value : Byte) : Prop where
  byte : (after.answer a .readByte).1 = .ok value
  otherByte : ∀ b, b ≠ a → (after.answer b .readByte).1 = (bus.answer b .readByte).1
  otherWord : ∀ b, b ≠ a → b.toNat + 1 ≠ a.toNat →
    (after.answer b .readWord).1 = (bus.answer b .readWord).1
  wordBefore : ∀ b, b.toNat + 1 = a.toNat → bus.owner b ≠ bus.owner a →
    (after.answer b .readWord).1 = (bus.answer b .readWord).1

theorem afterWord {value : Word} (h : (bus.answer a (.writeWord value)).1 = .ok ()) :
    AfterWord bus (bus.answer a (.writeWord value)).2 a value := by
  constructor
  case word => exact readWord_after h
  case high => exact readByte_after h (i := 0) rfl rfl rfl
  case low => exact fun b hb hsame => readByte_after h (i := 1) rfl hb hsame
  case nextByte => exact fun b _ hother => answer_after (Or.inl hother)
  case otherByte =>
    intro b hne hnext
    have hne' : b.toNat ≠ a.toNat := fun h => hne (UInt16.toNat_inj.mp h)
    refine answer_after (Or.inr ?_)
    change a.toNat + 2 ≤ b.toNat ∨ b.toNat + 1 ≤ a.toNat
    omega
  case otherWord => exact fun b hb => answer_after (Or.inr hb)

theorem afterByte {value : Byte} (h : (bus.answer a (.writeByte value)).1 = .ok ()) :
    AfterByte bus (bus.answer a (.writeByte value)).2 a value := by
  have hapart : ∀ b, b ≠ a → b.toNat ≠ a.toNat := fun b hne h => hne (UInt16.toNat_inj.mp h)
  constructor
  case byte => exact readByte_after h (i := 0) rfl rfl rfl
  case otherByte =>
    intro b hne
    have hne' := hapart b hne
    refine answer_after (Or.inr ?_)
    change a.toNat + 1 ≤ b.toNat ∨ b.toNat + 1 ≤ a.toNat
    omega
  case otherWord =>
    intro b hne hbefore
    have hne' := hapart b hne
    refine answer_after (Or.inr ?_)
    change a.toNat + 1 ≤ b.toNat ∨ b.toNat + 2 ≤ a.toNat
    omega
  case wordBefore => exact fun b _ hother => answer_after (Or.inl hother)

end

/-! ## Memories that move -/

/-- Where a memory is: on the bus, in the region of a number, or with whoever took it off. -/
inductive Place where
  | mapped (id : Nat)
  | held (memory : Ram)

/-- The memory at a place has a byte at an address of its own. -/
def ByteAt (bus : Bus Ram) (i : Nat) (byte : Byte) : Place → Prop
  | .mapped id => ∃ region ∈ bus.regions, region.id = id ∧ region.device.bytes[i]? = some byte
  | .held memory => memory.bytes[i]? = some byte

/-- An access stores something at an address of the memory at a place. -/
def StoresAt (bus : Bus Ram) (place : Place) (i : Nat) (a : Word) (request : Request) : Prop :=
  ∃ region, bus.owner a = some region ∧ place = .mapped region.id ∧
    (region.localAddress a).toNat ≤ i ∧ i < (region.localAddress a).toNat + request.stored.length

/-- The ways on which nothing is stored at an address of a memory: other devices come and go, the
    memory is taken off and put on again, and there are accesses of any kind to other bytes. -/
inductive Journey (i : Nat) (bus : Bus Ram) (place : Place) : Bus Ram → Place → Prop
  | start : Journey i bus place bus place
  | map {bus₁ : Bus Ram} {place₁ : Place} (device : Ram) (first last : Word) (remap : Bool) :
      Journey i bus place bus₁ place₁ →
      Journey i bus place (bus₁.map device first last remap) place₁
  | unmap {bus₁ bus₂ : Bus Ram} {place₁ : Place} {id : Nat} {device : Ram} :
      Journey i bus place bus₁ place₁ → bus₁.unmap id = some (device, bus₂) →
      place₁ ≠ .mapped id → Journey i bus place bus₂ place₁
  | takeOff {bus₁ bus₂ : Bus Ram} {id : Nat} {memory : Ram} :
      Journey i bus place bus₁ (.mapped id) → bus₁.unmap id = some (memory, bus₂) →
      Journey i bus place bus₂ (.held memory)
  | putOn {bus₁ : Bus Ram} {memory : Ram} (first last : Word) (remap : Bool) :
      Journey i bus place bus₁ (.held memory) →
      Journey i bus place (bus₁.map memory first last remap) (.mapped bus₁.nextId)
  | access {bus₁ : Bus Ram} {place₁ : Place} {a : Word} {request : Request} :
      Journey i bus place bus₁ place₁ → ¬bus₁.StoresAt place₁ i a request →
      Journey i bus place (bus₁.answer a request).2 place₁
  | write {bus₁ : Bus Ram} {place₁ : Place} {a : Word} {bytes : List Byte} :
      Journey i bus place bus₁ place₁ →
      (∀ k (hk : k < bytes.length), ¬bus₁.StoresAt place₁ i (a + .ofNat k) (.writeByte bytes[k])) →
      Journey i bus place (bus₁.write a bytes).2 place₁

section

variable {bus bus' : Bus Ram} {place : Place} {i : Nat} {byte : Byte}

/-- Where an access stores something depends on the layout only. -/
theorem storesAt_iff_of_layout (h : bus'.layout = bus.layout) {a : Word} {request : Request} :
    bus'.StoresAt place i a request ↔ bus.StoresAt place i a request := by
  have howner := congrArg (owner · a) h
  simp only [owner_layout] at howner
  unfold StoresAt
  cases hbus : bus.owner a with
  | none =>
    rw [hbus] at howner
    rw [Option.map_eq_none_iff.mp howner]
  | some region =>
    rw [hbus, Option.map_some, Option.map_eq_some_iff] at howner
    obtain ⟨region', hbus', hsame⟩ := howner
    have hid := congrArg Region.id hsame
    have hlocal := congrArg Region.localAddress hsame
    simp only [Region.id_withDevice, Region.localAddress_withDevice] at hid hlocal
    rw [hbus']
    simp only [Option.some.injEq, exists_eq_left', hid, hlocal]

theorem byteAt_map (h : bus.ByteAt i byte place) (device : Ram) (first last : Word) (remap : Bool) :
    (bus.map device first last remap).ByteAt i byte place := by
  cases place with
  | mapped id =>
    obtain ⟨region, hmem, hregion⟩ := h
    exact ⟨region, List.mem_cons_of_mem _ hmem, hregion⟩
  | held memory => exact h

theorem byteAt_unmap (hordered : bus.Ordered) {id : Nat} {device : Ram}
    (hunmap : bus.unmap id = some (device, bus')) (hplace : place ≠ .mapped id)
    (h : bus.ByteAt i byte place) : bus'.ByteAt i byte place := by
  obtain ⟨-, rfl⟩ := (unmap_eq_some_iff hordered).mp hunmap
  cases place with
  | mapped id' =>
    obtain ⟨region, hmem, rfl, hbyte⟩ := h
    refine ⟨region, List.mem_filter.mpr ⟨hmem, ?_⟩, rfl, hbyte⟩
    exact decide_eq_true fun hid => hplace (congrArg Place.mapped hid)
  | held memory => exact h

/-- Whoever takes a memory off the bus has the bytes it had there. -/
theorem byteAt_takeOff (hordered : bus.Ordered) {id : Nat} {memory : Ram}
    (hunmap : bus.unmap id = some (memory, bus')) (h : bus.ByteAt i byte (.mapped id)) :
    bus'.ByteAt i byte (.held memory) := by
  obtain ⟨⟨found, hfound, hid, rfl⟩, -⟩ := (unmap_eq_some_iff hordered).mp hunmap
  obtain ⟨region, hmem, hid', hbyte⟩ := h
  rw [hordered.decreasing.eq_of_id_eq hmem hfound (hid'.trans hid.symm)] at hbyte
  exact hbyte

theorem byteAt_answer (hordered : bus.Ordered) {a : Word} {request : Request}
    (hstores : ¬bus.StoresAt place i a request) (h : bus.ByteAt i byte place) :
    (bus.answer a request).2.ByteAt i byte place := by
  cases place with
  | held memory => exact h
  | mapped id =>
    cases howner : bus.owner a with
    | none =>
      rw [answer_of_owner_eq_none howner]
      exact h
    | some owner =>
      have howns := (owns_iff hordered).mp howner
      obtain ⟨region, hmem, rfl, hbyte⟩ := h
      rw [answer_of_owns hordered howns, replace]
      refine ⟨_, List.mem_map.mpr ⟨region, hmem, rfl⟩, ?_⟩
      split
      next hid =>
        obtain rfl : region = owner := hordered.decreasing.eq_of_id_eq hmem howns.mem hid
        refine ⟨rfl, ?_⟩
        rw [← hbyte]
        refine Ram.getElem?_answer ?_
        -- a byte inside the stored ones would be stored at the place itself
        by_contra hinside
        exact hstores ⟨region, howner, rfl, by omega, by omega⟩
      next => exact ⟨rfl, hbyte⟩

theorem byteAt_writeEach (hordered : bus.Ordered) {a : Word} {bytes : List Byte}
    (hstores : ∀ k (hk : k < bytes.length),
      ¬bus.StoresAt place i (a + .ofNat k) (.writeByte bytes[k]))
    (h : bus.ByteAt i byte place) : (bus.writeEach a bytes).2.ByteAt i byte place := by
  induction bytes generalizing bus a with
  | nil => exact h
  | cons first rest ih =>
    have hfirst : ¬bus.StoresAt place i a (.writeByte first) := by
      have hzero := hstores 0 (Nat.zero_lt_succ _)
      rwa [show a + .ofNat 0 = a by simp] at hzero
    have hbyte := byteAt_answer hordered hfirst h
    have hlayout := layout_answer bus a (.writeByte first)
    rw [writeEach]
    generalize bus.answer a (.writeByte first) = outcome at hbyte hlayout
    obtain ⟨_ | _, bus₁⟩ := outcome
    · exact hbyte
    · refine ih (hordered.of_layout hlayout) (fun k hk => ?_) hbyte
      rw [storesAt_iff_of_layout hlayout, UInt16.add_assoc, UInt16.add_comm 1]
      have hnext := hstores (k + 1) (Nat.succ_lt_succ hk)
      rwa [UInt16.ofNat_add] at hnext

/-- A byte of a memory stays what it is as long as nothing is stored in it. -/
theorem byteAt_of_journey (hordered : bus.Ordered) (h : bus.ByteAt i byte place)
    {bus' : Bus Ram} {place' : Place} (hjourney : Journey i bus place bus' place') :
    bus'.Ordered ∧ bus'.ByteAt i byte place' := by
  induction hjourney with
  | start => exact ⟨hordered, h⟩
  | map device first last remap _ ih =>
    exact ⟨ih.1.map device first last remap, byteAt_map ih.2 device first last remap⟩
  | unmap _ hunmap hplace ih => exact ⟨ih.1.unmap hunmap, byteAt_unmap ih.1 hunmap hplace ih.2⟩
  | takeOff _ hunmap ih => exact ⟨ih.1.unmap hunmap, byteAt_takeOff ih.1 hunmap ih.2⟩
  | putOn first last remap _ ih =>
    exact ⟨ih.1.map _ first last remap, _, List.mem_cons_self, rfl, ih.2⟩
  | access _ hstores ih =>
    exact ⟨ih.1.of_layout (layout_answer _ _ _), byteAt_answer ih.1 hstores ih.2⟩
  | write _ hstores ih =>
    refine ⟨ih.1.of_layout (layout_write _ _ _), ?_⟩
    rw [write]
    split
    · exact byteAt_writeEach ih.1 hstores ih.2
    · exact ih.2

theorem byteAt_of_readByte {a : Word} {region : Region Ram} (howner : bus.owner a = some region)
    (h : (bus.answer a .readByte).1 = .ok byte) :
    bus.ByteAt (region.localAddress a).toNat byte (.mapped region.id) := by
  refine ⟨region, List.mem_of_find?_eq_some howner, rfl, ?_⟩
  rw [answer_of_owner_eq_some howner] at h
  change Ram.readByte _ _ = _ at h
  rw [Ram.readByte_eq] at h
  split at h
  next heq =>
    cases h
    exact heq
  next => cases h

theorem readByte_of_byteAt (hordered : bus.Ordered) {b : Word} {region : Region Ram}
    (howner : bus.owner b = some region)
    (h : bus.ByteAt (region.localAddress b).toNat byte (.mapped region.id)) :
    (bus.answer b .readByte).1 = .ok byte := by
  obtain ⟨found, hmem, hid, hbyte⟩ := h
  obtain rfl : found = region :=
    hordered.decreasing.eq_of_id_eq hmem (List.mem_of_find?_eq_some howner) hid
  rw [answer_of_owner_eq_some howner]
  change Ram.readByte _ _ = _
  rw [Ram.readByte_eq, hbyte]

end

/-! ## The laws -/

/-- The buses of memories that any sequence of changes and accesses leads to. -/
inductive Reached : Bus Ram → Prop
  | empty : Reached empty
  | map {bus : Bus Ram} (device : Ram) (first last : Word) (remap : Bool) :
      Reached bus → Reached (bus.map device first last remap)
  | unmap {bus bus' : Bus Ram} {id : Nat} {device : Ram} :
      Reached bus → bus.unmap id = some (device, bus') → Reached bus'
  | access {bus : Bus Ram} (a : Word) (request : Request) :
      Reached bus → Reached (bus.answer a request).2
  | write {bus : Bus Ram} (a : Word) (bytes : List Byte) :
      Reached bus → Reached (bus.write a bytes).2

theorem Reached.ordered {bus : Bus Ram} (h : bus.Reached) : bus.Ordered := by
  induction h with
  | empty => exact ordered_empty
  | map device first last remap _ ih => exact ih.map device first last remap
  | unmap _ hunmap ih => exact ih.unmap hunmap
  | access a request _ ih => exact ih.of_layout (layout_answer _ a request)
  | write a bytes _ ih => exact ih.of_layout (layout_write _ a bytes)

/-- The laws of reading and writing on a bus of memories. -/
structure ReadOverWrite (bus : Bus Ram) : Prop where
  wordWritten : ∀ a value, (bus.answer a (.writeWord value)).1 = .ok () →
    AfterWord bus (bus.answer a (.writeWord value)).2 a value
  byteWritten : ∀ a value, (bus.answer a (.writeByte value)).1 = .ok () →
    AfterByte bus (bus.answer a (.writeByte value)).2 a value
  /-- an access that fails changes no byte of any memory -/
  failed : ∀ a request fault, (bus.answer a request).1 = .error fault →
    (bus.answer a request).2 = bus
  /-- a write of many bytes that fails has written the bytes in front of the one at which it failed,
      which has changed nothing -/
  failedBulk : ∀ a bytes fault bus', bus.write a bytes = (.error fault, bus') →
    ∃ n < bytes.length, bus.write a (bytes.take n) = (.ok (), bus')
  /-- how an access ends depends on the ranges of the regions and the sizes of the memories -/
  decided : ∀ other : Bus Ram, other.layout = bus.layout →
    (∀ a request request', request.width = request'.width →
      Device.ending bus a request = Device.ending other a request') ∧
    ∀ a bytes bytes', bytes.length = bytes'.length → (bus.write a bytes).1 = (other.write a bytes').1
  /-- a byte is read back at whatever address is translated to its address in the memory, if nothing
      was stored there meanwhile -/
  kept : ∀ a region byte, bus.owner a = some region → (bus.answer a .readByte).1 = .ok byte →
    ∀ bus' id, Journey (region.localAddress a).toNat bus (.mapped region.id) bus' (.mapped id) →
      ∀ b region', bus'.owner b = some region' → region'.id = id →
        region'.localAddress b = region.localAddress a → (bus'.answer b .readByte).1 = .ok byte

theorem readOverWrite_of_reached {bus : Bus Ram} (h : bus.Reached) : ReadOverWrite bus := by
  constructor
  case wordWritten => exact fun a value => afterWord
  case byteWritten => exact fun a value => afterByte
  case failed => exact fun a request fault => answer_of_error
  case failedBulk => exact fun a bytes fault bus' => write_of_error
  case decided =>
    intro other hlayout
    refine ⟨fun a request request' hwidth => ?_, fun a bytes bytes' hlength => ?_⟩
    · rw [ending_answer, ending_answer, hlayout, hwidth]
    · exact write_congr hlayout.symm hlength a
  case kept =>
    intro a region byte howner hread bus' id hjourney b region' howner' hid hlocal
    obtain ⟨hordered, hbyte⟩ :=
      byteAt_of_journey h.ordered (byteAt_of_readByte howner hread) hjourney
    subst hid
    rw [← hlocal] at hbyte
    exact readByte_of_byteAt hordered howner' hbyte

/-- Two memories next to each other, the first one longer than its region. -/
def seam : Bus Ram :=
  (empty.map (.zeroed 0x20) 0x1000 0x100f true).map (.zeroed 0x10) 0x1010 0x101f true

/-- The same after a word was written at the last address of the first region. -/
def seamWritten : Bus Ram := (seam.answer 0x100f (.writeWord 0x1234)).2

theorem readOverWrite_seam :
    (seamWritten.answer 0x100f .readWord).1 = .ok 0x1234 ∧
      (seamWritten.answer 0x1010 .readByte).1 = (seam.answer 0x1010 .readByte).1 ∧
      ∀ memory bus, seamWritten.unmap 0 = some (memory, bus) →
        ((bus.map memory 0x2000 0x200f true).answer 0x200f .readByte).1 = .ok 0x12 := by
  have hseam : seam.Reached := .map _ _ _ _ (.map _ _ _ _ .empty)
  have hwrite : (seam.answer 0x100f (.writeWord 0x1234)).1 = .ok () := by decide +kernel
  have hafter := (readOverWrite_of_reached hseam).wordWritten 0x100f 0x1234 hwrite
  have hother : seam.owner 0x1010 ≠ seam.owner 0x100f := by
    intro h
    cases congrArg (Option.map Region.id) h
  refine ⟨hafter.word, hafter.nextByte 0x1010 (by decide) hother, fun memory bus hunmap => ?_⟩
  have hlaws := readOverWrite_of_reached (.access 0x100f (.writeWord 0x1234) hseam)
  have hplace : (seamWritten.owner 0x100f).map (fun r => (r.id, r.localAddress 0x100f)) =
      some (0, 0x200f - 0x2000) := by decide +kernel
  obtain ⟨region, howner, hregion⟩ := Option.map_eq_some_iff.mp hplace
  obtain ⟨hid, hlocal⟩ := Prod.mk.inj hregion
  refine hlaws.kept 0x100f region 0x12 howner hafter.high _ _
    (.putOn 0x2000 0x200f true (.takeOff (hid ▸ .start) hunmap)) 0x200f
    ⟨bus.nextId, 0x2000, 0x200f, true, memory⟩ ?_ rfl hlocal.symm
  rw [owner_map, if_pos (by decide)]

end WordMachine.Bus
