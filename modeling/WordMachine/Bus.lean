import WordMachine.Device

/-!
# The bus

The address space of the machine, made of regions each of which hands the addresses it covers to a
device. Where regions overlap the newest one counts. A word access goes wholly to the device at
its first byte. The bus is itself a device.

* `answer_of_owner_eq_some`, `answer_of_owner_eq_none`: an access is answered by the owner of its
  address, and fails without one.
* `owner_map`: a new region takes over the addresses it covers and no others.
-/

namespace WordMachine

variable {δ : Type}

/-- A range of addresses with the device that answers there. -/
structure Region (δ : Type) where
  /-- the number that tells this region from all others the bus ever had -/
  id : Nat
  first : Word
  /-- the last address covered; a region that ends before it begins covers none -/
  last : Word
  /-- whether the device sees addresses relative to the start of the region -/
  remap : Bool
  device : δ
deriving Repr

namespace Region

/-- Whether a region covers an address. -/
def contains (region : Region δ) (address : Word) : Bool :=
  region.first ≤ address && address ≤ region.last

/-- The address under which the device of a region sees an address of the bus. -/
def localAddress (region : Region δ) (address : Word) : Word :=
  if region.remap then address - region.first else address

/-- Inside a region the relative address is the distance from its start. -/
theorem toNat_localAddress {region : Region δ} {address : Word} (h : region.contains address) :
    (region.localAddress address).toNat =
      if region.remap then address.toNat - region.first.toNat else address.toNat := by
  have hf : region.first ≤ address := by
    simp only [contains, Bool.and_eq_true, decide_eq_true_eq] at h
    exact h.1
  unfold localAddress
  split
  · exact UInt16.toNat_sub_of_le _ _ hf
  · rfl

/-- The answer of the device of a region to a request at an address of the bus. -/
def answer [Device δ] (region : Region δ) (address : Word) (request : Request) :
    Except Fault request.Reply × Region δ :=
  let inner := region.localAddress address
  match region with
  | ⟨id, first, last, remap, device⟩ =>
    match Device.answer device inner request with
    | (reply, device) => (reply, ⟨id, first, last, remap, device⟩)

/-- The answer of the first region that covers the address. -/
def answerFirst [Device δ] (address : Word) (request : Request) :
    List (Region δ) → Except Fault request.Reply × List (Region δ)
  | [] => (.error (.unmapped address), [])
  | region :: older =>
    if region.contains address then
      match region.answer address request with
      | (reply, region) => (reply, region :: older)
    else
      match answerFirst address request older with
      | (reply, older) => (reply, region :: older)

end Region

/-- The regions of an address space. -/
structure Bus (δ : Type) where
  /-- the regions, the newest first -/
  regions : List (Region δ)
  /-- the number that the next region will have -/
  nextId : Nat
deriving Repr

namespace Bus

/-- A bus without devices. -/
def empty : Bus δ := ⟨[], 0⟩

/-- The number of bytes that can be addressed. -/
def addressSpace : Nat := 0x10000

/-! ## Regions -/

/-- The bus after a device is put over the addresses from `first` to `last`; the new region has
    the number `bus.nextId`. -/
def map (bus : Bus δ) (device : δ) (first last : Word) (remap : Bool) : Bus δ :=
  ⟨⟨bus.nextId, first, last, remap, device⟩ :: bus.regions, bus.nextId + 1⟩

/-- The device of the region with the given number and the bus without that region, if it has
    one. -/
def unmap (bus : Bus δ) (id : Nat) : Option (δ × Bus δ) :=
  match bus.regions.find? (·.id == id) with
  | some region => some (region.device, ⟨bus.regions.eraseP (·.id == id), bus.nextId⟩)
  | none => none

/-- The region that answers at an address. -/
def owner (bus : Bus δ) (address : Word) : Option (Region δ) :=
  bus.regions.find? (·.contains address)

/-! ## Accesses -/

section

variable [Device δ]

/-- The answer of the newest region that covers the address. -/
def answer : Bus δ → Word → (request : Request) → Except Fault request.Reply × Bus δ
  | ⟨regions, nextId⟩, address, request =>
    match Region.answerFirst address request regions with
    | (reply, regions) => (reply, ⟨regions, nextId⟩)

instance : Device (Bus δ) := ⟨answer⟩

theorem device_answer (bus : Bus δ) (address : Word) (request : Request) :
    Device.answer bus address request = bus.answer address request := rfl

/-- Writes bytes one by one from an address on, up to the first that fails. -/
def writeEach (bus : Bus δ) (address : Word) : List Byte → Except Fault Unit × Bus δ
  | [] => (.ok (), bus)
  | byte :: rest =>
    match bus.answer address (.writeByte byte) with
    | (.ok _, bus) => writeEach bus (address + 1) rest
    | (.error fault, bus) => (.error fault, bus)

/-- Writes bytes from an address on, none of them if they would run past the end of the address
    space. -/
def write (bus : Bus δ) (address : Word) (bytes : List Byte) : Except Fault Unit × Bus δ :=
  if address.toNat + bytes.length ≤ addressSpace then
    bus.writeEach address bytes
  else
    (.error (.addressOverflow addressSpace), bus)

/-- Reads bytes from an address on, around the end of the address space, up to the first that
    fails, and puts them behind those already read. -/
def readEach (bus : Bus δ) (address : Word) (done : Array Byte) :
    Nat → Except Fault (Array Byte) × Bus δ
  | 0 => (.ok done, bus)
  | count + 1 =>
    match bus.answer address .readByte with
    | (.ok byte, bus) => readEach bus (address + 1) (done.push byte) count
    | (.error fault, bus) => (.error fault, bus)

/-- Reads `count` bytes from an address on, around the end of the address space. -/
def read (bus : Bus δ) (address : Word) (count : Nat) : Except Fault (Array Byte) × Bus δ :=
  bus.readEach address #[] count

end

/-! ## Owners -/

theorem owner_map (bus : Bus δ) (device : δ) (first last : Word) (remap : Bool) (address : Word) :
    (bus.map device first last remap).owner address =
      if first ≤ address ∧ address ≤ last then some ⟨bus.nextId, first, last, remap, device⟩
      else bus.owner address := by
  by_cases h : first ≤ address ∧ address ≤ last
  · rw [if_pos h]
    simp [map, owner, Region.contains, h]
  · rw [if_neg h]
    simp only [map, owner]
    rw [List.find?_cons_of_neg]
    simpa [Region.contains] using h

theorem answer_of_owner_eq_none [Device δ] {bus : Bus δ} {address : Word}
    (h : bus.owner address = none) (request : Request) :
    bus.answer address request = (.error (.unmapped address), bus) := by
  obtain ⟨regions, nextId⟩ := bus
  have key : Region.answerFirst address request regions =
      (.error (.unmapped address), regions) := by
    unfold owner at h
    induction regions with
    | nil => rfl
    | cons region older ih =>
      have hc := List.find?_eq_none.mp h
      rw [Region.answerFirst, if_neg (hc region List.mem_cons_self),
        ih (List.find?_eq_none.mpr fun r hr => hc r (List.mem_cons_of_mem _ hr))]
  rw [answer, key]

theorem answer_of_owner_eq_some [Device δ] {bus : Bus δ} {address : Word} {region : Region δ}
    (h : bus.owner address = some region) (request : Request) :
    (bus.answer address request).1 =
      (Device.answer region.device (region.localAddress address) request).1 := by
  obtain ⟨regions, nextId⟩ := bus
  have key : (Region.answerFirst address request regions).1 =
      (Device.answer region.device (region.localAddress address) request).1 := by
    unfold owner at h
    induction regions with
    | nil => cases h
    | cons newest older ih =>
      rw [Region.answerFirst]
      simp only [List.find?_cons] at h
      by_cases hc : newest.contains address
      · simp only [hc] at h
        cases h
        rw [if_pos hc]
        rfl
      · simp only [hc] at h
        rw [if_neg hc]
        exact ih h
  exact key

end Bus

end WordMachine
