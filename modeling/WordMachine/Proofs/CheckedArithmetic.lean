import WordMachine.Device.Screen
import WordMachine.Machine
import WordMachine.Proofs.Regions

/-!
# Arithmetic that cannot fail

The sums, differences, shifts, narrowings and indices of the machine, the bus and the devices are not
guarded where they are computed: each relies on a test made elsewhere, or on the width of its operands.
Here they are computed once more with checked operations, which give nothing if an exact result does not
fit or an index is out of range. The checked functions make the same tests as the others and no more, and
they always give what the others give.

* `sub?_eq_some_iff` and its neighbours: a checked operation gives the exact result or nothing.
* `localAddress?_eq`: the difference needs that the region covers the address.
* `answerFirst?_eq`: every access to the bus has made that test.
* `index?_eq`: the test that the memory makes before it takes one byte or two.
* `writeFrom?_eq`: the loop of a write, by induction on the bytes, with the end of the bytes inside the
  address space.
* `nextId_command`, `commands?_eq`: any sequence of steps, accesses and changes of the regions, by
  induction on them, with the number of the next region.
* `neverOverflows`: all of this together.
-/

namespace WordMachine

/-! ## Checked operations -/

namespace Word

/-- The sum of two words, if it is a word. -/
def add? (a b : Word) : Option Word := if a.toNat + b.toNat < 0x10000 then some (a + b) else none

/-- The difference of two words, if it is a word. -/
def sub? (a b : Word) : Option Word := if b.toNat ≤ a.toNat then some (a - b) else none

/-- The product of two words, if it is a word. -/
def mul? (a b : Word) : Option Word := if a.toNat * b.toNat < 0x10000 then some (a * b) else none

/-- A number as a word, if that loses nothing. -/
def ofNat? (n : Nat) : Option Word := if n < 0x10000 then some (.ofNat n) else none

variable {a b c : Word} {n : Nat}

theorem add?_eq_some_iff : add? a b = some c ↔ c.toNat = a.toNat + b.toNat := by
  have hc := c.toNat_lt
  rw [add?]
  split
  · rw [Option.some.injEq, ← UInt16.toNat_inj, UInt16.toNat_add, Nat.mod_eq_of_lt (by assumption)]
    exact eq_comm
  · simp only [reduceCtorEq, false_iff]
    omega

theorem sub?_eq_some_iff : sub? a b = some c ↔ c.toNat + b.toNat = a.toNat := by
  rw [sub?]
  split
  next h =>
    rw [Option.some.injEq, ← UInt16.toNat_inj, UInt16.toNat_sub_of_le _ _ (UInt16.le_iff_toNat_le.mpr h)]
    omega
  · simp only [reduceCtorEq, false_iff]
    omega

theorem mul?_eq_some_iff : mul? a b = some c ↔ c.toNat = a.toNat * b.toNat := by
  have hc := c.toNat_lt
  rw [mul?]
  split
  · rw [Option.some.injEq, ← UInt16.toNat_inj, UInt16.toNat_mul, Nat.mod_eq_of_lt (by assumption)]
    exact eq_comm
  · simp only [reduceCtorEq, false_iff]
    omega

theorem ofNat?_eq_some_iff : ofNat? n = some c ↔ c.toNat = n := by
  have hc := c.toNat_lt
  rw [ofNat?]
  split
  next h =>
    rw [Option.some.injEq, ← UInt16.toNat_inj, UInt16.toNat_ofNat_of_lt' h]
    exact eq_comm
  · simp only [reduceCtorEq, false_iff]
    omega

end Word

/-- The sum of two sizes or region numbers, if it has 64 bits. -/
def sum? (a b : Nat) : Option Nat := if a + b < UInt64.size then some (a + b) else none

/-- Bits moved to the left by an amount that is smaller than their number. -/
def shiftLeft? (a amount : UInt32) : Option UInt32 :=
  if amount < 32 then some (a <<< amount) else none

/-- Bits moved to the right by an amount that is smaller than their number. -/
def shiftRight? (a amount : UInt32) : Option UInt32 :=
  if amount < 32 then some (a >>> amount) else none

/-- The bytes after one of them is written, if it is there. -/
def store? (bytes : Array Byte) (i : Nat) (value : Byte) : Option (Array Byte) :=
  if h : i < bytes.size then some (bytes.set i value) else none

theorem store?_eq {bytes : Array Byte} {i : Nat} {value : Byte} (h : i < bytes.size) :
    store? bytes i value = some (bytes.set i value) := dif_pos h

/-! ## Registers and operations -/

/-- The register that an operand byte names, with a checked look into the table. -/
def Register.ofByte? (byte : Byte) : Option Register := all[byte.toNat % count]?

theorem Register.ofByte?_eq (byte : Byte) : ofByte? byte = some (ofByte byte) :=
  Vector.getElem?_eq_getElem (Nat.mod_lt byte.toNat (by decide))

namespace RegisterFile

/-- The value of a register, with checked reads. -/
def get? (file : RegisterFile) (r : Register) : Option Word := do
  let high ← file.bytes[r.offset]?
  let low ← file.bytes[r.offset + 1]?
  return Word.ofBytes high low

/-- The bytes of a register file after a value is written to a register, with checked writes. -/
def set? (file : RegisterFile) (r : Register) (value : Word) : Option (Array Byte) := do
  let bytes ← store? file.bytes.toArray r.offset (Word.high value)
  store? bytes (r.offset + 1) (Word.low value)

theorem get?_eq (file : RegisterFile) (r : Register) : file.get? r = some (file.get r) := by
  have hr := r.offset_lt
  rw [get?, Vector.getElem?_eq_getElem hr, Vector.getElem?_eq_getElem (Nat.lt_of_succ_lt hr)]
  rfl

theorem set?_eq (file : RegisterFile) (r : Register) (value : Word) :
    file.set? r value = some (file.set r value).bytes.toArray := by
  have hr := r.offset_lt
  have hsize := file.bytes.size_toArray
  rw [set?, store?_eq (by omega)]
  exact store?_eq (by rw [Array.size_set]; omega)

end RegisterFile

/-- A shift, with an amount that is checked to be smaller than the number of bits. Bits that a left shift
    moves out of the word are cut off; a right shift has to leave a word by itself. -/
def Shift.checked : Shift → Word → Word → Option Word
  | left, a, amount => do
    let bits ← shiftLeft? a.toUInt32 (amount &&& 0x1f).toUInt32
    Word.ofNat? (bits &&& 0xffff).toNat
  | right, a, amount => do
    let bits ← shiftRight? a.toUInt32 (amount &&& 0x1f).toUInt32
    Word.ofNat? bits.toNat

theorem toNat_lowFive (amount : Word) : (amount &&& 0x1f).toUInt32 = amount.toUInt32 % 32 := by
  apply UInt32.toNat_inj.mp
  have := Nat.and_two_pow_sub_one_eq_mod amount.toNat 5
  simpa using this

theorem Shift.checked_eq (direction : Shift) (a amount : Word) :
    direction.checked a amount = some (direction.apply a amount) := by
  have hlt : amount.toUInt32 % 32 < 32 := by
    simp [UInt32.lt_iff_toNat_lt]
    omega
  cases direction with
  | left =>
    rw [checked, toNat_lowFive, shiftLeft?, if_pos hlt]
    refine Word.ofNat?_eq_some_iff.mpr ?_
    rw [apply, UInt32.toNat_toUInt16]
    exact (Nat.and_two_pow_sub_one_eq_mod _ 16).symm
  | right =>
    -- no bits are cut off: those of a word that are moved to the right are less than they were
    rw [checked, toNat_lowFive, shiftRight?, if_pos hlt]
    refine Word.ofNat?_eq_some_iff.mpr ?_
    rw [toNat_apply_right]
    simp

/-- The sum of two addresses; if it is no word, it is computed once more with 32 bits. -/
def effectiveAddress? (base offset : Word) : Option (Except Fault Word) :=
  match Word.add? base offset with
  | some sum => some (.ok sum)
  | none =>
    if base.toNat + offset.toNat < UInt32.size then
      some (.error (.addressOverflow (base.toNat + offset.toNat)))
    else none

theorem effectiveAddress?_eq (base offset : Word) :
    effectiveAddress? base offset = some (effectiveAddress base offset) := by
  have hbase := base.toNat_lt
  have hoffset := offset.toNat_lt
  rw [effectiveAddress?, Word.add?, effectiveAddress]
  by_cases h : base.toNat + offset.toNat < 0x10000
  · rw [if_pos h, if_pos h]
  · -- the sum that the error holds is one of two words, and has 17 bits
    rw [if_neg h, if_neg h]
    exact if_pos (by change _ < 0x100000000; omega)

/-! ## Devices -/

namespace Ram

/-- The index of an address at which a number of bytes are stored. -/
def index? (ram : Ram) (address : Word) (width : Nat) : Option (Except Fault Nat) := do
  let behind ← sum? address.toNat width
  if ram.size < behind then return .error (.outOfBounds address ram.size)
  return .ok address.toNat

/-- A memory that begins with an image, which is copied over as many of its zeros. -/
def ofImage? (image : Array Byte) (size : Nat) : Option (Except Fault Ram) :=
  if size < image.size then some (.error (.imageTooLarge image.size size))
  else
    let zeros := (zeroed size).bytes
    if image.size ≤ zeros.size then
      some (.ok ⟨image ++ zeros.extract image.size zeros.size⟩)
    else none

/-- The byte at an address, with a checked read behind the test of the address. -/
def readByte? (ram : Ram) (address : Word) : Option (Except Fault Byte) := do
  match ← ram.index? address 1 with
  | .error fault => return .error fault
  | .ok i => return .ok (← ram.bytes[i]?)

/-- The word at an address, with checked reads behind one test of the address. -/
def readWord? (ram : Ram) (address : Word) : Option (Except Fault Word) := do
  match ← ram.index? address 2 with
  | .error fault => return .error fault
  | .ok i =>
    let high ← ram.bytes[i]?
    let low ← ram.bytes[← sum? i 1]?
    return .ok (Word.ofBytes high low)

/-- The memory after a byte is written to an address, with a checked write. -/
def writeByte? (ram : Ram) (address : Word) (value : Byte) : Option (Except Fault Unit × Ram) := do
  match ← ram.index? address 1 with
  | .error fault => return (.error fault, ram)
  | .ok i => return (.ok (), ⟨← store? ram.bytes i value⟩)

/-- The memory after a word is written to an address, with checked writes behind one test of the
    address. -/
def writeWord? (ram : Ram) (address value : Word) : Option (Except Fault Unit × Ram) := do
  match ← ram.index? address 2 with
  | .error fault => return (.error fault, ram)
  | .ok i =>
    let bytes ← store? ram.bytes i (Word.high value)
    let bytes ← store? bytes (← sum? i 1) (Word.low value)
    return (.ok (), ⟨bytes⟩)

/-- The answer of a memory, computed with checked operations. -/
def answer? (ram : Ram) (address : Word) :
    (request : Request) → Option (Except Fault request.Reply × Ram)
  | .readByte => (ram.readByte? address).map (·, ram)
  | .readWord => (ram.readWord? address).map (·, ram)
  | .writeByte value => ram.writeByte? address value
  | .writeWord value => ram.writeWord? address value

theorem ofImage?_eq (image : Array Byte) (size : Nat) :
    ofImage? image size = some (ofImage image size) := by
  rw [ofImage?, ofImage]
  by_cases h : image.size ≤ size
  · have hzeros : image.size ≤ (zeroed size).bytes.size := by rwa [zeroed, Array.size_replicate]
    rw [if_neg (Nat.not_lt.mpr h), if_pos h]
    dsimp only
    rw [if_pos hzeros]
    simp [zeroed]
  · rw [if_pos (Nat.lt_of_not_le h), if_neg h]

variable {ram : Ram} {address : Word} {width : Nat}

theorem sum?_eq_of_le (hwidth : width ≤ 2) :
    sum? address.toNat width = some (address.toNat + width) := by
  have haddress := address.toNat_lt
  exact if_pos (by change _ < 0x10000000000000000; omega)

/-- The test of an address does not overflow. -/
theorem index?_eq_ok (hwidth : width ≤ 2) (h : address.toNat + width ≤ ram.size) :
    ram.index? address width = some (.ok address.toNat) := by
  rw [index?, sum?_eq_of_le hwidth]
  exact if_neg (Nat.not_lt.mpr h)

theorem index?_eq_error (hwidth : width ≤ 2) (h : ¬address.toNat + width ≤ ram.size) :
    ram.index? address width = some (.error (.outOfBounds address ram.size)) := by
  rw [index?, sum?_eq_of_le hwidth]
  exact if_pos (Nat.lt_of_not_le h)

theorem readByte?_eq (ram : Ram) (address : Word) :
    ram.readByte? address = some (ram.readByte address) := by
  rw [readByte?, readByte]
  by_cases h : address.toNat < ram.bytes.size
  · rw [dif_pos h, index?_eq_ok (by decide) h]
    dsimp only [Option.bind_eq_bind, Option.bind_some]
    rw [Array.getElem?_eq_getElem h]
    rfl
  · rw [dif_neg h, index?_eq_error (by decide) h]
    rfl

theorem readWord?_eq (ram : Ram) (address : Word) :
    ram.readWord? address = some (ram.readWord address) := by
  rw [readWord?, readWord]
  by_cases h : address.toNat + 1 < ram.bytes.size
  · rw [dif_pos h, index?_eq_ok (by decide) h]
    dsimp only [Option.bind_eq_bind, Option.bind_some]
    rw [Array.getElem?_eq_getElem (Nat.lt_of_succ_lt h), sum?_eq_of_le (by decide)]
    dsimp only [Option.bind_eq_bind, Option.bind_some]
    rw [Array.getElem?_eq_getElem h]
    rfl
  · rw [dif_neg h, index?_eq_error (by decide) h]
    rfl

theorem writeByte?_eq (ram : Ram) (address : Word) (value : Byte) :
    ram.writeByte? address value = some (ram.writeByte address value) := by
  obtain ⟨bytes⟩ := ram
  rw [writeByte?, writeByte]
  by_cases h : address.toNat < bytes.size
  · rw [dif_pos h, index?_eq_ok (by decide) h]
    dsimp only [Option.bind_eq_bind, Option.bind_some]
    rw [store?_eq h]
    rfl
  · rw [dif_neg h, index?_eq_error (by decide) h]
    rfl

theorem writeWord?_eq (ram : Ram) (address value : Word) :
    ram.writeWord? address value = some (ram.writeWord address value) := by
  obtain ⟨bytes⟩ := ram
  rw [writeWord?, writeWord]
  by_cases h : address.toNat + 1 < bytes.size
  · rw [dif_pos h, index?_eq_ok (by decide) h]
    dsimp only [Option.bind_eq_bind, Option.bind_some]
    rw [store?_eq (Nat.lt_of_succ_lt h), sum?_eq_of_le (by decide)]
    dsimp only [Option.bind_eq_bind, Option.bind_some]
    rw [store?_eq (by rwa [Array.size_set])]
    rfl
  · rw [dif_neg h, index?_eq_error (by decide) h]
    rfl

/-- Behind the test of the address all bytes are there. -/
theorem answer?_eq (ram : Ram) (address : Word) (request : Request) :
    ram.answer? address request = some (Device.answer ram address request) := by
  cases request with
  | readByte =>
    rw [answer?, readByte?_eq]
    rfl
  | readWord =>
    rw [answer?, readWord?_eq]
    rfl
  | writeByte value => exact writeByte?_eq ram address value
  | writeWord value => exact writeWord?_eq ram address value

end Ram

namespace Screen

/-- The row and the column of the cell at an address, counted from one, computed with words. -/
def cell? (address : Word) : Option (Word × Word) := do
  let column ← Word.add? (address % 16) 1
  let row ← Word.add? (address / 16) 1
  return (row, ← Word.mul? column 2)

/-- What moves the cursor to the cell at an address. -/
def cursorText? (address : Word) : Option (List (List Char)) := do
  let (row, column) ← cell? address
  return [[escape, '['], Nat.toDigits 10 row.toNat, [';'], Nat.toDigits 10 column.toNat, ['H']]

/-- The answer of a screen, with the cell computed with checked operations. -/
def answer? {σ : Type} [Sink σ] (screen : Screen σ) (address : Word) :
    (request : Request) → Option (Except Fault request.Reply × Screen σ)
  | .readByte => some (.ok 0, screen)
  | .readWord => some (.ok 0, screen)
  | .writeByte _ => some (.ok (), screen)
  | .writeWord value => do
    let cursor ← cursorText? address
    let pieces := commandText (Word.high value) ++ cursor ++ [[Char.ofUInt8 (Word.low value)]]
    match send screen.sink (pieces.map encode) with
    | (.ok _, sink) => return (.ok (), ⟨sink⟩)
    | (.error reason, sink) => return (.error (.deviceFailure reason), ⟨sink⟩)

/-- There are 4096 rows and 16 columns, each as wide as two characters. -/
theorem cell?_eq (address : Word) :
    cell? address = some (address / 16 + 1, (address % 16 + 1) * 2) := by
  have haddress := address.toNat_lt
  have hcolumn : Word.add? (address % 16) 1 = some (address % 16 + 1) := by
    rw [Word.add?_eq_some_iff]
    simp
    omega
  have hrow : Word.add? (address / 16) 1 = some (address / 16 + 1) := by
    rw [Word.add?_eq_some_iff]
    simp
    omega
  have hwide : Word.mul? (address % 16 + 1) 2 = some ((address % 16 + 1) * 2) := by
    rw [Word.mul?_eq_some_iff]
    simp
    omega
  rw [cell?, hcolumn, hrow]
  dsimp only [Option.bind_eq_bind, Option.bind_some]
  rw [hwide]
  rfl

theorem cursorText?_eq (address : Word) : cursorText? address = some (cursorText address) := by
  have haddress := address.toNat_lt
  have hrow : (address / 16 + 1).toNat = address.toNat / columns + 1 := by
    simp [columns]
    omega
  have hcolumn : ((address % 16 + 1) * 2).toNat = 2 * (address.toNat % columns + 1) := by
    simp [columns]
    omega
  rw [cursorText?, cell?_eq, cursorText, ← hrow, ← hcolumn]
  rfl

theorem answer?_eq {σ : Type} [Sink σ] (screen : Screen σ) (address : Word) (request : Request) :
    screen.answer? address request = some (Device.answer screen address request) := by
  cases request with
  | readByte | readWord | writeByte => rfl
  | writeWord value =>
    change _ = some (screen.writeWord address value)
    rw [answer?, cursorText?_eq, writeWord, rendering]
    dsimp only [Option.bind_eq_bind, Option.bind_some]
    generalize send screen.sink _ = sent
    obtain ⟨_ | _, sink⟩ := sent <;> rfl

end Screen

/-! ## The bus -/

/-- What can be put on a bus: a memory, a screen or a device from elsewhere. -/
abbrev Mounted (σ ε : Type) := Ram ⊕ Screen σ ⊕ ε

variable {σ ε : Type} [Sink σ] [Device ε]

namespace Mounted

/-- The answer of a device. What devices from elsewhere compute is not looked at. -/
def answer? : Mounted σ ε → Word → (request : Request) →
    Option (Except Fault request.Reply × Mounted σ ε)
  | .inl ram, address, request =>
    (ram.answer? address request).map fun (reply, ram) => (reply, .inl ram)
  | .inr (.inl screen), address, request =>
    (screen.answer? address request).map fun (reply, screen) => (reply, .inr (.inl screen))
  | .inr (.inr device), address, request =>
    match Device.answer device address request with
    | (reply, device) => some (reply, .inr (.inr device))

theorem answer?_eq (device : Mounted σ ε) (address : Word) (request : Request) :
    answer? device address request = some (Device.answer device address request) := by
  match device with
  | .inl ram =>
    rw [answer?, ram.answer?_eq]
    rfl
  | .inr (.inl screen) =>
    rw [answer?, screen.answer?_eq]
    rfl
  | .inr (.inr device) => rfl

end Mounted

namespace Region

variable {region : Region (Mounted σ ε)} {address : Word}

/-- The address under which the device of a region sees an address of the bus, by a checked
    difference. -/
def localAddress? {δ : Type} (region : Region δ) (address : Word) : Option Word :=
  if region.remap then Word.sub? address region.first else some address

/-- The answer of the device of a region. -/
def answer? (region : Region (Mounted σ ε)) (address : Word) (request : Request) :
    Option (Except Fault request.Reply × Region (Mounted σ ε)) := do
  let inner ← region.localAddress? address
  let (reply, device) ← region.device.answer? inner request
  return (reply, { region with device })

/-- The answer of the first region that covers the address. -/
def answerFirst? (address : Word) (request : Request) : List (Region (Mounted σ ε)) →
    Option (Except Fault request.Reply × List (Region (Mounted σ ε)))
  | [] => some (.error (.unmapped address), [])
  | region :: older =>
    if region.contains address then do
      let (reply, region) ← region.answer? address request
      return (reply, region :: older)
    else do
      let (reply, older) ← answerFirst? address request older
      return (reply, region :: older)

/-- A region that covers an address begins at it or before it. -/
theorem localAddress?_eq {δ : Type} {region : Region δ} (h : region.contains address) :
    region.localAddress? address = some (region.localAddress address) := by
  have hfirst : region.first.toNat ≤ address.toNat := (contains_iff.mp h).1
  rw [localAddress?, localAddress]
  split
  · rw [Word.sub?_eq_some_iff, UInt16.toNat_sub_of_le _ _ hfirst, Nat.sub_add_cancel hfirst]
  · rfl

theorem answer?_eq (h : region.contains address) (request : Request) :
    region.answer? address request = some (region.answer address request) := by
  rw [answer?, localAddress?_eq h]
  dsimp only [Option.bind_eq_bind, Option.bind_some]
  rw [Mounted.answer?_eq]
  rfl

/-- Only a region that covers the address is asked. -/
theorem answerFirst?_eq (address : Word) (request : Request) (regions : List (Region (Mounted σ ε))) :
    answerFirst? address request regions = some (answerFirst address request regions) := by
  induction regions with
  | nil => rfl
  | cons region older ih =>
    rw [answerFirst?, answerFirst]
    split
    next h =>
      rw [answer?_eq h]
      rfl
    next =>
      rw [ih]
      rfl

end Region

namespace Bus

/-- The bus after a device is put over a range of addresses, with a checked next number. -/
def map? {δ : Type} (bus : Bus δ) (device : δ) (first last : Word) (remap : Bool) : Option (Bus δ) := do
  let next ← sum? bus.nextId 1
  return ⟨⟨bus.nextId, first, last, remap, device⟩ :: bus.regions, next⟩

/-- The device of the region with the given number and the bus without that region, which is removed
    by its position. -/
def unmap? {δ : Type} (bus : Bus δ) (id : Nat) : Option (Option (δ × Bus δ)) :=
  match bus.regions.findIdx? (·.id == id) with
  | none => some none
  | some i => do
    let region ← bus.regions[i]?
    return some (region.device, ⟨bus.regions.eraseIdx i, bus.nextId⟩)

/-- The answer of the bus, computed with checked operations. -/
def answer? (bus : Bus (Mounted σ ε)) (address : Word) (request : Request) :
    Option (Except Fault request.Reply × Bus (Mounted σ ε)) := do
  let (reply, regions) ← Region.answerFirst? address request bus.regions
  return (reply, ⟨regions, bus.nextId⟩)

/-- The loop of a write: the byte with number `i` goes to the address that lies `i` behind the
    first. -/
def writeFrom? (bus : Bus (Mounted σ ε)) (address : Word) (i : Nat) :
    List Byte → Option (Except Fault Unit × Bus (Mounted σ ε))
  | [] => some (.ok (), bus)
  | byte :: rest => do
    let target ← Word.add? address (← Word.ofNat? i)
    match ← bus.answer? target (.writeByte byte) with
    | (.ok _, bus) => writeFrom? bus address (i + 1) rest
    | (.error fault, bus) => return (.error fault, bus)

/-- Writes bytes from an address on, with a checked sum for their end. -/
def write? (bus : Bus (Mounted σ ε)) (address : Word) (bytes : List Byte) :
    Option (Except Fault Unit × Bus (Mounted σ ε)) := do
  let behind ← sum? address.toNat bytes.length
  if addressSpace < behind then return (.error (.addressOverflow addressSpace), bus)
  bus.writeFrom? address 0 bytes

variable {bus : Bus (Mounted σ ε)}

theorem map?_eq {δ : Type} {bus : Bus δ} (h : bus.nextId + 1 < UInt64.size) (device : δ)
    (first last : Word) (remap : Bool) :
    bus.map? device first last remap = some (bus.map device first last remap) := by
  rw [map?, sum?, if_pos h]
  rfl

/-- The position at which a region was found has a region. -/
theorem unmap?_eq {δ : Type} (bus : Bus δ) (id : Nat) : bus.unmap? id = some (bus.unmap id) := by
  rw [unmap?, unmap]
  -- the search by position and the search by region stop at the same place
  cases hfound : bus.regions.findIdx? (·.id == id) with
  | none =>
    rw [List.find?_eq_none.mpr fun region hregion => by
      simp [List.findIdx?_eq_none_iff.mp hfound region hregion]]
  | some i =>
    obtain ⟨hi, hid, hbefore⟩ := List.findIdx?_eq_some_iff_getElem.mp hfound
    have hfind : bus.regions.find? (·.id == id) = some bus.regions[i] :=
      List.find?_eq_some_iff_getElem.mpr ⟨hid, i, hi, rfl, fun j hj => by simpa using hbefore j hj⟩
    rw [hfind, List.eraseP_eq_eraseIdx, hfound]
    dsimp only
    rw [List.getElem?_eq_getElem hi]
    rfl

theorem answer?_eq (bus : Bus (Mounted σ ε)) (address : Word) (request : Request) :
    bus.answer? address request = some (bus.answer address request) := by
  rw [answer?, Region.answerFirst?_eq]
  rfl

/-- The bytes that are left end inside the address space, so that the next one has an address. -/
theorem writeFrom?_eq {address : Word} {i : Nat} {rest : List Byte}
    (h : address.toNat + i + rest.length ≤ addressSpace) :
    bus.writeFrom? address i rest = some (bus.writeEach (address + .ofNat i) rest) := by
  -- `i` bytes are done and the others still fit, so that `i` and its address are words
  induction rest generalizing bus i with
  | nil => rfl
  | cons byte rest ih =>
    rw [List.length_cons, addressSpace] at h
    have hi : (UInt16.ofNat i).toNat = i := UInt16.toNat_ofNat_of_lt' (by change i < 0x10000; omega)
    have hoffset : Word.ofNat? i = some (.ofNat i) := Word.ofNat?_eq_some_iff.mpr hi
    have htarget : Word.add? address (.ofNat i) = some (address + .ofNat i) := by
      rw [Word.add?_eq_some_iff, UInt16.toNat_add, hi]
      omega
    have hnext : address + .ofNat i + 1 = address + .ofNat (i + 1) := by
      rw [UInt16.ofNat_add, UInt16.add_assoc]
      rfl
    rw [writeFrom?, hoffset, writeEach, hnext]
    dsimp only [Option.bind_eq_bind, Option.bind_some]
    rw [htarget]
    dsimp only [Option.bind_eq_bind, Option.bind_some]
    rw [answer?_eq]
    dsimp only [Option.bind_eq_bind, Option.bind_some]
    generalize bus.answer (address + .ofNat i) (.writeByte byte) = answer
    obtain ⟨_ | _, bus'⟩ := answer
    · rfl
    · exact ih (by rw [addressSpace]; omega)

theorem write?_eq {address : Word} {bytes : List Byte} (h : bytes.length < UInt64.size / 2) :
    bus.write? address bytes = some (bus.write address bytes) := by
  have haddress := address.toNat_lt
  have hbehind : sum? address.toNat bytes.length = some (address.toNat + bytes.length) := by
    refine if_pos ?_
    change _ < 0x10000000000000000
    change _ < 0x8000000000000000 at h
    omega
  rw [write?, hbehind, write]
  dsimp only [Option.bind_eq_bind, Option.bind_some]
  by_cases hend : address.toNat + bytes.length ≤ addressSpace
  · rw [if_neg (Nat.not_lt.mpr hend), if_pos hend]
    refine (writeFrom?_eq hend).trans (congrArg (fun first => some (bus.writeEach first bytes)) ?_)
    exact UInt16.add_zero address
  · rw [if_pos (Nat.lt_of_not_le hend), if_neg hend]
    rfl

theorem nextId_answer {δ : Type} [Device δ] (bus : Bus δ) (address : Word) (request : Request) :
    (bus.answer address request).2.nextId = bus.nextId := rfl

theorem nextId_writeEach {δ : Type} [Device δ] (bus : Bus δ) (address : Word) (bytes : List Byte) :
    (bus.writeEach address bytes).2.nextId = bus.nextId := by
  induction bytes generalizing bus address with
  | nil => rfl
  | cons byte rest ih =>
    have hnext := bus.nextId_answer address (.writeByte byte)
    rw [writeEach]
    generalize bus.answer address (.writeByte byte) = answer at hnext ⊢
    obtain ⟨_ | _, bus'⟩ := answer
    · exact hnext
    · exact (ih bus' (address + 1)).trans hnext

end Bus

/-! ## The machine -/

/-- Performs a program on the bus, computed with checked operations. -/
def BusProgram.run? {α : Type} : BusProgram α → Bus (Mounted σ ε) → Array LogEntry →
    Option (Outcome α (Bus (Mounted σ ε)))
  | done result, bus, entries => some ⟨.ok result, bus, entries⟩
  | fault f, bus, entries => some ⟨.error f, bus, entries⟩
  | access address request next, bus, entries => do
    match ← bus.answer? address request with
    | (.ok reply, bus) => (next reply).run? bus entries
    | (.error f, bus) => return ⟨.error f, bus, entries⟩
  | log entry next, bus, entries => next.run? bus (entries.push entry)

theorem BusProgram.run?_eq {α : Type} (p : BusProgram α) (bus : Bus (Mounted σ ε))
    (entries : Array LogEntry) : p.run? bus entries = some (p.run bus entries) := by
  induction p generalizing bus entries with
  | done result => rfl
  | fault f => rfl
  | access address request next ih =>
    rw [run?, bus.answer?_eq, run, bus.device_answer]
    dsimp only [Option.bind_eq_bind, Option.bind_some]
    generalize bus.answer address request = answer
    obtain ⟨_ | reply, bus'⟩ := answer
    · rfl
    · exact ih reply bus' entries
  | log entry next ih => exact ih bus _

theorem BusProgram.nextId_run {α δ : Type} [Device δ] (p : BusProgram α) (bus : Bus δ)
    (entries : Array LogEntry) : (p.run bus entries).device.nextId = bus.nextId := by
  induction p generalizing bus entries with
  | done result => rfl
  | fault f => rfl
  | access address request next ih =>
    have hnext := bus.nextId_answer address request
    rw [run, bus.device_answer]
    generalize bus.answer address request = answer at hnext ⊢
    obtain ⟨_ | reply, bus'⟩ := answer
    · exact hnext
    · exact (ih reply bus' entries).trans hnext
  | log entry next ih => exact ih bus _

namespace Machine

/-- Performs one instruction, computed with checked operations. -/
def step? : Machine (Mounted σ ε) → Option (Except Fault Bool × Machine (Mounted σ ε))
  | ⟨core, bus, true, log⟩ => some (.ok true, ⟨core, bus, true, log⟩)
  | ⟨core, bus, false, log⟩ => do
    match ← (Microcode.instruction core).run? bus log with
    | ⟨.ok (true, core), bus, log⟩ =>
      return (.ok true, ⟨core, bus, true, log.push (.halted (core.get .ip))⟩)
    | ⟨.ok (false, core), bus, log⟩ => return (.ok false, ⟨core, bus, false, log⟩)
    | ⟨.error fault, bus, log⟩ => return (.error fault, ⟨core, bus, false, log⟩)

theorem step?_eq (machine : Machine (Mounted σ ε)) : machine.step? = some machine.step := by
  obtain ⟨core, bus, halted, log⟩ := machine
  cases halted with
  | true => rfl
  | false =>
    rw [step?, BusProgram.run?_eq, step]
    dsimp only [Option.bind_eq_bind, Option.bind_some]
    generalize (Microcode.instruction core).run bus log = outcome
    obtain ⟨_ | ⟨_ | _, core'⟩, bus', log'⟩ := outcome <;> rfl

theorem nextId_step {δ : Type} [Device δ] (machine : Machine δ) :
    machine.step.2.bus.nextId = machine.bus.nextId := by
  obtain ⟨core, bus, halted, log⟩ := machine
  cases halted with
  | true => rfl
  | false =>
    have hnext := BusProgram.nextId_run (Microcode.instruction core) bus log
    rw [step]
    generalize (Microcode.instruction core).run bus log = outcome at hnext ⊢
    obtain ⟨_ | ⟨_ | _, core'⟩, bus', log'⟩ := outcome <;> exact hnext

/-- What can be done with the bus of a machine: steps, changes of its regions and accesses from
    outside. -/
inductive Command (δ : Type) where
  | step
  | map (device : δ) (first last : Word) (remap : Bool)
  | unmap (id : Nat)
  | access (address : Word) (request : Request)
  | write (address : Word) (bytes : List Byte)

/-- Whether a command adds a region. -/
def Command.isMap {δ : Type} : Command δ → Bool
  | map .. => true
  | _ => false

/-- The number of bytes that a command gives to the bus at once. -/
def Command.length {δ : Type} : Command δ → Nat
  | write _ bytes => bytes.length
  | _ => 0

/-- The machine after a command. -/
def command {δ : Type} [Device δ] (machine : Machine δ) : Command δ → Machine δ
  | .step => machine.step.2
  | .map device first last remap => (machine.map device first last remap).2
  | .unmap id => (machine.unmap id).2
  | .access address request => (machine.access address request).2
  | .write address bytes => (machine.write address bytes).2

/-- The machine after a command, computed with checked operations. -/
def command? (machine : Machine (Mounted σ ε)) :
    Command (Mounted σ ε) → Option (Machine (Mounted σ ε))
  | .step => machine.step?.map Prod.snd
  | .map device first last remap => do
    let bus ← machine.bus.map? device first last remap
    return { machine with bus, log := machine.log.push (.mapped machine.bus.nextId first last remap) }
  | .unmap id => do
    match ← machine.bus.unmap? id with
    | some (_, bus) => return { machine with bus, log := machine.log.push (.unmapped id) }
    | none => return machine
  | .access address request => do
    let (_, bus) ← machine.bus.answer? address request
    return { machine with bus }
  | .write address bytes => do
    let (_, bus) ← machine.bus.write? address bytes
    return { machine with bus }

/-- The machine after commands one after the other. -/
def commands {δ : Type} [Device δ] (machine : Machine δ) (list : List (Command δ)) : Machine δ :=
  list.foldl command machine

/-- The machine after commands one after the other, computed with checked operations. -/
def commands? (machine : Machine (Mounted σ ε)) (list : List (Command (Mounted σ ε))) :
    Option (Machine (Mounted σ ε)) :=
  list.foldlM command? machine

/-- Only a new region takes a number. -/
theorem nextId_command {δ : Type} [Device δ] (machine : Machine δ) (c : Command δ) :
    (machine.command c).bus.nextId = machine.bus.nextId + c.isMap.toNat := by
  cases c with
  | step => exact nextId_step machine
  | map device first last remap => rfl
  | unmap id =>
    rw [command, unmap, Bus.unmap]
    cases machine.bus.regions.find? (·.id == id) <;> rfl
  | access address request => exact machine.bus.nextId_answer address request
  | write address bytes =>
    change (machine.bus.write address bytes).2.nextId = machine.bus.nextId
    rw [Bus.write]
    split
    · exact machine.bus.nextId_writeEach address bytes
    · rfl

variable {machine : Machine (Mounted σ ε)} {c : Command (Mounted σ ε)}

/-- A command fails neither by its own arithmetic nor by that of the devices, if there is a number for
    the next region. -/
theorem command?_eq (hid : machine.bus.nextId + c.isMap.toNat < UInt64.size) (hlength : c.length < UInt64.size / 2) :
    machine.command? c = some (machine.command c) := by
  cases c with
  | step =>
    rw [command?, step?_eq]
    rfl
  | map device first last remap =>
    rw [command?, Bus.map?_eq hid]
    rfl
  | unmap id =>
    rw [command?, Bus.unmap?_eq, command, unmap]
    cases machine.bus.unmap id <;> rfl
  | access address request =>
    rw [command?, Bus.answer?_eq]
    rfl
  | write address bytes =>
    rw [command?, Bus.write?_eq hlength]
    rfl

/-- No command of a sequence fails in this way while there are fewer than `UInt64.size` regions in all. -/
theorem commands?_eq {list : List (Command (Mounted σ ε))}
    (hid : machine.bus.nextId + list.countP Command.isMap < UInt64.size)
    (hlength : ∀ c ∈ list, c.length < UInt64.size / 2) :
    machine.commands? list = some (machine.commands list) := by
  -- the regions that are still to come are counted with the number of the next one
  induction list generalizing machine with
  | nil => rfl
  | cons c rest ih =>
    have hcount : (c :: rest).countP Command.isMap = c.isMap.toNat + rest.countP Command.isMap := by
      rw [List.countP_cons, Nat.add_comm]
      cases c.isMap <;> rfl
    rw [hcount, ← Nat.add_assoc] at hid
    rw [commands?, List.foldlM_cons, command?_eq (by omega) (hlength c List.mem_cons_self)]
    refine ih ?_ fun c' hc' => hlength c' (List.mem_cons_of_mem c hc')
    rwa [nextId_command]

end Machine

/-! ## The laws -/

/-- The checked operations give what the machine, the bus and the devices of the library compute. -/
structure NeverOverflows (σ ε : Type) [Sink σ] [Device ε] : Prop where
  /-- an operand byte is inside the table of the registers -/
  operand : ∀ byte, Register.ofByte? byte = some (Register.ofByte byte)
  /-- the two bytes of a register are inside the register file -/
  registers : ∀ (file : RegisterFile) r value, file.get? r = some (file.get r) ∧
    file.set? r value = some (file.set r value).bytes.toArray
  /-- bits are moved by less than their number -/
  shifts : ∀ (direction : Shift) a amount,
    direction.checked a amount = some (direction.apply a amount)
  /-- the sum of two addresses has 32 bits -/
  sums : ∀ base offset, effectiveAddress? base offset = some (effectiveAddress base offset)
  /-- an image that is not refused ends inside the memory -/
  images : ∀ image size, Ram.ofImage? image size = some (Ram.ofImage image size)
  /-- a memory of any size reads and writes inside its bytes -/
  memories : ∀ (ram : Ram) address request,
    ram.answer? address request = some (Device.answer ram address request)
  /-- the row and the column of a cell are words -/
  cells : ∀ (screen : Screen σ) address request,
    screen.answer? address request = some (Device.answer screen address request)
  /-- the bus asks only devices of regions that begin at the address or before it, whatever the ranges
      of its regions are -/
  accesses : ∀ (bus : Bus (Mounted σ ε)) address request,
    bus.answer? address request = some (bus.answer address request)
  /-- the addresses of bytes that are written together are words; no byte list has `UInt64.size / 2` bytes -/
  writes : ∀ (bus : Bus (Mounted σ ε)) address bytes, bytes.length < UInt64.size / 2 →
    bus.write? address bytes = some (bus.write address bytes)
  /-- a step makes accesses of this kind only, in every state of the machine; what it does to the core
      needs no test -/
  steps : ∀ machine : Machine (Mounted σ ε), machine.step? = some machine.step
  /-- and so it is with all that is done with the bus of a new machine, as long as fewer than `UInt64.size`
      regions are mapped -/
  commands : ∀ list : List (Machine.Command (Mounted σ ε)),
    list.countP Machine.Command.isMap < UInt64.size → (∀ c ∈ list, c.length < UInt64.size / 2) →
      Machine.initial.commands? list = some (Machine.initial.commands list)

/-- No sum, difference, shift, narrowing or index fails. -/
theorem neverOverflows (σ ε : Type) [Sink σ] [Device ε] : NeverOverflows σ ε where
  operand := Register.ofByte?_eq
  registers file r value := ⟨file.get?_eq r, file.set?_eq r value⟩
  shifts := Shift.checked_eq
  sums := effectiveAddress?_eq
  images := Ram.ofImage?_eq
  memories := Ram.answer?_eq
  cells := Screen.answer?_eq
  accesses := Bus.answer?_eq
  writes _ _ _ h := Bus.write?_eq h
  steps := Machine.step?_eq
  commands _ hmaps hlength := by
    have hid : (Machine.initial : Machine (Mounted σ ε)).bus.nextId = 0 := rfl
    exact Machine.commands?_eq (by rwa [hid, Nat.zero_add]) hlength

/-- Without the test of a region the difference fails below its first address. -/
example : (⟨0, 0x3000, 0x30ff, true, ()⟩ : Region Unit).localAddress? 0x2fff = none := by
  decide

end WordMachine
