import WordMachine.Device

/-!
# Random-access memory

A device of any size that stores bytes. A word is stored at its address and the next one, both of
which have to be inside: words do not wrap around at the end.
-/

namespace WordMachine

/-- The bytes of a memory, from address zero on. -/
structure Ram where
  bytes : Array Byte
deriving DecidableEq, Repr

namespace Ram

/-- The number of bytes stored. -/
def size (ram : Ram) : Nat := ram.bytes.size

/-- A memory of zeros. -/
def zeroed (size : Nat) : Ram := ⟨Array.replicate size 0⟩

/-- A memory that begins with an image and is zero after it. -/
def ofImage (image : Array Byte) (size : Nat) : Except Fault Ram :=
  if image.size ≤ size then
    .ok ⟨image ++ Array.replicate (size - image.size) 0⟩
  else
    .error (.imageTooLarge image.size size)

/-- The byte at an address. -/
def readByte (ram : Ram) (address : Word) : Except Fault Byte :=
  if h : address.toNat < ram.bytes.size then
    .ok ram.bytes[address.toNat]
  else
    .error (.outOfBounds address ram.size)

/-- The word at an address. -/
def readWord (ram : Ram) (address : Word) : Except Fault Word :=
  if h : address.toNat + 1 < ram.bytes.size then
    .ok (Word.ofBytes ram.bytes[address.toNat] ram.bytes[address.toNat + 1])
  else
    .error (.outOfBounds address ram.size)

/-- The memory after a byte is written to an address. -/
def writeByte : Ram → Word → Byte → Except Fault Unit × Ram
  | ⟨bytes⟩, address, value =>
    if h : address.toNat < bytes.size then
      (.ok (), ⟨bytes.set address.toNat value⟩)
    else
      (.error (.outOfBounds address bytes.size), ⟨bytes⟩)

/-- The memory after a word is written to an address. -/
def writeWord : Ram → Word → Word → Except Fault Unit × Ram
  | ⟨bytes⟩, address, value =>
    if h : address.toNat + 1 < bytes.size then
      (.ok (), ⟨(bytes.set address.toNat (Word.high value)).set (address.toNat + 1)
        (Word.low value) (by simpa using h)⟩)
    else
      (.error (.outOfBounds address bytes.size), ⟨bytes⟩)

instance : Device Ram where
  answer ram address
    | .readByte => (ram.readByte address, ram)
    | .readWord => (ram.readWord address, ram)
    | .writeByte value => ram.writeByte address value
    | .writeWord value => ram.writeWord address value

theorem size_of_ofImage {image : Array Byte} {size : Nat} {ram : Ram}
    (h : ofImage image size = .ok ram) : ram.size = size := by
  unfold ofImage at h
  split at h
  · cases h
    simp [Ram.size]
    omega
  · cases h

end Ram

end WordMachine
