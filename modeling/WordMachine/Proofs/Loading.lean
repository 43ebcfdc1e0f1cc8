import WordMachine.Proofs.BulkWrite
import WordMachine.Proofs.Shadowing

/-!
# Two ways to load an image

An image is at the start of a memory either because the memory was made of it, or because it was
written to a memory of zeros, byte by byte and over the bus. Both ways leave the same bus, whatever
else is on it: each byte of the write reaches the memory, which is the newest device, and its address
there is its place in the image.

* `answer_map`: the newest region answers at its own addresses.
* `write_copied`: what one byte of the write does.
* `writeEach_copied`: the bytes of an image that are not copied yet are copied by writing them.
* `loadersAgree`: the two ways compared.
-/

namespace WordMachine

variable {δ ε : Type}

/-! ## Memories with an image -/

/-- A memory with bytes at its start and zeros behind them. -/
def Ram.copied (bytes : List Byte) (size : Nat) : Ram :=
  ⟨(bytes ++ List.replicate (size - bytes.length) 0).toArray⟩

namespace Ram

theorem zeroed_eq_copied (size : Nat) : zeroed size = copied [] size := by
  simp [zeroed, copied]

theorem ofImage_eq_ok_iff_copied {image : Array Byte} {size : Nat} {memory : Ram} :
    ofImage image size = .ok memory ↔ image.size ≤ size ∧ memory = copied image.toList size := by
  have hcopied : copied image.toList size = ⟨image ++ Array.replicate (size - image.size) 0⟩ := by
    simp [copied]
  rw [ofImage_eq_ok_iff, hcopied]

theorem ofImage_eq_error_iff {image : Array Byte} {size : Nat} :
    ofImage image size = .error (.imageTooLarge image.size size) ↔ size < image.size := by
  rw [ofImage, ← Nat.not_le]
  split <;> simp [*]

/-- A byte that is written behind those copied so far is copied with them. -/
theorem write_copied {bytes : List Byte} {size : Nat} (h : bytes.length < size) {a : Word}
    (ha : a.toNat = bytes.length) (byte : Byte) :
    Device.answer (copied bytes size) a (.writeByte byte) =
      (.ok (), copied (bytes ++ [byte]) size) := by
  have hlt : a.toNat < (copied bytes size).bytes.size := by
    simp [copied]
    omega
  have hzeros : List.replicate (size - bytes.length) (0 : Byte) =
      0 :: List.replicate (size - (bytes ++ [byte]).length) 0 := by
    rw [← List.replicate_succ, List.length_append, List.length_singleton]
    congr 1
    omega
  have hset : (copied bytes size).bytes.set a.toNat byte hlt =
      (copied (bytes ++ [byte]) size).bytes := by
    apply Array.ext'
    simp [copied, ha, hzeros]
  change Ram.writeByte ⟨(copied bytes size).bytes⟩ a byte = _
  rw [writeByte, dif_pos hlt, hset]

end Ram

namespace Bus

/-! ## Writes to the newest region -/

/-- The newest region answers at the addresses that it covers. -/
theorem answer_map [Device δ] (bus : Bus δ) (device : δ) {first last a : Word} (hfirst : first ≤ a)
    (hlast : a ≤ last) (remap : Bool) (request : Request) :
    (bus.map device first last remap).answer a request =
      ((Device.answer device (if remap then a - first else a) request).1,
        bus.map (Device.answer device (if remap then a - first else a) request).2 first last
          remap) := by
  have hregions : (bus.map device first last remap).regions =
      [] ++ ⟨bus.nextId, first, last, remap, device⟩ :: bus.regions := rfl
  rw [answer_of_split hregions (fun r hr => nomatch hr)
    (Region.contains_iff.mpr ⟨hfirst, hlast⟩)]
  rfl

section

variable [Device ε] (bus : Bus (Ram ⊕ ε)) {first last : Word} {size : Nat}

/-- The next byte of an image is written behind those copied so far. -/
theorem answer_copied {bytes : List Byte} (h : bytes.length < size)
    (hrange : last.toNat + 1 = first.toNat + size) (byte : Byte) :
    (bus.map (.inl (.copied bytes size)) first last true).answer
        (.ofNat (first.toNat + bytes.length)) (.writeByte byte) =
      (.ok (), bus.map (.inl (.copied (bytes ++ [byte]) size)) first last true) := by
  have hlt := last.toNat_lt
  have ha : (UInt16.ofNat (first.toNat + bytes.length)).toNat = first.toNat + bytes.length :=
    UInt16.toNat_ofNat_of_lt' (by
      change first.toNat + bytes.length < 0x10000
      omega)
  have hfirst : first ≤ .ofNat (first.toNat + bytes.length) :=
    UInt16.le_iff_toNat_le.mpr (by omega)
  have hlast : .ofNat (first.toNat + bytes.length) ≤ last := UInt16.le_iff_toNat_le.mpr (by omega)
  have hlocal : (UInt16.ofNat (first.toNat + bytes.length) - first).toNat = bytes.length := by
    rw [UInt16.toNat_sub_of_le _ _ hfirst, ha]
    omega
  have hwrite : Device.answer (.inl (.copied bytes size) : Ram ⊕ ε)
      (UInt16.ofNat (first.toNat + bytes.length) - first) (.writeByte byte) =
        (.ok (), .inl (.copied (bytes ++ [byte]) size)) :=
    congrArg (fun outcome => (outcome.1, Sum.inl outcome.2)) (Ram.write_copied h hlocal byte)
  rw [answer_map bus _ hfirst hlast, if_pos rfl, hwrite]

/-- The bytes of an image that are not copied yet are copied by writing them. -/
theorem writeEach_copied {done rest : List Byte} (hsize : (done ++ rest).length ≤ size)
    (hrange : last.toNat + 1 = first.toNat + size) :
    (bus.map (.inl (.copied done size)) first last true).writeEach
        (.ofNat (first.toNat + done.length)) rest =
      (.ok (), bus.map (.inl (.copied (done ++ rest) size)) first last true) := by
  induction rest generalizing done with
  | nil =>
    rw [List.append_nil]
    rfl
  | cons byte rest ih =>
    have hsplit : done ++ byte :: rest = done ++ [byte] ++ rest := by simp
    have hlt : done.length < size := by
      rw [List.length_append, List.length_cons] at hsize
      omega
    have hnext : UInt16.ofNat (first.toNat + done.length) + 1 =
        .ofNat (first.toNat + (done ++ [byte]).length) := by
      rw [List.length_append, List.length_singleton, ← Nat.add_assoc, UInt16.ofNat_add _ 1]
      rfl
    rw [writeEach, answer_copied bus hlt hrange byte]
    dsimp only
    rw [hnext, ih (hsplit ▸ hsize), hsplit]

/-- An image that is written to a memory of zeros is there as if the memory was made of it. -/
theorem write_zeroed {image : Array Byte} {memory : Ram} (h : Ram.ofImage image size = .ok memory)
    (hrange : last.toNat + 1 = first.toNat + size) :
    (bus.map (.inl (.zeroed size)) first last true).write first image.toList =
      (.ok (), bus.map (.inl memory) first last true) := by
  obtain ⟨hle, rfl⟩ := Ram.ofImage_eq_ok_iff_copied.mp h
  have hlt := last.toNat_lt
  have hfits : first.toNat + image.toList.length ≤ 0x10000 := by
    rw [Array.length_toList]
    omega
  have hwrite := @writeEach_copied _ _ bus first last size [] image.toList
    (by simpa using hle) hrange
  rw [List.length_nil, Nat.add_zero, UInt16.ofNat_toNat, List.nil_append] at hwrite
  rw [write_of_le hfits, Ram.zeroed_eq_copied, hwrite]

end

/-! ## The two ways -/

/-- A memory of some size that begins with an image, and a memory of zeros of this size to which the
    image is written, both over the same addresses from `start` on. -/
structure LoadersAgree [Device ε] (bus : Bus (Ram ⊕ ε)) (image : Array Byte) (size : Nat)
    (start : Word) : Prop where
  /-- an image that is too long is refused, and only such an image -/
  refused : Ram.ofImage image size = .error (.imageTooLarge image.size size) ↔ size < image.size
  loaded : (∃ memory, Ram.ofImage image size = .ok memory) ↔ image.size ≤ size
  /-- the image can be written -/
  written : ∀ memory, Ram.ofImage image size = .ok memory →
    ((bus.map (.inl (.zeroed size)) start (.ofNat (start.toNat + size - 1)) true).write start
      image.toList).1 = .ok ()
  /-- whatever accesses are made later, the next one is answered alike -/
  alike : ∀ memory, Ram.ofImage image size = .ok memory →
    ∀ accesses address request,
      (Device.answer (Device.after
        (bus.map (.inl memory) start (.ofNat (start.toNat + size - 1)) true) accesses)
        address request).1 =
      (Device.answer (Device.after
        ((bus.map (.inl (.zeroed size)) start (.ofNat (start.toNat + size - 1)) true).write start
          image.toList).2 accesses) address request).1

/-- The two ways to load an image agree. -/
theorem loadersAgree [Device ε] (bus : Bus (Ram ⊕ ε)) (image : Array Byte) {size : Nat} {start : Word}
    (hsize : 0 < size) (hfits : start.toNat + size ≤ 0x10000) :
    LoadersAgree bus image size start := by
  have hrange : (UInt16.ofNat (start.toNat + size - 1)).toNat + 1 = start.toNat + size := by
    rw [UInt16.toNat_ofNat_of_lt' (by
      change start.toNat + size - 1 < 0x10000
      omega)]
    omega
  constructor
  case refused => exact Ram.ofImage_eq_error_iff
  case loaded => simp [Ram.ofImage_eq_ok_iff_copied]
  case written => exact fun memory h => by rw [write_zeroed bus h hrange]
  case alike => exact fun memory h accesses address request => by rw [write_zeroed bus h hrange]

/-- A screen at the end of the address space. -/
def screenAtEnd : Bus (Ram ⊕ Screen Buffer) := empty.map (.inr ⟨.unlimited⟩) 0xff00 0xffff true

/-- An image that fills a memory over the last word of the screen, the second byte of which is
    overwritten and cannot be read as the first one of a word. -/
theorem alike_atEnd :
    let written := ((screenAtEnd.map (.inl (.zeroed 2)) 0xfffe 0xffff true).write 0xfffe
      [0x12, 0x34]).2
    let later := Device.after written [(0xffff, .writeByte 0xff)]
    (Device.answer later 0xfffe .readWord).1 = .ok 0x12ff ∧
      (Device.answer later 0xffff .readWord).1 = .error (.outOfBounds 1 2) := by
  have hagree : LoadersAgree screenAtEnd #[0x12, 0x34] 2 0xfffe :=
    loadersAgree screenAtEnd #[0x12, 0x34] (by decide) (by decide)
  have halike := hagree.alike ⟨#[0x12, 0x34]⟩ rfl [(0xffff, .writeByte 0xff)]
  exact ⟨(halike 0xfffe .readWord).symm.trans rfl, (halike 0xffff .readWord).symm.trans rfl⟩

end Bus

end WordMachine
