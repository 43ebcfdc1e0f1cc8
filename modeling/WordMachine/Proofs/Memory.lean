import WordMachine.Proofs.Execution
import WordMachine.Proofs.Regions

/-!
# Memory on the bus

What is read from a bus all of whose regions are random-access memories. Reading such a bus leaves it
as it is. Bytes that were stored are read back, and what is read changes only if one of its bytes was
stored, wherever the regions begin and end.

* `answer_read`: reading changes nothing.
* `answer_after`: the answer at other addresses after an access.
* `readByte_after`, `readWord_after`: what is read after it was stored.
* `Holds`: the words at an address, the next one and so on.
-/

namespace WordMachine

namespace Request

/-- The number of bytes that an access is about. -/
def width : Request → Nat
  | readByte => 1
  | readWord => 2
  | writeByte _ => 1
  | writeWord _ => 2

/-- The bytes that an access stores, from its address on. -/
def stored : Request → List Byte
  | readByte => []
  | readWord => []
  | writeByte value => [value]
  | writeWord value => [Word.high value, Word.low value]

end Request

namespace Ram

/-! ## Cells of a memory -/

section

variable {ram ram' : Ram} {a b : Word} {request query : Request}

theorem size_answer (ram : Ram) (a : Word) (request : Request) :
    (Device.answer ram a request).2.size = ram.size := by
  cases request with
  | readByte => rfl
  | readWord => rfl
  | writeByte value =>
    change (ram.writeByte a value).2.size = ram.size
    rw [writeByte]
    split
    · simp [size]
    · rfl
  | writeWord value =>
    change (ram.writeWord a value).2.size = ram.size
    rw [writeWord]
    split
    · simp [size]
    · rfl

theorem answer_read (h : request.isWrite = false) : (Device.answer ram a request).2 = ram := by
  cases request with
  | readByte => rfl
  | readWord => rfl
  | writeByte value => cases h
  | writeWord value => cases h

/-- An access leaves the bytes alone that it does not store. -/
theorem getElem?_answer {i : Nat} (h : i < a.toNat ∨ a.toNat + request.stored.length ≤ i) :
    (Device.answer ram a request).2.bytes[i]? = ram.bytes[i]? := by
  cases request with
  | readByte => rfl
  | readWord => rfl
  | writeByte value =>
    replace h : i < a.toNat ∨ a.toNat + 1 ≤ i := h
    change (ram.writeByte a value).2.bytes[i]? = _
    rw [writeByte]
    split
    · rw [Array.getElem?_set, if_neg (by omega)]
    · rfl
  | writeWord value =>
    replace h : i < a.toNat ∨ a.toNat + 2 ≤ i := h
    change (ram.writeWord a value).2.bytes[i]? = _
    rw [writeWord]
    split
    · rw [Array.getElem?_set, Array.getElem?_set, if_neg (by omega), if_neg (by omega)]
    · rfl

/-- The bytes that an access stores are in the memory after it. -/
theorem getElem?_answer_of_ok {reply : request.Reply}
    (h : (Device.answer ram a request).1 = .ok reply) {i : Nat} (hi : i < request.stored.length) :
    (Device.answer ram a request).2.bytes[a.toNat + i]? = request.stored[i]? := by
  cases request with
  | readByte => cases hi
  | readWord => cases hi
  | writeByte value =>
    obtain rfl : i = 0 := Nat.lt_one_iff.mp hi
    change (ram.writeByte a value).1 = _ at h
    change (ram.writeByte a value).2.bytes[a.toNat]? = some value
    rw [writeByte] at h ⊢
    split
    next hlt => rw [Array.getElem?_set, if_pos rfl]
    next hlt =>
      rw [dif_neg hlt] at h
      cases h
  | writeWord value =>
    change (ram.writeWord a value).1 = _ at h
    change (ram.writeWord a value).2.bytes[a.toNat + i]? = [Word.high value, Word.low value][i]?
    rw [writeWord] at h ⊢
    split
    next hlt =>
      match i, hi with
      | 0, _ =>
        rw [Array.getElem?_set, Array.getElem?_set, if_neg (by omega), if_pos (Nat.add_zero _).symm]
        rfl
      | 1, _ =>
        rw [Array.getElem?_set, if_pos rfl]
        rfl
    next hlt =>
      rw [dif_neg hlt] at h
      cases h

theorem readByte_eq (ram : Ram) (a : Word) :
    ram.readByte a = match ram.bytes[a.toNat]? with
      | some byte => .ok byte
      | none => .error (.outOfBounds a ram.size) := by
  unfold readByte
  split
  next h => rw [Array.getElem?_eq_getElem h]
  next h => rw [Array.getElem?_eq_none (by omega)]

/-- A word is its two bytes. -/
theorem readWord_eq (ram : Ram) (a : Word) :
    ram.readWord a = match ram.bytes[a.toNat]?, ram.bytes[a.toNat + 1]? with
      | some high, some low => .ok (Word.ofBytes high low)
      | _, _ => .error (.outOfBounds a ram.size) := by
  unfold readWord
  split
  next h => rw [Array.getElem?_eq_getElem h, Array.getElem?_eq_getElem (by omega)]
  next h =>
    have hnone : ram.bytes[a.toNat + 1]? = none := Array.getElem?_eq_none (by omega)
    rw [hnone]
    split
    next heq => cases heq
    next => rfl

/-- The answer depends on the size and on the bytes that are read. -/
theorem answer_congr (hsize : ram.size = ram'.size)
    (hbytes : query.isWrite = false → ∀ i, a.toNat ≤ i → i < a.toNat + query.width →
      ram.bytes[i]? = ram'.bytes[i]?) :
    (Device.answer ram a query).1 = (Device.answer ram' a query).1 := by
  cases query with
  | readByte =>
    have hfirst := hbytes rfl a.toNat (Nat.le_refl _) (Nat.lt_succ_self _)
    change ram.readByte a = ram'.readByte a
    rw [readByte_eq, readByte_eq, hsize, hfirst]
  | readWord =>
    have hfirst := hbytes rfl a.toNat (Nat.le_refl _) (by simp [Request.width])
    have hsecond := hbytes rfl (a.toNat + 1) (Nat.le_succ _) (by simp [Request.width])
    change ram.readWord a = ram'.readWord a
    rw [readWord_eq, readWord_eq, hsize, hfirst, hsecond]
  | writeByte value =>
    change (ram.writeByte a value).1 = (ram'.writeByte a value).1
    change ram.bytes.size = ram'.bytes.size at hsize
    rw [writeByte, writeByte]
    by_cases hlt : a.toNat < ram.bytes.size
    · rw [dif_pos hlt, dif_pos (hsize ▸ hlt)]
    · rw [dif_neg hlt, dif_neg (hsize ▸ hlt), hsize]
  | writeWord value =>
    change (ram.writeWord a value).1 = (ram'.writeWord a value).1
    change ram.bytes.size = ram'.bytes.size at hsize
    rw [writeWord, writeWord]
    by_cases hlt : a.toNat + 1 < ram.bytes.size
    · rw [dif_pos hlt, dif_pos (hsize ▸ hlt)]
    · rw [dif_neg hlt, dif_neg (hsize ▸ hlt), hsize]

end

end Ram

/-- Inside a region the distance of two addresses is the same on the bus and on the device. -/
theorem Region.localAddress_disjoint {δ : Type} {region : Region δ} {a b : Word}
    (ha : region.contains a) (hb : region.contains b) {m n : Nat}
    (hab : a.toNat + m ≤ b.toNat ∨ b.toNat + n ≤ a.toNat) :
    (region.localAddress a).toNat + m ≤ (region.localAddress b).toNat ∨
      (region.localAddress b).toNat + n ≤ (region.localAddress a).toNat := by
  rw [toNat_localAddress ha, toNat_localAddress hb]
  rw [contains_iff, UInt16.le_iff_toNat_le] at ha hb
  split <;> omega

namespace Bus

/-- The word at an address, if there is one that can be read. -/
def word? {δ : Type} [Device δ] (bus : Bus δ) (address : Nat) : Option Word :=
  if address < addressSpace then (bus.answer (.ofNat address) .readWord).1.toOption else none

variable {bus bus' : Bus Ram} {a v : Word}

/-! ## Accesses one after the other -/

theorem answer_read (address : Word) {request : Request} (h : request.isWrite = false) :
    (bus.answer address request).2 = bus := by
  cases howner : bus.owner address with
  | none => rw [answer_of_owner_eq_none howner]
  | some region => exact answer_of_device_eq howner (Ram.answer_read h)

/-- An access after another is answered as before it, unless one of its bytes was stored. -/
theorem answer_after {b : Word} {request query : Request}
    (h : bus.owner b ≠ bus.owner a ∨ a.toNat + request.stored.length ≤ b.toNat ∨
      b.toNat + query.width ≤ a.toNat) :
    ((bus.answer a request).2.answer b query).1 = (bus.answer b query).1 := by
  by_cases hsame : bus.owner b = bus.owner a
  · replace h := h.resolve_left (not_not.mpr hsame)
    cases howner : bus.owner a with
    | none => rw [answer_of_owner_eq_none howner]
    | some region =>
      have howner' := hsame.trans howner
      rw [answer_answer_of_eq howner howner', answer_of_owner_eq_some howner']
      have hdisjoint := Region.localAddress_disjoint (split_of_owner howner).1
        (split_of_owner howner').1 h
      refine Ram.answer_congr (Ram.size_answer _ _ _) fun _ i hfirst hlast => ?_
      exact Ram.getElem?_answer (by omega)
  · exact answer_answer_of_ne hsame request query

/-- A byte that was stored is read back at its address if the same region answers there. -/
theorem readByte_after {b : Word} {request : Request} {reply : request.Reply}
    (h : (bus.answer a request).1 = .ok reply) {i : Nat} {byte : Byte}
    (hbyte : request.stored[i]? = some byte) (hb : b.toNat = a.toNat + i)
    (hsame : bus.owner b = bus.owner a) :
    ((bus.answer a request).2.answer b .readByte).1 = .ok byte := by
  cases howner : bus.owner a with
  | none =>
    rw [answer_of_owner_eq_none howner] at h
    cases h
  | some region =>
    have howner' := hsame.trans howner
    have ha := (split_of_owner howner).1
    have hb' := (split_of_owner howner').1
    rw [answer_of_owner_eq_some howner] at h
    rw [answer_answer_of_eq howner howner']
    obtain ⟨hi, -⟩ := List.getElem?_eq_some_iff.mp hbyte
    have hstored := Ram.getElem?_answer_of_ok h hi
    have hlocal : (region.localAddress b).toNat = (region.localAddress a).toNat + i := by
      rw [Region.toNat_localAddress ha, Region.toNat_localAddress hb', hb]
      rw [Region.contains_iff, UInt16.le_iff_toNat_le] at ha
      split <;> omega
    change Ram.readByte _ _ = _
    rw [Ram.readByte_eq, hlocal, hstored, hbyte]

/-- A word that was written is read back. -/
theorem readWord_after (h : (bus.answer a (.writeWord v)).1 = .ok ()) :
    ((bus.answer a (.writeWord v)).2.answer a .readWord).1 = .ok v := by
  cases howner : bus.owner a with
  | none =>
    rw [answer_of_owner_eq_none howner] at h
    cases h
  | some region =>
    rw [answer_of_owner_eq_some howner] at h
    rw [answer_answer_of_eq howner howner]
    have hhigh := Ram.getElem?_answer_of_ok h (i := 0) Nat.two_pos
    have hlow := Ram.getElem?_answer_of_ok h (i := 1) Nat.one_lt_two
    change Ram.readWord _ _ = _
    rw [Ram.readWord_eq, hlow, ← Nat.add_zero (region.localAddress a).toNat, hhigh]
    exact congrArg Except.ok (Word.ofBytes_high_low v)

/-! ## Words -/

theorem word?_eq_some_iff {address : Nat} :
    bus.word? address = some v ↔
      address < 0x10000 ∧ bus.answer (.ofNat address) .readWord = (.ok v, bus) := by
  unfold word? addressSpace
  have hbus := @answer_read bus (.ofNat address) .readWord rfl
  generalize bus.answer (.ofNat address) .readWord = answer at hbus
  obtain ⟨reply, bus₁⟩ := answer
  cases hbus
  split
  next h =>
    cases reply with
    | ok word => simp [Except.toOption, h]
    | error f => simp [Except.toOption]
  next h => simp [h]

theorem answer_readWord_iff {bus₁ : Bus Ram} :
    bus.answer a .readWord = (.ok v, bus₁) ↔ bus.word? a.toNat = some v ∧ bus₁ = bus := by
  rw [word?_eq_some_iff, UInt16.ofNat_toNat]
  constructor
  · intro h
    have hbus := @answer_read bus a .readWord rfl
    rw [h] at hbus
    cases hbus
    exact ⟨⟨a.toNat_lt, h⟩, rfl⟩
  · rintro ⟨⟨-, h⟩, rfl⟩
    exact h

theorem lt_of_word?_eq_some {address : Nat} (h : bus.word? address = some v) :
    address < 0x10000 :=
  (word?_eq_some_iff.mp h).1

theorem word?_of_writeWord (h : bus.answer a (.writeWord v) = (.ok (), bus')) :
    bus'.word? a.toNat = some v := by
  have hread := @readWord_after bus a v (congrArg Prod.fst h)
  rw [h] at hread
  exact (answer_readWord_iff.mp (Prod.ext hread (answer_read a rfl))).1

theorem word?_of_writeWord_of_ne (h : bus.answer a (.writeWord v) = (.ok (), bus')) {address : Nat}
    (hab : a.toNat + 2 ≤ address ∨ address + 2 ≤ a.toNat) :
    bus'.word? address = bus.word? address := by
  by_cases hlt : address < 0x10000
  · have haddress : (UInt16.ofNat address).toNat = address := by
      rw [UInt16.toNat_ofNat', Nat.mod_eq_of_lt (by simpa using hlt)]
    have hsame := @answer_after bus a (.ofNat address) (.writeWord v) .readWord
      (Or.inr (haddress.symm ▸ hab))
    rw [h] at hsame
    unfold word?
    rw [hsame]
  · unfold word? addressSpace
    rw [if_neg hlt, if_neg hlt]

end Bus

/-- A program that only reads leaves a bus of memories as it is, whether it fails or not. -/
theorem BusProgram.ReadsOnly.eval_eq {α : Type} {p : BusProgram α} (hp : p.ReadsOnly)
    (bus : Bus Ram) : (p.eval bus).2 = bus := by
  induction p with
  | done result => rfl
  | fault f => rfl
  | access address request next ih =>
    have hbus : (Device.answer bus address request).2 = bus := Bus.answer_read address hp.1
    rw [eval]
    split
    next reply bus₁ heq =>
      rw [heq] at hbus
      obtain rfl : bus₁ = bus := hbus
      exact ih reply (hp.2 reply)
    next heq =>
      rw [heq] at hbus
      exact hbus
  | log entry next ih => exact ih hp

/-- Microcode that only reads leaves a bus of memories as it is. -/
theorem Microcode.ReadsOnly.device_eq {α : Type} {code : Microcode α} (h : code.ReadsOnly)
    {core core' : Core} {bus bus' : Bus Ram} {a : α}
    (hc : code.Completes core bus a core' bus') : bus' = bus := by
  have heval := (h core).eval_eq bus
  rwa [show (code core).eval bus = (.ok (a, core'), bus') from hc] at heval

namespace Bus

variable {bus bus' : Bus Ram}

/-! ## Lists of words -/

/-- The words of a list can be read from an address on, two bytes apart. -/
def Holds {δ : Type} [Device δ] (bus : Bus δ) (address : Nat) : List Word → Prop
  | [] => True
  | word :: words => bus.word? address = some word ∧ bus.Holds (address + 2) words

theorem holds_append {address : Nat} {xs ys : List Word} :
    bus.Holds address (xs ++ ys) ↔
      bus.Holds address xs ∧ bus.Holds (address + 2 * xs.length) ys := by
  induction xs generalizing address with
  | nil => simp [Holds]
  | cons x xs ih =>
    rw [List.cons_append, Holds, Holds, ih, List.length_cons, and_assoc,
      show address + 2 + 2 * xs.length = address + 2 * (xs.length + 1) by omega]

theorem Holds.lt {address : Nat} {words : List Word} (h : bus.Holds address words) {i : Nat}
    (hi : i < words.length) : address + 2 * i < 0x10000 := by
  induction words generalizing address i with
  | nil => cases hi
  | cons word words ih =>
    cases i with
    | zero => exact lt_of_word?_eq_some h.1
    | succ i =>
      have := ih h.2 (Nat.lt_of_succ_lt_succ hi)
      omega

theorem Holds.getElem? {address : Nat} {words : List Word} (h : bus.Holds address words) {i : Nat}
    {word : Word} (hi : words[i]? = some word) : bus.word? (address + 2 * i) = some word := by
  induction words generalizing address i with
  | nil => cases hi
  | cons first words ih =>
    cases i with
    | zero =>
      cases hi
      exact h.1
    | succ i =>
      rw [show address + 2 * (i + 1) = address + 2 + 2 * i by omega]
      exact ih h.2 hi

/-- Words that are read as before at their addresses are held as before. -/
theorem Holds.congr {address : Nat} {words : List Word} (h : bus.Holds address words)
    (hw : ∀ i < words.length, bus'.word? (address + 2 * i) = bus.word? (address + 2 * i)) :
    bus'.Holds address words := by
  induction words generalizing address with
  | nil => trivial
  | cons word words ih =>
    refine ⟨(hw 0 (by simp)).trans h.1, ih h.2 fun i hi => ?_⟩
    have := hw (i + 1) (by simpa using hi)
    rwa [show address + 2 * (i + 1) = address + 2 + 2 * i by omega] at this

/-- A word that is written right below words that are held is held with them. -/
theorem holds_of_writeWord {a word : Word} {words : List Word}
    (hwrite : bus.answer a (.writeWord word) = (.ok (), bus'))
    (h : bus.Holds (a.toNat + 2) words) : bus'.Holds a.toNat (word :: words) :=
  ⟨word?_of_writeWord hwrite,
    h.congr fun i _ => word?_of_writeWord_of_ne hwrite (Or.inl (by omega))⟩

/-- As many words as wanted are held from an address on if each of them can be read. -/
theorem exists_holds_iff {address n : Nat} :
    (∃ words, words.length = n ∧ bus.Holds address words) ↔
      ∀ i < n, (bus.word? (address + 2 * i)).isSome := by
  induction n generalizing address with
  | zero =>
    constructor
    · exact fun _ i hi => absurd hi (Nat.not_lt_zero i)
    · exact fun _ => ⟨[], rfl, trivial⟩
  | succ n ih =>
    constructor
    · rintro ⟨_ | ⟨word, words⟩, hlen, h⟩ i hi
      · cases hlen
      · cases i with
        | zero => exact Option.isSome_of_mem h.1
        | succ i =>
          have := ih.mp ⟨words, Nat.succ.inj hlen, h.2⟩ i (by omega)
          rwa [show address + 2 * (i + 1) = address + 2 + 2 * i by omega]
    · intro h
      obtain ⟨word, hword⟩ := Option.isSome_iff_exists.mp (h 0 (by omega))
      obtain ⟨words, hlen, hwords⟩ := ih.mpr fun i hi => by
        have := h (i + 1) (by omega)
        rwa [show address + 2 * (i + 1) = address + 2 + 2 * i by omega] at this
      exact ⟨word :: words, by rw [List.length_cons, hlen], hword, hwords⟩

/-- The words held at an address are determined by their number. -/
theorem Holds.unique {address : Nat} {xs ys : List Word} (hx : bus.Holds address xs)
    (hy : bus.Holds address ys) (hlen : xs.length = ys.length) : xs = ys := by
  induction xs generalizing address ys with
  | nil => exact (List.length_eq_zero_iff.mp hlen.symm).symm
  | cons x xs ih =>
    cases ys with
    | nil => cases hlen
    | cons y ys =>
      have hxy : x = y := Option.some.inj (hx.1.symm.trans hy.1)
      rw [hxy, ih hx.2 hy.2 (Nat.succ.inj hlen)]

end Bus

/-- A machine after a reset, with a program at the beginning of the address space and memory for the
    stack at its end. -/
def Machine.loaded (program : Array Byte) : Machine Ram :=
  ⟨.initial, (Bus.empty.map ⟨program⟩ 0 0x7fff true).map (.zeroed 96) 0xffa0 0xffff true, false,
    #[]⟩

end WordMachine
