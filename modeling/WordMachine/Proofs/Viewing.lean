import WordMachine.Proofs.BulkWrite
import WordMachine.Proofs.Numerals
import WordMachine.Proofs.Reports

/-!
# Views of memory

A view reads bytes one after the other, around the end of the address space, and shows them as one
line of text. The first byte that cannot be read ends it. What devices do on the way counts for the
reads that follow, so that the replies are those of the bus as each read finds it. The text can be read
back: digits are of a fixed number, and a byte has a space in front of it.

* `read_cases`: the two ways in which reading many bytes ends.
* `decode_text`: a text is decoded into the address and the bytes that it was made of.
* `view_of_write`: bytes that have been written to memories, viewed.
* `viewsReplies`: all that a view does.
-/

namespace WordMachine

/-! ## Reading back a text -/

namespace Hex

open CommandLine

theorem exists_values_fixed {width n : Nat} (h : n < 16 ^ width) :
    ∃ values, List.Forall₂ (DigitOf 16) (fixed width n) values ∧ Number.total 16 0 values = n := by
  induction width generalizing n with
  | zero =>
    obtain rfl : n = 0 := Nat.lt_one_iff.mp h
    exact ⟨[], .nil, rfl⟩
  | succ width ih =>
    obtain ⟨values, hvalues, htotal⟩ := @ih (n / 16) (Nat.div_lt_of_lt_mul (by rwa [pow_succ'] at h))
    have hlast : DigitOf 16 (n % 16).digitChar (n % 16) := ⟨Nat.mod_lt _ (by decide), Or.inl rfl⟩
    have hread : Number.total 16 0 (values ++ [n % 16]) = Number.total 16 0 values * 16 + n % 16 :=
      List.foldl_append
    exact ⟨values ++ [n % 16], List.rel_append hvalues (.cons hlast .nil), by omega⟩

/-- The command line reads back the digits of a fixed number. -/
theorem digits_fixed {width n : Nat} (h : n < 16 ^ width) (hlimit : n < Number.limit) :
    Number.digits 16 0 (fixed width n) = .ok n := by
  obtain ⟨values, hvalues, htotal⟩ := exists_values_fixed h
  exact (Number.digits_eq_ok_iff (by decide) (by decide) (by decide)).mpr
    ⟨values, hvalues, htotal.symm, hlimit⟩

end Hex

namespace MemoryView

/-- The number with the given hexadecimal digits. -/
def number? (digits : List Char) : Option Nat := (CommandLine.Number.digits 16 0 digits).toOption

/-- The bytes of a text with a space in front of each of them. -/
def bytes? : List Char → Option (List Byte)
  | [] => some []
  | ' ' :: '0' :: 'x' :: high :: low :: rest => do
    let byte ← number? [high, low]
    let bytes ← bytes? rest
    some (.ofNat byte :: bytes)
  | _ => none

/-- The bytes behind the colon. A space is left if there are none. -/
def row? (text : List Char) : Option (List Byte) := if text = [' '] then some [] else bytes? text

/-- The address and the bytes of which a text is the view. -/
def decode (text : String) : Option (Word × List Byte) :=
  match text.toList with
  | '0' :: 'x' :: first :: second :: third :: fourth :: ':' :: rest => do
    let address ← number? [first, second, third, fourth]
    let bytes ← row? rest
    some (.ofNat address, bytes)
  | _ => none

/-- A byte of a text, with the space in front of it. -/
def spaced (byte : Byte) : List Char := ' ' :: '0' :: 'x' :: Hex.fixed 2 byte.toNat

theorem number?_byte (byte : Byte) : number? (Hex.fixed 2 byte.toNat) = some byte.toNat := by
  have hlt := byte.toNat_lt
  have hlimit : 2 ^ 8 ≤ CommandLine.Number.limit := by decide
  rw [number?, Hex.digits_fixed (by omega) (by omega)]
  rfl

theorem number?_word (address : Word) : number? (Hex.fixed 4 address.toNat) = some address.toNat := by
  have hlt := address.toNat_lt
  have hlimit : 2 ^ 16 ≤ CommandLine.Number.limit := by decide
  rw [number?, Hex.digits_fixed (by omega) (by omega)]
  rfl

theorem bytes?_flatMap_spaced (bytes : List Byte) : bytes? (bytes.flatMap spaced) = some bytes := by
  induction bytes with
  | nil => rfl
  | cons byte bytes ih =>
    have hbyte := number?_byte byte
    rw [List.flatMap_cons]
    change (number? (Hex.fixed 2 byte.toNat)).bind (fun n =>
      (bytes? (bytes.flatMap spaced)).bind fun rest => some (.ofNat n :: rest)) = _
    rw [hbyte, ih]
    simp

/-- What is behind the colon of a text. -/
def row (bytes : List Byte) : List Char :=
  ' ' :: [' '].intercalate (bytes.map fun b => '0' :: 'x' :: Hex.fixed 2 b.toNat)

theorem row_cons (byte : Byte) (bytes : List Byte) :
    row (byte :: bytes) = (byte :: bytes).flatMap spaced := by
  induction bytes generalizing byte with
  | nil => rfl
  | cons next bytes ih =>
    rw [List.flatMap_cons, ← ih next, row, List.map_cons, List.map_cons,
      List.intercalate_cons_cons]
    simp [spaced, row]

theorem row?_row (bytes : List Byte) : row? (row bytes) = some bytes := by
  cases bytes with
  | nil => rfl
  | cons byte bytes =>
    have hne : row (byte :: bytes) ≠ [' '] := by simp [row_cons, spaced]
    rw [row?, if_neg hne, row_cons, bytes?_flatMap_spaced]

theorem toList_text (address : Word) (bytes : List Byte) :
    (text address bytes).toList = '0' :: 'x' :: (Hex.fixed 4 address.toNat ++ ':' :: row bytes) := by
  have hbyte : ∀ b, ("0x" ++ Hex.byte b).toList = '0' :: 'x' :: Hex.fixed 2 b.toNat := by
    simp [Hex.byte]
  simp [text, Hex.word, row, hbyte, Function.comp_def]

theorem decode_text (address : Word) (bytes : List Byte) :
    decode (text address bytes) = some (address, bytes) := by
  have hword := number?_word address
  rw [decode, toList_text]
  change (number? (Hex.fixed 4 address.toNat)).bind (fun n =>
    (row? (row bytes)).bind fun bytes => some (UInt16.ofNat n, bytes)) = _
  rw [hword, row?_row]
  simp

end MemoryView

/-! ## Reading many bytes -/

namespace Bus

variable {δ : Type}

/-- Reads of bytes at the addresses from `a` on, around the end of the address space. -/
def byteReads (a : Word) (n : Nat) : List (Word × Request) :=
  (List.range n).map fun i => (a + .ofNat i, .readByte)

theorem byteReads_succ (a : Word) (n : Nat) :
    byteReads a (n + 1) = byteReads a n ++ [(a + .ofNat n, .readByte)] := by
  rw [byteReads, List.range_succ, List.map_append]
  rfl

section

variable [Device δ] {bus : Bus δ} {a : Word} {i n : Nat} {bytes : List Byte} {fault : Fault}

/-- The bus after reads of bytes, of which any may fail. -/
def afterReads (bus : Bus δ) (a : Word) (n : Nat) : Bus δ := Device.after bus (byteReads a n)

/-- The reply to a read of the byte at `a + i`, behind reads of those in front of it. -/
def replyAt (bus : Bus δ) (a : Word) (i : Nat) : Except Fault Byte :=
  ((bus.afterReads a i).answer (a + .ofNat i) .readByte).1

/-- The bytes are the replies to reads from an address on. -/
def Replies (bus : Bus δ) (a : Word) (bytes : List Byte) : Prop :=
  ∀ i (hi : i < bytes.length), bus.replyAt a i = .ok bytes[i]

/-- Of reads from an address on, that of the byte at `a + i` is the first to fail. -/
structure FailsAt (bus : Bus δ) (a : Word) (i : Nat) (fault : Fault) : Prop where
  before : ∀ j < i, ∃ byte, bus.replyAt a j = .ok byte
  fails : bus.replyAt a i = .error fault

theorem answer_afterReads (bus : Bus δ) (a : Word) (i : Nat) :
    (bus.afterReads a i).answer (a + .ofNat i) .readByte =
      (bus.replyAt a i, bus.afterReads a (i + 1)) := by
  have hnext : bus.afterReads a (i + 1) =
      ((bus.afterReads a i).answer (a + .ofNat i) .readByte).2 := by
    rw [afterReads, byteReads_succ, Device.after, List.foldl_append]
    rfl
  rw [hnext, replyAt]

/-- One byte more is read behind the others. -/
theorem readEach_succ (bus : Bus δ) (a : Word) (done : Array Byte) (n : Nat) :
    bus.readEach a done (n + 1) =
      match bus.readEach a done n with
      | (.ok done, bus) =>
        match bus.answer (a + .ofNat n) .readByte with
        | (.ok byte, bus) => (.ok (done.push byte), bus)
        | (.error fault, bus) => (.error fault, bus)
      | (.error fault, bus) => (.error fault, bus) := by
  induction n generalizing bus a done with
  | zero =>
    have hzero : a + .ofNat 0 = a := UInt16.add_zero a
    rw [readEach, hzero]
    rfl
  | succ n ih =>
    have hnext : a + 1 + .ofNat n = a + .ofNat (n + 1) := by
      rw [UInt16.ofNat_add, UInt16.add_assoc, UInt16.add_comm 1]
      rfl
    rw [readEach, readEach]
    generalize bus.answer a .readByte = outcome
    obtain ⟨fault | byte, bus₁⟩ := outcome
    · rfl
    · simp only
      rw [ih, hnext]

/-- Either all bytes are read, or those in front of the first one that cannot be. -/
theorem read_cases (bus : Bus δ) (a : Word) (n : Nat) :
    (∃ bytes : List Byte, bytes.length = n ∧ bus.Replies a bytes ∧
        bus.read a n = (.ok bytes.toArray, bus.afterReads a n)) ∨
      ∃ i < n, ∃ fault, bus.FailsAt a i fault ∧
        bus.read a n = (.error fault, bus.afterReads a (i + 1)) := by
  induction n with
  | zero => exact Or.inl ⟨[], rfl, nofun, rfl⟩
  | succ n ih =>
    rw [read, readEach_succ, ← read]
    rcases ih with ⟨bytes, rfl, hreplies, hread⟩ | ⟨i, hi, fault, hfails, hread⟩
    · rw [hread]
      simp only
      rw [answer_afterReads]
      cases hlast : bus.replyAt a bytes.length with
      | ok byte =>
        refine Or.inl ⟨bytes ++ [byte], List.length_append, fun i hi => ?_, by simp⟩
        rcases Nat.lt_or_ge i bytes.length with hlt | hge
        · rw [List.getElem_append_left hlt]
          exact hreplies i hlt
        · rw [List.length_append, List.length_singleton] at hi
          obtain rfl : i = bytes.length := by omega
          rw [List.getElem_concat_length rfl]
          exact hlast
      | error fault =>
        have hbefore : ∀ j < bytes.length, ∃ byte, bus.replyAt a j = .ok byte :=
          fun j hj => ⟨bytes[j], hreplies j hj⟩
        exact Or.inr ⟨bytes.length, Nat.lt_succ_self _, fault, ⟨hbefore, hlast⟩, rfl⟩
    · rw [hread]
      exact Or.inr ⟨i, Nat.lt_succ_of_lt hi, fault, hfails, rfl⟩

theorem Replies.unique {bytes' : List Byte} (h : bus.Replies a bytes) (h' : bus.Replies a bytes')
    (hlength : bytes.length = bytes'.length) : bytes = bytes' :=
  List.ext_getElem hlength fun i hi hi' => Except.ok.inj ((h i hi).symm.trans (h' i hi'))

theorem FailsAt.unique {i' : Nat} {fault' : Fault} (h : bus.FailsAt a i fault)
    (h' : bus.FailsAt a i' fault') : i = i' ∧ fault = fault' := by
  have hle : ∀ {i i' fault fault'}, bus.FailsAt a i fault → bus.FailsAt a i' fault' → i ≤ i' := by
    intro i i' fault fault' h h'
    by_contra hlt
    obtain ⟨byte, hbyte⟩ := h.before i' (Nat.lt_of_not_le hlt)
    cases hbyte.symm.trans h'.fails
  obtain rfl := Nat.le_antisymm (hle h h') (hle h' h)
  exact ⟨rfl, Except.error.inj (h.fails.symm.trans h'.fails)⟩

theorem FailsAt.not_replies (h : bus.FailsAt a i fault) (hi : i < bytes.length) :
    ¬bus.Replies a bytes := by
  intro hreplies
  cases h.fails.symm.trans (hreplies i hi)

theorem read_of_replies (h : bus.Replies a bytes) :
    bus.read a bytes.length = (.ok bytes.toArray, bus.afterReads a bytes.length) := by
  rcases bus.read_cases a bytes.length with ⟨bytes', hlength, hreplies, hread⟩ | ⟨i, hi, fault, hfails, -⟩
  · obtain rfl := hreplies.unique h hlength
    exact hread
  · exact absurd h (hfails.not_replies hi)

theorem read_of_failsAt (h : bus.FailsAt a i fault) (hi : i < n) :
    bus.read a n = (.error fault, bus.afterReads a (i + 1)) := by
  rcases bus.read_cases a n with ⟨bytes, rfl, hreplies, -⟩ | ⟨i', hi', fault', hfails, hread⟩
  · exact absurd hreplies (h.not_replies hi)
  · obtain ⟨rfl, rfl⟩ := hfails.unique h
    exact hread

end

/-- Bytes that were written to memories can be read from them. -/
theorem shows_of_write {bus bus' : Bus Ram} {a : Word} {bytes : List Byte}
    (h : bus.write a bytes = (.ok (), bus')) : bus'.Shows a bytes := by
  intro i hi
  rw [add_ofNat_eq]
  exact Prod.ext ((replaced_of_write h).stored i hi) (answer_read _ rfl)

end Bus

/-! ## Views -/

namespace Machine

section

variable {δ : Type} [Device δ]

/-- A machine that has read bytes. -/
def afterReads (machine : Machine δ) (a : Word) (n : Nat) : Machine δ :=
  { machine with bus := machine.bus.afterReads a n }

/-- A view of bytes, on a bus of any devices. -/
structure Views (machine : Machine δ) (a : Word) (n : Nat) : Prop where
  /-- if all bytes can be read, the text shows the replies -/
  shows : ∀ text machine', machine.view a n = (.ok text, machine') ↔
    machine' = machine.afterReads a n ∧
      ∃ bytes : List Byte, bytes.length = n ∧ machine.bus.Replies a bytes ∧
        text = "0x" ++ Hex.word a ++ ": " ++ " ".intercalate (bytes.map fun b => "0x" ++ Hex.byte b)
  /-- otherwise nothing is read behind the first one that cannot be, whose fault is returned -/
  fails : ∀ fault machine', machine.view a n = (.error fault, machine') ↔
    ∃ i < n, machine.bus.FailsAt a i fault ∧ machine' = machine.afterReads a (i + 1)
  /-- from a text alone the address and the replies can be told -/
  decoded : ∀ text, (machine.view a n).1 = .ok text →
    ∃ bytes, bytes.length = n ∧ machine.bus.Replies a bytes ∧
      MemoryView.decode text = some (a, bytes)

variable {machine : Machine δ} {a : Word}

theorem view_of_replies {bytes : List Byte} (h : machine.bus.Replies a bytes) :
    machine.view a bytes.length =
      (.ok (MemoryView.text a bytes), machine.afterReads a bytes.length) := by
  obtain ⟨core, bus, halted, log⟩ := machine
  rw [view, Bus.read_of_replies h]
  rfl

theorem view_of_failsAt {i n : Nat} {fault : Fault} (h : machine.bus.FailsAt a i fault)
    (hi : i < n) : machine.view a n = (.error fault, machine.afterReads a (i + 1)) := by
  obtain ⟨core, bus, halted, log⟩ := machine
  rw [view, Bus.read_of_failsAt h hi]
  rfl

theorem view_eq_ok_iff {n : Nat} {text : String} {machine' : Machine δ} :
    machine.view a n = (.ok text, machine') ↔
      machine' = machine.afterReads a n ∧
        ∃ bytes, bytes.length = n ∧ machine.bus.Replies a bytes ∧ text = MemoryView.text a bytes := by
  constructor
  · intro h
    rcases machine.bus.read_cases a n with ⟨bytes, rfl, hreplies, -⟩ | ⟨i, hi, fault, hfails, -⟩
    · cases (view_of_replies hreplies).symm.trans h
      exact ⟨rfl, bytes, rfl, hreplies, rfl⟩
    · cases (view_of_failsAt hfails hi).symm.trans h
  · rintro ⟨rfl, bytes, rfl, hreplies, rfl⟩
    exact view_of_replies hreplies

theorem view_eq_error_iff {n : Nat} {fault : Fault} {machine' : Machine δ} :
    machine.view a n = (.error fault, machine') ↔
      ∃ i < n, machine.bus.FailsAt a i fault ∧ machine' = machine.afterReads a (i + 1) := by
  constructor
  · intro h
    rcases machine.bus.read_cases a n with ⟨bytes, rfl, hreplies, -⟩ | ⟨i, hi, fault', hfails, -⟩
    · cases (view_of_replies hreplies).symm.trans h
    · cases (view_of_failsAt hfails hi).symm.trans h
      exact ⟨i, hi, hfails, rfl⟩
  · rintro ⟨i, hi, hfails, rfl⟩
    exact view_of_failsAt hfails hi

theorem viewsReplies (machine : Machine δ) (a : Word) (n : Nat) : machine.Views a n where
  shows _ _ := view_eq_ok_iff
  fails _ _ := view_eq_error_iff
  decoded text h := by
    obtain ⟨-, bytes, hlength, hreplies, rfl⟩ := view_eq_ok_iff.mp (Prod.ext h rfl)
    exact ⟨bytes, hlength, hreplies, MemoryView.decode_text a bytes⟩

end

/-- Bytes that have been written to memories are shown, and the view changes nothing. -/
theorem view_of_write {machine machine' : Machine Ram} {a : Word} {bytes : List Byte}
    (h : machine.write a bytes = (.ok (), machine')) :
    machine'.view a bytes.length = (.ok (MemoryView.text a bytes), machine') := by
  obtain ⟨core, bus, halted, log⟩ := machine
  have hbus : bus.write a bytes = (.ok (), machine'.bus) := by
    rw [write] at h
    generalize bus.write a bytes = outcome at h
    obtain ⟨result, bus'⟩ := outcome
    cases h
    rfl
  obtain ⟨core', bus', halted', log'⟩ := machine'
  rw [view, Bus.read, Bus.readEach_of_shows (Bus.shows_of_write hbus)]
  simp

/-- A view shows what is read, and what was written to memories is read. From the text of a view the
    address and the bytes can be told. -/
theorem view_faithful (a : Word) :
    (∀ {δ : Type} [Device δ] (machine : Machine δ) (n : Nat), machine.Views a n) ∧
      ∀ (machine machine' : Machine Ram) (bytes : List Byte),
        machine.write a bytes = (.ok (), machine') →
          ∃ text, machine'.view a bytes.length = (.ok text, machine') ∧
            MemoryView.decode text = some (a, bytes) :=
  ⟨fun machine n => viewsReplies machine a n, fun _ _ bytes h =>
    ⟨_, view_of_write h, MemoryView.decode_text a bytes⟩⟩

/-- A machine with two memories side by side. -/
def sideBySide : Machine Ram := ⟨.initial, Bus.shortSecond, false, #[]⟩

/-- Bytes in both memories are written and can be told from the view. -/
theorem decode_view_sideBySide :
    (sideBySide.write 0x100f [1, 0xab, 3]).1 = .ok () ∧
      ∃ text, ((sideBySide.write 0x100f [1, 0xab, 3]).2.view 0x100f 3).1 = .ok text ∧
        MemoryView.decode text = some (0x100f, [1, 0xab, 3]) := by
  have hwrite : (sideBySide.write 0x100f [1, 0xab, 3]).1 = .ok () := by decide +kernel
  obtain ⟨text, hview, hdecode⟩ :=
    (view_faithful 0x100f).2 sideBySide _ [1, 0xab, 3] (Prod.ext hwrite rfl)
  exact ⟨hwrite, text, congrArg Prod.fst hview, hdecode⟩

/-- A view of no bytes shows the address, whether anything is there or not. -/
example : (sideBySide.view 0xffff 0).1 = .ok "0xffff: " := by cbv

end Machine

end WordMachine
