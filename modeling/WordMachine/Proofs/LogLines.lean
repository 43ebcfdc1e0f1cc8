import WordMachine.LogEntry

/-!
# The lines of the log

The line of an entry says what the entry holds. It begins with words that belong to one kind of entry and
are not the beginning of those of another kind; numbers have a fixed width, except for those of a region,
which end at a blank or with the line.

* `mnemonic_injective`: an opcode has a name of its own.
* `says_iff`: the lines, written out.
* `line_injective`: equal lines come from equal entries.
-/

namespace WordMachine

/-! ## Texts that can be taken off a line -/

namespace Hex

variable {a b : Word} {x y : Byte} {s t : String}

theorem word_append_inj (h : word a ++ s = word b ++ t) : a = b ∧ s = t := by
  have hlist := congrArg String.toList h
  rw [String.toList_append, String.toList_append] at hlist
  obtain ⟨hword, hrest⟩ := List.append_inj hlist (by simp [word, length_fixed])
  exact ⟨word_injective (String.toList_injective hword), String.toList_injective hrest⟩

theorem byte_append_inj (h : byte x ++ s = byte y ++ t) : x = y ∧ s = t := by
  have hlist := congrArg String.toList h
  rw [String.toList_append, String.toList_append] at hlist
  obtain ⟨hbyte, hrest⟩ := List.append_inj hlist (by simp [byte, length_fixed])
  exact ⟨byte_injective (String.toList_injective hbyte), String.toList_injective hrest⟩

theorem append_word_inj (h : s ++ word a = t ++ word b) : s = t ∧ a = b := by
  have hlist := congrArg String.toList h
  rw [String.toList_append, String.toList_append] at hlist
  obtain ⟨hrest, hword⟩ := List.append_inj' hlist (by simp [word, length_fixed])
  exact ⟨String.toList_injective hrest, word_injective (String.toList_injective hword)⟩

end Hex

theorem repr_injective {m n : Nat} (h : m.repr = n.repr) : m = n := by
  have hvalue := congrArg (fun digits => Nat.ofDigitChars 10 digits.toList 0) h
  simpa using hvalue

/-- The digits of a number end at a blank. -/
theorem takeWhile_repr (n : Nat) (rest : List Char) :
    (n.repr.toList ++ ' ' :: rest).takeWhile (· ≠ ' ') = n.repr.toList := by
  have hdigits : ∀ c ∈ n.repr.toList, decide (c ≠ ' ') = true := by
    intro c hc
    rw [Nat.toList_repr] at hc
    refine decide_eq_true ?_
    rintro rfl
    exact absurd (Nat.isDigit_of_mem_toDigits (by decide) (by decide) hc) (by decide)
  rw [List.takeWhile_append_of_pos hdigits, List.takeWhile_cons_of_neg (by decide), List.append_nil]

theorem repr_append_inj {m n : Nat} {s t : String}
    (h : m.repr ++ (" 0x" ++ s) = n.repr ++ (" 0x" ++ t)) : m = n ∧ s = t := by
  have hfront := congrArg (fun text => text.toList.takeWhile (· ≠ ' ')) h
  simp only [String.toList_append] at hfront
  have hdigits : m.repr.toList = n.repr.toList :=
    (takeWhile_repr m _).symm.trans (hfront.trans (takeWhile_repr n _))
  obtain rfl := repr_injective (String.toList_injective hdigits)
  rw [String.append_right_inj, String.append_right_inj] at h
  exact ⟨rfl, h⟩

/-! ## Names of opcodes -/

namespace Opcode

/-- The opcodes with a meaning. -/
def meaningful : List Opcode :=
  [.literal, .register].flatMap (fun source =>
    [move source, store source, push source, call source] ++
      [.add, .sub, .mul].map (arithmetic · source) ++ [.left, .right].map (shift · source) ++
      [.and, .or, .xor].map (bitwise · source) ++
      [.ne, .eq, .lt, .gt, .le, .ge].map (jump · source)) ++
    [.increment, .decrement, .complement].map unary ++
    [load, loadIndirect, loadIndexed, literalMinus, pop, ret, halt]

theorem mem_meaningful {op : Opcode} (h : ∀ byte, op ≠ unknown byte) : op ∈ meaningful := by
  cases op with
  | load | loadIndirect | loadIndexed | literalMinus | pop | ret | halt => decide
  | move source | store source | push source | call source => cases source <;> decide
  | unary operation => cases operation <;> decide
  | arithmetic operation source => cases operation <;> cases source <;> decide
  | shift direction source => cases direction <;> cases source <;> decide
  | bitwise operation source => cases operation <;> cases source <;> decide
  | jump condition source => cases condition <;> cases source <;> decide
  | unknown byte => exact absurd rfl (h byte)

theorem eq_of_mnemonic_eq : ∀ a ∈ meaningful, ∀ b ∈ meaningful, a.mnemonic = b.mnemonic → a = b := by
  decide +kernel

theorem head?_mnemonic : ∀ op ∈ meaningful, op.mnemonic.toList.head? ≠ some 'U' := by
  decide +kernel

theorem head?_mnemonic_unknown (byte : Byte) :
    (unknown byte).mnemonic.toList.head? = some 'U' := by
  simp [mnemonic, toString]

/-- An opcode has a name of its own. -/
theorem mnemonic_injective {a b : Opcode} (h : a.mnemonic = b.mnemonic) : a = b := by
  -- the name of a byte without a meaning is the only one that begins with a U
  by_cases ha : ∃ byte, a = unknown byte <;> by_cases hb : ∃ byte, b = unknown byte
  · obtain ⟨x, rfl⟩ := ha
    obtain ⟨y, rfl⟩ := hb
    have hrepr : x.toNat.repr = y.toNat.repr := by
      simpa [mnemonic, toString, String.append_left_inj, String.append_right_inj] using h
    rw [UInt8.toNat_inj.mp (repr_injective hrepr)]
  · obtain ⟨x, rfl⟩ := ha
    have hhead := head?_mnemonic b (mem_meaningful (not_exists.mp hb))
    rw [← h] at hhead
    exact absurd (head?_mnemonic_unknown x) hhead
  · obtain ⟨y, rfl⟩ := hb
    have hhead := head?_mnemonic a (mem_meaningful (not_exists.mp ha))
    rw [h] at hhead
    exact absurd (head?_mnemonic_unknown y) hhead
  · exact eq_of_mnemonic_eq a (mem_meaningful (not_exists.mp ha)) b (mem_meaningful (not_exists.mp hb)) h

end Opcode

/-! ## Lines -/

namespace LogEntry

/-- The words with which the text of an entry begins. -/
def verb : LogEntry → String
  | mapped .. => "map #"
  | unmapped .. => "unmap #"
  | fetched .. => "0x"
  | called .. => "call 0x"
  | returned .. => "return to 0x"
  | skipped .. => "unknown opcode 0x"
  | halted .. => "halted at 0x"

/-- Where a call comes from. -/
def origin : Option Register → Word → String
  | none, source => " from 0x" ++ Hex.word source
  | some r, source => " (" ++ (r.name ++ (") from 0x" ++ Hex.word source))

theorem origin_injective {via via' : Option Register} {source source' : Word}
    (h : origin via source = origin via' source') : via = via' ∧ source = source' := by
  have hlist := congrArg String.toList h
  cases via with
  | none =>
    cases via' with
    | none => exact ⟨rfl, Hex.word_injective (String.append_right_inj _ |>.mp h)⟩
    | some r' => simp [origin] at hlist
  | some r =>
    cases via' with
    | none => simp [origin] at hlist
    | some r' =>
      rw [origin, origin, String.append_right_inj, ← String.append_assoc, ← String.append_assoc] at h
      obtain ⟨hname, rfl⟩ := Hex.append_word_inj h
      rw [Register.name_injective (String.append_left_inj _ |>.mp hname)]
      exact ⟨rfl, rfl⟩

/-- What the text of an entry says behind its verb. -/
def details : LogEntry → String
  | mapped id first last remap =>
    id.repr ++ (" 0x" ++ (Hex.word first ++ ("..=0x" ++ (Hex.word last ++
      (" remap=" ++ toString remap)))))
  | unmapped id => id.repr
  | fetched address opcode => Hex.word address ++ (": " ++ opcode.mnemonic)
  | called target via source => Hex.word target ++ origin via source
  | returned target => Hex.word target
  | skipped byte address => Hex.byte byte ++ (" at 0x" ++ (Hex.word address ++ ", skipping"))
  | halted address => Hex.word address

theorem text_eq (entry : LogEntry) : entry.text = entry.verb ++ entry.details := by
  rcases entry with _ | _ | _ | ⟨_, _ | _, _⟩ | _ | _ | _
  all_goals
    delta text verb details origin
    simp only [toString, String.append_assoc]

/-- How the line of an entry begins. -/
def opening (entry : LogEntry) : String := entry.level.name ++ " " ++ entry.verb

theorem line_eq (entry : LogEntry) : entry.line = entry.opening ++ entry.details := by
  rw [line, text_eq, opening, ← String.append_assoc]

/-- The line of an entry, written out. -/
inductive Says : LogEntry → String → Prop
  | mapped (id : Nat) (first last : Word) (remap : Bool) :
      Says (.mapped id first last remap)
        ("DEBUG map #" ++ id.repr ++ " 0x" ++ Hex.padded 4 first.toNat ++ "..=0x" ++
          Hex.padded 4 last.toNat ++ " remap=" ++ toString remap)
  | unmapped (id : Nat) : Says (.unmapped id) ("DEBUG unmap #" ++ id.repr)
  | fetched (address : Word) (opcode : Opcode) :
      Says (.fetched address opcode)
        ("TRACE 0x" ++ Hex.padded 4 address.toNat ++ ": " ++ opcode.mnemonic)
  | called (target source : Word) :
      Says (.called target none source)
        ("DEBUG call 0x" ++ Hex.padded 4 target.toNat ++ " from 0x" ++ Hex.padded 4 source.toNat)
  | calledVia (target : Word) (r : Register) (source : Word) :
      Says (.called target (some r) source)
        ("DEBUG call 0x" ++ Hex.padded 4 target.toNat ++ " (" ++ r.name ++ ") from 0x" ++
          Hex.padded 4 source.toNat)
  | returned (target : Word) :
      Says (.returned target) ("DEBUG return to 0x" ++ Hex.padded 4 target.toNat)
  | skipped (byte : Byte) (address : Word) :
      Says (.skipped byte address)
        ("DEBUG unknown opcode 0x" ++ Hex.padded 2 byte.toNat ++ " at 0x" ++
          Hex.padded 4 address.toNat ++ ", skipping")
  | halted (address : Word) :
      Says (.halted address) ("INFO halted at 0x" ++ Hex.padded 4 address.toNat)

theorem exists_says (entry : LogEntry) : ∃ line, entry.Says line := by
  rcases entry with _ | _ | _ | ⟨_, _ | _, _⟩ | _ | _ | _ <;> exact ⟨_, by constructor⟩

theorem Says.eq_line {entry : LogEntry} {line : String} (h : entry.Says line) :
    line = entry.line := by
  rw [line_eq]
  cases h with
  | unmapped id => rfl
  | _ =>
    simp only [← Hex.word_eq, ← Hex.byte_eq, String.append_assoc]
    rfl

/-- What is written out is the line of the entry. -/
theorem says_iff {entry : LogEntry} {line : String} : entry.Says line ↔ line = entry.line := by
  constructor
  · exact Says.eq_line
  · rintro rfl
    obtain ⟨line, h⟩ := exists_says entry
    rw [← h.eq_line]
    exact h

/-- How the lines of the log begin. -/
def openings : List String :=
  ["DEBUG map #", "DEBUG unmap #", "TRACE 0x", "DEBUG call 0x", "DEBUG return to 0x",
    "DEBUG unknown opcode 0x", "INFO halted at 0x"]

theorem opening_mem (entry : LogEntry) : entry.opening ∈ openings := by
  cases entry <;> simp [opening, level, LogLevel.name, verb, openings]

/-- No opening is the beginning of another one. -/
theorem openings_prefix_free :
    ∀ a ∈ openings, ∀ b ∈ openings, a.toList <+: b.toList → a = b := by
  decide +kernel

/-- Equal lines have equal openings and details. -/
theorem eq_of_line_eq {a b : LogEntry} (h : a.line = b.line) :
    a.opening = b.opening ∧ a.details = b.details := by
  rw [line_eq, line_eq] at h
  have hlist := congrArg String.toList h
  rw [String.toList_append, String.toList_append] at hlist
  -- both openings begin the same line, so that one of them begins the other
  have hopening : a.opening = b.opening := by
    have ha := List.prefix_append a.opening.toList a.details.toList
    have hb := List.prefix_append b.opening.toList b.details.toList
    rw [hlist] at ha
    rcases List.prefix_or_prefix_of_prefix ha hb with hprefix | hprefix
    · exact openings_prefix_free _ (opening_mem a) _ (opening_mem b) hprefix
    · exact (openings_prefix_free _ (opening_mem b) _ (opening_mem a) hprefix).symm
  rw [hopening, String.append_right_inj] at h
  exact ⟨hopening, h⟩

theorem mapped_injective {id id' : Nat} {first first' last last' : Word} {remap remap' : Bool}
    (h : (mapped id first last remap).details = (mapped id' first' last' remap').details) :
    mapped id first last remap = mapped id' first' last' remap' := by
  have hwords : id.repr ++ (" 0x" ++ (Hex.word first ++ ("..=0x" ++ (Hex.word last ++
      (" remap=" ++ toString remap))))) =
    id'.repr ++ (" 0x" ++ (Hex.word first' ++ ("..=0x" ++ (Hex.word last' ++
      (" remap=" ++ toString remap'))))) := h
  obtain ⟨rfl, hfirst⟩ := repr_append_inj hwords
  obtain ⟨rfl, hlast⟩ := Hex.word_append_inj hfirst
  obtain ⟨rfl, hremap⟩ := Hex.word_append_inj (String.append_right_inj _ |>.mp hlast)
  rw [String.append_right_inj] at hremap
  cases remap <;> cases remap' <;> first | rfl | exact absurd hremap (by decide)

theorem fetched_injective {address address' : Word} {op op' : Opcode}
    (h : (fetched address op).details = (fetched address' op').details) :
    fetched address op = fetched address' op' := by
  have hwords : Hex.word address ++ (": " ++ op.mnemonic) =
    Hex.word address' ++ (": " ++ op'.mnemonic) := h
  obtain ⟨rfl, hname⟩ := Hex.word_append_inj hwords
  rw [Opcode.mnemonic_injective (String.append_right_inj _ |>.mp hname)]

theorem called_injective {target target' source source' : Word} {via via' : Option Register}
    (h : (called target via source).details = (called target' via' source').details) :
    called target via source = called target' via' source' := by
  have hwords : Hex.word target ++ origin via source =
    Hex.word target' ++ origin via' source' := h
  obtain ⟨rfl, horigin⟩ := Hex.word_append_inj hwords
  obtain ⟨rfl, rfl⟩ := origin_injective horigin
  rfl

theorem skipped_injective {byte byte' : Byte} {address address' : Word}
    (h : (skipped byte address).details = (skipped byte' address').details) :
    skipped byte address = skipped byte' address' := by
  have hbytes : Hex.byte byte ++ (" at 0x" ++ (Hex.word address ++ ", skipping")) =
    Hex.byte byte' ++ (" at 0x" ++ (Hex.word address' ++ ", skipping")) := h
  obtain ⟨rfl, haddress⟩ := Hex.byte_append_inj hbytes
  obtain ⟨rfl, -⟩ := Hex.word_append_inj (String.append_right_inj _ |>.mp haddress)
  rfl

/-- Equal lines come from equal entries. -/
theorem line_injective {a b : LogEntry} (h : a.line = b.line) : a = b := by
  obtain ⟨hopening, hdetails⟩ := eq_of_line_eq h
  -- entries of two kinds have two openings, which leaves one case for each kind
  cases a <;> cases b
  case mapped.mapped => exact mapped_injective hdetails
  case unmapped.unmapped => exact congrArg unmapped (repr_injective hdetails)
  case fetched.fetched => exact fetched_injective hdetails
  case called.called => exact called_injective hdetails
  case returned.returned => exact congrArg returned (Hex.word_injective hdetails)
  case skipped.skipped => exact skipped_injective hdetails
  case halted.halted => exact congrArg halted (Hex.word_injective hdetails)
  all_goals exact absurd hopening (by simp [opening, level, LogLevel.name, verb])

end LogEntry

end WordMachine
