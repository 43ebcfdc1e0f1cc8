import WordMachine.Machine

/-!
# The register file as a store

A register has several names. From outside it is asked for by its text, and an instruction names it by
any byte that leaves its index as the remainder modulo twelve. All of them lead to the same two bytes of
the register file, and no two registers share a byte, so that a register holds what was last written to
it under any of its names. The text of a register file shows all the values: its lines have the same
lengths in all register files, so that equal texts have equal lines.

* `register_eq_ok_iff`: the register that a name means.
* `get_write_of_means`, `get_write_of_not_means`: one write.
* `get_writeAll_of_last`, `get_writeAll_of_untouched`: any number of writes, by induction on them.
* `dump_eq_iff`: register files with equal texts.
* `storesLastWrites`: all of this together.
-/

namespace WordMachine

/-! ## Names of registers -/

/-- What a register is asked for by. -/
inductive RegisterName where
  /-- a text, from outside -/
  | text (name : String)
  /-- an operand byte of an instruction -/
  | operand (byte : Byte)
deriving DecidableEq, Repr

namespace RegisterName

/-- The register that is found under a name. -/
def register : RegisterName → Except Fault Register
  | text name => Register.ofName name
  | operand byte => .ok (Register.ofByte byte)

/-- A name belongs to a register: a text has to be its name exactly, a byte only has to be congruent to
    its index. -/
def Means : RegisterName → Register → Prop
  | text name, r => r.name = name
  | operand byte, r => byte.toNat % Register.count = r.index

instance (name : RegisterName) (r : Register) : Decidable (name.Means r) :=
  match name with
  | text name => inferInstanceAs (Decidable (r.name = name))
  | operand byte => inferInstanceAs (Decidable (byte.toNat % Register.count = r.index))

end RegisterName

namespace Register

theorem index_ofByte (byte : Byte) : (ofByte byte).index = byte.toNat % count := by
  have table : ∀ i : Fin count, (all.get i).index = i := by decide
  exact table ⟨byte.toNat % count, _⟩

theorem ofName_eq_error_iff {name : String} {fault : Fault} :
    ofName name = .error fault ↔ fault = .unknownRegister name ∧ ∀ r : Register, r.name ≠ name := by
  constructor
  · intro h
    refine ⟨?_, fun r hr => ?_⟩
    · unfold ofName at h
      split at h
      · cases h
      · exact (Except.error.inj h).symm
    · rw [ofName_eq_ok_iff.mpr hr] at h
      cases h
  · rintro ⟨rfl, hnone⟩
    cases hfound : ofName name with
    | ok r => exact absurd (ofName_eq_ok_iff.mp hfound) (hnone r)
    | error fault =>
      unfold ofName at hfound
      split at hfound
      · cases hfound
      · exact hfound.symm

end Register

namespace RegisterName

variable {name : RegisterName} {r s : Register}

/-- A name is understood as the register that it belongs to. -/
theorem register_eq_ok_iff : name.register = .ok r ↔ name.Means r := by
  cases name with
  | text name => exact Register.ofName_eq_ok_iff
  | operand byte =>
    change Except.ok (Register.ofByte byte) = _ ↔ byte.toNat % Register.count = r.index
    rw [← Register.index_ofByte, Except.ok.injEq]
    exact ⟨congrArg Register.index, Register.index_injective⟩

/-- A name belongs to one register at most. -/
theorem Means.unique (hr : name.Means r) (hs : name.Means s) : r = s :=
  Except.ok.inj ((register_eq_ok_iff.mpr hr).symm.trans (register_eq_ok_iff.mpr hs))

end RegisterName

/-! ## Writes -/

/-- A value to be written to a register. -/
structure RegisterWrite where
  target : RegisterName
  value : Word
deriving DecidableEq, Repr

namespace RegisterFile

/-- The value of the register with a given name. -/
def read (file : RegisterFile) (name : RegisterName) : Except Fault Word :=
  file.get <$> name.register

/-- Writes a value to the register with a given name. -/
def write (file : RegisterFile) (w : RegisterWrite) : Except Fault Unit × RegisterFile :=
  match w.target.register with
  | .ok r => (.ok (), file.set r w.value)
  | .error fault => (.error fault, file)

/-- The register file after writes one after the other, whether they succeed or not. -/
def writeAll : RegisterFile → List RegisterWrite → RegisterFile
  | file, [] => file
  | file, w :: rest => writeAll (file.write w).2 rest

variable {file other : RegisterFile} {w : RegisterWrite} {r : Register}

theorem read_of_means {name : RegisterName} (h : name.Means r) (file : RegisterFile) :
    file.read name = .ok (file.get r) := by
  rw [read, RegisterName.register_eq_ok_iff.mpr h]
  rfl

theorem get_write_of_means (h : w.target.Means r) (file : RegisterFile) :
    (file.write w).2.get r = w.value := by
  rw [write, RegisterName.register_eq_ok_iff.mpr h, get_set, if_pos rfl]

/-- A write does not reach the registers to which the name does not belong. -/
theorem get_write_of_not_means (h : ¬w.target.Means r) (file : RegisterFile) :
    (file.write w).2.get r = file.get r := by
  rw [write]
  cases hfound : w.target.register with
  | error fault => rfl
  | ok s =>
    have hne : s ≠ r := by
      rintro rfl
      exact h (RegisterName.register_eq_ok_iff.mp hfound)
    rw [get_set, if_neg hne]

theorem writeAll_append (file : RegisterFile) (before after : List RegisterWrite) :
    file.writeAll (before ++ after) = (file.writeAll before).writeAll after := by
  induction before generalizing file with
  | nil => rfl
  | cons w before ih => exact ih (file.write w).2

/-- A register to which no write goes keeps its value. -/
theorem get_writeAll_of_untouched {writes : List RegisterWrite}
    (h : ∀ w ∈ writes, ¬w.target.Means r) (file : RegisterFile) :
    (file.writeAll writes).get r = file.get r := by
  induction writes generalizing file with
  | nil => rfl
  | cons w rest ih =>
    rw [writeAll, ih (fun w' hw' => h w' (List.mem_cons_of_mem w hw')),
      get_write_of_not_means (h w List.mem_cons_self)]

/-- A register holds the value of the last write that goes to it. -/
theorem get_writeAll_of_last {before after : List RegisterWrite} (hw : w.target.Means r)
    (hafter : ∀ w' ∈ after, ¬w'.target.Means r) (file : RegisterFile) :
    (file.writeAll (before ++ w :: after)).get r = w.value := by
  rw [writeAll_append, writeAll, get_writeAll_of_untouched hafter, get_write_of_means hw]

/-! ## Texts -/

/-- The line of the text that shows a register. -/
def line (file : RegisterFile) (r : Register) : String :=
  r.name ++ ": 0x" ++ Hex.word (file.get r) ++ "\n"

/-- The lines of a register have the same length in all register files. -/
theorem length_line (file other : RegisterFile) (r : Register) :
    (file.line r).length = (other.line r).length := by
  simp [line, Hex.word, Hex.length_fixed]

theorem get_eq_of_line_eq (h : file.line r = other.line r) : file.get r = other.get r := by
  rw [line, line, String.append_left_inj, String.append_right_inj] at h
  exact Hex.word_injective h

/-- The lines of some registers are the same if they are so one after the other. -/
theorem get_eq_of_join_eq {registers : List Register}
    (h : String.join (registers.map file.line) = String.join (registers.map other.line)) :
    ∀ r ∈ registers, file.get r = other.get r := by
  induction registers with
  | nil => exact fun _ hr => nomatch hr
  | cons first rest ih =>
    rw [List.map_cons, List.map_cons, String.join_cons, String.join_cons] at h
    have hsplit := congrArg String.toList h
    rw [String.toList_append, String.toList_append] at hsplit
    -- the first lines have the same length, so that equal texts split behind them
    have hlength : (file.line first).toList.length = (other.line first).toList.length := by
      rw [String.length_toList, String.length_toList, length_line file other]
    obtain ⟨hfirst, hrest⟩ := List.append_inj hsplit hlength
    have hget := get_eq_of_line_eq (String.toList_injective hfirst)
    exact List.forall_mem_cons.mpr ⟨hget, ih (String.toList_injective hrest)⟩

/-- The text of a register file shows the values of all registers. -/
theorem dump_eq_iff : file.dump = other.dump ↔ ∀ r, file.get r = other.get r := by
  constructor
  · exact fun h r => get_eq_of_join_eq h r (Register.mem_all r)
  · exact fun h => congrArg dump (ext_get h)

/-! ## The laws -/

/-- What is written to a register file that was reset can be read back under every name. -/
structure StoresLastWrites : Prop where
  /-- a register that was written to holds the last value, whatever the names are under which it was
      written and is read -/
  last : ∀ before w after (r : Register), w.target.Means r →
    (∀ w' ∈ after, ¬w'.target.Means r) →
    ∀ name : RegisterName, name.Means r →
      (initial.writeAll (before ++ w :: after)).read name = .ok w.value
  /-- a register that was not written to is as after the reset -/
  untouched : ∀ writes (r : Register), (∀ w ∈ writes, ¬w.target.Means r) →
    ∀ name : RegisterName, name.Means r →
      (initial.writeAll writes).read name = .ok (if r = .sp ∨ r = .fp then 0xfffe else 0)
  /-- a text that is not the name of a register is refused, and the bytes stay as they are -/
  refused : ∀ (file : RegisterFile) name value, (∀ r : Register, r.name ≠ name) →
    file.read (.text name) = .error (.unknownRegister name) ∧
      file.write ⟨.text name, value⟩ = (.error (.unknownRegister name), file)
  /-- the machine reads and writes its registers by their texts in this way -/
  machine : ∀ {δ : Type} (machine : Machine δ) name value,
    machine.register name = machine.core.registers.read (.text name) ∧
      machine.setRegister name value =
        match machine.core.registers.write ⟨.text name, value⟩ with
        | (.ok (), file) => .ok { machine with core := ⟨file, machine.core.frameSize⟩ }
        | (.error fault, _) => .error fault
  /-- the text shows all the values and nothing else -/
  dump : ∀ file other : RegisterFile, file.dump = other.dump ↔ ∀ r, file.get r = other.get r

/-- The register file is a faithful store. -/
theorem storesLastWrites : StoresLastWrites where
  last before w after r hw hafter name hname := by
    rw [read_of_means hname, get_writeAll_of_last hw hafter]
  untouched writes r huntouched name hname := by
    rw [read_of_means hname, get_writeAll_of_untouched huntouched, get_initial]
    rfl
  refused file name value hnone := by
    have hfault : RegisterName.register (.text name) = .error (.unknownRegister name) :=
      Register.ofName_eq_error_iff.mpr ⟨rfl, hnone⟩
    constructor
    · rw [read, hfault]
      rfl
    · rw [write, hfault]
  machine machine name value := by
    refine ⟨?_, ?_⟩
    · rw [Machine.register, read, RegisterName.register]
      rfl
    · rw [Machine.setRegister, write, RegisterName.register]
      cases Register.ofName name <;> rfl
  dump _ _ := dump_eq_iff

/-- A register that is written under its text and then under two bytes is read under a third one. -/
example : (initial.writeAll
    [⟨.text "r1", 1⟩, ⟨.operand 2, 2⟩, ⟨.operand 14, 3⟩, ⟨.operand 3, 4⟩, ⟨.text "R1", 5⟩]).read
      (.operand 26) = .ok 3 := by
  rfl

end RegisterFile

end WordMachine
