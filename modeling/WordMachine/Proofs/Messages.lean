import WordMachine.CommandLine.Failure

/-!
# What is said about failures

The words for each fault, for what is wrong with the text of a number and for each failure of the command
line, written out, with the digits of the standard library.

* `Fault.says_iff`, `NumberError.says_iff`: the words are what the messages are made of.
* `Failure.says_iff`: so is the text that reports a failure.
-/

namespace WordMachine

/-! ## Faults -/

namespace Fault

/-- The words for a fault. -/
inductive Says : Fault → String → Prop
  | unknownRegister (name : String) :
      Says (.unknownRegister name) ("no such register '" ++ name ++ "'")
  | unmapped (address : Word) :
      Says (.unmapped address) ("no device mapped at address 0x" ++ Hex.padded 4 address.toNat)
  | addressOverflow (address : Nat) :
      Says (.addressOverflow address)
        ("address 0x" ++ Hex.padded 0 address ++ " is past the end of the address space")
  | outOfBounds (address : Word) (size : Nat) :
      Says (.outOfBounds address size)
        ("address 0x" ++ Hex.padded 4 address.toNat ++ " is outside a device of " ++ size.repr ++
          " bytes")
  | deviceFailure (reason : String) : Says (.deviceFailure reason) ("device i/o failed: " ++ reason)
  | imageTooLarge (length size : Nat) :
      Says (.imageTooLarge length size)
        ("memory image of " ++ length.repr ++ " bytes does not fit in " ++ size.repr ++ " bytes")

variable {fault : Fault} {text : String}

theorem exists_says (fault : Fault) : ∃ text, fault.Says text := by
  cases fault <;> exact ⟨_, by constructor⟩

theorem Says.eq_message (h : fault.Says text) : text = fault.message := by
  cases h with
  | unmapped address =>
    rw [← Hex.word_eq]
    rfl
  | addressOverflow address =>
    rw [← Hex.natural_eq]
    rfl
  | outOfBounds address size =>
    rw [← Hex.word_eq, String.append_assoc, String.append_assoc]
    rfl
  | unknownRegister | deviceFailure | imageTooLarge => rfl

/-- The words for a fault are its message. -/
theorem says_iff : fault.Says text ↔ text = fault.message := by
  constructor
  · exact Says.eq_message
  · rintro rfl
    obtain ⟨text, h⟩ := exists_says fault
    rw [← h.eq_message]
    exact h

end Fault

namespace CommandLine

variable {text : String}

/-! ## Numbers -/

/-- The words for what is wrong with the text of a number. -/
inductive NumberError.Says : NumberError → String → Prop
  | empty : Says .empty "cannot parse integer from empty string"
  | invalidDigit : Says .invalidDigit "invalid digit found in string"
  | tooLarge : Says .tooLarge "number too large to fit in target type"

theorem NumberError.says_iff {error : NumberError} : error.Says text ↔ text = error.message := by
  constructor
  · rintro ⟨⟩ <;> rfl
  · rintro rfl
    cases error
    · exact .empty
    · exact .invalidDigit
    · exact .tooLarge

/-! ## Failures -/

namespace Failure

/-- What is printed about a failure: what went wrong, and the cause indented below it. -/
inductive Says : Failure → String → Prop
  | unreadableImage (path : String) (error : Files.SystemError) :
      Says (.unreadableImage path error)
        ("Error: failed to read " ++ path ++ "\n\nCaused by:\n    " ++ error.text ++ " (os error " ++
          error.code.repr ++ ")\n")
  | unusableImage {fault : Fault} {reason : String} (hreason : fault.Says reason) :
      Says (.unusableImage fault) ("Error: " ++ reason ++ "\n")
  | invalidNumber (text : String) {error : NumberError} {reason : String}
      (hreason : error.Says reason) :
      Says (.invalidNumber text error)
        ("Error: invalid number '" ++ text ++ "'\n\nCaused by:\n    " ++ reason ++ "\n")
  | startOutOfRange (start : Nat) :
      Says (.startOutOfRange start)
        ("Error: start address 0x" ++ Hex.padded 0 start ++ " is out of range\n")
  | machineFault {fault : Fault} {reason : String} (hreason : fault.Says reason) :
      Says (.machineFault fault) ("Error: machine fault\n\nCaused by:\n    " ++ reason ++ "\n")
  | stepLimit : Says .stepLimit "Error: step limit reached without halting\n"

theorem exists_says (failure : Failure) : ∃ text, failure.Says text := by
  cases failure with
  | unreadableImage path error => exact ⟨_, .unreadableImage path error⟩
  | unusableImage fault => exact ⟨_, .unusableImage (Fault.says_iff.mpr rfl)⟩
  | invalidNumber text error => exact ⟨_, .invalidNumber text (NumberError.says_iff.mpr rfl)⟩
  | startOutOfRange start => exact ⟨_, .startOutOfRange start⟩
  | machineFault fault => exact ⟨_, .machineFault (Fault.says_iff.mpr rfl)⟩
  | stepLimit => exact ⟨_, .stepLimit⟩

variable {failure : Failure}

theorem Says.eq_text (h : failure.Says text) : text = failure.text := by
  cases h with
  | unreadableImage path error =>
    have hbegin : "Error: failed to read " = "Error: " ++ "failed to read " := rfl
    have hend : ")\n" = ")" ++ "\n" := rfl
    change _ = "Error: " ++ ("failed to read " ++ path) ++ "\n\nCaused by:\n    " ++
      (error.text ++ " (os error " ++ error.code.repr ++ ")") ++ "\n"
    rw [hbegin, hend]
    simp only [String.append_assoc]
  | @invalidNumber text error reason hreason =>
    have hbegin : "Error: invalid number '" = "Error: " ++ "invalid number '" := rfl
    have hend : "'\n\nCaused by:\n    " = "'" ++ "\n\nCaused by:\n    " := rfl
    rw [NumberError.says_iff.mp hreason]
    change _ = "Error: " ++ ("invalid number '" ++ text ++ "'") ++ "\n\nCaused by:\n    " ++
      error.message ++ "\n"
    rw [hbegin, hend]
    simp only [String.append_assoc]
  | startOutOfRange start =>
    have hbegin : "Error: start address 0x" = "Error: " ++ "start address 0x" := rfl
    have hend : " is out of range\n" = " is out of range" ++ "\n" := rfl
    change _ = "Error: " ++ ("start address 0x" ++ Hex.natural start ++ " is out of range") ++ "\n"
    rw [Hex.natural_eq, hbegin, hend]
    simp only [String.append_assoc]
  | unusableImage hreason | machineFault hreason =>
    rw [Fault.says_iff.mp hreason]
    rfl
  | stepLimit => rfl

/-- What is printed about a failure is its text. -/
theorem says_iff : failure.Says text ↔ text = failure.text := by
  constructor
  · exact Says.eq_text
  · rintro rfl
    obtain ⟨text, h⟩ := exists_says failure
    rw [← h.eq_text]
    exact h

end Failure

end CommandLine

end WordMachine
