import WordMachine.CommandLine.Number
import WordMachine.Fault
import WordMachine.Files.SystemError

/-!
# Failures of the command line

Why a run from the command line did not succeed, and the text that says so: one line, and the
cause below it where there is one.
-/

namespace WordMachine.CommandLine

/-- Why a run did not succeed. -/
inductive Failure where
  /-- the memory image could not be read -/
  | unreadableImage (path : String) (error : Files.SystemError)
  /-- the memory image could not be loaded -/
  | unusableImage (fault : Fault)
  /-- the value of an option is not a number -/
  | invalidNumber (text : String) (error : NumberError)
  /-- the address to start at is not one -/
  | startOutOfRange (start : Nat)
  /-- an instruction failed -/
  | machineFault (fault : Fault)
  /-- the machine had not halted after the number of instructions allowed -/
  | stepLimit
deriving DecidableEq, Repr

namespace Failure

/-- What went wrong. -/
def headline : Failure → String
  | unreadableImage path _ => s!"failed to read {path}"
  | unusableImage fault => fault.message
  | invalidNumber text _ => "invalid number '" ++ text ++ "'"
  | startOutOfRange start => "start address 0x" ++ Hex.natural start ++ " is out of range"
  | machineFault _ => "machine fault"
  | stepLimit => "step limit reached without halting"

/-- Why it went wrong, if there is more to say. -/
def cause : Failure → Option String
  | unreadableImage _ error => some error.message
  | invalidNumber _ error => some error.message
  | machineFault fault => some fault.message
  | _ => none

/-- The text that reports a failure: what went wrong in one line and, if there is more to say, the
    cause below it and indented. -/
def text (failure : Failure) : String :=
  match failure.cause with
  | some cause => s!"Error: {failure.headline}\n\nCaused by:\n    {cause}\n"
  | none => s!"Error: {failure.headline}\n"

end Failure

end WordMachine.CommandLine
