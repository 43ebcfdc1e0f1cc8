/-!
# System errors

Why the operating system refuses to read a file: a number and a text, which are reported
together.
-/

namespace WordMachine.Files

/-- A refusal of the operating system. -/
structure SystemError where
  code : Nat
  text : String
deriving DecidableEq, Repr

namespace SystemError

/-- A name on the path is not there. -/
def missing : SystemError := ⟨2, "No such file or directory"⟩

/-- The file may not be read. -/
def forbidden : SystemError := ⟨13, "Permission denied"⟩

/-- A name on the path is looked up in something that is no directory. -/
def notDirectory : SystemError := ⟨20, "Not a directory"⟩

/-- The path leads to a directory, which has no content to read. -/
def isDirectory : SystemError := ⟨21, "Is a directory"⟩

/-- The path or a name on it is longer than the system allows. -/
def nameTooLong : SystemError := ⟨36, "File name too long"⟩

/-- The text that reports a refusal. -/
def message (error : SystemError) : String := s!"{error.text} (os error {error.code})"

/-- The refusals that have a name here. -/
def known : List SystemError := [missing, forbidden, notDirectory, isDirectory, nameTooLong]

/-- The refusal with the given number, with a text for the case that it has no name here. -/
def ofCode (code : Nat) (text : String) : SystemError :=
  (known.find? (·.code == code)).getD ⟨code, text⟩

theorem code_ofCode (code : Nat) (text : String) : (ofCode code text).code = code := by
  unfold ofCode
  cases h : known.find? (·.code == code) with
  | none => rfl
  | some error =>
    have hcode := List.find?_some h
    exact beq_iff_eq.mp hcode

end SystemError

end WordMachine.Files
