import WordMachine.CommandLine.Session

/-!
# The program

Runs a memory image given on the command line. What the machine draws is passed on while it
runs.
-/

namespace WordMachine.CommandLine

/-- How to call the program. -/
def usage : String := "usage: wordmachine IMAGE [--start ADDR] [--screen] [--max-steps N] [--dump]"

/-- How many instructions are performed before output is passed on. -/
def batch : Nat := 1024

/-- The refusal that the number and the text of an error tell of. Some errors come with the number
    negated. -/
def refusal (code : UInt32) (text : String) : Files.SystemError :=
  .ofCode (if code < 0x80000000 then code else -code).toNat text

/-- The refusal that an error tells of. -/
def refusalOf : IO.Error → Files.SystemError
  | .alreadyExists _ code text | .interrupted _ code text | .noFileOrDirectory _ code text
  | .invalidArgument _ code text | .permissionDenied _ code text
  | .resourceExhausted _ code text | .inappropriateType _ code text | .noSuchThing _ code text
  | .otherError code text | .resourceBusy code text | .resourceVanished code text
  | .unsupportedOperation code text | .hardwareFault code text
  | .unsatisfiedConstraints code text | .illegalOperation code text | .protocolError code text
  | .timeExpired code text => refusal code text
  | .unexpectedEof => ⟨0, "unexpected end of file"⟩
  | .userError text => ⟨0, text⟩

/-- The content of a file, or the reason why it cannot be read. -/
def readImage (path : String) : IO (Except Files.SystemError (Array Byte)) := do
  try
    return .ok (← IO.FS.readBinFile path).data
  catch error =>
    return .error (refusalOf error)

/-- Writes a report to the output streams and gives its exit code. -/
def print (report : Report) : IO UInt32 := do
  let out ← IO.getStdout
  out.write ⟨report.output⟩
  out.flush
  IO.eprint report.errors
  return report.code.toUInt32

/-- Runs a session to its end. -/
partial def finish (dump : Bool) (session : Session) : IO UInt32 := do
  match session.advance batch with
  | (some verdict, session) => print (session.conclude dump verdict)
  | (none, session) =>
    let out ← IO.getStdout
    out.write ⟨session.output⟩
    out.flush
    finish dump session.drained

/-- Runs the image that the arguments name. -/
def start (arguments : List String) : IO UInt32 := do
  match Options.ofArguments arguments with
  | none =>
    IO.eprintln usage
    return 1
  | some options =>
    match Session.prepare options (← readImage options.image) with
    | .error failure => print (failure.report #[])
    | .ok session => finish options.dump session

end WordMachine.CommandLine

/-- Runs the image that the arguments name and ends with the exit code of the run. -/
def main (arguments : List String) : IO UInt32 := WordMachine.CommandLine.start arguments
