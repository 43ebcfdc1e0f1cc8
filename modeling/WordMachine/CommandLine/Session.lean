import WordMachine.CommandLine.Failure
import WordMachine.CommandLine.Options
import WordMachine.Device.Ram
import WordMachine.Device.Screen
import WordMachine.Machine
import WordMachine.Sink.Buffer

/-!
# Running a memory image

A session is a machine with an image in its memory, and the number of instructions it may still
perform. `Session.prepare` sets one up from the options, `Session.advance` runs it, and
`Session.conclude` says what a finished one prints. `run` does all three.
-/

namespace WordMachine.CommandLine

/-- A device of the machine that the command line builds. -/
abbrev Peripheral := Ram ⊕ Screen Buffer

/-- What a run leaves behind: the exit code and what was written to the two output streams. -/
structure Report where
  code : Nat
  output : Array Byte
  errors : String
deriving DecidableEq, Repr

/-- The report of a failure, given what was written before it. -/
def Failure.report (failure : Failure) (output : Array Byte) : Report :=
  ⟨1, output, failure.text⟩

/-- A run that is under way. -/
structure Session where
  machine : Machine Peripheral
  /-- how many instructions may still be performed, if there is a limit -/
  remaining : Option Nat

/-! ## Setting up -/

/-- A machine with memory over the whole address space and perhaps the screen over a page of
    it. -/
def build (memory : Ram) (screen : Bool) : Machine Peripheral :=
  let machine := (Machine.initial.map (.inl memory) 0x0000 0xffff true).2
  if screen then (machine.map (.inr ⟨Buffer.unlimited⟩) 0x3000 0x30ff true).2 else machine

/-- The number that the text of an option stands for. -/
def number (text : String) : Except Failure Nat :=
  match Number.parse text with
  | .ok n => .ok n
  | .error error => .error (.invalidNumber text error)

/-- The address at which to start. -/
def startAddress (text : String) : Except Failure Word := do
  let start ← number text
  if start < Bus.addressSpace then
    return UInt16.ofNat start
  else
    throw (.startOutOfRange start)

namespace Session

/-- The session that the options ask for, with the content of the memory image or the reason why
    it could not be read. -/
def prepare (options : Options) (image : Except Files.SystemError (Array Byte)) :
    Except Failure Session := do
  let image ← image.mapError (.unreadableImage options.image)
  let memory ← (Ram.ofImage image Bus.addressSpace).mapError .unusableImage
  let machine := build memory options.screen
  let start ← options.start.mapM startAddress
  let limit ← options.maxSteps.mapM number
  return ⟨{ machine with core := machine.core.set .ip (start.getD (machine.core.get .ip)) }, limit⟩

/-! ## Running -/

/-- Performs at most `steps` instructions. The result is the verdict, whether the machine halted
    or the fault of the last instruction, and is missing as long as the session may go on. -/
def advance : Session → (steps : Nat) → Option (Except Fault Bool) × Session
  | ⟨machine, none⟩, steps =>
    match machine.runFor steps with
    | (.ok false, machine) => (none, ⟨machine, none⟩)
    | (verdict, machine) => (some verdict, ⟨machine, none⟩)
  | ⟨machine, some limit⟩, steps =>
    match machine.runFor (min steps limit) with
    | (.ok false, machine) =>
      (if limit ≤ steps then some (.ok false) else none, ⟨machine, some (limit - steps)⟩)
    | (verdict, machine) => (some verdict, ⟨machine, some (limit - steps)⟩)

/-! ## Output -/

/-- What a device has written to the output stream. -/
def written : Peripheral → Array Byte
  | .inl _ => #[]
  | .inr screen => screen.sink.written

/-- A device whose output was passed on. -/
def forget : Peripheral → Peripheral
  | .inl memory => .inl memory
  | .inr ⟨sink⟩ => .inr ⟨{ sink with written := #[] }⟩

/-- What the machine has written to the output stream. -/
def output (session : Session) : Array Byte :=
  (session.machine.bus.regions.map fun region => written region.device).foldl (· ++ ·) #[]

/-- A session whose output and log were passed on. -/
def drained : Session → Session
  | ⟨⟨core, ⟨regions, nextId⟩, halted, _⟩, remaining⟩ =>
    let regions := regions.map fun
      | ⟨id, first, last, remap, device⟩ => ⟨id, first, last, remap, forget device⟩
    ⟨⟨core, ⟨regions, nextId⟩, halted, #[]⟩, remaining⟩

/-- The registers, one to a line, and a line with the bytes at the instruction pointer. -/
def dump (session : Session) : String :=
  let machine := session.machine
  let bytes := match (machine.view (machine.core.get .ip) 8).1 with
    | .ok text => text
    | .error _ => ""
  machine.core.registers.dump ++ bytes ++ "\n"

/-- The report of a session that ended with the given verdict. -/
def conclude (session : Session) (withDump : Bool) (verdict : Except Fault Bool) : Report :=
  let output := session.output ++ if withDump then session.dump.toUTF8.data else #[]
  match verdict with
  | .ok true => ⟨0, output, ""⟩
  | .ok false => Failure.stepLimit.report output
  | .error fault => (Failure.machineFault fault).report output

end Session

/-- The report of the run that the options ask for. It is missing if the machine runs on after
    `fuel` instructions. -/
def run (options : Options) (image : Except Files.SystemError (Array Byte)) (fuel : Nat) :
    Option Report :=
  match Session.prepare options image with
  | .error failure => some (failure.report #[])
  | .ok session =>
    match session.advance fuel with
    | (some verdict, session) => some (session.conclude options.dump verdict)
    | (none, _) => none

end WordMachine.CommandLine
