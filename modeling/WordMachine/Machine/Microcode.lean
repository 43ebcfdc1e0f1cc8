import WordMachine.BusProgram
import WordMachine.Machine.Core

/-!
# Microcode

The steps that instructions are made of. Microcode works on the core and talks to the bus; when it
fails the core it has worked on is lost, so that whoever runs it still has the core of before.
-/

namespace WordMachine

/-- A piece of an instruction. -/
abbrev Microcode (α : Type) := StateT Core BusProgram α

namespace Microcode

/-! ## Bus and registers -/

/-- An access to the bus. -/
def access (address : Word) (request : Request) : Microcode request.Reply :=
  fun core => .access address request fun reply => .done (reply, core)

/-- An end with a fault. -/
def fault {α : Type} (f : Fault) : Microcode α := fun _ => .fault f

/-- An entry in the log. -/
def log (entry : LogEntry) : Microcode Unit := fun core => .log entry (.done ((), core))

/-- The core as it is. -/
def core : Microcode Core := fun core => .done (core, core)

/-- A change of the core. -/
def setCore (core : Core) : Microcode Unit := fun _ => .done ((), core)

/-- The value of a register. -/
def get (r : Register) : Microcode Word := fun core => .done (core.get r, core)

/-- A write to a register. -/
def set (r : Register) (value : Word) : Microcode Unit := fun core => .done ((), core.set r value)

/-- The size of the stack frame. -/
def frameSize : Microcode Word := fun core => .done (core.frameSize, core)

/-- A change of the size of the stack frame. -/
def setFrameSize (size : Word) : Microcode Unit :=
  fun core => .done ((), ⟨core.registers, size⟩)

/-- A result that may be a fault. -/
def check {α : Type} : Except Fault α → Microcode α
  | .ok a => pure a
  | .error f => fault f

/-! ## Fetching -/

/-- The byte at the instruction pointer, which moves past it. -/
def fetchByte : Microcode Byte := do
  let ip ← get .ip
  let byte ← access ip .readByte
  set .ip (ip + 1)
  return byte

/-- The word at the instruction pointer, which moves past it. -/
def fetchWord : Microcode Word := do
  let ip ← get .ip
  let word ← access ip .readWord
  set .ip (ip + 2)
  return word

/-- The register named by the byte at the instruction pointer. -/
def fetchRegister : Microcode Register := Register.ofByte <$> fetchByte

end Microcode

/-- A value operand of an instruction, as it was fetched. -/
inductive Operand where
  | literal (value : Word)
  | register (r : Register)
deriving DecidableEq, Repr

namespace Microcode

/-- A value operand: a word, or a byte that names a register. -/
def fetchOperand : Source → Microcode Operand
  | .literal => .literal <$> fetchWord
  | .register => .register <$> fetchRegister

/-- The amount of a shift: a byte, or a byte that names a register. -/
def fetchAmount : Source → Microcode Operand
  | .literal => (.literal ·.toUInt16) <$> fetchByte
  | .register => .register <$> fetchRegister

/-- The value of an operand. -/
def value : Operand → Microcode Word
  | .literal value => pure value
  | .register r => get r

/-! ## The stack -/

/-- Stores a word at the top of the stack. -/
def push (value : Word) : Microcode Unit := do
  access (← get .sp) (.writeWord value)
  setCore (← core).pushed

/-- Loads the word at the top of the stack. -/
def pop : Microcode Word := do
  setCore (← check (← core).popped)
  access (← get .sp) .readWord

/-- Loads as many words as given and forgets them. -/
def drop : Nat → Microcode Unit
  | 0 => pure ()
  | count + 1 => do
    let _ ← pop
    drop count

/-! ## Subroutines -/

/-- The number of words that a call pushes: the general registers, the return address and the
    size of the caller's frame. -/
def frameWords : Nat := Register.general.length + 2

/-- Reads the words in which the next `count` pushes from an address on will be stored, so that a
    call for which there is no room fails before it stores anything. -/
def probe (address : Word) : Nat → Microcode Unit
  | 0 => pure ()
  | count + 1 => do
    let _ ← access address .readWord
    probe (address - 2) count

/-- Stores all that a subroutine has to restore and begins a frame. The size stored counts the
    word that it is stored in. -/
def enter : Microcode Unit := do
  probe (← get .sp) frameWords
  Register.general.forM fun r => do push (← get r)
  push (← get .ip)
  push ((← frameSize) + 2)
  set .fp (← get .sp)
  setFrameSize 0

/-- Restores what `enter` stored at the frame pointer, then drops as many words as the word above
    says. -/
def leave : Microcode Unit := do
  let fp ← get .fp
  set .sp fp
  let size ← pop
  setFrameSize size
  set .ip (← pop)
  Register.general.reverse.forM fun r => do set r (← pop)
  drop (← pop).toNat
  set .fp (fp + size)

end Microcode

end WordMachine
