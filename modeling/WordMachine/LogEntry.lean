import WordMachine.Opcode
import WordMachine.Register

/-!
# The log

What the machine and its bus report while they work, as data; the wording is in `LogEntry.text`.
-/

namespace WordMachine

/-- How much detail an entry gives, from the most to the least. -/
inductive LogLevel where
  | trace | debug | info
deriving DecidableEq, Repr

/-- The name of a level. -/
def LogLevel.name : LogLevel → String
  | trace => "TRACE"
  | debug => "DEBUG"
  | info => "INFO"

/-- Something that happened. -/
inductive LogEntry where
  /-- a device was put on the bus -/
  | mapped (id : Nat) (first last : Word) (remap : Bool)
  /-- a device was taken off the bus -/
  | unmapped (id : Nat)
  /-- the opcode at this address was fetched -/
  | fetched (address : Word) (opcode : Opcode)
  /-- a call instruction at `source` was decoded, with its target perhaps from a register -/
  | called (target : Word) (via : Option Register) (source : Word)
  /-- a subroutine ended -/
  | returned (target : Word)
  /-- a byte without a meaning was fetched as an opcode -/
  | skipped (byte : Byte) (address : Word)
  /-- the machine stopped, with its instruction pointer at this address -/
  | halted (address : Word)
deriving DecidableEq, Repr

namespace LogEntry

/-- The level at which an entry is logged. -/
def level : LogEntry → LogLevel
  | fetched .. => .trace
  | halted .. => .info
  | _ => .debug

/-- The wording of an entry. -/
def text : LogEntry → String
  | mapped id first last remap =>
    s!"map #{id} 0x" ++ Hex.word first ++ "..=0x" ++ Hex.word last ++ s!" remap={remap}"
  | unmapped id => s!"unmap #{id}"
  | fetched address opcode => "0x" ++ Hex.word address ++ ": " ++ opcode.mnemonic
  | called target none source => "call 0x" ++ Hex.word target ++ " from 0x" ++ Hex.word source
  | called target (some r) source =>
    "call 0x" ++ Hex.word target ++ " (" ++ r.name ++ ") from 0x" ++ Hex.word source
  | returned target => "return to 0x" ++ Hex.word target
  | skipped byte address =>
    "unknown opcode 0x" ++ Hex.byte byte ++ " at 0x" ++ Hex.word address ++ ", skipping"
  | halted address => "halted at 0x" ++ Hex.word address

/-- An entry as one line of text, with its level. -/
def line (entry : LogEntry) : String := entry.level.name ++ " " ++ entry.text

end LogEntry

end WordMachine
