import WordMachine.Text.Hex

/-!
# Faults

The conditions that stop an operation, each with the text that reports it. An opcode without a
meaning is not among them: the machine skips it.
-/

namespace WordMachine

/-- Why an operation failed. -/
inductive Fault where
  /-- no register has this name -/
  | unknownRegister (name : String)
  /-- no device is mapped at this address -/
  | unmapped (address : Word)
  /-- an address computation ran past `0xffff` -/
  | addressOverflow (address : Nat)
  /-- a device of `size` bytes has nothing at this address -/
  | outOfBounds (address : Word) (size : Nat)
  /-- the outside world refused an operation of a device, for the reason given -/
  | deviceFailure (reason : String)
  /-- an image of `length` bytes was to be put into `size` bytes -/
  | imageTooLarge (length size : Nat)
deriving DecidableEq, Repr

namespace Fault

/-- The text that reports a fault. -/
def message : Fault → String
  | unknownRegister name => "no such register '" ++ name ++ "'"
  | unmapped address => "no device mapped at address 0x" ++ Hex.word address
  | addressOverflow address =>
    "address 0x" ++ Hex.natural address ++ " is past the end of the address space"
  | outOfBounds address size =>
    "address 0x" ++ Hex.word address ++ s!" is outside a device of {size} bytes"
  | deviceFailure reason => s!"device i/o failed: {reason}"
  | imageTooLarge length size =>
    s!"memory image of {length} bytes does not fit in {size} bytes"

end Fault

/-- The sum of two addresses, which must not run past the end of the address space. -/
def effectiveAddress (base offset : Word) : Except Fault Word :=
  if base.toNat + offset.toNat < 0x10000 then
    .ok (base + offset)
  else
    .error (.addressOverflow (base.toNat + offset.toNat))

end WordMachine
