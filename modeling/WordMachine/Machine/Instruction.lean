import WordMachine.Machine.Microcode
import WordMachine.Operation

/-!
# Instructions

What each opcode does once it has been fetched. The operands are fetched one after the other as
the instruction needs them, and a register operand is read when its value is needed: after all
operands are fetched, except that a jump reads its value before it fetches its target.
-/

namespace WordMachine

/-- The register that an operand names, if it names one. -/
def Operand.register? : Operand → Option Register
  | literal _ => none
  | register r => some r

namespace Microcode

/-- The part of an instruction that follows its opcode, which was fetched at `address`. -/
def execute (address : Word) : Opcode → Microcode Unit
  | .move source => do
    let operand ← fetchOperand source
    let target ← fetchRegister
    set target (← value operand)
  | .store source => do
    let operand ← fetchOperand source
    let target ← fetchWord
    access target (.writeWord (← value operand))
  | .load => do
    let source ← fetchWord
    let target ← fetchRegister
    set target (← access source .readWord)
  | .loadIndirect => do
    let pointer ← fetchRegister
    let target ← fetchRegister
    set target (← access (← get pointer) .readWord)
  | .loadIndexed => do
    let base ← fetchWord
    let offset ← fetchRegister
    let target ← fetchRegister
    let source ← check (effectiveAddress base (← get offset))
    set target (← access source .readWord)
  | .arithmetic operation source => do
    let first ← fetchOperand source
    let second ← fetchRegister
    set .acc (operation.apply (← value first) (← get second))
  | .literalMinus => do
    let subtrahend ← fetchRegister
    let minuend ← fetchWord
    set .acc (minuend - (← get subtrahend))
  | .unary operation => do
    let target ← fetchRegister
    set target (operation.apply (← get target))
  | .shift direction source => do
    let target ← fetchRegister
    let amount ← fetchAmount source
    set target (direction.apply (← get target) (← value amount))
  | .bitwise operation source => do
    let target ← fetchRegister
    let second ← fetchOperand source
    set target (operation.apply (← get target) (← value second))
  | .jump condition source => do
    let compared ← value (← fetchOperand source)
    let target ← fetchWord
    if condition.holds compared (← get .acc) then
      set .ip target
  | .push source => do
    let operand ← fetchOperand source
    push (← value operand)
  | .pop => do
    let target ← fetchRegister
    set target (← pop)
  | .call source => do
    let operand ← fetchOperand source
    let target ← value operand
    log (.called target operand.register? address)
    enter
    set .ip target
  | .ret => do
    leave
    log (.returned (← get .ip))
  | .halt => pure ()
  | .unknown byte => log (.skipped byte address)

/-- A whole instruction. The result says whether it halts the machine. -/
def instruction : Microcode Bool := do
  let address ← get .ip
  let opcode := Opcode.ofByte (← fetchByte)
  log (.fetched address opcode)
  execute address opcode
  return opcode == .halt

end Microcode

end WordMachine
