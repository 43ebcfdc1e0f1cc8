import WordMachine.Word

/-!
# Opcodes

The first byte of an instruction. Opcodes come in families whose members differ in the operation
applied and in whether a value operand is written out in the instruction or read from a register.
A byte that belongs to no family is an opcode too, without a meaning.

* `byte_ofByte`: an opcode keeps the byte it was decoded from.
* `ofByte_byte`: an opcode with a meaning is decoded from its byte, and from no other one.
-/

namespace WordMachine

/-- Where the value operand of an instruction comes from. -/
inductive Source where
  | literal | register
deriving DecidableEq, Repr

/-- The operations whose result goes to the accumulator. -/
inductive Arithmetic where
  | add | sub | mul
deriving DecidableEq, Repr

/-- The operations on one register, in place. -/
inductive Unary where
  | increment | decrement | complement
deriving DecidableEq, Repr

/-- The operations on the bits of a register and a value, with the result in that register. -/
inductive Bitwise where
  | and | or | xor
deriving DecidableEq, Repr

/-- The directions in which the bits of a register are moved. -/
inductive Shift where
  | left | right
deriving DecidableEq, Repr

/-- The conditions of a jump, on a value and the accumulator as unsigned numbers. -/
inductive Comparison where
  | ne | eq | lt | gt | le | ge
deriving DecidableEq, Repr

/-- What an instruction does, by its family and its member of it. -/
inductive Opcode where
  /-- a value into a register -/
  | move (value : Source)
  /-- a value into memory at a literal address -/
  | store (value : Source)
  /-- a register from memory at a literal address -/
  | load
  /-- a register from memory at the address in a register -/
  | loadIndirect
  /-- a register from memory at a literal address plus the offset in a register -/
  | loadIndexed
  /-- the accumulator from a value and a register, in that order -/
  | arithmetic (operation : Arithmetic) (first : Source)
  /-- the accumulator from a literal minus a register, with the register written first -/
  | literalMinus
  | unary (operation : Unary)
  | shift (direction : Shift) (amount : Source)
  | bitwise (operation : Bitwise) (second : Source)
  /-- to a literal address, if the value stands in the given relation to the accumulator -/
  | jump (condition : Comparison) (value : Source)
  /-- a value onto the stack -/
  | push (value : Source)
  /-- a register from the stack -/
  | pop
  /-- to a subroutine, with a new stack frame -/
  | call (target : Source)
  /-- back from a subroutine -/
  | ret
  /-- no further instruction -/
  | halt
  /-- a byte without a meaning -/
  | unknown (byte : Byte)
deriving DecidableEq, Repr

namespace Opcode

/-! ## Encoding -/

/-- The opcode that a byte stands for. -/
def ofByte : Byte → Opcode
  | 0x10 => move .literal
  | 0x11 => move .register
  | 0x12 => store .register
  | 0x13 => load
  | 0x14 => arithmetic .add .register
  | 0x15 => jump .ne .literal
  | 0x16 => arithmetic .sub .literal
  | 0x17 => push .literal
  | 0x18 => push .register
  | 0x1a => pop
  | 0x1b => store .literal
  | 0x1c => loadIndirect
  | 0x1d => loadIndexed
  | 0x1e => literalMinus
  | 0x1f => arithmetic .sub .register
  | 0x20 => arithmetic .mul .literal
  | 0x21 => arithmetic .mul .register
  | 0x26 => shift .left .literal
  | 0x27 => shift .left .register
  | 0x2a => shift .right .literal
  | 0x2b => shift .right .register
  | 0x2e => bitwise .and .literal
  | 0x2f => bitwise .and .register
  | 0x30 => bitwise .or .literal
  | 0x31 => bitwise .or .register
  | 0x32 => bitwise .xor .literal
  | 0x33 => bitwise .xor .register
  | 0x34 => unary .complement
  | 0x35 => unary .increment
  | 0x36 => unary .decrement
  | 0x3e => jump .eq .register
  | 0x3f => arithmetic .add .literal
  | 0x40 => jump .ne .register
  | 0x41 => jump .eq .literal
  | 0x42 => jump .lt .register
  | 0x43 => jump .lt .literal
  | 0x44 => jump .gt .register
  | 0x45 => jump .gt .literal
  | 0x46 => jump .le .register
  | 0x47 => jump .le .literal
  | 0x48 => jump .ge .register
  | 0x49 => jump .ge .literal
  | 0x5e => call .literal
  | 0x5f => call .register
  | 0x60 => ret
  | 0xff => halt
  | byte => unknown byte

/-- The byte that stands for an opcode. -/
def byte : Opcode → Byte
  | move .literal => 0x10
  | move .register => 0x11
  | store .register => 0x12
  | load => 0x13
  | arithmetic .add .register => 0x14
  | jump .ne .literal => 0x15
  | arithmetic .sub .literal => 0x16
  | push .literal => 0x17
  | push .register => 0x18
  | pop => 0x1a
  | store .literal => 0x1b
  | loadIndirect => 0x1c
  | loadIndexed => 0x1d
  | literalMinus => 0x1e
  | arithmetic .sub .register => 0x1f
  | arithmetic .mul .literal => 0x20
  | arithmetic .mul .register => 0x21
  | shift .left .literal => 0x26
  | shift .left .register => 0x27
  | shift .right .literal => 0x2a
  | shift .right .register => 0x2b
  | bitwise .and .literal => 0x2e
  | bitwise .and .register => 0x2f
  | bitwise .or .literal => 0x30
  | bitwise .or .register => 0x31
  | bitwise .xor .literal => 0x32
  | bitwise .xor .register => 0x33
  | unary .complement => 0x34
  | unary .increment => 0x35
  | unary .decrement => 0x36
  | jump .eq .register => 0x3e
  | arithmetic .add .literal => 0x3f
  | jump .ne .register => 0x40
  | jump .eq .literal => 0x41
  | jump .lt .register => 0x42
  | jump .lt .literal => 0x43
  | jump .gt .register => 0x44
  | jump .gt .literal => 0x45
  | jump .le .register => 0x46
  | jump .le .literal => 0x47
  | jump .ge .register => 0x48
  | jump .ge .literal => 0x49
  | call .literal => 0x5e
  | call .register => 0x5f
  | ret => 0x60
  | halt => 0xff
  | unknown byte => byte

@[simp] theorem byte_ofByte (b : Byte) : (ofByte b).byte = b := by
  unfold ofByte
  split <;> rfl

/-- An opcode with a meaning is decoded from its byte. -/
theorem ofByte_byte {op : Opcode} (h : ∀ b, op ≠ unknown b) : ofByte op.byte = op := by
  cases op with
  | load | loadIndirect | loadIndexed | literalMinus | pop | ret | halt => rfl
  | move source | store source | push source | call source => cases source <;> rfl
  | unary operation => cases operation <;> rfl
  | arithmetic operation source => cases operation <;> cases source <;> rfl
  | shift direction source => cases direction <;> cases source <;> rfl
  | bitwise operation source => cases operation <;> cases source <;> rfl
  | jump condition source => cases condition <;> cases source <;> rfl
  | unknown b => exact absurd rfl (h b)

/-! ## Mnemonics -/

end Opcode

/-- The part of a mnemonic that names the source of a value. -/
def Source.mnemonic : Source → String
  | literal => "Lit"
  | register => "Reg"

/-- The part of a mnemonic that names an operation of arithmetic. -/
def Arithmetic.mnemonic : Arithmetic → String
  | add => "Add"
  | sub => "Sub"
  | mul => "Mul"

/-- The mnemonic of an operation on one register. -/
def Unary.mnemonic : Unary → String
  | increment => "IncReg"
  | decrement => "DecReg"
  | complement => "Not"

/-- The part of a mnemonic that names an operation on bits. -/
def Bitwise.mnemonic : Bitwise → String
  | and => "And"
  | or => "Or"
  | xor => "Xor"

/-- The part of a mnemonic that names the direction of a shift. -/
def Shift.mnemonic : Shift → String
  | left => "Lsf"
  | right => "Rsf"

/-- The part of a mnemonic that names the condition of a jump. -/
def Comparison.mnemonic : Comparison → String
  | ne => "ne"
  | eq => "eq"
  | lt => "lt"
  | gt => "gt"
  | le => "le"
  | ge => "ge"

/-- The name of an opcode in the log. A byte without a meaning is shown in decimal. -/
def Opcode.mnemonic : Opcode → String
  | move value => "Mov" ++ value.mnemonic ++ "Reg"
  | store value => "Mov" ++ value.mnemonic ++ "Mem"
  | load => "MovMemReg"
  | loadIndirect => "MovRegPtrReg"
  | loadIndexed => "MovLitOffReg"
  | arithmetic operation first => operation.mnemonic ++ first.mnemonic ++ "Reg"
  | literalMinus => "SubRegLit"
  | unary operation => operation.mnemonic
  | shift direction amount => direction.mnemonic ++ "Reg" ++ amount.mnemonic
  | bitwise operation second => operation.mnemonic ++ "Reg" ++ second.mnemonic
  | jump condition value => "J" ++ condition.mnemonic ++ value.mnemonic
  | push value => "Psh" ++ value.mnemonic
  | pop => "Pop"
  | call target => "Cal" ++ target.mnemonic
  | ret => "Ret"
  | halt => "Hlt"
  | unknown byte => s!"Unknown({byte.toNat})"

end WordMachine
