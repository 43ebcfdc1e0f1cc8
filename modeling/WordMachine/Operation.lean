import WordMachine.Opcode

/-!
# Operations

What the operations named by opcodes compute. All results are words modulo `2^16`.
-/

namespace WordMachine

/-- The result of an operation of arithmetic. -/
def Arithmetic.apply : Arithmetic → Word → Word → Word
  | add, a, b => a + b
  | sub, a, b => a - b
  | mul, a, b => a * b

/-- The result of an operation on one word. -/
def Unary.apply : Unary → Word → Word
  | increment, a => a + 1
  | decrement, a => a - 1
  | complement, a => ~~~a

/-- The result of an operation on the bits of two words. -/
def Bitwise.apply : Bitwise → Word → Word → Word
  | and, a, b => a &&& b
  | or, a, b => a ||| b
  | xor, a, b => a ^^^ b

/-- A word moved by an amount of which the lowest five bits count. Bits that leave the word are
    lost and zeros come in, so an amount of sixteen or more leaves nothing. -/
def Shift.apply : Shift → Word → Word → Word
  | left, a, amount => (a.toUInt32 <<< (amount.toUInt32 % 32)).toUInt16
  | right, a, amount => (a.toUInt32 >>> (amount.toUInt32 % 32)).toUInt16

/-- Whether a word stands in a relation to the accumulator, both taken as unsigned numbers. -/
def Comparison.holds : Comparison → Word → Word → Bool
  | ne, a, acc => a != acc
  | eq, a, acc => a == acc
  | lt, a, acc => a < acc
  | gt, a, acc => a > acc
  | le, a, acc => a ≤ acc
  | ge, a, acc => a ≥ acc

theorem Shift.toNat_apply_left (a amount : Word) :
    (left.apply a amount).toNat = (a.toNat <<< (amount.toNat % 32)) % 0x10000 := by
  simp [apply]

theorem Shift.toNat_apply_right (a amount : Word) :
    (right.apply a amount).toNat = a.toNat >>> (amount.toNat % 32) := by
  have ha := a.toNat_lt
  have := Nat.shiftRight_le a.toNat (amount.toNat % 32)
  simp [apply]
  omega

end WordMachine
