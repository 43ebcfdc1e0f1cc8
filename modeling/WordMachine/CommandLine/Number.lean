/-!
# Numbers on the command line

A number is written in decimal, or in hexadecimal after `0x` or `0X`; in both forms a plus sign may
precede the digits. Its value has to be below `2^64`. Of several things wrong with a number the
one furthest to the left counts.
-/

namespace WordMachine.CommandLine

/-- What is wrong with the text of a number. -/
inductive NumberError where
  /-- there is nothing to read -/
  | empty
  /-- a character is not a digit of the base -/
  | invalidDigit
  /-- the value is `2^64` or more -/
  | tooLarge
deriving DecidableEq, Repr

/-- The text that reports what is wrong with a number. -/
def NumberError.message : NumberError → String
  | empty => "cannot parse integer from empty string"
  | invalidDigit => "invalid digit found in string"
  | tooLarge => "number too large to fit in target type"

namespace Number

/-- The bound below which numbers have to be. -/
def limit : Nat := 0x10000000000000000

/-- The value of a digit of a base up to sixteen, in either case. -/
def digit (base : Nat) (c : Char) : Option Nat :=
  let value :=
    if '0' ≤ c ∧ c ≤ '9' then c.toNat - '0'.toNat
    else if 'a' ≤ c ∧ c ≤ 'f' then c.toNat - 'a'.toNat + 10
    else if 'A' ≤ c ∧ c ≤ 'F' then c.toNat - 'A'.toNat + 10
    else base
  if value < base then some value else none

/-- The value of digits that follow others of the given value. -/
def digits (base value : Nat) : List Char → Except NumberError Nat
  | [] => .ok value
  | c :: rest =>
    match digit base c with
    | none => .error .invalidDigit
    | some d =>
      if value * base + d < limit then digits base (value * base + d) rest
      else .error .tooLarge

/-- The value of digits that may follow a plus sign, of which there has to be at least one. -/
def unsigned (base : Nat) : List Char → Except NumberError Nat
  | [] => .error .empty
  | ['+'] => .error .invalidDigit
  | '+' :: rest => digits base 0 rest
  | text => digits base 0 text

/-- The number that a text stands for. -/
def parse (text : String) : Except NumberError Nat :=
  match text.toList with
  | '0' :: 'x' :: rest => unsigned 16 rest
  | '0' :: 'X' :: rest => unsigned 16 rest
  | decimal => unsigned 10 decimal

end Number

end WordMachine.CommandLine
