import WordMachine.Text.Hex

/-!
# Memory views

A run of bytes as one line of text: the address of the first byte, a colon and a space, and the
bytes with a space between any two of them.
-/

namespace WordMachine.MemoryView

/-- The text of the bytes from an address on. -/
def text (address : Word) (bytes : List Byte) : String :=
  "0x" ++ Hex.word address ++ ": " ++ " ".intercalate (bytes.map fun b => "0x" ++ Hex.byte b)

end WordMachine.MemoryView
