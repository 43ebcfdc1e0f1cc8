import WordMachine.Device
import WordMachine.Sink

/-!
# The screen

A character terminal of sixteen columns, driven through escape sequences. The address of a word
written to it picks a cell, the low byte is the character put there, and the high byte may be a
command to perform first. Nothing can be read back, and a byte written alone does nothing.
-/

namespace WordMachine

/-- A screen that draws by sending text to a sink. -/
structure Screen (σ : Type) where
  sink : σ
deriving DecidableEq, Repr

namespace Screen

/-! ## Rendering -/

/-- The number of cells in a row. -/
def columns : Nat := 16

/-- The character that begins an escape sequence. -/
def escape : Char := '\x1b'

/-- What a command byte sends ahead of the character: bold or regular style, or a cleared
    screen. Any other byte is no command. -/
def commandText : Byte → List (List Char)
  | 0x01 => [[escape, '[', '1', 'm']]
  | 0x02 => [[escape, '[', '0', 'm']]
  | 0xff => [[escape, '[', '2', 'J']]
  | _ => []

/-- What moves the cursor to the cell at an address, counted from one, each cell being two
    characters wide. -/
def cursorText (address : Word) : List (List Char) :=
  [[escape, '['], Nat.toDigits 10 (address.toNat / columns + 1), [';'],
    Nat.toDigits 10 (2 * (address.toNat % columns + 1)), ['H']]

/-- The text of a word written to an address, in the pieces in which it is sent. -/
def rendering (address value : Word) : List (List Char) :=
  commandText (Word.high value) ++ cursorText address ++ [[Char.ofUInt8 (Word.low value)]]

/-- The bytes of a text. -/
def encode (text : List Char) : List Byte := text.flatMap String.utf8EncodeChar

/-! ## Sending -/

/-- Sends the pieces one after the other and then flushes the sink. -/
def send {σ : Type} [Sink σ] (sink : σ) : List (List Byte) → Except String Unit × σ
  | [] => Sink.flush sink
  | piece :: rest =>
    match Sink.writeAll sink piece with
    | (.ok _, sink) => send sink rest
    | (.error reason, sink) => (.error reason, sink)

/-- Draws a word written to an address. -/
def writeWord {σ : Type} [Sink σ] (screen : Screen σ) (address value : Word) :
    Except Fault Unit × Screen σ :=
  match send screen.sink ((rendering address value).map encode) with
  | (.ok _, sink) => (.ok (), ⟨sink⟩)
  | (.error reason, sink) => (.error (.deviceFailure reason), ⟨sink⟩)

instance {σ : Type} [Sink σ] : Device (Screen σ) where
  answer screen address
    | .readByte => (.ok 0, screen)
    | .readWord => (.ok 0, screen)
    | .writeByte _ => (.ok (), screen)
    | .writeWord value => screen.writeWord address value

end Screen

end WordMachine
