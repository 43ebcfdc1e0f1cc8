import WordMachine.Sink

/-!
# Buffers

A sink that keeps what it takes. Its room may be limited: a write is taken up to the room that is
left, and a buffer without room either fails or takes nothing. Flushing may be made to fail.
-/

namespace WordMachine

/-- What a buffer without room does with bytes offered to it. -/
inductive WhenFull where
  | fail (reason : String)
  | takeNothing
deriving DecidableEq, Repr

/-- A sink in memory. -/
structure Buffer where
  /-- the bytes taken so far -/
  written : Array Byte
  /-- how many bytes can still be taken, if there is a limit -/
  room : Option Nat
  /-- what happens to bytes offered when the room is used up -/
  whenFull : WhenFull
  /-- the reason with which flushing fails, if it does -/
  flushFailure : Option String
deriving DecidableEq, Repr

namespace Buffer

/-- An empty buffer that takes everything. -/
def unlimited : Buffer := ⟨#[], none, .takeNothing, none⟩

/-- Takes bytes from the front of those offered, as many as there is room for. -/
def write : Buffer → List Byte → Except String Nat × Buffer
  | ⟨written, none, whenFull, flushFailure⟩, bytes =>
    (.ok bytes.length, ⟨written ++ bytes, none, whenFull, flushFailure⟩)
  | ⟨written, some (room + 1), whenFull, flushFailure⟩, bytes =>
    (.ok (min bytes.length (room + 1)),
      ⟨written ++ bytes.take (room + 1), some (room + 1 - bytes.length), whenFull, flushFailure⟩)
  | ⟨written, some 0, whenFull, flushFailure⟩, bytes =>
    match bytes, whenFull with
    | _ :: _, .fail reason => (.error reason, ⟨written, some 0, whenFull, flushFailure⟩)
    | _, _ => (.ok 0, ⟨written, some 0, whenFull, flushFailure⟩)

/-- Changes nothing, and fails if the buffer was made so. -/
def flush (buffer : Buffer) : Except String Unit × Buffer :=
  match buffer.flushFailure with
  | some reason => (.error reason, buffer)
  | none => (.ok (), buffer)

instance : Sink Buffer := ⟨write, flush⟩

end Buffer

end WordMachine
