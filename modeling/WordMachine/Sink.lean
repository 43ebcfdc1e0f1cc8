import WordMachine.Word

/-!
# Sinks

A sink takes bytes and may take fewer than it is offered; the rest is offered again by
`Sink.writeAll` until all bytes are taken or the sink fails.
-/

namespace WordMachine

/-- The types of sinks. A write answers with the number of bytes taken from the front of those
    offered; a failure of either operation comes with its reason. -/
class Sink (σ : Type) where
  write : σ → List Byte → Except String Nat × σ
  flush : σ → Except String Unit × σ

namespace Sink

/-- Why a write ends that no longer makes progress. -/
def stalled : String := "failed to write whole buffer"

/-- Offers the bytes until all are taken. A sink that takes none of them has failed. The writes of a
    sink are never interrupted: no failure of theirs asks for the same write to be tried again, so
    that the first one ends this. -/
def writeAll {σ : Type} [Sink σ] (sink : σ) (bytes : List Byte) : Except String Unit × σ :=
  match bytes with
  | [] => (.ok (), sink)
  | first :: rest =>
    match Sink.write sink (first :: rest) with
    | (.error reason, sink) => (.error reason, sink)
    | (.ok 0, sink) => (.error stalled, sink)
    | (.ok (taken + 1), sink) => writeAll sink (rest.drop taken)
termination_by bytes.length
decreasing_by
  rw [List.length_cons, List.length_drop]
  omega

end Sink

end WordMachine
