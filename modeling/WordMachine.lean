import WordMachine.Bus
import WordMachine.BusProgram
import WordMachine.CommandLine.Failure
import WordMachine.CommandLine.Number
import WordMachine.CommandLine.Options
import WordMachine.CommandLine.Session
import WordMachine.Device
import WordMachine.Device.Ram
import WordMachine.Device.Screen
import WordMachine.Fault
import WordMachine.Files.FileSystem
import WordMachine.Files.SystemError
import WordMachine.LogEntry
import WordMachine.Machine
import WordMachine.Machine.Core
import WordMachine.Machine.Instruction
import WordMachine.Machine.Microcode
import WordMachine.Main
import WordMachine.MemoryView
import WordMachine.Opcode
import WordMachine.Operation
import WordMachine.Register
import WordMachine.RegisterFile
import WordMachine.Sink
import WordMachine.Sink.Buffer
import WordMachine.Text.Hex
import WordMachine.Word
import WordMachine.Proofs.Execution
import WordMachine.Proofs.Decoding
import WordMachine.Proofs.Memory
import WordMachine.Proofs.Stack
import WordMachine.Proofs.Subroutine
import WordMachine.Proofs.FrameCounter
import WordMachine.Proofs.RepeatedCalls
import WordMachine.Proofs.NestedCalls
import WordMachine.Proofs.Regions
import WordMachine.Proofs.Layout
import WordMachine.Proofs.Rollback
import WordMachine.Proofs.ReadOverWrite
import WordMachine.Proofs.Shadowing
import WordMachine.Proofs.Fetching
import WordMachine.Proofs.Running
import WordMachine.Proofs.WriteOrder
import WordMachine.Proofs.Faults
import WordMachine.Proofs.Arguments
import WordMachine.Proofs.LastInFirstOut
import WordMachine.Proofs.Returning
import WordMachine.Proofs.Drawing
import WordMachine.Proofs.Messages
import WordMachine.Proofs.Preparing
import WordMachine.Proofs.Reports
import WordMachine.Proofs.Batches
import WordMachine.Proofs.Outcomes
import WordMachine.Proofs.Footprint
import WordMachine.Proofs.Forms
import WordMachine.Proofs.BulkWrite
import WordMachine.Proofs.EscapeStream
import WordMachine.Proofs.Loading
import WordMachine.Proofs.Numerals
import WordMachine.Proofs.Viewing
import WordMachine.Proofs.Deliveries
import WordMachine.Proofs.LimitedSink
import WordMachine.Proofs.RegisterStore
import WordMachine.Proofs.LogLines
import WordMachine.Proofs.Logging
import WordMachine.Proofs.CheckedArithmetic
