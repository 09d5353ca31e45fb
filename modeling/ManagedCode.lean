import ManagedCode.CommandLine.Answer
import ManagedCode.CommandLine.Arguments
import ManagedCode.Config
import ManagedCode.Console
import ManagedCode.Dispatch
import ManagedCode.Document.Data
import ManagedCode.Document.Fields
import ManagedCode.Document.Json
import ManagedCode.Document.Toml.Quoting
import ManagedCode.Document.Toml.Reader
import ManagedCode.Document.Toml.Scalar
import ManagedCode.Document.Toml.Tree
import ManagedCode.Document.Toml.Writer
import ManagedCode.Error
import ManagedCode.Fault
import ManagedCode.FileTree
import ManagedCode.Files
import ManagedCode.Frame
import ManagedCode.Heap.Basic
import ManagedCode.Heap.Collect
import ManagedCode.Heap.Handle
import ManagedCode.Heap.Mark
import ManagedCode.Image.Basic
import ManagedCode.Image.Builder
import ManagedCode.Image.CodeText
import ManagedCode.Image.Lookup
import ManagedCode.Image.Read
import ManagedCode.Image.Write
import ManagedCode.Instruction.Basic
import ManagedCode.Instruction.Decode
import ManagedCode.Instruction.Emitter
import ManagedCode.Instruction.Verify
import ManagedCode.Intrinsic
import ManagedCode.Machine.Arithmetic
import ManagedCode.Machine.Call
import ManagedCode.Machine.Run
import ManagedCode.Machine.State
import ManagedCode.Machine.Step
import ManagedCode.Machine.Unwind
import ManagedCode.Main
import ManagedCode.Program
import ManagedCode.Proofs.CallStack
import ManagedCode.Proofs.Calls.Arity
import ManagedCode.Proofs.Calls.Atomicity
import ManagedCode.Proofs.Calls.DepthLimit
import ManagedCode.Proofs.Calls.Dispatch
import ManagedCode.Proofs.Calls.Failures
import ManagedCode.Proofs.Calls.HandlerSelection
import ManagedCode.Proofs.Calls.InPlace
import ManagedCode.Proofs.Calls.Isolation
import ManagedCode.Proofs.Calls.MemoCounts
import ManagedCode.Proofs.Calls.Moves
import ManagedCode.Proofs.Calls.StackEffect
import ManagedCode.Proofs.Calls.Unwinding
import ManagedCode.Proofs.CheckedPrograms
import ManagedCode.Proofs.Computations
import ManagedCode.Proofs.Decoding.Bodies
import ManagedCode.Proofs.Decoding.Grammar
import ManagedCode.Proofs.Decoding.Opcodes
import ManagedCode.Proofs.Decoding.Progress
import ManagedCode.Proofs.Document.Lines
import ManagedCode.Proofs.Document.Quoting
import ManagedCode.Proofs.Document.Records
import ManagedCode.Proofs.Document.Tables
import ManagedCode.Proofs.Emission.Bodies
import ManagedCode.Proofs.Emission.Encodings
import ManagedCode.Proofs.Emission.Patching
import ManagedCode.Proofs.Emission.Steps
import ManagedCode.Proofs.Heap.Collection
import ManagedCode.Proofs.Heap.Consistency
import ManagedCode.Proofs.Heap.Exactness
import ManagedCode.Proofs.Heap.History
import ManagedCode.Proofs.Heap.Lifecycle
import ManagedCode.Proofs.Heap.MarkLoop
import ManagedCode.Proofs.Heap.Marking
import ManagedCode.Proofs.Heap.Relocation
import ManagedCode.Proofs.Heap.Sweeping
import ManagedCode.Proofs.Heap.View
import ManagedCode.Proofs.Heap.VisitingOrder
import ManagedCode.Proofs.HeapAccess
import ManagedCode.Proofs.Image.BaseTypes
import ManagedCode.Proofs.Image.Building
import ManagedCode.Proofs.Image.CodeText
import ManagedCode.Proofs.Image.Layouts
import ManagedCode.Proofs.Image.Namesakes
import ManagedCode.Proofs.Image.Resolution
import ManagedCode.Proofs.Image.RoundTrip
import ManagedCode.Proofs.Image.Rows
import ManagedCode.Proofs.Integers
import ManagedCode.Proofs.LiveReferences
import ManagedCode.Proofs.Lockstep.Frames
import ManagedCode.Proofs.Lockstep.Heaps
import ManagedCode.Proofs.Lockstep.Steps
import ManagedCode.Proofs.Lockstep.Values
import ManagedCode.Proofs.SessionIsolation
import ManagedCode.Proofs.Transparency
import ManagedCode.Proofs.VerifiedBodies
import ManagedCode.Proofs.VerifierAgreement
import ManagedCode.Region
import ManagedCode.Resolution
import ManagedCode.Signature
import ManagedCode.Text.Hex
import ManagedCode.Text.Utf8
import ManagedCode.Text.Visible
import ManagedCode.Token
import ManagedCode.Value
