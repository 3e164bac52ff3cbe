import Swarm.Bridge.Basic
import Swarm.Bridge.Diagnosis
import Swarm.Bridge.Environment
import Swarm.Bridge.Files
import Swarm.Bridge.Hooks
import Swarm.Bridge.Load
import Swarm.Bridge.Native
import Swarm.Bridge.Step
import Swarm.Bytes
import Swarm.Code.Assembler
import Swarm.Code.Decode
import Swarm.Code.Instruction
import Swarm.Code.Opcode
import Swarm.CommandLine.Options
import Swarm.CommandLine.Session
import Swarm.Debug.Table
import Swarm.Debug.VarInt
import Swarm.Decimal.Binary
import Swarm.Decimal.Fixed
import Swarm.Decimal.Numeral
import Swarm.Decimal.Remainder
import Swarm.Decimal.Shortest
import Swarm.Host.Hook
import Swarm.Host.Module
import Swarm.Host.Value
import Swarm.Hub.Basic
import Swarm.Hub.Tick
import Swarm.Journal
import Swarm.Machine.Builtin
import Swarm.Machine.Collect
import Swarm.Machine.Describe
import Swarm.Machine.Entry
import Swarm.Machine.Error
import Swarm.Machine.Execute
import Swarm.Machine.Execution
import Swarm.Machine.Heap
import Swarm.Machine.Messages
import Swarm.Machine.Native
import Swarm.Machine.Neighbors
import Swarm.Machine.State
import Swarm.Machine.StringTable
import Swarm.Machine.Value
import Swarm.Main
import Swarm.Position
import Swarm.Program.Basic
import Swarm.Program.Builder
import Swarm.Program.Image
import Swarm.Program.Strings
import Swarm.Proofs.Accounts
import Swarm.Proofs.Action
import Swarm.Proofs.Assembly
import Swarm.Proofs.Balance
import Swarm.Proofs.Bounds
import Swarm.Proofs.Building
import Swarm.Proofs.Callbacks
import Swarm.Proofs.Collection
import Swarm.Proofs.Counted
import Swarm.Proofs.Deliveries
import Swarm.Proofs.Dispatch
import Swarm.Proofs.EarlyStop
import Swarm.Proofs.Entries
import Swarm.Proofs.Exchanges
import Swarm.Proofs.FaultPositions
import Swarm.Proofs.Faults
import Swarm.Proofs.Finality
import Swarm.Proofs.Frames
import Swarm.Proofs.Globals
import Swarm.Proofs.History
import Swarm.Proofs.HookCalls
import Swarm.Proofs.Images
import Swarm.Proofs.Indices
import Swarm.Proofs.Interference
import Swarm.Proofs.Isolation
import Swarm.Proofs.Leftovers
import Swarm.Proofs.Letters
import Swarm.Proofs.Life
import Swarm.Proofs.Listing
import Swarm.Proofs.Lookup
import Swarm.Proofs.Moments
import Swarm.Proofs.Nesting
import Swarm.Proofs.Numerals
import Swarm.Proofs.Operands
import Swarm.Proofs.Operations
import Swarm.Proofs.Orderly
import Swarm.Proofs.Parts
import Swarm.Proofs.Paths
import Swarm.Proofs.Phases
import Swarm.Proofs.Positions
import Swarm.Proofs.Prefixes
import Swarm.Proofs.Progress
import Swarm.Proofs.Protocol
import Swarm.Proofs.Reachability
import Swarm.Proofs.ReadTables
import Swarm.Proofs.Reencoding
import Swarm.Proofs.Registration
import Swarm.Proofs.Registry
import Swarm.Proofs.Requests
import Swarm.Proofs.Resolution
import Swarm.Proofs.Respects
import Swarm.Proofs.Routing
import Swarm.Proofs.Rows
import Swarm.Proofs.Scanning
import Swarm.Proofs.Sightings
import Swarm.Proofs.Slots
import Swarm.Proofs.SoundExecution
import Swarm.Proofs.SoundInstructions
import Swarm.Proofs.SoundLife
import Swarm.Proofs.SoundMachine
import Swarm.Proofs.SoundNatives
import Swarm.Proofs.SoundStore
import Swarm.Proofs.SourceMarks
import Swarm.Proofs.Spares
import Swarm.Proofs.Strings
import Swarm.Proofs.SymbolTables
import Swarm.Proofs.Tallies
import Swarm.Proofs.Traversals
import Swarm.Proofs.Turns
import Swarm.Proofs.Validation
import Swarm.Proofs.Visits
import Swarm.Proofs.WellFormed
import Swarm.Proofs.Wiring
import Swarm.Proofs.Work
import Swarm.Proofs.Worlds
import Swarm.Text.Utf8
