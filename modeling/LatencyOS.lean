import LatencyOS.Compiler.ArmCode
import LatencyOS.Compiler.Arms
import LatencyOS.Compiler.Assign
import LatencyOS.Compiler.Basic
import LatencyOS.Compiler.Binary
import LatencyOS.Compiler.Bindings
import LatencyOS.Compiler.Comments
import LatencyOS.Compiler.Compile
import LatencyOS.Compiler.Compiled
import LatencyOS.Compiler.Conditional
import LatencyOS.Compiler.Declarations
import LatencyOS.Compiler.Discipline.Basic
import LatencyOS.Compiler.Discipline.Compile
import LatencyOS.Compiler.Discipline.Declarations
import LatencyOS.Compiler.Discipline.Expression
import LatencyOS.Compiler.Discipline.Functions
import LatencyOS.Compiler.Discipline.Jumps
import LatencyOS.Compiler.Discipline.Match
import LatencyOS.Compiler.Discipline.Pending
import LatencyOS.Compiler.Discipline.Rules
import LatencyOS.Compiler.Discipline.Session
import LatencyOS.Compiler.Discipline.Statement
import LatencyOS.Compiler.Discipline.Zones
import LatencyOS.Compiler.Emit
import LatencyOS.Compiler.ExprCorrect
import LatencyOS.Compiler.Expression
import LatencyOS.Compiler.Folding
import LatencyOS.Compiler.FrontEnd
import LatencyOS.Compiler.Functions
import LatencyOS.Compiler.Grammar
import LatencyOS.Compiler.Imports
import LatencyOS.Compiler.Intrinsics
import LatencyOS.Compiler.Levels
import LatencyOS.Compiler.Lexer
import LatencyOS.Compiler.LiteralCode
import LatencyOS.Compiler.Literals
import LatencyOS.Compiler.Loops
import LatencyOS.Compiler.Match
import LatencyOS.Compiler.MatchCode
import LatencyOS.Compiler.Natives
import LatencyOS.Compiler.Operands
import LatencyOS.Compiler.Operators
import LatencyOS.Compiler.Partition
import LatencyOS.Compiler.Places
import LatencyOS.Compiler.Primary
import LatencyOS.Compiler.Registers
import LatencyOS.Compiler.Results
import LatencyOS.Compiler.Rules
import LatencyOS.Compiler.Scales
import LatencyOS.Compiler.Segment
import LatencyOS.Compiler.State
import LatencyOS.Compiler.Statements.Assigned
import LatencyOS.Compiler.Statements.Basic
import LatencyOS.Compiler.Statements.Code
import LatencyOS.Compiler.Statements.Performs
import LatencyOS.Compiler.Statements.Program
import LatencyOS.Compiler.Statements.Works
import LatencyOS.Compiler.Temps.Balanced
import LatencyOS.Compiler.Temps.Basic
import LatencyOS.Compiler.Temps.Calls
import LatencyOS.Compiler.Temps.Combinators
import LatencyOS.Compiler.Temps.Compile
import LatencyOS.Compiler.Temps.Held
import LatencyOS.Compiler.Temps.Rules
import LatencyOS.Compiler.Temps.Statement
import LatencyOS.Compiler.Unary
import LatencyOS.Container
import LatencyOS.Crypto.AesCorrect
import LatencyOS.Crypto.Block
import LatencyOS.Crypto.Gcm
import LatencyOS.Crypto.GcmCorrect
import LatencyOS.Crypto.Standards
import LatencyOS.Disk.Accounting
import LatencyOS.Disk.Areas
import LatencyOS.Disk.Contents
import LatencyOS.Disk.Create
import LatencyOS.Disk.Created
import LatencyOS.Disk.Delete
import LatencyOS.Disk.Fat
import LatencyOS.Disk.Geometry
import LatencyOS.Disk.Image
import LatencyOS.Disk.Mirror
import LatencyOS.Disk.Name
import LatencyOS.Disk.Store
import LatencyOS.Disk.Volume
import LatencyOS.Disk.Walks
import LatencyOS.Editor.Files
import LatencyOS.Editor.PulseEditor
import LatencyOS.Editor.Refine
import LatencyOS.Editor.Screen
import LatencyOS.Editor.Session
import LatencyOS.Fs.Calls
import LatencyOS.Fs.Destination
import LatencyOS.Fs.FixedPoint
import LatencyOS.Fs.Invariant
import LatencyOS.Fs.LatencyFs
import LatencyOS.Fs.Path
import LatencyOS.Fs.PathBuffer
import LatencyOS.Fs.ReadBack
import LatencyOS.Fs.Resolve
import LatencyOS.Fs.Spelling
import LatencyOS.Fs.Tree
import LatencyOS.Fs.WriteThrough
import LatencyOS.Intent.Arithmetic
import LatencyOS.Intent.Build
import LatencyOS.Intent.Diff
import LatencyOS.Isa
import LatencyOS.Lib.Buffer
import LatencyOS.Lib.Carryless
import LatencyOS.Lib.Cells
import LatencyOS.Lib.Chain
import LatencyOS.Lib.Crc
import LatencyOS.Lib.Faults
import LatencyOS.Lib.Json
import LatencyOS.Lib.JsonCost
import LatencyOS.Lib.Keyed
import LatencyOS.Lib.Layout
import LatencyOS.Lib.Machine
import LatencyOS.Lib.Outcome
import LatencyOS.Lib.Pool
import LatencyOS.Lib.Prog
import LatencyOS.Lib.Quicksort
import LatencyOS.Lib.Reading
import LatencyOS.Lib.Ring
import LatencyOS.Lib.Slice
import LatencyOS.Lib.Span
import LatencyOS.Lib.Str
import LatencyOS.Lib.Trace
import LatencyOS.Lib.Wp
import LatencyOS.Lsp.Diagnostics
import LatencyOS.Lsp.Emitted
import LatencyOS.Lsp.Hover
import LatencyOS.Lsp.Reader
import LatencyOS.Lsp.ReaderCorrect
import LatencyOS.Lsp.ReaderTrees
import LatencyOS.Lsp.ReaderValues
import LatencyOS.Lsp.SemanticTokens
import LatencyOS.Lsp.Server
import LatencyOS.Lsp.Session
import LatencyOS.Net.Checksum
import LatencyOS.Net.Congestion
import LatencyOS.Net.E1000
import LatencyOS.Net.Nonce
import LatencyOS.Net.Packets
import LatencyOS.Net.Stream
import LatencyOS.Net.Transmit
import LatencyOS.Shell.Disasm
import LatencyOS.Shell.History
import LatencyOS.Shell.Line
import LatencyOS.Shell.LineEditor
import LatencyOS.Shell.LineRefine
import LatencyOS.Shell.Listing
import LatencyOS.Shell.TimeLiteral
import LatencyOS.Smp.Benchmark
import LatencyOS.Smp.Frames
import LatencyOS.Smp.Occupancy
import LatencyOS.Smp.Pipeline
import LatencyOS.Smp.RingBuffer
import LatencyOS.Smp.Turns
import LatencyOS.Source.Expr
import LatencyOS.Source.Stmt
import LatencyOS.System.Checksum
import LatencyOS.System.Clock
import LatencyOS.System.ControlFlow
import LatencyOS.System.HostKernel
import LatencyOS.System.Import
import LatencyOS.System.LatencyReport
import LatencyOS.System.MatchRuns
import LatencyOS.System.PrintCalls
import LatencyOS.System.Replay
import LatencyOS.System.Roundtrip
import LatencyOS.System.Serial
import LatencyOS.Token
import LatencyOS.Tools.Disasm
import LatencyOS.Tools.Expansion
import LatencyOS.Tools.Fmt
import LatencyOS.Tools.FormatSource
import LatencyOS.Tools.Include
import LatencyOS.Tools.Reports
import LatencyOS.Tools.Slicing
import LatencyOS.Vm.Agreement
import LatencyOS.Vm.Core
import LatencyOS.Vm.Effects
import LatencyOS.Vm.Equality
import LatencyOS.Vm.Exec
import LatencyOS.Vm.Kernel
import LatencyOS.Vm.KernelSafety
import LatencyOS.Vm.Printing
import LatencyOS.Vm.Safety
import LatencyOS.Vm.Storage
import LatencyOS.Vm.Word
