import Injection.Name
import Injection.Span
import Injection.Diagnostic
import Injection.Stamp
import Injection.Cancellation
import Injection.Binary.Format
import Injection.Binary.Shortest
import Injection.Binary.Reading
import Injection.Text.Hex
import Injection.Text.Blank
import Injection.Text.Letter
import Injection.Text.Quoted
import Injection.ClassFile.Error
import Injection.Descriptor
import Injection.Opcode
import Injection.Access
import Injection.Constant
import Injection.Frame
import Injection.Instruction
import Injection.Method
import Injection.MethodBuilder
import Injection.Text.ModifiedUtf8
import Injection.ClassFile.Reader
import Injection.ClassFile.ConstantPool
import Injection.ClassFile.Checked
import Injection.ClassFile.Code
import Injection.ClassFile.Parse
import Injection.Json.Basic
import Injection.Json.Parse
import Injection.Assembly.Error
import Injection.Assembly.Bytes
import Injection.Assembly.Pool
import Injection.Assembly.Layout
import Injection.Assembly.StackMap
import Injection.Assembly.Class
import Injection.Sample.Compiled
import Injection.Typing.Value
import Injection.Typing.Hierarchy
import Injection.Typing.StackMove
import Injection.Typing.Execute
import Injection.Typing.Analysis
import Injection.Locals.Settings
import Injection.Locals.Variable
import Injection.Locals.Simulation
import Injection.Json.Decode
import Injection.Locals.Cache
import Injection.Locals.SharedCache
import Injection.Source.Tree
import Injection.Source.Walk
import Injection.Source.Builder
import Injection.Source.Class
import Injection.Sample.Written
import Injection.Selector
import Injection.Locals.Discriminator
import Injection.At.Spec
import Injection.At.Json
import Injection.Text.Numeral
import Injection.Point.Element
import Injection.Point.Error
import Injection.Point.Collector
import Injection.Point.Context
import Injection.Point.Position
import Injection.Point.Invocation
import Injection.Point.FieldAccess
import Injection.Point.Allocation
import Injection.Point.ConstantUse
import Injection.Point.LocalAccess
import Injection.Point.Registry
import Injection.ClassIndex
import Injection.Source.Lambda
import Injection.Source.Nesting
import Injection.Source.Unit
import Injection.Source.Candidates
import Injection.Resolver
import Injection.Toml.Value
import Injection.Toml.Scalar
import Injection.Toml.Parse
import Injection.Toml.Decode
import Injection.Pattern.Single
import Injection.Pattern.Class
import Injection.Pattern.Reader
import Injection.Config.LogValue
import Injection.Config.LogDirective
import Injection.Config.LogFilter
import Injection.Config.Basic
import Injection.CommandLine.Arguments
import Injection.CommandLine.Files
import Injection.CommandLine.Report
import Injection.CommandLine.Run
import Injection.CommandLine.Demand
import Injection.Main
import Injection.Proofs.Computation
import Injection.Proofs.Descriptor.Written
import Injection.Proofs.Descriptor.Grammar
import Injection.Proofs.Typing.Words
import Injection.Proofs.Typing.Ancestry
import Injection.Proofs.Typing.Join
import Injection.Proofs.Typing.Semilattice
import Injection.Proofs.Typing.Effect
import Injection.Proofs.Typing.Progress
import Injection.Proofs.Typing.Edges
import Injection.Proofs.Typing.Errors
import Injection.Proofs.Typing.Fixpoint
import Injection.Proofs.Typing.Rank
import Injection.Proofs.Typing.Solution
import Injection.Proofs.Typing.Reachable
import Injection.Proofs.Typing.Termination
import Injection.Proofs.Cancellation.Reach
import Injection.Proofs.Steady
import Injection.Proofs.Locals.Answers
import Injection.Proofs.Locals.Sharing
import Injection.Proofs.Locals.Zombies
import Injection.Proofs.Locals.Loads
import Injection.Proofs.Typing.Slots
import Injection.Proofs.Typing.Pairing
import Injection.Proofs.Locals.Stretches
import Injection.Proofs.Locals.MadeUp
import Injection.Proofs.Locals.Overlap
import Injection.Proofs.Locals.Picking
import Injection.Proofs.Locals.Indexed
import Injection.Proofs.Point.Filtering
import Injection.Proofs.Point.Labels
import Injection.Proofs.Point.Visits
import Injection.Proofs.Resolver.Walk
import Injection.Proofs.Resolver.Selection
import Injection.Proofs.Text.ModifiedUtf8
import Injection.Proofs.Assembly.Limits
import Injection.Proofs.ClassFile.Reading
import Injection.Proofs.ClassFile.Scanning
import Injection.Proofs.ClassFile.Pool
import Injection.Proofs.Assembly.Entering
import Injection.Proofs.Assembly.Encoding
import Injection.Proofs.Assembly.Placing
import Injection.Proofs.Assembly.Decoding
import Injection.Proofs.Assembly.Tables
import Injection.Proofs.ClassFile.Marks
import Injection.Proofs.Assembly.Code
import Injection.Proofs.Assembly.Renaming
import Injection.Proofs.Assembly.Building
import Injection.Proofs.Assembly.Members
import Injection.Proofs.Assembly.Writing
import Injection.Proofs.Assembly.RoundTrip
import Injection.Proofs.Resolver.Completion
import Injection.Proofs.Assembly.FrameChain
import Injection.Proofs.Assembly.StackMap
import Injection.Proofs.ClassFile.FrameTable
import Injection.Proofs.Assembly.Framing
import Injection.Proofs.Assembly.FrameBuilding
import Injection.Proofs.Assembly.FrameTrip
import Injection.Proofs.Assembly.Cutting
import Injection.Proofs.Assembly.Positions
import Injection.Proofs.Assembly.Checking
import Injection.Proofs.Assembly.CutTrip
import Injection.Proofs.ClassFile.Closure
import Injection.Proofs.ClassFile.ParsedLabels
import Injection.Locals.LiveIndex
import Injection.Proofs.Locals.Undisturbed
import Injection.Proofs.Typing.Turns
import Injection.Proofs.Locals.Settling
import Injection.Proofs.Locals.Freshness
import Injection.Proofs.ClassFile.Delimiting
import Injection.Proofs.ClassFile.Safety
import Injection.Proofs.Cancellation.Interruption
import Injection.Proofs.Resolver.Cancelling
import Injection.Proofs.Resolver.Navigation
import Injection.Proofs.Source.Units
import Injection.Proofs.Source.Association
import Injection.Proofs.Point.Brackets
import Injection.Proofs.Point.Selectors
import Injection.Proofs.Resolver.TextArguments
import Injection.Proofs.Source.SlotOrder
import Injection.Proofs.Source.Visiting
import Injection.Proofs.Source.EventOrder
import Injection.Proofs.Source.Partition
import Injection.Proofs.Source.InitializedHead
import Injection.Proofs.Point.Widening
import Injection.Proofs.Resolver.Exhaustion
