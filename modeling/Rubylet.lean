import Rubylet.Backend
import Rubylet.CommandLine
import Rubylet.CommandLine.Directory
import Rubylet.CommandLine.Reading
import Rubylet.CommandLine.Syntax
import Rubylet.CommandLine.Usage
import Rubylet.CompileError
import Rubylet.Diagnostic
import Rubylet.Fault
import Rubylet.Foreign
import Rubylet.Grammar
import Rubylet.Grammar.Automaton
import Rubylet.Grammar.Parse
import Rubylet.Grammar.Tree
import Rubylet.Graph
import Rubylet.Graph.Index
import Rubylet.Graph.Wiring
import Rubylet.Inference
import Rubylet.Instruction
import Rubylet.Instruction.Listing
import Rubylet.Instruction.Lowering
import Rubylet.Log
import Rubylet.Machine
import Rubylet.Main
import Rubylet.Native.Code
import Rubylet.Native.Emission
import Rubylet.Native.Execution
import Rubylet.Native.Name
import Rubylet.Native.Word
import Rubylet.Notice
import Rubylet.Operator
import Rubylet.Origin
import Rubylet.Position
import Rubylet.Program
import Rubylet.Proofs.Code.Calls
import Rubylet.Proofs.Code.Compiled
import Rubylet.Proofs.Code.Definitions
import Rubylet.Proofs.Code.Layout
import Rubylet.Proofs.Code.Loading
import Rubylet.Proofs.Code.Placed
import Rubylet.Proofs.Code.Replayed
import Rubylet.Proofs.Code.Role
import Rubylet.Proofs.Code.Tables
import Rubylet.Proofs.Diagnostics.Lines
import Rubylet.Proofs.Diagnostics.Located
import Rubylet.Proofs.Diagnostics.Quoted
import Rubylet.Proofs.Direct.Agreement
import Rubylet.Proofs.Direct.Endings
import Rubylet.Proofs.Direct.Evaluation
import Rubylet.Proofs.Direct.Literals
import Rubylet.Proofs.Direct.Simulation
import Rubylet.Proofs.Grammar.Completion
import Rubylet.Proofs.Grammar.Parsing
import Rubylet.Proofs.Grammar.Productions
import Rubylet.Proofs.Grammar.Table
import Rubylet.Proofs.Graph.Built
import Rubylet.Proofs.Graph.Edges
import Rubylet.Proofs.Graph.Exact
import Rubylet.Proofs.Graph.Locals
import Rubylet.Proofs.Graph.Order
import Rubylet.Proofs.Graph.Passed
import Rubylet.Proofs.Graph.Scopes
import Rubylet.Proofs.Graph.Tables
import Rubylet.Proofs.Graph.Wired
import Rubylet.Proofs.Listing.Determined
import Rubylet.Proofs.Machine.Runs
import Rubylet.Proofs.Native.Agreement
import Rubylet.Proofs.Native.Calls
import Rubylet.Proofs.Native.Declared
import Rubylet.Proofs.Native.Division
import Rubylet.Proofs.Native.Emitted
import Rubylet.Proofs.Native.Following
import Rubylet.Proofs.Native.Kinds
import Rubylet.Proofs.Native.Parts
import Rubylet.Proofs.Native.Prepared
import Rubylet.Proofs.Native.Progress
import Rubylet.Proofs.Native.Refusals
import Rubylet.Proofs.Native.Running
import Rubylet.Proofs.Native.Scopes
import Rubylet.Proofs.Native.Translated
import Rubylet.Proofs.Native.Words
import Rubylet.Proofs.Reorder.Code
import Rubylet.Proofs.Reorder.Graphs
import Rubylet.Proofs.Reorder.Programs
import Rubylet.Proofs.Reorder.Statements
import Rubylet.Proofs.Reorder.Tables
import Rubylet.Proofs.Reorder.Types
import Rubylet.Proofs.Reorder.Values
import Rubylet.Proofs.Replay.Events
import Rubylet.Proofs.Replay.Points
import Rubylet.Proofs.Replay.Prescribed
import Rubylet.Proofs.Replay.Renaming
import Rubylet.Proofs.Replay.Walks
import Rubylet.Proofs.Safety.Call
import Rubylet.Proofs.Safety.Depth
import Rubylet.Proofs.Safety.Frames
import Rubylet.Proofs.Safety.Heights
import Rubylet.Proofs.Safety.Owners
import Rubylet.Proofs.Safety.Reads
import Rubylet.Proofs.Safety.Run
import Rubylet.Proofs.Safety.Step
import Rubylet.Proofs.Shape.Code
import Rubylet.Proofs.Shape.Run
import Rubylet.Proofs.Shape.Types
import Rubylet.Proofs.Shape.Unplaced
import Rubylet.Proofs.Syntax.Accepted
import Rubylet.Proofs.Syntax.Arguments
import Rubylet.Proofs.Syntax.Clauses
import Rubylet.Proofs.Syntax.Descent
import Rubylet.Proofs.Syntax.Errors
import Rubylet.Proofs.Syntax.Grouping
import Rubylet.Proofs.Syntax.Names
import Rubylet.Proofs.Syntax.Places
import Rubylet.Proofs.Syntax.Reading
import Rubylet.Proofs.Syntax.Replacing
import Rubylet.Proofs.Syntax.Shown
import Rubylet.Proofs.Syntax.Spelled
import Rubylet.Proofs.Syntax.Surface
import Rubylet.Proofs.Syntax.Terminators
import Rubylet.Proofs.Syntax.Unlined
import Rubylet.Proofs.Text.Columns
import Rubylet.Proofs.Text.Quoting
import Rubylet.Proofs.Token.Positions
import Rubylet.Proofs.Typing.Classes
import Rubylet.Proofs.Typing.Closed
import Rubylet.Proofs.Typing.Complete
import Rubylet.Proofs.Typing.Cycles
import Rubylet.Proofs.Typing.Exact
import Rubylet.Proofs.Typing.Flow
import Rubylet.Proofs.Typing.History
import Rubylet.Proofs.Typing.Instances
import Rubylet.Proofs.Typing.Recursion
import Rubylet.Proofs.Typing.Relation
import Rubylet.Proofs.Typing.Reports
import Rubylet.Proofs.Typing.Sound
import Rubylet.Proofs.Typing.Stepwise
import Rubylet.Proofs.Typing.Untypable
import Rubylet.Replay
import Rubylet.Replay.OperandStack
import Rubylet.Session
import Rubylet.Syntax.Node
import Rubylet.Syntax.Read
import Rubylet.Table
import Rubylet.Text.Basic
import Rubylet.Text.Character
import Rubylet.Text.Lines
import Rubylet.Text.Quoted
import Rubylet.Token
import Rubylet.Token.Lexer
import Rubylet.Token.Terminator
import Rubylet.Ty
import Rubylet.Value
