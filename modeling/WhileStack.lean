import WhileStack.Cli.Command
import WhileStack.Cli.Files
import WhileStack.Cli.Flags
import WhileStack.Cli.Path
import WhileStack.Cli.Run
import WhileStack.Datum.Basic
import WhileStack.Datum.Pos
import WhileStack.Datum.Printer
import WhileStack.Datum.Reader
import WhileStack.Datum.Token
import WhileStack.Eval.Expr
import WhileStack.Eval.Run
import WhileStack.Eval.Stmt
import WhileStack.Eval.Stop
import WhileStack.Lower.Cast
import WhileStack.Lower.Error
import WhileStack.Lower.Expr
import WhileStack.Lower.Layout
import WhileStack.Lower.Method
import WhileStack.Lower.Program
import WhileStack.Lower.Stmt
import WhileStack.Lower.Symbols
import WhileStack.Machine.Depth
import WhileStack.Machine.Instr
import WhileStack.Machine.Label
import WhileStack.Machine.Outline
import WhileStack.Machine.Program
import WhileStack.Machine.Run
import WhileStack.Machine.Step
import WhileStack.Machine.Ty
import WhileStack.Main
import WhileStack.Proofs.Acyclic
import WhileStack.Proofs.Aliases
import WhileStack.Proofs.Arithmetic
import WhileStack.Proofs.Attributes
import WhileStack.Proofs.Balance
import WhileStack.Proofs.Casts
import WhileStack.Proofs.Copies
import WhileStack.Proofs.Correctness
import WhileStack.Proofs.Datum.Extent
import WhileStack.Proofs.Datum.Form
import WhileStack.Proofs.Datum.Grammar
import WhileStack.Proofs.Datum.Integer
import WhileStack.Proofs.Datum.Lexing
import WhileStack.Proofs.Datum.Positions
import WhileStack.Proofs.Datum.Quoting
import WhileStack.Proofs.Datum.Refusal
import WhileStack.Proofs.Datum.RoundTrip
import WhileStack.Proofs.Datum.Spacing
import WhileStack.Proofs.Duplicates
import WhileStack.Proofs.EndOfBody
import WhileStack.Proofs.Eval.Stmt
import WhileStack.Proofs.Eval.Visits
import WhileStack.Proofs.Evaluation.Assign
import WhileStack.Proofs.Evaluation.Both
import WhileStack.Proofs.Evaluation.Expr
import WhileStack.Proofs.Evaluation.Run
import WhileStack.Proofs.Evaluation.Stmt
import WhileStack.Proofs.Exec
import WhileStack.Proofs.Expansion
import WhileStack.Proofs.Independence
import WhileStack.Proofs.Linking
import WhileStack.Proofs.Lookup
import WhileStack.Proofs.Lower.Accepted
import WhileStack.Proofs.Lower.Calls
import WhileStack.Proofs.Lower.Cast
import WhileStack.Proofs.Lower.Chunks
import WhileStack.Proofs.Lower.Compiled
import WhileStack.Proofs.Lower.Denotes
import WhileStack.Proofs.Lower.Derivation
import WhileStack.Proofs.Lower.Early
import WhileStack.Proofs.Lower.Environment
import WhileStack.Proofs.Lower.Failures
import WhileStack.Proofs.Lower.Inversion
import WhileStack.Proofs.Lower.Layout
import WhileStack.Proofs.Lower.Mismatch
import WhileStack.Proofs.Lower.Parts
import WhileStack.Proofs.Lower.Places
import WhileStack.Proofs.Lower.Retyped
import WhileStack.Proofs.Lower.Slots
import WhileStack.Proofs.Lower.Symbols
import WhileStack.Proofs.Lower.Transfer
import WhileStack.Proofs.Machine.Assigned
import WhileStack.Proofs.Machine.Chunk
import WhileStack.Proofs.Machine.Closed
import WhileStack.Proofs.Machine.Control
import WhileStack.Proofs.Machine.Depth
import WhileStack.Proofs.Machine.Legible
import WhileStack.Proofs.Machine.Mirror
import WhileStack.Proofs.Machine.Natural
import WhileStack.Proofs.Machine.Placement
import WhileStack.Proofs.Machine.Receiver
import WhileStack.Proofs.Machine.Reclass
import WhileStack.Proofs.Machine.Twin
import WhileStack.Proofs.Order
import WhileStack.Proofs.Ownership
import WhileStack.Proofs.Reference.Expr
import WhileStack.Proofs.Reference.Stmt
import WhileStack.Proofs.Resolution
import WhileStack.Proofs.Return
import WhileStack.Proofs.ReturningBodies
import WhileStack.Proofs.Scenarios
import WhileStack.Proofs.Scoping
import WhileStack.Proofs.Simulation.Assign
import WhileStack.Proofs.Simulation.Block
import WhileStack.Proofs.Simulation.Call
import WhileStack.Proofs.Simulation.Expr
import WhileStack.Proofs.Simulation.Meets
import WhileStack.Proofs.Simulation.Run
import WhileStack.Proofs.Simulation.Scope
import WhileStack.Proofs.Simulation.Stmt
import WhileStack.Proofs.Simulation.Typed
import WhileStack.Proofs.Simulation.Zero
import WhileStack.Proofs.Slots
import WhileStack.Proofs.Soundness
import WhileStack.Proofs.Source.Decoded
import WhileStack.Proofs.Source.Named
import WhileStack.Proofs.Source.Occurs
import WhileStack.Proofs.Source.Readable
import WhileStack.Proofs.Source.ReadsBack
import WhileStack.Proofs.Source.Retyped
import WhileStack.Proofs.Source.RoundTrip
import WhileStack.Proofs.Source.Structural
import WhileStack.Proofs.Source.Unplaced
import WhileStack.Proofs.StackCheck
import WhileStack.Proofs.StackEffect
import WhileStack.Proofs.SymbolTable
import WhileStack.Proofs.Tree.Basic
import WhileStack.Proofs.Tree.Copy
import WhileStack.Proofs.Tree.Forest
import WhileStack.Proofs.Tree.Frame
import WhileStack.Proofs.Tree.Graph
import WhileStack.Proofs.Tree.Lockstep
import WhileStack.Proofs.Tree.Machine
import WhileStack.Proofs.Tree.Owned
import WhileStack.Proofs.Tree.Path
import WhileStack.Proofs.Tree.Read
import WhileStack.Proofs.Tree.Refinement
import WhileStack.Proofs.Tree.Select
import WhileStack.Proofs.TypeNames
import WhileStack.Proofs.ValueSemantics
import WhileStack.Proofs.ZeroValues
import WhileStack.Scenario.Basic
import WhileStack.Scenario.Markdown
import WhileStack.Settings.Basic
import WhileStack.Settings.Version
import WhileStack.Settings.Version.Reader
import WhileStack.Source.Alias
import WhileStack.Source.OfDatum
import WhileStack.Source.Program
import WhileStack.Source.ToDatum
import WhileStack.Source.Ty
import WhileStack.Text.Blank
import WhileStack.Text.Digit
import WhileStack.Text.Fields
import WhileStack.Text.Integer
import WhileStack.Text.Letter
import WhileStack.Text.Printable
import WhileStack.Text.Quoted
import WhileStack.Text.Radix
import WhileStack.Text.Span
import WhileStack.Text.Utf8
import WhileStack.Value.Basic
import WhileStack.Value.Fault
import WhileStack.Value.Heap
import WhileStack.Yaml.Number
import WhileStack.Yaml.Reader
import WhileStack.Yaml.Scalar
import WhileStack.Yaml.Timestamp
import WhileStack.Yaml.Writer
