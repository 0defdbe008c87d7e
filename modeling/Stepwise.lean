import Stepwise.Arithmetic
import Stepwise.Assembly
import Stepwise.Command.Arguments
import Stepwise.Command.Compile
import Stepwise.Command.Run
import Stepwise.Compiler
import Stepwise.Conversion
import Stepwise.Decimal.Binary
import Stepwise.Decimal.Layout
import Stepwise.Decimal.Reading
import Stepwise.Decimal.Shortest
import Stepwise.Diagnostic
import Stepwise.Format.File
import Stepwise.Format.Image
import Stepwise.Format.Program
import Stepwise.Image
import Stepwise.Instruction.Basic
import Stepwise.Instruction.OpCode
import Stepwise.Instruction.Operand
import Stepwise.Layout.Constant
import Stepwise.Layout.Frame
import Stepwise.Layout.Globals
import Stepwise.Listing
import Stepwise.Lowering.Expr
import Stepwise.Lowering.Function
import Stepwise.Lowering.Snippet
import Stepwise.Lowering.Stmt
import Stepwise.Machine.Basic
import Stepwise.Machine.Console
import Stepwise.Machine.Dump
import Stepwise.Machine.Fault
import Stepwise.Machine.Inspection
import Stepwise.Machine.Memory
import Stepwise.Machine.Operation
import Stepwise.Machine.Recorder
import Stepwise.Machine.State
import Stepwise.Machine.Step
import Stepwise.Main
import Stepwise.Proofs.ExprCases
import Stepwise.Proofs.Placement
import Stepwise.Proofs.Success
import Stepwise.Proofs.Transition
import Stepwise.Scope
import Stepwise.Source.Build
import Stepwise.Source.Tree
import Stepwise.Table
import Stepwise.Text.Blank
import Stepwise.Text.Colour
import Stepwise.Text.Column
import Stepwise.Text.ExtendingMark
import Stepwise.Text.Invisible
import Stepwise.Text.Quoted
import Stepwise.Text.Ranges
import Stepwise.Typing
import Stepwise.Value
import Stepwise.Yaml.Node
import Stepwise.Yaml.Reader
import Stepwise.Yaml.Scalar
import Stepwise.Yaml.Writer
import Stepwise.Proofs.StmtCases
import Stepwise.Proofs.Layout
import Stepwise.Proofs.Discipline
import Stepwise.Proofs.ExprDiscipline
import Stepwise.Proofs.StmtDiscipline
import Stepwise.Proofs.Compilation
import Stepwise.Proofs.Coherence
import Stepwise.Proofs.StackDiscipline
import Stepwise.Proofs.StaticHeight
import Stepwise.Proofs.TypedMemory
import Stepwise.Proofs.Evaluation
import Stepwise.Proofs.Agreement
import Stepwise.Proofs.ExprSimulation
import Stepwise.Proofs.Mistakes
import Stepwise.Proofs.Linkage
import Stepwise.Proofs.InternalErrors
import Stepwise.Proofs.Folding
import Stepwise.Proofs.ConstantFolding
import Stepwise.Proofs.Stages
import Stepwise.Proofs.ExprTyping
import Stepwise.Proofs.StmtTyping
import Stepwise.Proofs.SymbolMap
import Stepwise.Proofs.CallChain
import Stepwise.Proofs.Correspondence
import Stepwise.Proofs.ExprCorrespondence
import Stepwise.Proofs.StmtCorrespondence
import Stepwise.Proofs.ProgramCorrespondence
import Stepwise.Proofs.Relocation
import Stepwise.Proofs.AlignedRegions
import Stepwise.Proofs.FunctionOrder
import Stepwise.Proofs.FunctionTyping
import Stepwise.Proofs.TypedOperands
import Stepwise.Proofs.TypeSoundness
import Stepwise.Proofs.ExactLinking
import Stepwise.Proofs.FormatRoundTrip
import Stepwise.Proofs.CallFreeExpressions
import Stepwise.Proofs.LexicalScoping
import Stepwise.Proofs.LiveVariables
import Stepwise.Proofs.FreshDeclarations
import Stepwise.Proofs.CallResults
import Stepwise.Proofs.StraightCode
import Stepwise.Proofs.Delivery
import Stepwise.Proofs.OperatorTyping
import Stepwise.Proofs.CellTypes
import Stepwise.Proofs.LateRegistration
import Stepwise.Proofs.Descent
import Stepwise.Proofs.Termination
import Stepwise.Proofs.Remainder
import Stepwise.Proofs.Addressing
import Stepwise.Proofs.FrameTable
import Stepwise.Proofs.RegionLayout
