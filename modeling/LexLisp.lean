import LexLisp.CallStack
import LexLisp.Command.Arguments
import LexLisp.Command.Execution
import LexLisp.Command.Files
import LexLisp.Command.Log
import LexLisp.Command.Options
import LexLisp.Error
import LexLisp.Heap
import LexLisp.Interpreter.Basic
import LexLisp.Interpreter.Evaluation
import LexLisp.Interpreter.SetUp
import LexLisp.Machine.Config
import LexLisp.Machine.Step
import LexLisp.Main
import LexLisp.Number.Basic
import LexLisp.Number.Integer
import LexLisp.Number.Numeral
import LexLisp.Number.Shortest
import LexLisp.Output
import LexLisp.Proofs.StepEffect
import LexLisp.Proofs.WriteFrame
import LexLisp.Reader.Expression
import LexLisp.Reader.Token
import LexLisp.Repl
import LexLisp.Text.Basic
import LexLisp.Text.Blank
import LexLisp.Text.Printable
import LexLisp.Text.Quoted
import LexLisp.Value.Basic
import LexLisp.Value.Equality
import LexLisp.Value.Primitive
import LexLisp.Value.Printer
import LexLisp.Proofs.StackDiscipline
import LexLisp.Proofs.Termination
import LexLisp.Proofs.ValueInvariant
import LexLisp.Proofs.Renaming
import LexLisp.Proofs.Mirror
import LexLisp.Proofs.SessionIsolation
import LexLisp.Proofs.Lockstep
import LexLisp.Proofs.StackLimit
import LexLisp.Proofs.LexicalScope
import LexLisp.Proofs.Soundness
import LexLisp.Proofs.Rounding
import LexLisp.Proofs.PrintedNumbers
import LexLisp.Proofs.Utf8
import LexLisp.Proofs.PrintRead
import LexLisp.Proofs.Grammar
import LexLisp.Proofs.CallProtocol
import LexLisp.Proofs.ProtocolRefinement
import LexLisp.Proofs.Application
import LexLisp.Proofs.EnvironmentHeap
import LexLisp.Proofs.ReadOneOrAll
import LexLisp.Proofs.Parentheses
import LexLisp.Proofs.CallTrace
import LexLisp.Proofs.FreshEnvironments
import LexLisp.Proofs.ProgramAndLoop
import LexLisp.Proofs.ValueEquality
import LexLisp.Proofs.Visibility
import LexLisp.Proofs.JoinedSources
import LexLisp.Proofs.LoopCourse
import LexLisp.Proofs.Registration
import LexLisp.Proofs.PrintedFunctions
import LexLisp.Proofs.WhiteSpace
import LexLisp.Proofs.NumeralCharacters
import LexLisp.Proofs.TrimmedLines
