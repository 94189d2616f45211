import LexLisp.Command.Arguments
import LexLisp.Command.Files
import LexLisp.Interpreter.SetUp
import LexLisp.Repl

/-!
# Running a command

A program is read as a whole before any of it is evaluated.  Its expressions
are then evaluated in order in one user environment, up to the first error.

`execute` carries out a command line and says what is written and with what
status it ends.
-/

namespace LexLisp

namespace Command

/-- Why a program could not be read. -/
inductive ProgramError where
  | file (name : Text) (e : FileError)
  | unreadable (file : Option Text) (e : SyntaxError)
  deriving DecidableEq, Repr

namespace ProgramError

/-- The failure in words. -/
def message : ProgramError → Text
  | file name e => e.message name
  | unreadable none e => (Error.ofSyntax e).message
  | unreadable (some name) e => name ++ (": " : Text) ++ (Error.ofSyntax e).message

end ProgramError

/-- The expressions of one argument, which is a source text itself or names
the file that holds it. -/
def readArgument (files : Files) (expression : Bool) (arg : Text) :
    Except ProgramError (List Value) :=
  if expression then
    (readAll arg).mapError (.unreadable none)
  else
    match files arg with
    | .ok source => (readAll source).mapError (.unreadable (some arg))
    | .error e => .error (.file arg e)

/-- The expressions of all arguments. -/
def readProgram (files : Files) (expression : Bool) : List Text → Except ProgramError (List Value)
  | [] => .ok []
  | arg :: rest =>
    match readArgument files expression arg with
    | .error e => .error e
    | .ok exprs => (readProgram files expression rest).map (exprs ++ ·)

/-- A program that has been evaluated: the values of its expressions, up to the
first that has none, the calls made, and how that one ended. -/
structure Execution where
  values : List Value
  calls : Array Call
  failure : Option Failure
  interpreter : Interpreter
  deriving Repr

/-- Evaluate expressions in order, up to the first that fails. -/
def evalProgram (steps : Nat) (e : EnvId) : List Value → Interpreter → Option Execution
  | [], i => some ⟨[], #[], none, i⟩
  | expr :: rest, i =>
    match i.eval e expr steps with
    | none => none
    | some ⟨.value v, calls, i⟩ =>
      (evalProgram steps e rest i).map fun x =>
        { x with values := v :: x.values, calls := calls ++ x.calls }
    | some ⟨.failure f, calls, i⟩ => some ⟨[], calls, some f, i⟩

/-- What a command writes, and its exit status. -/
structure Result where
  status : Nat
  output : Text
  errorOutput : Text
  deriving DecidableEq, Repr

/-- The listing of the call stack that a failure holds. -/
def stackListing (f : Failure) : Text :=
  match f.stack? with
  | some stack => stack.report.flatten
  | none => []

/-- Values as they are written, each on a line of its own. -/
def printedValues (values : List Value) : Text :=
  values.flatMap fun v => v.print ++ newline

/-- Give up with a message in the log. -/
def giveUp (threshold : Log.Level) (output errorOutput message : Text) : Result :=
  ⟨1, output, errorOutput ++ Log.line threshold .fatal message []⟩

/-- The result of a program that has been evaluated. -/
def finish (o : Options) (threshold : Log.Level) (log : Text) (x : Execution) : Result :=
  let output := if o.printValues then printedValues x.values else []
  let log := log ++ Log.calls threshold x.calls
  match x.failure with
  | none => ⟨0, output, log⟩
  | some f =>
    let listing := if o.stackTrace then stackListing f else []
    giveUp threshold output (log ++ listing) f.message

/-- Run a program. -/
def runProgram (steps : Nat) (files : Files) (o : Options) (threshold : Log.Level) :
    Option Result :=
  match readProgram files o.expression o.args with
  | .error e => some (giveUp threshold [] [] e.message)
  | .ok exprs =>
    let log := Log.line threshold .debug "read expressions" [("count", .ofNat exprs.length)]
    let start := Interpreter.empty
    match start.newUser [.maxHeight o.maxHeight, .errorOutput] with
    | (some e, _) => some (giveUp threshold [] log (Interpreter.newUserMessage e))
    | (none, i) => (evalProgram steps start.nextEnv exprs i).map (finish o threshold log)

/-- Does this rune end a line? -/
def isLineEnd (r : Rune) : Bool :=
  r = .char '\n' ∨ r = .char '\r'

/-- The lines of a text, each with the rune that ends it.  The last one may
have none. -/
def lines (t : Text) : List Text :=
  t.splitBy fun r _ => !isLineEnd r

/-- Run the loop on the lines of a text. -/
def runLoop (steps : Nat) (input : Text) (threshold : Log.Level) : Option Result :=
  let start := Interpreter.empty
  match start.newUser [] with
  | (some e, _) =>
    some ⟨0, [], Log.line threshold .error (Interpreter.newUserMessage e) []⟩
  | (none, i) =>
    (Repl.loop steps start.nextEnv ((lines input).map .line) (Repl.start i none)).map
      fun (p, _) =>
        ⟨0, p.sink.written, Log.calls threshold p.calls ++ ("done" : Text) ++ newline⟩

/-- The result of breaking a rule of usage. -/
def reject (e : UsageError) : Result :=
  ⟨1, [], e.message ++ newline⟩

/-- Do what the options ask for.  There is no result if an evaluation did not
end within the given number of steps. -/
def carryOut (steps : Nat) (files : Files) (input : Text) (o : Options) : Option Result :=
  match o.check with
  | .error e => some (reject e)
  | .ok threshold =>
    match o.task with
    | .run => runProgram steps files o threshold
    | .loop _ => runLoop steps input threshold

/-- Carry out a command line. -/
def execute (steps : Nat) (files : Files) (input : Text) (words : List Text) : Option Result :=
  match Options.ofWords words with
  | .error e => some (reject e)
  | .ok o => carryOut steps files input o

end Command

end LexLisp
