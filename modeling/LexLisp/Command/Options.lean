import LexLisp.CallStack
import LexLisp.Command.Log
import LexLisp.Number.Integer

/-!
# The command line

There are two commands: one runs programs from files or from the command line
itself, the other starts a read-eval-print loop, which also starts if no
command is given.  `Options` holds what was asked for, and `UsageError` says
which rule of usage was broken.
-/

namespace LexLisp

namespace Command

/-- The commands.  The loop may be asked for by name or by naming nothing. -/
inductive Task where
  | run
  | loop (named : Bool)
  deriving DecidableEq, Repr

/-- What was asked for on the command line. -/
structure Options where
  task : Task
  args : List Text
  logLevel : Text
  expression : Bool
  printValues : Bool
  stackTrace : Bool
  maxHeight : Int
  deriving DecidableEq, Repr

/-- The level of the log unless another one is asked for. -/
def defaultLogLevel : Text := Log.Level.warning.name

/-- The program's own name. -/
def programName : Text := "rs-lisp"

/-- The switches of the command that runs programs. -/
inductive Switch where
  | expression
  | printValues
  | stackTrace
  deriving DecidableEq, Repr

namespace Switch

/-- All switches. -/
def all : List Switch := [expression, printValues, stackTrace]

/-- The long name of a switch. -/
def name : Switch → Text
  | expression => "expression"
  | printValues => "print"
  | stackTrace => "stack-trace"

/-- The letter of a switch. -/
def letter : Switch → Rune
  | expression => .char 'e'
  | printValues => .char 'p'
  | stackTrace => .char 's'

/-- Turn the switch on or off. -/
def set (on : Bool) (o : Options) : Switch → Options
  | expression => { o with expression := on }
  | printValues => { o with printValues := on }
  | stackTrace => { o with stackTrace := on }

end Switch

/-- The flags that take a value. -/
inductive Valued where
  | logLevel
  | maxHeight
  deriving DecidableEq, Repr

namespace Valued

/-- All flags that take a value. -/
def all : List Valued := [logLevel, maxHeight]

/-- The name of a flag. -/
def name : Valued → Text
  | logLevel => "log-level"
  | maxHeight => "max-stack-height"

end Valued

namespace Task

/-- The command of this name. -/
def ofName? (name : Text) : Option Task :=
  if name = ("run" : Text) then some .run
  else if name = ("repl" : Text) then some (.loop true)
  else none

/-- The switches of a command.  The loop has none. -/
def switches : Task → List Switch
  | run => Switch.all
  | loop _ => []

/-- The flags of a command that take a value.  The loop has only the level of
the log. -/
def valued : Task → List Valued
  | run => Valued.all
  | loop _ => [.logLevel]

/-- How a command is named in complaints. -/
def path : Task → Text
  | run => programName ++ (" run" : Text)
  | loop true => programName ++ (" repl" : Text)
  | loop false => programName

end Task

/-- The rules of usage, as they are broken. -/
inductive UsageError where
  | unknownFlag (name : Text)
  | unknownLetter (letter : Rune) (word : Text)
  | noValue (name : Text)
  | badSwitch (s : Switch) (written : Text)
  | badHeight (written : Text) (fault : Integer.Fault)
  | noArguments
  | unknownCommand (word : Text) (path : Text)
  | badLevel (word : Text)
  deriving DecidableEq, Repr

namespace UsageError

/-- A fault of a written integer in words. -/
def faultPhrase : Integer.Fault → Text
  | .invalid => "invalid syntax"
  | .outOfRange => "value out of range"

/-- The complaint about the value of a flag, as far as the fault. -/
def badValue (flag reading written : Text) : Text :=
  ("invalid argument " : Text) ++ written.quoted ++ (" for " : Text) ++ flag.quoted ++
    (" flag: " : Text) ++ reading ++ (": parsing " : Text) ++ written.quoted ++ (": " : Text)

/-- The broken rule in words. -/
def message : UsageError → Text
  | unknownFlag name => ("unknown flag: --" : Text) ++ name
  | unknownLetter letter word =>
    ("unknown shorthand flag: '" : Text) ++ [letter] ++ ("' in -" : Text) ++ word
  | noValue name => ("flag needs an argument: --" : Text) ++ name
  | badSwitch s written =>
    badValue (("-" : Text) ++ [s.letter] ++ (", --" : Text) ++ s.name) "strconv.ParseBool" written ++
      faultPhrase .invalid
  | badHeight written fault =>
    badValue (("--" : Text) ++ Valued.maxHeight.name) "strconv.ParseInt" written ++
      faultPhrase fault
  | noArguments => "requires at least 1 arg(s), only received 0"
  | unknownCommand word path =>
    ("unknown command " : Text) ++ word.quoted ++ (" for " : Text) ++ path.quoted
  | badLevel word => ("not a valid logrus Level: " : Text) ++ word.quoted

end UsageError

namespace Options

/-- A command without arguments and flags. -/
def ofTask (task : Task) : Options :=
  ⟨task, [], defaultLogLevel, false, false, false, CallStack.defaultMaxHeight⟩

/-- A program needs something to run, and the loop takes no arguments. -/
def checkArgs (o : Options) : Except UsageError Unit :=
  match o.task, o.args with
  | .run, [] => .error .noArguments
  | .run, _ :: _ => .ok ()
  | .loop _, [] => .ok ()
  | .loop _, word :: _ => .error (.unknownCommand word o.task.path)

/-- The level that was asked for. -/
def threshold (o : Options) : Except UsageError Log.Level :=
  match Log.Level.ofWord? o.logLevel with
  | some level => .ok level
  | none => .error (.badLevel o.logLevel)

/-- The level of the log, if no rule of usage is broken. -/
def check (o : Options) : Except UsageError Log.Level := do
  o.checkArgs
  o.threshold

end Options

end Command

end LexLisp
