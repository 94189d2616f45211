import LexLisp.Interpreter.Basic
import LexLisp.Machine.Step

/-!
# Evaluation in an interpreter

An evaluation runs the machine on the heap of the interpreter and on the call
stack of one session, and puts both back when it ends.  The number of steps is
bounded by an argument, since a program may run forever if the height of the
call stack is not limited: no result means that the steps did not suffice.
-/

namespace LexLisp

/-- A finished evaluation: its outcome, the calls it made, and the interpreter
after it. -/
structure Evaluation where
  outcome : Outcome
  calls : Array Call
  interpreter : Interpreter
  deriving Repr

/-- Why a source text could not be read in an environment. -/
inductive ReadError where
  | noReader
  | unreadable (e : SyntaxError)
  deriving DecidableEq, Repr

namespace ReadError

/-- The failure in words. -/
def message : ReadError → Text
  | noReader => "no reader configured"
  | unreadable e => (Error.ofSyntax e).message

end ReadError

namespace Outcome

/-- An outcome as it is shown: the printed value, or the error.  A panic is not
shown, it is passed on, and a value that has no text is a panic. -/
def shown : Outcome → Except Panic Text
  | value v => if v.isWhole then .ok v.print else .error .absentAccess
  | failure (.error e) => .ok (("Error: " : Text) ++ e.message)
  | failure (.panic p) => .error p

end Outcome

/-- What came of a source text: the text to be shown, unless a panic came in
its place, the calls that were made and the interpreter after them. -/
structure Reply where
  result : Except Panic Text
  calls : Array Call
  interpreter : Interpreter

namespace Interpreter

/-- The state in which an evaluation begins. -/
def state (i : Interpreter) (e : EnvId) : State :=
  ⟨i.heap, i.stackOf e, #[]⟩

/-- The interpreter after an evaluation that ended in this state. -/
def withState (i : Interpreter) (e : EnvId) (s : State) : Interpreter :=
  { i.setStack e s.stack with heap := s.heap }

/-- Run the machine in an environment. -/
def run (i : Interpreter) (e : EnvId) (start : State → Config) (steps : Nat) :
    Option Evaluation :=
  ((start (i.state e)).run steps).map fun (outcome, s) => ⟨outcome, s.calls, i.withState e s⟩

/-- Evaluate an expression. -/
def eval (i : Interpreter) (e : EnvId) (expr : Value) (steps : Nat) : Option Evaluation :=
  i.run e (fun s => ⟨.eval e expr, [], s⟩) steps

/-- Evaluate a call, given as a list. -/
def evalForm (i : Interpreter) (e : EnvId) (form : Value) (steps : Nat) : Option Evaluation :=
  match form with
  | .list _ => i.eval e form steps
  | _ => i.run e (Machine.refuse (.about .notForm form) []) steps

/-- Call a function with a list of arguments, which are handed over as they
are. -/
def call (i : Interpreter) (e : EnvId) (f args : Value) (steps : Nat) : Option Evaluation :=
  i.run e (Machine.callValue e f args []) steps

/-- Read the only expression of a source text. -/
def read (i : Interpreter) (e : EnvId) (source : Text) : Except ReadError Value :=
  if i.hasReader e then
    match LexLisp.read source with
    | .ok v => .ok v
    | .error failure => .error (.unreadable failure)
  else .error .noReader

/-- Read the only expression of a source text, evaluate it, and print the
outcome. -/
def evalText (i : Interpreter) (e : EnvId) (source : Text) (steps : Nat) : Option Reply :=
  match i.read e source with
  | .error failure => some ⟨.ok (("Error: " : Text) ++ failure.message), #[], i⟩
  | .ok expr =>
    (i.eval e expr steps).map fun evaluation =>
      ⟨evaluation.outcome.shown, evaluation.calls, evaluation.interpreter⟩

end Interpreter

end LexLisp
