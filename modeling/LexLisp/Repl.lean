import LexLisp.Interpreter.Evaluation
import LexLisp.Text.Blank

/-!
# The read-eval-print loop

The loop takes one event after the other.  A line is trimmed, and unless it is
blank it is evaluated and the outcome written, with a line feed, as one write.
The loop ends at the end of the input, at a line that asks for it, at a failure
of the input, when a write fails, or at a panic.  An interrupt is passed over.
-/

namespace LexLisp

namespace Repl

/-- What the loop may receive. -/
inductive Event where
  | line (source : Text)
  | interrupt
  | endOfInput
  | failure (message : Text)
  deriving DecidableEq, Repr

/-- The line that ends the loop. -/
def exitCommand : Text := "exit"

/-- How the loop may fail. -/
inductive LoopError where
  | readFailed (message : Text)
  | writeFailed
  | panicked (p : Panic)
  deriving DecidableEq, Repr

namespace LoopError

/-- The failure in words. -/
def message : LoopError → Text
  | readFailed message => message
  | writeFailed => "write failed"
  | panicked p => p.message

end LoopError

/-- How far the loop has come: the interpreter, what has been written, the
calls made, and how many events have been taken. -/
structure Progress where
  interpreter : Interpreter
  sink : Sink
  calls : Array Call
  reads : Nat
  deriving Repr

/-- Does the loop go on, or does it stop, with or without an error? -/
inductive Verdict where
  | goOn
  | stop (failure : Option LoopError)
  deriving DecidableEq, Repr

/-- Evaluate a line that has been trimmed, and write the outcome. -/
def answer (steps : Nat) (e : EnvId) (source : Text) (p : Progress) :
    Option (Progress × Verdict) :=
  (p.interpreter.evalText e source steps).map fun reply =>
    let p := { p with interpreter := reply.interpreter, calls := p.calls ++ reply.calls }
    match reply.result with
    | .error panic => (p, .stop (some (.panicked panic)))
    | .ok text =>
      match p.sink.write? (text ++ newline) with
      | some sink => ({ p with sink := sink }, .goOn)
      | none => (p, .stop (some .writeFailed))

/-- Take one event.  There is no result if an evaluation did not end within
the given number of steps. -/
def respond (steps : Nat) (e : EnvId) (event : Event) (p : Progress) :
    Option (Progress × Verdict) :=
  let p := { p with reads := p.reads + 1 }
  match event with
  | .interrupt => some (p, .goOn)
  | .endOfInput => some (p, .stop none)
  | .failure message => some (p, .stop (some (.readFailed message)))
  | .line source =>
    let source := source.trim
    if source = exitCommand then some (p, .stop none)
    else if source.isEmpty then some (p, .goOn)
    else answer steps e source p

/-- Take events in order until the loop stops.  After the last one comes the
end of the input. -/
def loop (steps : Nat) (e : EnvId) :
    List Event → Progress → Option (Progress × Option LoopError)
  | [], p => some ({ p with reads := p.reads + 1 }, none)
  | event :: rest, p =>
    match respond steps e event p with
    | none => none
    | some (p, .stop failure) => some (p, failure)
    | some (p, .goOn) => loop steps e rest p

/-- The loop at its start. -/
def start (i : Interpreter) (room : Option Nat) : Progress :=
  ⟨i, .empty room, #[], 0⟩

end Repl

end LexLisp
