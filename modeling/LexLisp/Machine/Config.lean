import LexLisp.Error
import LexLisp.Heap

/-!
# Configurations of the machine

Expressions are evaluated by a machine that works in single steps.  A
configuration says what is being worked on (`Control`), what awaits the result
(a list of `Pending` work, the innermost first), and the state that evaluation
changes: the environments, the call stack of the session at work, and the log
of the calls made so far.
-/

namespace LexLisp

/-- A call in the log: the frame that was pushed for it, the environment it
was made from, and the height of the call stack with that frame. -/
structure Call where
  frame : Frame
  env : EnvId
  height : Nat
  deriving DecidableEq, Repr

/-- A value that can be called. -/
inductive Callee where
  | closure (formals : List Text) (body : Value) (env : Option EnvId)
  | native (f : Native)
  deriving Repr

namespace Callee

/-- The value as something to be called, if it is a function. -/
def ofValue? : Value → Option Callee
  | .closure formals body env => some (closure formals body env)
  | .native f => some (native f)
  | _ => none

/-- Does the call go to a closure? -/
def isClosure : Callee → Bool
  | closure _ _ _ => true
  | native _ => false

/-- Are the operands handed over as they are written? -/
def isSpecial : Callee → Bool
  | closure _ _ _ => false
  | native f => f.mode == .special

/-- A closure wants exactly as many arguments as it has formals.  Primitives
count their operands themselves, when they are called. -/
def arityError? (callee : Callee) (count : Nat) : Option Cause :=
  match callee with
  | closure formals _ _ =>
    if count = formals.length then none else some (.arity formals.length count)
  | native _ => none

/-- The name of a call whose head is not a symbol. -/
def ownName : Callee → Text
  | closure _ _ _ => "<anonymous>"
  | native f => f.name

/-- The name of a call: that of the symbol at its head, else the callee's. -/
def callName (callee : Callee) : Value → Text
  | .symbol name => name
  | _ => callee.ownName

end Callee

/-- How evaluation may fail. -/
inductive Failure where
  | error (e : Error)
  | panic (p : Panic)
  deriving Repr

namespace Failure

/-- The failure in words. -/
def message : Failure → Text
  | error e => e.message
  | panic p => p.message

/-- The call stack at the moment of the failure. -/
def stack? : Failure → Option CallStack
  | error e => e.stack
  | panic _ => none

end Failure

/-- Why a rule of the machine does not go on with what it was given. -/
inductive Refusal where
  | error (cause : Cause)
  | panic (p : Panic)
  deriving Repr

namespace Refusal

/-- Refuse a value that is not of the type wanted.  There is an error about it, but
an absent value has no type to look at. -/
def about (cause : Value → Cause) (found : Value) : Refusal :=
  if found.isAbsent then panic .absentAccess else error (cause found)

/-- The failure that comes of a refusal: an error keeps a copy of the call
stack. -/
def failure (stack : CallStack) : Refusal → Failure
  | error cause => .error ⟨cause, some stack⟩
  | panic p => .panic p

end Refusal

/-- How evaluation ends. -/
inductive Outcome where
  | value (v : Value)
  | failure (f : Failure)
  deriving Repr

/-- What evaluation changes. -/
structure State where
  heap : Heap
  stack : CallStack
  calls : Array Call
  deriving Repr

/-- What the machine is working on. -/
inductive Control where
  /-- Evaluate an expression. -/
  | eval (env : EnvId) (expr : Value)
  /-- Enter a function with these arguments. -/
  | enter (env : EnvId) (name : Text) (callee : Callee) (args : List Value)
  /-- Hand the outcome to what awaits it. -/
  | done (outcome : Outcome)
  deriving Repr

/-- Work that awaits the value of an expression. -/
inductive Pending where
  /-- The value is the function of a call, written with this head and these
  operands. -/
  | operator (env : EnvId) (head : Value) (operands : List Value)
  /-- The value is an argument.  Those before it stand in reverse; the operands
  after it are still to be evaluated. -/
  | operand (env : EnvId) (name : Text) (callee : Callee) (done todo : List Value)
  /-- The value is what the latest call returns. -/
  | leave
  /-- The value is to be bound to a name. -/
  | define (env : EnvId) (name : Text)
  /-- The value decides between two expressions. -/
  | choose (env : EnvId) (yes no : Value)
  /-- The value is a function, to be applied to the list that this expression
  gives. -/
  | applied (env : EnvId) (operands : Value)
  /-- The value is the list of arguments for this function. -/
  | arguments (env : EnvId) (f : Value)
  deriving Repr

/-- A configuration of the machine. -/
structure Config where
  control : Control
  pending : List Pending
  state : State
  deriving Repr

end LexLisp
