import LexLisp.CallStack
import LexLisp.Reader.Expression
import LexLisp.Value.Printer

/-!
# Errors

An error has a cause, from which its kind and its wording follow, and may hold
the call stack as it was when the error was raised.

A *panic* is the misuse of an operation by the program around the interpreter.
No source text leads to one, unless that program has bound a name to a value
with an absent part.
-/

namespace LexLisp

/-- The kinds of error. -/
inductive ErrorKind where
  | syntaxError
  | undefinedSymbol
  | notCallable
  | emptyCall
  | arityMismatch
  | typeError
  | emptyList
  | argumentCount
  | stackOverflow
  deriving DecidableEq, Repr

namespace ErrorKind

/-- All kinds of error. -/
def all : List ErrorKind :=
  [syntaxError, undefinedSymbol, notCallable, emptyCall, arityMismatch, typeError,
    emptyList, argumentCount, stackOverflow]

/-- The code of a kind. -/
def code : ErrorKind → Int
  | syntaxError => 1
  | undefinedSymbol => 2
  | notCallable => 3
  | emptyCall => 4
  | arityMismatch => 5
  | typeError => 6
  | emptyList => 7
  | argumentCount => 8
  | stackOverflow => 9

/-- The name of a kind. -/
def name : ErrorKind → Text
  | syntaxError => "syntax-error"
  | undefinedSymbol => "undefined-symbol"
  | notCallable => "not-callable"
  | emptyCall => "empty-call"
  | arityMismatch => "arity-mismatch"
  | typeError => "type-error"
  | emptyList => "empty-list"
  | argumentCount => "argument-count-error"
  | stackOverflow => "stack-overflow"

/-- The kind with this code. -/
def ofCode? (code : Int) : Option ErrorKind :=
  all.find? fun kind => kind.code = code

end ErrorKind

/-- What an operand of a primitive should have been. -/
inductive Expectation where
  | nameIsSymbol
  | formalsAreList
  | formalIsSymbol
  | conditionIsNumber
  | operandsAreList
  | addendIsNumber (index : Nat)
  | operandIsList
  deriving DecidableEq, Repr

namespace Expectation

/-- The complaint about an operand that is something else. -/
def complaint : Expectation → Text
  | nameIsSymbol => "first argument is not a symbol"
  | formalsAreList => "first argument is not a list"
  | formalIsSymbol => "first argument contains a non-symbol"
  | conditionIsNumber => "condition is not a number"
  | operandsAreList => "second argument is not a list"
  | addendIsNumber index =>
    ("argument " : Text) ++ Text.ofNat index ++ (" is not a number" : Text)
  | operandIsList => "argument is not a list"

end Expectation

/-- Why reading or evaluating failed. -/
inductive Cause where
  /-- The source text is not an expression. -/
  | unreadable (e : SyntaxError)
  /-- No environment in reach binds the name. -/
  | undefined (name : Text)
  /-- The head of a call is no function. -/
  | headNotFunction (found : Value)
  /-- Something else than a function was to be called. -/
  | notFunction (found : Value)
  /-- An empty list was to be evaluated. -/
  | emptyCall
  /-- A closure was given too few or too many arguments. -/
  | arity (expected got : Nat)
  /-- The value is of a type that cannot be evaluated. -/
  | notExpression (found : Value)
  /-- Something else than a list was to be evaluated as a call. -/
  | notForm (found : Value)
  /-- The arguments of a call are not given as a list. -/
  | argumentsNotList (found : Value)
  /-- A primitive found an operand of the wrong type. -/
  | misused (p : Primitive) (expected : Expectation) (found : Value)
  /-- A primitive was given an empty list. -/
  | emptyOperand (p : Primitive)
  /-- A primitive was given too few or too many operands. -/
  | operandCount (p : Primitive) (got : Nat)
  /-- The call stack has reached its greatest height. -/
  | overflow (maxHeight : Int) (name : Text)
  /-- The program around the interpreter raised an error of its own. -/
  | raised (code : Int) (message : Text)
  deriving Repr

namespace Cause

/-- The code of the kind of error. -/
def code : Cause → Int
  | unreadable _ => ErrorKind.syntaxError.code
  | undefined _ => ErrorKind.undefinedSymbol.code
  | headNotFunction _ | notFunction _ => ErrorKind.notCallable.code
  | emptyCall => ErrorKind.emptyCall.code
  | arity _ _ => ErrorKind.arityMismatch.code
  | notExpression _ | notForm _ | argumentsNotList _ | misused _ _ _ => ErrorKind.typeError.code
  | emptyOperand _ => ErrorKind.emptyList.code
  | operandCount _ _ => ErrorKind.argumentCount.code
  | overflow _ _ => ErrorKind.stackOverflow.code
  | raised code _ => code

/-- The code of failures that are no errors of the language. -/
def unknownCode : Int := 0

/-- The kind of error, if it is one of the language's. -/
def kind? (c : Cause) : Option ErrorKind :=
  ErrorKind.ofCode? c.code

/-- The name of the kind of error. -/
def kindName (c : Cause) : Text :=
  match c.kind? with
  | some kind => kind.name
  | none => "PANIC"

/-- What a primitive expected, in words. -/
def operandPhrase (p : Primitive) (got : Nat) : Text :=
  let count := p.formals.length
  p.name ++ (": " : Text) ++ Text.ofNat count ++
    (if count = 1 then " argument" else " arguments" : Text) ++
    (" expected (got " : Text) ++ Text.ofNat got ++ (")" : Text)

/-- What happened, in words. -/
def detail : Cause → Text
  | unreadable e => e.message
  | undefined name => name
  | headNotFunction found =>
    ("first element of expression is not a function: " : Text) ++ found.print
  | notFunction found => ("value is not a function: " : Text) ++ found.print
  | emptyCall => "cannot evaluate an empty list"
  | arity expected got =>
    ("function expects " : Text) ++ Text.ofNat expected ++ (" arguments (got " : Text) ++
      Text.ofNat got ++ (")" : Text)
  | notExpression found => ("cannot evaluate value of type " : Text) ++ found.type
  | notForm found => ("not an s-expression: " : Text) ++ found.type
  | argumentsNotList found => ("argument list is not a list: " : Text) ++ found.type
  | misused p expected found =>
    p.name ++ (": " : Text) ++ expected.complaint ++ (": " : Text) ++ found.type
  | emptyOperand p => p.name ++ (": argument is an empty list" : Text)
  | operandCount p got => operandPhrase p got
  | overflow maxHeight name =>
    ("maximum stack height exceeded (" : Text) ++ Text.ofInt maxHeight ++
      (") calling " : Text) ++ name
  | raised _ message => message

end Cause

/-- An error: why it was raised, and the call stack at that moment if there
was one. -/
structure Error where
  cause : Cause
  stack : Option CallStack
  deriving Repr

namespace Error

/-- A source text that cannot be read involves no call stack. -/
def ofSyntax (e : SyntaxError) : Error := ⟨.unreadable e, none⟩

/-- The text of an error: the name of its kind, and what happened if there is
anything to say about that. -/
def message (e : Error) : Text :=
  let detail := e.cause.detail
  if detail.isEmpty then e.cause.kindName
  else e.cause.kindName ++ (": " : Text) ++ detail

end Error

/-- The misuse of an operation. -/
inductive Panic where
  /-- A name was to be bound to an absent value. -/
  | absentValue
  /-- A frame was to be taken from an empty call stack. -/
  | emptyStack
  /-- A special operator was to be bound to a name in use. -/
  | operatorDefined (name : Text)
  /-- A function was to be bound to a name in use. -/
  | functionDefined (name : Text)
  /-- The type of an absent value was looked at. -/
  | absentAccess
  /-- A primitive reached for an operand that is not there. -/
  | absentOperand
  deriving DecidableEq, Repr

namespace Panic

/-- The text of a panic. -/
def message : Panic → Text
  | absentValue => "nil value"
  | emptyStack => "pop called on an empty stack"
  | operatorDefined name => ("special operator already defined: " : Text) ++ name
  | functionDefined name => ("symbol already defined: " : Text) ++ name
  | absentAccess => Value.absentAccess
  | absentOperand => "nil operand"

end Panic

namespace CallStack

/-- Push a frame, unless the stack is full. -/
def push? (s : CallStack) (f : Frame) : Except Error CallStack :=
  if s.isFull then .error ⟨.overflow s.maxHeight f.name, some s⟩ else .ok (s.push f)

/-- Pop the latest frame. -/
def pop? (s : CallStack) : Except Panic (Frame × CallStack) :=
  match s.top? with
  | some f => .ok (f, s.pop)
  | none => .error .emptyStack

end CallStack

end LexLisp
