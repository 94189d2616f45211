import LexLisp.Interpreter.Basic

/-!
# Setting up an environment

A user environment binds the special operators and the functions of the
language, and may then be given settings.

Native functions are registered one by one, and only under names that are not
in use: the first conflict stops the registration, and what was registered
before it stays.
-/

namespace LexLisp

/-- A native function to be registered. -/
structure Definition where
  name : Text
  primitive : Primitive
  deriving DecidableEq, Repr

namespace Definition

/-- A primitive under its own name. -/
def ofPrimitive (p : Primitive) : Definition := ⟨p.name, p⟩

/-- A function of this name that returns the list of its operands. -/
def collecting (name : Text) : Definition := ⟨name, .list⟩

end Definition

namespace Mode

/-- What is registered in a mode if nothing else is named. -/
def defaults : Mode → List Definition
  | eager => Primitive.functions.map .ofPrimitive
  | special => Primitive.specialOperators.map .ofPrimitive

/-- The complaint about a name that is in use. -/
def conflict (name : Text) : Mode → Panic
  | eager => .functionDefined name
  | special => .operatorDefined name

end Mode

/-- One setting of an environment's session.  A reader or a logger may be
given or withheld. -/
inductive Setting where
  | maxHeight (n : Int)
  | reader (given : Bool)
  | logger (given : Bool)
  | errorOutput
  deriving DecidableEq, Repr

/-- Why a user environment could not be set up. -/
inductive SetUpError where
  | conflict (p : Panic)
  | absentReader
  | absentLogger
  deriving DecidableEq, Repr

namespace SetUpError

/-- The failure in words. -/
def message : SetUpError → Text
  | conflict p => p.message
  | absentReader => "nil reader"
  | absentLogger => "nil logger"

end SetUpError

namespace Interpreter

/-- Register native functions up to the first one whose name is in use, which
is returned as a panic. -/
def registerAll (mode : Mode) (e : EnvId) :
    List Definition → Interpreter → Option Panic × Interpreter
  | [], i => (none, i)
  | d :: rest, i =>
    if (i.heap.lookup e d.name).isSome then (some (mode.conflict d.name), i)
    else registerAll mode e rest (i.define e d.name (.native ⟨d.name, mode, d.primitive⟩))

/-- Register native functions, those of the language if none are named. -/
def register (i : Interpreter) (mode : Mode) (e : EnvId) (definitions : List Definition) :
    Option Panic × Interpreter :=
  registerAll mode e (if definitions.isEmpty then mode.defaults else definitions) i

/-- Make one setting. -/
def applySetting (i : Interpreter) (e : EnvId) : Setting → Except SetUpError Interpreter
  | .maxHeight n => .ok (i.setStack e { i.stackOf e with maxHeight := n })
  | .reader true => .ok (i.modifySession e fun session => { session with hasReader := true })
  | .reader false => .error .absentReader
  | .logger true => .ok i
  | .logger false => .error .absentLogger
  | .errorOutput => .ok i

/-- Make settings in order, up to the first that fails. -/
def applySettings (e : EnvId) : List Setting → Interpreter → Option SetUpError × Interpreter
  | [], i => (none, i)
  | setting :: rest, i =>
    match i.applySetting e setting with
    | .ok i => applySettings e rest i
    | .error failure => (some failure, i)

/-- Make an environment a user environment. -/
def setUp (i : Interpreter) (e : EnvId) (settings : List Setting) :
    Option SetUpError × Interpreter :=
  match i.register .special e [] with
  | (some p, i) => (some (.conflict p), i)
  | (none, i) =>
    match i.register .eager e [] with
    | (some p, i) => (some (.conflict p), i)
    | (none, i) => applySettings e settings i

/-- Create a user environment that can read source texts.  It is there even if
a setting fails. -/
def newUser (i : Interpreter) (settings : List Setting) : Option SetUpError × Interpreter :=
  i.newRoot.setUp i.nextEnv (.reader true :: settings)

/-- The failure to create a user environment, in words. -/
def newUserMessage (failure : SetUpError) : Text :=
  ("failed to initialize lisp environment: " : Text) ++ failure.message

end Interpreter

end LexLisp
