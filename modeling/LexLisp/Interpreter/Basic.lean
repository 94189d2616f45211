import LexLisp.Error
import LexLisp.Heap

/-!
# Interpreters

An interpreter holds environments and sessions.  Every environment belongs to
one session, which it shares with its children; the session has the call stack
that evaluation in these environments works on, and may have a reader for
source texts.  A fork of an environment is a child of it in a session of its
own.
-/

namespace LexLisp

/-- A session: its call stack, and whether it can read source texts. -/
structure Session where
  stack : CallStack
  hasReader : Bool
  deriving Repr

/-- All environments and all sessions. -/
structure Interpreter where
  heap : Heap
  sessions : Array Session
  deriving Repr

namespace Interpreter

/-- An interpreter without environments. -/
def empty : Interpreter := ⟨#[], #[]⟩

/-- The session of an environment. -/
def session? (i : Interpreter) (e : EnvId) : Option Session :=
  i.sessions[i.heap.sessionOf e]?

/-- The call stack of an environment's session. -/
def stackOf (i : Interpreter) (e : EnvId) : CallStack :=
  ((i.session? e).map Session.stack).getD (.empty CallStack.defaultMaxHeight)

/-- Can source texts be read in this environment? -/
def hasReader (i : Interpreter) (e : EnvId) : Bool :=
  (i.session? e).any Session.hasReader

/-- How many names an environment binds itself. -/
def size (i : Interpreter) (e : EnvId) : Nat :=
  (i.heap.bindings e).length

/-- Change the session of an environment. -/
def modifySession (i : Interpreter) (e : EnvId) (f : Session → Session) : Interpreter :=
  { i with sessions := i.sessions.modify (i.heap.sessionOf e) f }

/-- Replace the call stack of an environment's session. -/
def setStack (i : Interpreter) (e : EnvId) (stack : CallStack) : Interpreter :=
  i.modifySession e fun session => { session with stack := stack }

/-- The environment that is created next. -/
def nextEnv (i : Interpreter) : EnvId := i.heap.size

/-- Create an environment without a parent, in a new session. -/
def newRoot (i : Interpreter) : Interpreter :=
  { heap := i.heap.push ⟨none, i.sessions.size, []⟩
    sessions := i.sessions.push ⟨.empty CallStack.defaultMaxHeight, false⟩ }

/-- Create a child of an environment, in the same session. -/
def newChild (i : Interpreter) (parent : EnvId) : Interpreter :=
  { i with heap := i.heap.push ⟨some parent, i.heap.sessionOf parent, []⟩ }

/-- Create a child of an environment, in a new session with an empty call
stack of the same greatest height. -/
def fork (i : Interpreter) (parent : EnvId) : Interpreter :=
  { heap := i.heap.push ⟨some parent, i.sessions.size, []⟩
    sessions := i.sessions.push
      ⟨.empty (i.stackOf parent).maxHeight, i.hasReader parent⟩ }

/-- An error raised in an environment: it keeps a copy of the call stack. -/
def raise (i : Interpreter) (e : EnvId) (cause : Cause) : Error :=
  ⟨cause, some (i.stackOf e)⟩

/-- The value of a name. -/
def get (i : Interpreter) (e : EnvId) (name : Text) : Except Error Value :=
  match i.heap.lookup e name with
  | some v => .ok v
  | none => .error (i.raise e (.undefined name))

/-- Bind a name in an environment itself. -/
def define (i : Interpreter) (e : EnvId) (name : Text) (v : Value) : Interpreter :=
  { i with heap := i.heap.define e name v }

/-- Bind a name to a value, unless that is absent. -/
def put (i : Interpreter) (e : EnvId) (name : Text) (v : Value) : Except Panic Interpreter :=
  if v.isAbsent then .error .absentValue else .ok (i.define e name v)

/-- Push a frame on the call stack of an environment's session. -/
def pushFrame (i : Interpreter) (e : EnvId) (frame : Frame) : Except Error Interpreter :=
  ((i.stackOf e).push? frame).map (i.setStack e)

/-- Pop the latest frame off the call stack of an environment's session. -/
def popFrame (i : Interpreter) (e : EnvId) : Except Panic (Frame × Interpreter) :=
  (i.stackOf e).pop?.map fun (frame, stack) => (frame, i.setStack e stack)

end Interpreter

end LexLisp
