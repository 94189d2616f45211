import LexLisp.Number.Basic
import LexLisp.Value.Primitive

/-!
# Values

Every value is also an expression that can be evaluated.  Functions are
lexically scoped: a lambda is a function literal, and a closure is a lambda
together with the environment in which it was evaluated.
-/

namespace LexLisp

/-- An environment, named by its place in the order of creation. -/
abbrev EnvId := Nat

/-- The type names, in the order of their codes. -/
def typeNames : List Text :=
  ["INVALID", "symbol", "number", "list", "lambda", "closure", "builtin"]

/-- The name of the type with this code; unused codes are invalid. -/
def typeName (code : Nat) : Text :=
  typeNames.getD code "INVALID"

/-- A type code that no other kind of value has: the code of the invalid type, or
one that is not in use. -/
structure InvalidCode where
  code : Nat
  unused : code = 0 ∨ typeNames.length ≤ code
  deriving DecidableEq, Repr

/-- An invalid code names the invalid type. -/
theorem InvalidCode.typeName_eq (c : InvalidCode) : typeName c.code = "INVALID" := by
  rcases c.unused with h | h
  · rw [h]
    rfl
  · rw [typeName, List.getD_eq_getElem?_getD, List.getElem?_eq_none h]
    rfl

/-- A value of the language.  A place may be without a value: the program
around the interpreter can leave out an element of a list or the body of a
function, and such a place is `absent`.  It can also make a closure that belongs
to no environment.  An invalid value has a type code and nothing else. -/
inductive Value where
  | symbol (name : Text)
  | number (x : Number)
  | list (cells : List Value)
  | lambda (formals : List Text) (body : Value)
  | closure (formals : List Text) (body : Value) (env : Option EnvId)
  | native (f : Native)
  | invalid (code : InvalidCode)
  | absent
  deriving Repr

instance : Inhabited Value := ⟨.list []⟩

namespace Value

/-- The code of a value's type.  What is absent has no type, and is given the
code of the invalid one. -/
def typeCode : Value → Nat
  | symbol _ => 1
  | number _ => 2
  | list _ => 3
  | lambda _ _ => 4
  | closure _ _ _ => 5
  | native _ => 6
  | invalid c => c.code
  | absent => 0

/-- The name of a value's type. -/
def type (v : Value) : Text :=
  typeName v.typeCode

/-- Is there no value? -/
def isAbsent : Value → Bool
  | absent => true
  | _ => false

/-- The number 1 for truth and 0 for falsehood: the language has no other
booleans. -/
def ofBool (b : Bool) : Value :=
  number (.ofBool b)

/-- The elements of a list.  Other values have none. -/
def cells : Value → List Value
  | list cells => cells
  | _ => []

/-- May this value stand at the head of a call? -/
def isCallable : Value → Bool
  | closure _ _ _ | native _ => true
  | _ => false

/-- Is this value a special operator? -/
def isSpecialOperator : Value → Bool
  | native f => f.mode == .special
  | _ => false

end Value

end LexLisp
