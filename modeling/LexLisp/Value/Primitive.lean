import LexLisp.Text.Basic

/-!
# Primitives

The operations that the language provides itself.  A *special operator*
receives its operands as they are written, every other primitive receives
their values.

A native function value pairs a primitive with the name it goes by and the
mode in which it takes its operands; the defaults use the primitive's own name
and mode.
-/

namespace LexLisp

/-- An operation provided by the language. -/
inductive Primitive where
  | quote
  | define
  | function
  | choose
  | apply
  | isNumber
  | isSymbol
  | add
  | list
  | first
  | rest
  deriving DecidableEq, Repr

namespace Primitive

/-- The name a primitive goes by, in programs and in its own complaints. -/
def name : Primitive → Text
  | quote => "quote"
  | define => "def"
  | function => "fn"
  | choose => "if"
  | apply => "apply"
  | isNumber => "number?"
  | isSymbol => "symbol?"
  | add => "+"
  | list => "list"
  | first => "first"
  | rest => "rest"

/-- The formal that announces any number of operands. -/
def variadicMark : Text := "&"

/-- The names of a primitive's operands. -/
def formals : Primitive → List Text
  | quote | isNumber | isSymbol => ["expr"]
  | define => ["sym", "expr"]
  | function => ["formals", "body"]
  | choose => ["condition", "then", "else"]
  | apply => ["fun", "lis"]
  | add => [variadicMark, "x"]
  | list => [variadicMark, "args"]
  | first | rest => ["lis"]

/-- Does the primitive take any number of operands? -/
def isVariadic (p : Primitive) : Bool :=
  p.formals.contains variadicMark

/-- Does the primitive take this many operands? -/
def accepts (p : Primitive) (count : Nat) : Bool :=
  p.isVariadic || count == p.formals.length

/-- The special operators. -/
def specialOperators : List Primitive :=
  [quote, define, function, choose, apply, isNumber, isSymbol]

/-- The primitives that take the values of their operands. -/
def functions : List Primitive :=
  [add, list, first, rest]

/-- The primitive of this name. -/
def ofName? (name : Text) : Option Primitive :=
  (specialOperators ++ functions).find? fun p => p.name = name

end Primitive

/-- How a native function receives its operands: as values, or as they are
written. -/
inductive Mode where
  | eager
  | special
  deriving DecidableEq, Repr

/-- A native function: the name it goes by, how it receives its operands, and
what it does with them. -/
structure Native where
  name : Text
  mode : Mode
  primitive : Primitive
  deriving DecidableEq, Repr

end LexLisp
