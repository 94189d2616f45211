import LexLisp.Number.Shortest
import LexLisp.Value.Basic

/-!
# Printed values

The text of a value.  Numbers, symbols and lists print as they are written in
a source text, and so does a lambda; closures and native functions print as a
tag in angle brackets.

An absent body prints as a tag, too, but a list has no text if one of its
elements is absent, or is a list that has no text.  A notice is printed in its
place.
-/

namespace LexLisp

/-- The digits of a natural number in base sixteen. -/
def hexDigits (n : Nat) : Text :=
  .ofChars (Nat.toDigits 16 n)

namespace Native

/-- A native function as it is printed. -/
def print (f : Native) : Text :=
  match f.mode with
  | .eager => ("<builtin-function ``" : Text) ++ f.name ++ ("''>" : Text)
  | .special => ("<special-op ``" : Text) ++ f.name ++ ("''>" : Text)

end Native

namespace Value

/-- A value of an unknown type shows its code and its empty members. -/
def printInvalid (code : Nat) : Text :=
  ("&lisp.LVal\x7bType:0x" : Text) ++ hexDigits code ++
    (", Num:0, Str:\"\", Cells:[]*lisp.LVal(nil), FunType:0x0, " : Text) ++
    ("Builtin:(lisp.LBuiltin)(nil), Env:(*lisp.LEnv)(nil), " : Text) ++
    ("Formals:[]string(nil), Body:(*lisp.LVal)(nil)\x7d" : Text)

mutual

/-- Does the value have a text of its own? -/
def isWhole : Value → Bool
  | list cells => areWhole cells
  | absent => false
  | _ => true

/-- Do all values of a list have a text? -/
def areWhole : List Value → Bool
  | [] => true
  | v :: rest => isWhole v && areWhole rest

end

/-- The complaint about an absent value that was looked at. -/
def absentAccess : Text :=
  "runtime error: invalid memory address or nil pointer dereference"

/-- The notice in place of a list that has no text. -/
def noText : Text :=
  ("%!v(PANIC=String method: " : Text) ++ absentAccess ++ (")" : Text)

/-- What is printed in place of a value that has no text. -/
def notice : Value → Text
  | absent => "<nil>"
  | _ => noText

mutual

/-- Write a value that has a text in front of what follows it. -/
def printOnto : Value → Text → Text
  | symbol name, after => name ++ after
  | number x, after => Text.ofChars x.print ++ after
  | list cells, after => .char '(' :: printAllOnto cells (.char ')' :: after)
  | lambda formals body, after =>
    ("(fn (" : Text) ++ Text.join " " formals ++ (") " : Text) ++
      (if body.isWhole then printOnto body (.char ')' :: after)
      else body.notice ++ .char ')' :: after)
  | closure _ _ _, after => ("<closure>" : Text) ++ after
  | native f, after => f.print ++ after
  | invalid c, after => printInvalid c.code ++ after
  | absent, after => notice absent ++ after

/-- Write values with a space between each two in front of what follows
them. -/
def printAllOnto : List Value → Text → Text
  | [], after => after
  | [v], after => printOnto v after
  | v :: w :: rest, after => printOnto v (.char ' ' :: printAllOnto (w :: rest) after)

end

/-- A value as it is printed. -/
def print (v : Value) : Text :=
  if v.isWhole then v.printOnto [] else v.notice

mutual

/-- What follows a value is not touched by writing it. -/
theorem printOnto_append (v : Value) (t after : Text) :
    v.printOnto (t ++ after) = v.printOnto t ++ after := by
  cases v with
  | list cells =>
      simp [printOnto, ← printAllOnto_append cells]
  | lambda formals body =>
      by_cases h : body.isWhole
      · simp [printOnto, h, ← printOnto_append body]
      · simp [printOnto, h]
  | _ => simp [printOnto]

/-- What follows values is not touched by writing them. -/
theorem printAllOnto_append (vs : List Value) (t after : Text) :
    printAllOnto vs (t ++ after) = printAllOnto vs t ++ after := by
  match vs with
  | [] => simp [printAllOnto]
  | [v] => simpa [printAllOnto] using printOnto_append v t after
  | v :: w :: rest =>
      rw [printAllOnto, printAllOnto_append (w :: rest), printAllOnto, ← List.cons_append,
        printOnto_append v]

end

end Value

end LexLisp
