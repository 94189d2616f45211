import LexLisp.Number.Numeral

/-!
# Integers of 64 bits

How integers are written on the command line: an optional sign and digits,
decimal, or after `0b`, `0o` or `0` and `0x` binary, octal and hexadecimal.
A single underscore may stand between two digits, and after a base.
-/

namespace LexLisp

namespace Integer

/-- What may be wrong with a written integer. -/
inductive Fault where
  | invalid
  | outOfRange
  deriving DecidableEq, Repr

/-- The base of a magnitude, and what follows the mark of the base. -/
def splitBase : List Char → Nat × List Char
  | '0' :: c :: d :: rest =>
    match c.toLower with
    | 'b' => (2, d :: rest)
    | 'o' => (8, d :: rest)
    | 'x' => (16, d :: rest)
    | _ => (8, c :: d :: rest)
  | '0' :: rest => (8, rest)
  | cs => (10, cs)

/-- Does a magnitude begin with the mark of a base? -/
def hasMark : List Char → Bool
  | '0' :: c :: _ => ['b', 'o', 'x'].contains c.toLower
  | _ => false

/-- Does every underscore of a magnitude stand between two digits, or after
the mark of a base? -/
def wellSeparated (cs : List Char) : Bool :=
  if hasMark cs then
    Numeral.wellSeparated (if (splitBase cs).1 = 16 then 16 else 10) true (cs.drop 2)
  else Numeral.wellSeparated 10 false cs

/-- Read digits onto a magnitude, passing over underscores.  The first fault
from the left counts: a character that is no digit of the base, or a magnitude
of more than 64 bits. -/
def digits (base : Nat) : Nat → List Char → Except Fault Nat
  | n, [] => .ok n
  | n, c :: rest =>
    if c = '_' then digits base n rest
    else if Numeral.isDigit base c then
      let n := n * base + Numeral.digitValue c
      if n < Nat.pow 2 64 then digits base n rest else .error .outOfRange
    else .error .invalid

/-- The magnitude that these characters write. -/
def magnitude (cs : List Char) : Except Fault Nat :=
  if cs.isEmpty then .error .invalid
  else
    let (base, ds) := splitBase cs
    match digits base 0 ds with
    | .ok n => if wellSeparated cs then .ok n else .error .invalid
    | .error fault => .error fault

/-- The integer of 64 bits that these characters write. -/
def ofChars (cs : List Char) : Except Fault Int :=
  let (negative, rest) := Numeral.takeSign cs
  match magnitude rest with
  | .error fault => .error fault
  | .ok n =>
    if negative then
      if n ≤ Nat.pow 2 63 then .ok (-(n : Int)) else .error .outOfRange
    else if n < Nat.pow 2 63 then .ok n
    else .error .outOfRange

end Integer

end LexLisp
