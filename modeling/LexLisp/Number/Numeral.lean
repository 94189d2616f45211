import LexLisp.Number.Basic

/-!
# Numerals

How numbers are written in a source text.  A numeral is

* `nan`, or `inf` or `infinity` after an optional sign, in any letter case;
* an optional sign, decimal digits with at most one point among them and at
  least one digit, and optionally `e`, an optional sign and digits;
* an optional sign, `0x`, hexadecimal digits with at most one point among them
  and at least one digit, and then `p`, an optional sign and decimal digits:
  the exponent counts powers of two and may not be missing.

A single underscore may stand between two digits, and after `0x`.

The value is the number nearest to the exact one, however many digits are
written, with one exception.  A decimal numeral with more than 800 digits before
the point, leading zeros not counted, is judged by its first nineteen digits.
If these leave the number open, it is read as if the point stood after the
800th digit.
-/

namespace LexLisp

namespace Numeral

/-- The value of a digit of a base up to 16, or 16 for any other character. -/
def digitValue (c : Char) : Nat :=
  if '0' ≤ c ∧ c ≤ '9' then c.toNat - '0'.toNat
  else if 'a' ≤ c ∧ c ≤ 'f' then c.toNat - 'a'.toNat + 10
  else if 'A' ≤ c ∧ c ≤ 'F' then c.toNat - 'A'.toNat + 10
  else 16

/-- Is this character a digit of the base? -/
def isDigit (base : Nat) (c : Char) : Bool :=
  digitValue c < base

/-- Digits read as a natural number. -/
def ofDigits (base : Nat) (digits : List Char) : Nat :=
  digits.foldl (fun n c => n * base + digitValue c) 0

/-- Take a sign off the front: is it a minus, and what follows? -/
def takeSign : List Char → Bool × List Char
  | '+' :: rest => (false, rest)
  | '-' :: rest => (true, rest)
  | rest => (false, rest)

/-- The size of an exponent.  Once it has reached ten thousand, further digits
are passed over: no number is that large or that small. -/
def exponentSize (digits : List Char) : Nat :=
  digits.foldl (fun n c => if n < 10000 then n * 10 + digitValue c else n) 0

/-- A written exponent: an optional sign and at least one digit. -/
def exponent? (cs : List Char) : Option Int :=
  let (negative, digits) := takeSign cs
  if digits.isEmpty || !digits.all (isDigit 10) then none
  else if negative then some (-(exponentSize digits : Int))
  else some (exponentSize digits)

/-- Does every underscore stand between two digits?  The flag tells whether
the character before the list counts as a digit. -/
def wellSeparated (base : Nat) : Bool → List Char → Bool
  | _, [] => true
  | afterDigit, c :: rest =>
    if c = '_' then
      afterDigit && (rest.head?.any (isDigit base)) && wellSeparated base false rest
    else
      wellSeparated base (isDigit base c) rest

/-- How the digits of one base are scaled: by what mark an exponent is
announced, what it is a power of, by how many of these powers a digit after
the point counts less, whether it may be missing, and how many digits before
the point keep their places, if that is limited. -/
structure Scale where
  base : Nat
  mark : Char
  radix : Nat
  perDigit : Nat
  optional : Bool
  places : Option Nat

/-- Decimal numerals: the exponent counts powers of ten, and 800 digits keep
their places. -/
def decimal : Scale := ⟨10, 'e', 10, 1, true, some 800⟩

/-- Hexadecimal numerals: the exponent counts powers of two, and all digits
keep their places. -/
def hexadecimal : Scale := ⟨16, 'p', 2, 4, false, none⟩

/-- The exponent at the end of a numeral. -/
def ending? (scale : Scale) : List Char → Option Int
  | [] => if scale.optional then some 0 else none
  | c :: rest => if c.toLower = scale.mark then exponent? rest else none

/-- Digits before and after a point, and an exponent. -/
structure Digits where
  whole : List Char
  fraction : List Char
  exponent : Int

namespace Digits

/-- The number nearest to what the digits write. -/
def nearest (scale : Scale) (negative : Bool) (d : Digits) : Number :=
  .ofScaled negative (ofDigits scale.base (d.whole ++ d.fraction)) scale.radix
    (d.exponent - (scale.perDigit * d.fraction.length : Nat))

/-- The digits before the point without leading zeros. -/
def significant (d : Digits) : List Char :=
  d.whole.dropWhile (· = '0')

/-- How many digits before the point do not keep their places. -/
def displaced (scale : Scale) (d : Digits) : Nat :=
  match scale.places with
  | some places => d.significant.length - places
  | none => 0

/-- How many digits of a long numeral it is judged by. -/
def leadingCount : Nat := 19

/-- Do the first digits decide the number?  They do if nothing but zeros
follows, or if one more in the last of them leads to the same number. -/
def areDecisive (scale : Scale) (negative : Bool) (d : Digits) : Bool :=
  let leading := ofDigits scale.base (d.significant.take leadingCount)
  let rest := d.significant.drop leadingCount
  let read (n : Nat) : Number :=
    .ofScaled negative n scale.radix (d.exponent + (scale.perDigit * rest.length : Nat))
  (rest ++ d.fraction).all (· = '0') || read leading = read (leading + 1)

/-- The number that the digits write. -/
def value (scale : Scale) (negative : Bool) (d : Digits) : Number :=
  let displaced := d.displaced scale
  if displaced = 0 || d.areDecisive scale negative then d.nearest scale negative
  else nearest scale negative
    { d with exponent := d.exponent - (scale.perDigit * displaced : Nat) }

end Digits

/-- The number written by digits, a point among them and an exponent, with
neither sign nor underscores. -/
def magnitude? (scale : Scale) (negative : Bool) (cs : List Char) : Option Number :=
  let whole := cs.takeWhile (isDigit scale.base)
  let (fraction, tail) := match cs.dropWhile (isDigit scale.base) with
    | '.' :: rest => (rest.takeWhile (isDigit scale.base), rest.dropWhile (isDigit scale.base))
    | rest => ([], rest)
  if whole.isEmpty && fraction.isEmpty then none
  else (ending? scale tail).map fun exponent =>
    Digits.value scale negative ⟨whole, fraction, exponent⟩

/-- The same with underscores allowed between digits. -/
def separated? (scale : Scale) (negative afterDigit : Bool) (cs : List Char) : Option Number :=
  if wellSeparated scale.base afterDigit cs then
    magnitude? scale negative (cs.filter (· ≠ '_'))
  else none

/-- The number written without its sign. -/
def unsigned? (negative : Bool) : List Char → Option Number
  | '0' :: 'x' :: rest => separated? hexadecimal negative true rest
  | '0' :: 'X' :: rest => separated? hexadecimal negative true rest
  | cs =>
    let word := cs.map Char.toLower
    if word = ['i', 'n', 'f'] ∨ word = ['i', 'n', 'f', 'i', 'n', 'i', 't', 'y'] then
      some (.infinity negative)
    else separated? decimal negative false cs

end Numeral

namespace Number

/-- The number that these characters write, if they are a numeral. -/
def ofChars? (cs : List Char) : Option Number :=
  if cs.map Char.toLower = ['n', 'a', 'n'] then some .nan
  else
    let (negative, rest) := Numeral.takeSign cs
    Numeral.unsigned? negative rest

end Number

end LexLisp
