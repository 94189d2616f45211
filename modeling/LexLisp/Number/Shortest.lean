import LexLisp.Number.Basic

/-!
# Shortest decimals

A finite number is printed with the fewest decimal digits that read back as
the same number.  Among the decimals of that many digits it takes the one
nearest to the number, and of two equally near ones the even one.

For each count of digits, from one up, the two neighbours of the number on
that decimal grid are tried: if any point of the grid reads back, so does one
of these two.  Seventeen digits always suffice.
-/

namespace LexLisp

/-- The decimal `coefficient * 10 ^ exponent`. -/
structure Decimal where
  coefficient : Nat
  exponent : Int
  deriving DecidableEq, Repr

namespace Decimal

/-- The number nearest to a decimal. -/
def toNumber (d : Decimal) : Number :=
  Number.ofScaled false d.coefficient 10 d.exponent

/-- The magnitude of this rank as a fraction of `10 ^ exponent`. -/
def ratio (rank : Nat) : Int → Nat × Nat
  | .ofNat k => (Number.units rank, Number.one * Nat.pow 10 k)
  | .negSucc k => (Number.units rank * Nat.pow 10 (k + 1), Number.one)

/-- The multiples of `10 ^ exponent` just below and just above the magnitude
of this rank, the nearer one first. -/
def neighbours (rank : Nat) (exponent : Int) : List Decimal :=
  let (num, den) := ratio rank exponent
  let near := roundDiv num den
  [⟨near, exponent⟩, ⟨2 * (num / den) + 1 - near, exponent⟩]

/-- The least exponent whose power of ten is larger than the magnitude of this
rank.  No magnitude but zero is below `10 ^ -324`. -/
def leading (rank : Nat) : Int :=
  let scaled := Number.units rank * Nat.pow 10 324 / Number.one
  ((Nat.toDigits 10 scaled).length : Int) - 324

/-- The shortest decimal that reads back as the number of this rank; all its
digits, should seventeen of them not be enough. -/
def shortest (rank : Nat) : Decimal :=
  let top := leading rank
  let candidate := (List.range 17).findSome? fun n =>
    (neighbours rank (top - (n + 1 : Nat))).find? fun d =>
      d.toNumber = Number.ofRank false rank
  candidate.getD ⟨Number.units rank * Nat.pow 5 1074, -1074⟩

/-- Digits filled up with zeros on the left. -/
def padLeft (width : Nat) (digits : List Char) : List Char :=
  List.replicate (width - digits.length) '0' ++ digits

/-- Digits without the zeros on the right. -/
def dropZeros (digits : List Char) : List Char :=
  (digits.reverse.dropWhile (· = '0')).reverse

/-- A decimal in positional notation: digits, and a point only if a digit
other than zero comes after it. -/
def positional : Decimal → List Char
  | ⟨c, .ofNat k⟩ => Nat.toDigits 10 (c * Nat.pow 10 k)
  | ⟨c, .negSucc k⟩ =>
    let places := k + 1
    let whole := Nat.toDigits 10 (c / Nat.pow 10 places)
    let fraction := dropZeros (padLeft places (Nat.toDigits 10 (c % Nat.pow 10 places)))
    if fraction.isEmpty then whole else whole ++ '.' :: fraction

end Decimal

namespace Number

/-- A number as it is printed: never with an exponent. -/
def print : Number → List Char
  | .nan => ['N', 'a', 'N']
  | .infinity negative => (if negative then '-' else '+') :: ['I', 'n', 'f']
  | .finite negative rank =>
    let digits := (Decimal.shortest rank).positional
    if negative then '-' :: digits else digits

end Number

end LexLisp
