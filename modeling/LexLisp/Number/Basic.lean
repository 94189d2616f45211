/-!
# Numbers

The numbers of the language are those of the binary format with 53 bits of
precision and exponents from -1074 to 971.  Every finite number is a whole
multiple of `2 ^ -1074`, the *unit*, so all arithmetic here is on naturals.

A finite number is a sign and a *rank*: its place among the magnitudes in
order, from zero at rank 0.  Up to `2 ^ 53` ranks and units agree; after that
each run of `2 ^ 52` ranks doubles the distance between neighbours.  `units`
goes from ranks to units, `nearestRank` goes back and rounds, and everything
else is written with these two.
-/

namespace LexLisp

/-- Divide and round to the nearest whole number, a half to the even one. -/
def roundDiv (num den : Nat) : Nat :=
  let quotient := num / den
  let twice := 2 * (num % den)
  if twice < den then quotient
  else if den < twice then quotient + 1
  else quotient + quotient % 2

namespace Number

/-- How many ranks there are in a run. -/
def runLength : Nat := Nat.pow 2 52

/-- How many finite magnitudes there are: 2047 runs of them. -/
def finiteCount : Nat := 2047 * runLength

/-- The number one, in units. -/
def one : Nat := Nat.pow 2 1074

/-- The magnitude of this rank, in units. -/
def units (rank : Nat) : Nat :=
  let run := rank / runLength - 1
  (rank - run * runLength) * Nat.pow 2 run

/-- The rank nearest to `num / den` units, a tie going to the even rank.
Ranks past the finite ones stand for magnitudes that are too large. -/
def nearestRank (num den : Nat) : Nat :=
  let run := (num / den).log2 - 52
  run * runLength + roundDiv num (den * Nat.pow 2 run)

end Number

/-- A number of the language: not a number, an infinity, or a finite number
given by its sign and the rank of its magnitude. -/
inductive Number where
  | nan
  | infinity (negative : Bool)
  | finite (negative : Bool) (rank : Fin Number.finiteCount)
  deriving DecidableEq, Repr

namespace Number

/-- The number of this rank, an infinity from the first rank that is too
large. -/
def ofRank (negative : Bool) (rank : Nat) : Number :=
  if h : rank < finiteCount then .finite negative ⟨rank, h⟩ else .infinity negative

/-- The number nearest to `num / den` units. -/
def ofUnits (negative : Bool) (num den : Nat) : Number :=
  ofRank negative (nearestRank num den)

/-- The number nearest to `digits * base ^ exponent`. -/
def ofScaled (negative : Bool) (digits base : Nat) : Int → Number
  | .ofNat k => ofUnits negative (digits * Nat.pow base k * one) 1
  | .negSucc k => ofUnits negative (digits * one) (Nat.pow base (k + 1))

/-- Zero, and not its negative. -/
def zero : Number := ofRank false 0

/-- The number that stands for truth or falsehood: 1 or 0. -/
def ofBool (b : Bool) : Number :=
  if b then ofUnits false one 1 else zero

/-- Is this number equal to zero, whatever its sign? -/
def isZero : Number → Bool
  | .finite _ rank => rank.val == 0
  | _ => false

/-- Numeric equality: both zeros are equal, and what is not a number equals
nothing, itself included. -/
def equal : Number → Number → Bool
  | .infinity a, .infinity b => a == b
  | .finite a r, .finite b s => r == s && (a == b || r.val == 0)
  | _, _ => false

/-- A finite number in units, with its sign. -/
def signedUnits (negative : Bool) (rank : Nat) : Int :=
  if negative then -(units rank : Int) else units rank

/-- The sum, exact and then rounded once.  A sum that is exactly zero is
negative only if both numbers are. -/
def add : Number → Number → Number
  | .nan, _ | _, .nan => .nan
  | .infinity a, .infinity b => if a == b then .infinity a else .nan
  | .infinity a, .finite _ _ => .infinity a
  | .finite _ _, .infinity b => .infinity b
  | .finite a r, .finite b s =>
    let sum := signedUnits a r + signedUnits b s
    if sum = 0 then ofRank (a && b) 0 else ofUnits (sum < 0) sum.natAbs 1

end Number

end LexLisp
