import LexLisp.Value.Basic

/-!
# Equality of values

Two values are equal when they have the same shape: lists element by element,
functions by formals and body, closures only in the same environment, native
functions by name and mode.  Numbers compare as numbers, an invalid value
equals nothing, and what is absent equals only what is absent.
-/

namespace LexLisp

namespace Value

mutual

/-- Are two values structurally equal? -/
def equal : Value → Value → Bool
  | symbol a, symbol b => a == b
  | number x, number y => x.equal y
  | list as, list bs => equalAll as bs
  | lambda fs a, lambda gs b => fs == gs && equal a b
  | closure fs a d, closure gs b e => d == e && fs == gs && equal a b
  | native f, native g => f.name == g.name && f.mode == g.mode
  | absent, absent => true
  | _, _ => false

/-- Are two lists equal, element by element? -/
def equalAll : List Value → List Value → Bool
  | [], [] => true
  | a :: as, b :: bs => equal a b && equalAll as bs
  | _, _ => false

end

end Value

end LexLisp
