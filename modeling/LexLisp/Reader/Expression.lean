import LexLisp.Number.Numeral
import LexLisp.Reader.Token
import LexLisp.Text.Blank
import LexLisp.Value.Basic

/-!
# Reading expressions

An expression is an atom, or a list of expressions in parentheses.  An atom
whose content is a numeral is a number, any other is a symbol.

`readExpr` reads one expression off the front of a text.  `read` wants a text
that holds exactly one, `readAll` takes any number of them; both let any white
space follow the last one.
-/

namespace LexLisp

/-- Why a text cannot be read. -/
inductive SyntaxError where
  /-- A closing parenthesis stands where an expression should begin. -/
  | unexpectedClose
  /-- The expression is not complete. -/
  | unexpectedEnd
  /-- Something is left after the expression, here without the white space
  around it. -/
  | trailing (rest : Text)
  deriving DecidableEq, Repr

namespace SyntaxError

/-- How many bytes of the text that is left over are shown. -/
def shownBytes : Nat := 20

/-- A text as it is shown: its first bytes, and dots if that is not all. -/
def excerpt (t : Text) : Text :=
  let bytes := t.toBytes
  if bytes.length ≤ shownBytes then t
  else Text.ofBytes (bytes.take shownBytes) ++ ("..." : Text)

/-- A syntax error in words. -/
def message : SyntaxError → Text
  | unexpectedClose => "unexpected ')'"
  | unexpectedEnd => "unexpected end of input"
  | trailing rest => ("unexpected tokens at end of input: " : Text) ++ excerpt rest

/-- What is wrong with a text from which no expression can be read: only the
first rune that is not blank counts. -/
def diagnose (s : Text) : SyntaxError :=
  match s.trimLeft with
  | .char ')' :: _ => unexpectedClose
  | _ => unexpectedEnd

end SyntaxError

namespace Value

/-- The value of an atom. -/
def ofContent (content : List Char) : Value :=
  match Number.ofChars? content with
  | some x => number x
  | none => symbol (.ofChars content)

end Value

namespace Reader

/-- The lists that have been opened and not closed, innermost first, each with
its elements so far in reverse. -/
abbrev Opened := List (List Value)

/-- Place a complete value: in the innermost open list, or as the result if
there is none. -/
def place (v : Value) : Opened → Value ⊕ Opened
  | [] => .inl v
  | cells :: outer => .inr ((v :: cells) :: outer)

/-- Take in one token: an error, the finished value, or the lists open now. -/
def accept (opened : Opened) : Token → Option (Value ⊕ Opened)
  | .opening => some (.inr ([] :: opened))
  | .closing =>
    match opened with
    | [] => none
    | cells :: outer => some (place (.list cells.reverse) outer)
  | .atom content => some (place (.ofContent content) opened)

/-- Read on until the outermost open list is closed. -/
def readFrom (opened : Opened) (s : Text) : Option (Value × Text) :=
  match _h : Token.next? s with
  | none => none
  | some (token, rest) =>
    match accept opened token with
    | none => none
    | some (.inl v) => some (v, rest)
    | some (.inr opened) => readFrom opened rest
termination_by s.length
decreasing_by exact Token.length_lt_of_next? _h

/-- Reading an expression uses up at least one rune. -/
theorem length_lt_of_readFrom {opened : Opened} {s rest : Text} {v : Value}
    (h : readFrom opened s = some (v, rest)) : rest.length < s.length := by
  fun_induction readFrom opened s with
  | case1 => simp at h
  | case2 => simp at h
  | case3 opened s token after hnext _ hv =>
    have := Token.length_lt_of_next? hnext
    grind
  | case4 opened s token after hnext _ hv ih =>
    have := Token.length_lt_of_next? hnext
    have := ih h
    omega

end Reader

/-- Read one expression off the front of a text: its value, and the text after
it. -/
def readExpr (s : Text) : Option (Value × Text) :=
  Reader.readFrom [] s

/-- Read the only expression of a text. -/
def read (s : Text) : Except SyntaxError Value :=
  match readExpr s with
  | none => .error (.diagnose s)
  | some (v, rest) => if rest.isBlank then .ok v else .error (.trailing rest.trim)

/-- Read all expressions of a text. -/
def readAll (s : Text) : Except SyntaxError (List Value) :=
  if s.isBlank then .ok []
  else
    match _h : readExpr s with
    | none => .error (.diagnose s)
    | some (v, rest) => (readAll rest).map (v :: ·)
termination_by s.length
decreasing_by exact Reader.length_lt_of_readFrom _h

end LexLisp
