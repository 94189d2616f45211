import LexLisp.Text.Printable

/-!
# Quoted texts

A text in double quotes, in which everything that does not show as itself is
escaped: quotes and backslashes with a backslash, control characters by a
letter if they have one, other ASCII characters and stray bytes as `\\x` with
two hexadecimal digits, and other characters as `\\u` with four or `\\U` with
eight.
-/

namespace LexLisp

namespace Text

/-- A number in hexadecimal digits, with zeros on the left up to this width. -/
def hexPadded (width n : Nat) : Text :=
  let digits := Nat.toDigits 16 n
  ofChars (List.replicate (width - digits.length) '0' ++ digits)

/-- The letter that stands for a control character after a backslash. -/
def controlLetter? : Char → Option Char
  | '\x07' => some 'a'
  | '\x08' => some 'b'
  | '\x0c' => some 'f'
  | '\n' => some 'n'
  | '\r' => some 'r'
  | '\t' => some 't'
  | '\x0b' => some 'v'
  | _ => none

/-- A character as it stands between quotes. -/
def escapeChar (c : Char) : Text :=
  if c = '"' ∨ c = '\\' then [.char '\\', .char c]
  else if isPrintable c then [.char c]
  else
    match controlLetter? c with
    | some letter => [.char '\\', .char letter]
    | none =>
      let n := c.toNat
      if n < 0x80 then ("\\x" : Text) ++ hexPadded 2 n
      else if n < 0x10000 then ("\\u" : Text) ++ hexPadded 4 n
      else ("\\U" : Text) ++ hexPadded 8 n

/-- A rune as it stands between quotes. -/
def escapeRune : Rune → Text
  | .char c => escapeChar c
  | .stray b => ("\\x" : Text) ++ hexPadded 2 b.toNat

/-- A text in quotes. -/
def quoted (t : Text) : Text :=
  ("\"" : Text) ++ t.flatMap escapeRune ++ ("\"" : Text)

end Text

end LexLisp
