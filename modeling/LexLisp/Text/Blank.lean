import LexLisp.Text.Basic

/-!
# Blank runes

White space in the sense of the Unicode property `White_Space`, and the
trimming of a text on both sides.  A stray byte is never blank.

This is not the layout that the reader passes over between tokens, which is
smaller (`Rune.isLayout`).
-/

namespace LexLisp

/-- Does this character have the property `White_Space`? -/
def isWhiteSpace (c : Char) : Bool :=
  let n := c.toNat
  (0x09 ≤ n && n ≤ 0x0D) || n == 0x20 || n == 0x85 || n == 0xA0 || n == 0x1680 ||
    (0x2000 ≤ n && n ≤ 0x200A) || n == 0x2028 || n == 0x2029 || n == 0x202F ||
    n == 0x205F || n == 0x3000

namespace Rune

/-- White space, and no stray byte. -/
def isBlank : Rune → Bool
  | char c => isWhiteSpace c
  | stray _ => false

end Rune

namespace Text

/-- Is there nothing in the text but white space? -/
def isBlank (t : Text) : Bool :=
  t.all Rune.isBlank

/-- The text without the white space at its start. -/
def trimLeft (t : Text) : Text :=
  t.dropWhile Rune.isBlank

/-- The text without the white space at either end. -/
def trim (t : Text) : Text :=
  (trimLeft (trimLeft t).reverse).reverse

end Text

end LexLisp
