/-!
# Texts

Source files, symbol names and messages may hold any bytes at all, so a text
is a list of *runes*: characters, and bytes that belong to no character.

`Text.ofBytes` splits bytes into runes by the rules of UTF-8 and drops none of
them; `Text.toBytes` writes a text out again.
-/

namespace LexLisp

/-- One unit of a text: a character, or a byte that is part of no character. -/
inductive Rune where
  | char (c : Char)
  | stray (b : UInt8)
  deriving DecidableEq, Inhabited, Repr

/-- A text, rune by rune. -/
abbrev Text := List Rune

namespace Rune

/-- The character a reader sees.  A stray byte shows as the replacement
character. -/
def toChar : Rune → Char
  | char c => c
  | stray _ => Char.ofNat 0xFFFD

/-- The bytes that spell a rune. -/
def bytes : Rune → List UInt8
  | char c => String.utf8EncodeChar c
  | stray b => [b]

end Rune

namespace Utf8

/-- The six bits carried by a continuation byte. -/
def tail? (b : UInt8) : Option Nat :=
  if 0x80 ≤ b ∧ b < 0xC0 then some (b.toNat - 0x80) else none

/-- The character of code `n`, if there is one and no shorter encoding serves
it: `least` is the first code that needs as many bytes as were read. -/
def scalar? (least n : Nat) : Option Char :=
  if least ≤ n ∧ n.isValidChar then some (Char.ofNat n) else none

/-- The character that begins a list of bytes, with the number of its
continuation bytes. -/
def first? : List UInt8 → Option (Char × Nat)
  | [] => none
  | a :: rest =>
    let lead := a.toNat
    if lead < 0x80 then
      (scalar? 0 lead).map fun c => (c, 0)
    else if lead < 0xC0 then
      none
    else if lead < 0xE0 then do
      let b ← rest[0]?.bind tail?
      let c ← scalar? 0x80 ((lead - 0xC0) * 64 + b)
      return (c, 1)
    else if lead < 0xF0 then do
      let b₁ ← rest[0]?.bind tail?
      let b₂ ← rest[1]?.bind tail?
      let c ← scalar? 0x800 (((lead - 0xE0) * 64 + b₁) * 64 + b₂)
      return (c, 2)
    else if lead < 0xF8 then do
      let b₁ ← rest[0]?.bind tail?
      let b₂ ← rest[1]?.bind tail?
      let b₃ ← rest[2]?.bind tail?
      let c ← scalar? 0x10000 ((((lead - 0xF0) * 64 + b₁) * 64 + b₂) * 64 + b₃)
      return (c, 3)
    else
      none

/-- Decode bytes onto the runes read so far, which stand in reverse.  The
first argument counts the continuation bytes still to be passed over. -/
def decodeOnto : Nat → Text → List UInt8 → Text
  | _, done, [] => done.reverse
  | skip + 1, done, _ :: rest => decodeOnto skip done rest
  | 0, done, b :: rest =>
    match first? (b :: rest) with
    | some (c, more) => decodeOnto more (.char c :: done) rest
    | none => decodeOnto 0 (.stray b :: done) rest

end Utf8

namespace Text

/-- The runes spelled by some bytes.  Every byte that belongs to no character
becomes a rune of its own. -/
def ofBytes (bytes : List UInt8) : Text :=
  Utf8.decodeOnto 0 [] bytes

/-- The bytes of a text. -/
def toBytes (t : Text) : List UInt8 :=
  t.flatMap Rune.bytes

/-- The text made of these characters. -/
def ofChars (cs : List Char) : Text :=
  cs.map .char

/-- The text of a string. -/
def ofString (s : String) : Text :=
  ofChars s.toList

/-- The string with the bytes of the text, if they are valid UTF-8. -/
def toString? (t : Text) : Option String :=
  String.fromUTF8? ⟨t.toBytes.toArray⟩

/-- The decimal digits of a natural number. -/
def ofNat (n : Nat) : Text :=
  ofChars (Nat.toDigits 10 n)

/-- An integer in decimal digits, with a minus sign when it is negative. -/
def ofInt : Int → Text
  | .ofNat n => ofNat n
  | .negSucc n => .char '-' :: ofNat (n + 1)

instance : Coe String Text := ⟨ofString⟩

/-- Texts joined with a separator between each two. -/
def join (separator : Text) : List Text → Text
  | [] => []
  | [t] => t
  | t :: rest => t ++ separator ++ join separator rest

end Text

/-- A line feed. -/
def newline : Text := [.char '\n']

end LexLisp
