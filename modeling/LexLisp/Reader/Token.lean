import LexLisp.Text.Basic

/-!
# Tokens

A source text is read token by token: an opening parenthesis, a closing one,
or an atom.  Between tokens the reader passes over *layout*: spaces, tabs,
carriage returns and line feeds.

An atom is the longest run of pieces, where a piece is

* a plain character, which stands for itself;
* a backslash with the rune after it, which stands for that rune;
* a verbatim section in double quotes, in which every rune stands for itself
  but the quote, which ends it, and the backslash, which takes the next rune.

The end of the text ends a verbatim section, and a backslash there stands for
nothing.  A form feed is neither layout nor part of an atom: no token begins
with one.
-/

namespace LexLisp

namespace Rune

/-- Is this rune passed over between tokens? -/
def isLayout : Rune → Bool
  | char ' ' | char '\t' | char '\r' | char '\n' => true
  | _ => false

/-- Does this rune stand for itself in an atom? -/
def isPlain (r : Rune) : Bool :=
  !r.isLayout && r != .char '\x0c' && r != .char '(' && r != .char ')' &&
    r != .char '"' && r != .char '\\'

end Rune

/-- A token of a source text.  An atom is given by the characters its pieces
stand for. -/
inductive Token where
  | opening
  | closing
  | atom (content : List Char)
  deriving DecidableEq, Repr

namespace Token

/-- Where in an atom the reader stands: between pieces, in a verbatim section,
or right after a backslash in either place. -/
inductive Place where
  | between
  | verbatim
  | escape (inVerbatim : Bool)
  deriving DecidableEq, Repr

/-- Read on in an atom: the characters that the rest of it stands for, and the
text after it. -/
def scan : Place → Text → List Char × Text
  | _, [] => ([], [])
  | .between, r :: rest =>
    if r = .char '\\' then scan (.escape false) rest
    else if r = .char '"' then scan .verbatim rest
    else if r.isPlain then
      let (content, after) := scan .between rest
      (r.toChar :: content, after)
    else ([], r :: rest)
  | .verbatim, r :: rest =>
    if r = .char '\\' then scan (.escape true) rest
    else if r = .char '"' then scan .between rest
    else
      let (content, after) := scan .verbatim rest
      (r.toChar :: content, after)
  | .escape inVerbatim, r :: rest =>
    let (content, after) := scan (if inVerbatim then .verbatim else .between) rest
    (r.toChar :: content, after)

theorem length_scan_le (p : Place) (s : Text) : (scan p s).2.length ≤ s.length := by
  fun_induction scan p s <;> grind

/-- The first token of a text after any layout, and the text after it. -/
def next? (s : Text) : Option (Token × Text) :=
  match s.dropWhile Rune.isLayout with
  | [] => none
  | r :: rest =>
    if r = .char '(' then some (.opening, rest)
    else if r = .char ')' then some (.closing, rest)
    else if r = .char '\x0c' then none
    else
      let (content, after) := scan .between (r :: rest)
      some (.atom content, after)

theorem length_scan_lt (r : Rune) (rest : Text) (hopen : r ≠ .char '(')
    (hclose : r ≠ .char ')') (hfeed : r ≠ .char '\x0c') (hlayout : r.isLayout = false) :
    (scan .between (r :: rest)).2.length < (r :: rest).length := by
  have h₁ := length_scan_le (.escape false) rest
  have h₂ := length_scan_le .verbatim rest
  have h₃ := length_scan_le .between rest
  grind [scan, Rune.isPlain]

/-- Reading a token uses up at least one rune. -/
theorem length_lt_of_next? {s rest : Text} {t : Token} (h : next? s = some (t, rest)) :
    rest.length < s.length := by
  have hdrop : (s.dropWhile Rune.isLayout).length ≤ s.length :=
    (List.dropWhile_sublist _).length_le
  unfold next? at h
  split at h
  · exact absurd h (by simp)
  · rename_i r tail hs
    have hlayout : r.isLayout = false := by
      have := List.head?_dropWhile_not Rune.isLayout s
      simp_all
    have hlt := length_scan_lt r tail
    rw [hs] at hdrop
    grind

end Token

end LexLisp
