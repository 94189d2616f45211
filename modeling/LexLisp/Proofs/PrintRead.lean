import LexLisp.Proofs.PrintedNumbers
import LexLisp.Proofs.Utf8
import LexLisp.Proofs.ValueInvariant
import LexLisp.Value.Equality

/-!
# Printed data read back

The printer writes a space between the elements of a list and nothing else between
tokens.  Still the reader finds the tokens that were written: an atom of plain
characters goes on up to the next parenthesis or space (`Token.next?_atom`), and
after a value the reader is where it would be had the value been placed in the
innermost open list at once (`Reader.readFrom_printOnto`).
-/

namespace LexLisp

namespace Text

/-- The runes that end an atom after a printed value: the space and the closing
parenthesis. -/
def EndsAtom (after : Text) : Prop :=
  ∀ r ∈ after.head?, r = .char ' ' ∨ r = .char ')'

/-- The characters that have a meaning of their own to the reader. -/
def marks : List Char := ['\t', '\n', '\x0c', '\r', ' ', '(', ')', '"', '\\']

/-- The name reads as a symbol just as it is: it is not empty, has only characters and
no mark among them, and is no numeral. -/
def IsName (name : Text) : Prop :=
  ∃ cs, name = ofChars cs ∧ cs ≠ [] ∧ (∀ c ∈ cs, c ∉ marks) ∧ Number.ofChars? cs = none

end Text

namespace Rune

/-- A character that is no mark is plain. -/
theorem isPlain_of_not_mark {c : Char} (h : c ∉ Text.marks) : (char c).isPlain = true := by
  simp only [Text.marks, List.mem_cons, List.not_mem_nil, or_false, not_or] at h
  obtain ⟨htab, hline, hfeed, hreturn, hspace, hopen, hclose, hquote, hback⟩ := h
  have hlayout : (char c).isLayout = false := by
    unfold isLayout
    split <;> simp_all
  simp [isPlain, hlayout, hfeed, hopen, hclose, hquote, hback]

end Rune

namespace Token

/-- Plain characters make up an atom, up to what ends it. -/
theorem scan_between {cs : List Char} {after : Text}
    (hplain : ∀ c ∈ cs, (Rune.char c).isPlain = true) (hafter : after.EndsAtom) :
    scan .between (Text.ofChars cs ++ after) = (cs, after) := by
  induction cs with
  | nil =>
      cases after with
      | nil => rfl
      | cons r rest =>
          rcases hafter r rfl with rfl | rfl
          · rfl
          · rfl
  | cons c rest ih =>
      obtain ⟨hc, hrest⟩ := List.forall_mem_cons.mp hplain
      have hback : Rune.char c ≠ .char '\\' := by
        rintro heq
        rw [heq] at hc
        exact absurd hc (by decide)
      have hquote : Rune.char c ≠ .char '"' := by
        rintro heq
        rw [heq] at hc
        exact absurd hc (by decide)
      show scan .between (.char c :: (Text.ofChars rest ++ after)) = _
      rw [scan, if_neg hback, if_neg hquote, if_pos hc, ih hrest]
      rfl

/-- Layout in front of a token makes no difference. -/
theorem next?_layout {r : Rune} (h : r.isLayout = true) (s : Text) : next? (r :: s) = next? s := by
  rw [next?, next?, List.dropWhile_cons_of_pos h]

theorem next?_opening (s : Text) : next? (.char '(' :: s) = some (.opening, s) := rfl

theorem next?_closing (s : Text) : next? (.char ')' :: s) = some (.closing, s) := rfl

/-- Plain characters up to the end of an atom are one atom. -/
theorem next?_atom {cs : List Char} {after : Text} (hne : cs ≠ [])
    (hplain : ∀ c ∈ cs, (Rune.char c).isPlain = true) (hafter : after.EndsAtom) :
    next? (Text.ofChars cs ++ after) = some (.atom cs, after) := by
  have hscan := scan_between hplain hafter
  cases cs with
  | nil => exact absurd rfl hne
  | cons c rest =>
      have hc := hplain c List.mem_cons_self
      simp only [Rune.isPlain, Bool.and_eq_true, Bool.not_eq_true', bne_iff_ne] at hc
      obtain ⟨⟨⟨⟨⟨hlayout, hfeed⟩, hopen⟩, hclose⟩, -⟩, -⟩ := hc
      have hdrop : (Text.ofChars (c :: rest) ++ after).dropWhile Rune.isLayout =
          .char c :: (Text.ofChars rest ++ after) := by
        show List.dropWhile Rune.isLayout (.char c :: (Text.ofChars rest ++ after)) = _
        rw [List.dropWhile_cons_of_neg]
        rw [hlayout]
        exact Bool.false_ne_true
      rw [next?, hdrop]
      dsimp only
      rw [if_neg hopen, if_neg hclose, if_neg hfeed]
      exact congrArg (fun p => some (atom p.1, p.2)) hscan

end Token

namespace Reader

/-- Go on with what is open after a token. -/
def proceed (rest : Text) : Value ⊕ Opened → Option (Value × Text)
  | .inl v => some (v, rest)
  | .inr opened => readFrom opened rest

/-- To read is to take a token, to accept it and to proceed. -/
theorem readFrom_eq (opened : Opened) (s : Text) :
    readFrom opened s =
      (Token.next? s).bind fun p => (accept opened p.1).bind (proceed p.2) := by
  rw [readFrom]
  split
  · rename_i hnone
    rw [hnone]
    rfl
  · rename_i token rest hnext
    rw [hnext, Option.bind_some]
    dsimp only
    split <;> (rename_i haccept; rw [haccept]; rfl)

/-- What follows a token is read with what is open after it. -/
theorem readFrom_of_next? {s rest : Text} {token : Token} (h : Token.next? s = some (token, rest))
    (opened : Opened) : readFrom opened s = (accept opened token).bind (proceed rest) := by
  rw [readFrom_eq, h, Option.bind_some]

/-- A closing parenthesis completes the innermost open list. -/
theorem readFrom_closing (cells : List Value) (outer : Opened) (after : Text) :
    readFrom (cells :: outer) (.char ')' :: after) =
      proceed after (place (.list cells.reverse) outer) :=
  readFrom_of_next? (Token.next?_closing after) (cells :: outer)

theorem readFrom_layout {r : Rune} (h : r.isLayout = true) (opened : Opened) (s : Text) :
    readFrom opened (r :: s) = readFrom opened s := by
  rw [readFrom_eq, Token.next?_layout h, ← readFrom_eq]

end Reader

/-- An atom is an expression. -/
theorem readExpr_of_atom {s rest : Text} {content : List Char}
    (h : Token.next? s = some (.atom content, rest)) :
    readExpr s = some (.ofContent content, rest) :=
  Reader.readFrom_of_next? h []

namespace Number

/-- What is printed for a number is made of plain characters. -/
theorem isPlain_of_mem_print {x : Number} {c : Char} (h : c ∈ x.print) :
    (Rune.char c).isPlain = true := by
  have hdecimal : ∀ {d : Decimal}, c ∈ d.positional → c ∉ Text.marks := by
    intro d hc hmark
    rcases Decimal.mem_positional hc with hdigit | rfl
    · have hmarks : ∀ m ∈ Text.marks, m.isDigit = false := by simp [Text.marks]
      rw [hmarks c hmark] at hdigit
      cases hdigit
    · exact absurd hmark (by decide)
  apply Rune.isPlain_of_not_mark
  cases x with
  | nan =>
      have hword : ∀ c ∈ print .nan, c ∉ Text.marks := by simp [print, Text.marks]
      exact hword c h
  | infinity negative =>
      have hword : ∀ negative, ∀ c ∈ print (.infinity negative), c ∉ Text.marks := by
        simp [print, Text.marks]
      exact hword negative c h
  | finite negative rank =>
      rw [print] at h
      split at h
      · rcases List.mem_cons.mp h with rfl | hc
        · decide
        · exact hdecimal hc
      · exact hdecimal h

/-- Every number is printed with at least one character. -/
theorem print_ne_nil (x : Number) : x.print ≠ [] := by
  cases x with
  | nan => simp [print]
  | infinity negative => simp [print]
  | finite negative rank =>
      rw [print]
      split
      · exact List.cons_ne_nil _ _
      · exact Decimal.positional_ne_nil _

end Number

namespace Value

/-- The value may stand in a text that is to be read back: it is a name that reads as a
symbol, a number that is one, or a list. -/
def IsWritable : Value → Prop
  | symbol name => name.IsName
  | number x => x ≠ .nan
  | list _ => True
  | _ => False

end Value

namespace Reader

mutual

/-- **A printed value is read as one element.** -/
theorem readFrom_printOnto {after : Text} (hafter : after.EndsAtom) (opened : Opened) :
    ∀ {v : Value}, v.Everywhere Value.IsWritable →
      readFrom opened (v.printOnto after) = proceed after (place v opened)
  | .symbol name, h => by
      obtain ⟨cs, rfl, hne, hmarks, hname⟩ := h
      have hplain : ∀ c ∈ cs, (Rune.char c).isPlain = true :=
        fun c hc => Rune.isPlain_of_not_mark (hmarks c hc)
      have hvalue : Value.ofContent cs = .symbol (.ofChars cs) := by rw [Value.ofContent, hname]
      rw [Value.printOnto, readFrom_of_next? (Token.next?_atom hne hplain hafter), accept, hvalue]
      rfl
  | .number x, h => by
      have hvalue : Value.ofContent x.print = .number x := by
        rw [Value.ofContent, Number.ofChars?_print h]
      rw [Value.printOnto, readFrom_of_next? (Token.next?_atom x.print_ne_nil
        (fun c => Number.isPlain_of_mem_print) hafter), accept, hvalue]
      rfl
  | .list cells, h => by
      rw [Value.printOnto, readFrom_of_next? (Token.next?_opening _)]
      exact readFrom_printAllOnto hafter [] opened h.2

/-- The cells of a list, printed in front of its end, are read into that list. -/
theorem readFrom_printAllOnto {after : Text} (hafter : after.EndsAtom) (cells : List Value)
    (outer : Opened) : ∀ {vs : List Value}, Value.EverywhereIn Value.IsWritable vs →
      readFrom (cells :: outer) (Value.printAllOnto vs (.char ')' :: after)) =
        proceed after (place (.list (cells.reverse ++ vs)) outer)
  | [], _ => by
      rw [List.append_nil]
      exact readFrom_closing cells outer after
  | [v], h => by
      have hclosing : Text.EndsAtom (.char ')' :: after) := by
        rintro r ⟨⟩
        exact Or.inr rfl
      rw [Value.printAllOnto, readFrom_printOnto hclosing (cells :: outer) h.1, ← List.reverse_cons]
      exact readFrom_closing (v :: cells) outer after
  | v :: w :: rest, h => by
      have hspace : ∀ s : Text, Text.EndsAtom (.char ' ' :: s) := by
        rintro s r ⟨⟩
        exact Or.inl rfl
      rw [Value.printAllOnto, readFrom_printOnto (hspace _) (cells :: outer) h.1]
      show readFrom ((v :: cells) :: outer) (.char ' ' :: _) = _
      rw [readFrom_layout rfl, readFrom_printAllOnto hafter (v :: cells) outer h.2,
        List.reverse_cons, List.append_assoc]
      rfl

end

end Reader

namespace Value

mutual

/-- A datum has a text of its own. -/
theorem isWhole_of_writable : ∀ {v : Value}, v.Everywhere IsWritable → v.isWhole = true
  | symbol _, _ | number _, _ => rfl
  | list cells, h => by
      rw [isWhole]
      exact areWhole_of_writable h.2

/-- Values that can be written lack no part. -/
theorem areWhole_of_writable : ∀ {vs : List Value}, EverywhereIn IsWritable vs → areWhole vs = true
  | [], _ => rfl
  | v :: rest, h => by
      rw [areWhole, isWhole_of_writable h.1, areWhole_of_writable h.2]
      rfl

end

mutual

/-- A datum is printed in characters. -/
theorem printOnto_chars (cs : List Char) :
    ∀ {v : Value}, v.Everywhere IsWritable → ∃ cs', v.printOnto (.ofChars cs) = .ofChars cs'
  | symbol name, h => by
      obtain ⟨own, rfl, -⟩ := h
      exact ⟨own ++ cs, by rw [printOnto, Text.ofChars, Text.ofChars, ← List.map_append]; rfl⟩
  | number x, _ =>
      ⟨x.print ++ cs, by rw [printOnto, Text.ofChars, Text.ofChars, ← List.map_append]; rfl⟩
  | list cells, h => by
      obtain ⟨cs', hcs'⟩ := printAllOnto_chars (')' :: cs) h.2
      exact ⟨'(' :: cs', by
        rw [printOnto]
        exact congrArg (Rune.char '(' :: ·) hcs'⟩

/-- Values that can be written are printed as characters only. -/
theorem printAllOnto_chars (cs : List Char) :
    ∀ {vs : List Value}, EverywhereIn IsWritable vs →
      ∃ cs', printAllOnto vs (.ofChars cs) = .ofChars cs'
  | [], _ => ⟨cs, rfl⟩
  | [v], h => printOnto_chars cs h.1
  | v :: w :: rest, h => by
      obtain ⟨later, hlater⟩ := printAllOnto_chars cs h.2
      obtain ⟨cs', hcs'⟩ := printOnto_chars (' ' :: later) h.1
      refine ⟨cs', ?_⟩
      rw [printAllOnto, hlater]
      exact hcs'

end

mutual

/-- A value in which no invalid value occurs, and nothing that is not a number, equals
itself. -/
theorem equal_self : ∀ {v : Value},
    v.Everywhere (fun w => w ≠ number .nan ∧ ∀ code, w ≠ invalid code) → v.equal v = true
  | symbol name, _ => by simp [equal]
  | number x, h => by
      cases x with
      | nan => exact absurd rfl h.1
      | infinity negative => simp [equal, Number.equal]
      | finite negative rank => simp [equal, Number.equal]
  | list cells, h => by
      rw [equal]
      exact equalAll_self h.2
  | lambda formals body, h => by simp [equal, equal_self h.2]
  | closure formals body env, h => by simp [equal, equal_self h.2]
  | native g, _ => by simp [equal]
  | invalid code, h => absurd rfl (h.2 code)
  | absent, _ => by simp [equal]

/-- Lists without anything that differs from itself are equal to themselves. -/
theorem equalAll_self : ∀ {vs : List Value},
    EverywhereIn (fun w => w ≠ number .nan ∧ ∀ code, w ≠ invalid code) vs → equalAll vs vs = true
  | [], _ => by simp [equalAll]
  | v :: rest, h => by simp [equalAll, equal_self h.1, equalAll_self h.2]

end

/-- A datum is read from the bytes that it is printed in. -/
theorem read_toBytes_print {d : Value} (h : d.Everywhere IsWritable) :
    read (Text.ofBytes d.print.toBytes) = .ok d := by
  have hprint : d.print = d.printOnto [] := by rw [print, if_pos (isWhole_of_writable h)]
  obtain ⟨cs, hcs⟩ := printOnto_chars [] h
  have hbytes : Text.ofBytes d.print.toBytes = d.printOnto [] := by
    rw [hprint]
    show Text.ofBytes (Text.toBytes (d.printOnto (.ofChars []))) = d.printOnto (.ofChars [])
    rw [hcs, Text.ofBytes_toBytes_ofChars]
  have hend : Text.EndsAtom [] := by
    rintro r ⟨⟩
  have hread : readExpr (d.printOnto []) = some (d, []) := Reader.readFrom_printOnto hend [] h
  rw [hbytes, read, hread]
  rfl

theorem equal_self_of_writable {d : Value} (h : d.Everywhere IsWritable) : d.equal d = true := by
  refine equal_self (h.mono ?_)
  rintro w hw
  refine ⟨?_, ?_⟩
  · rintro rfl
    exact hw rfl
  · rintro code rfl
    exact hw

/-- **Printed data read back.**  A datum made of lists, numbers and names that read as
symbols is printed in characters; the bytes of these are read, and give the datum
again, which equals itself. -/
theorem read_print {d : Value} (h : d.Everywhere IsWritable) :
    read (Text.ofBytes d.print.toBytes) = .ok d ∧ d.equal d = true :=
  ⟨read_toBytes_print h, equal_self_of_writable h⟩

/-- Nested and empty lists, a name beyond ASCII and the smallest negative number. -/
theorem nested_data_read_back :
    ∃ d, d = list [symbol "né", list [], list [list [], number (.finite true ⟨1, by decide⟩),
        symbol "+"]] ∧ d.Everywhere IsWritable ∧
      read (Text.ofBytes d.print.toBytes) = .ok d ∧ d.equal d = true := by
  have hwritable : (list [symbol "né", list [], list [list [],
      number (.finite true ⟨1, by decide⟩), symbol "+"]]).Everywhere IsWritable := by
    refine ⟨trivial, ⟨['n', 'é'], rfl, List.cons_ne_nil _ _, ?_, by decide⟩, ⟨trivial, trivial⟩,
      ⟨trivial, ⟨trivial, trivial⟩, Number.noConfusion,
        ⟨['+'], rfl, List.cons_ne_nil _ _, ?_, by decide⟩, trivial⟩, trivial⟩
    all_goals simp [Text.marks]
  exact ⟨_, rfl, hwritable, read_print hwritable⟩

end Value

end LexLisp
