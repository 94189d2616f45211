import LexLisp.Proofs.Grammar

/-!
# One expression, or all of them

`read` takes an expression off a text and then looks whether anything but white space is
left; `readAll` looks before it takes anything.  White space in the sense of Unicode is more
than the layout between tokens: a no-break space stands for itself in an atom.  So a text of
nothing but white space may be an expression to `read`, while there is none in it for
`readAll`.  Everywhere else the two agree (`readAll_eq_singleton_iff`).
-/

namespace LexLisp

open Grammar

/-- The only expression of a text is spelled between layout and white space. -/
theorem read_eq_ok_iff {s : Text} {v : Value} :
    read s = .ok v ↔ ∃ w x rest, s = w ++ x ++ rest ∧ Layout w ∧ Spells x v rest ∧ Blank rest := by
  constructor
  · intro h
    unfold read at h
    split at h
    · cases h
    · rename_i v' rest hread
      split at h
      · rename_i hblank
        cases h
        obtain ⟨w, x, hs, hw, hx⟩ := exists_spells_of_readExpr hread
        exact ⟨w, x, rest, hs, hw, hx, isBlank_iff.mp hblank⟩
      · cases h
  · rintro ⟨w, x, rest, rfl, hw, hx, hblank⟩
    rw [read, readExpr_spells hw hx]
    exact if_pos (isBlank_iff.mpr hblank)

/-- All expressions of a text are one, exactly if it is read as one and is not all white
space. -/
theorem readAll_eq_singleton_iff {s : Text} {v : Value} :
    readAll s = .ok [v] ↔ read s = .ok v ∧ ¬ Blank s := by
  rw [readAll_eq_ok_iff, read_eq_ok_iff]
  constructor
  · intro h
    cases h with
    | @cons w x rest _ _ hw hx hblank hrest =>
        cases hrest with
        | nil ht => exact ⟨⟨w, x, rest, rfl, hw, hx, ht⟩, hblank⟩
  · rintro ⟨⟨w, x, rest, rfl, hw, hx, hrest⟩, hblank⟩
    exact .cons hw hx hblank (.nil hrest)

/-- An expression begins with a rune other than a form feed. -/
theorem exists_head_of_read {s : Text} {v : Value} (h : read s = .ok v) :
    ∃ r ∈ (s.dropWhile Rune.isLayout).head?, r ≠ .char '\x0c' := by
  have hnext : Token.next? s ≠ none := by
    intro hnone
    rw [read, readExpr, Reader.readFrom_eq, hnone] at h
    cases h
  rw [Token.next?] at hnext
  cases hdrop : s.dropWhile Rune.isLayout with
  | nil =>
      rw [hdrop] at hnext
      exact absurd rfl hnext
  | cons r rest =>
      refine ⟨r, rfl, ?_⟩
      rintro rfl
      rw [hdrop] at hnext
      exact hnext rfl

/-- White space that is neither layout nor a form feed is read as an atom. -/
theorem exists_read_of_blank {s : Text} (hblank : Blank s) {r : Rune}
    (hr : r ∈ (s.dropWhile Rune.isLayout).head?) (hfeed : r ≠ .char '\x0c') :
    ∃ v, read s = .ok v := by
  obtain ⟨rest, hdrop⟩ : ∃ rest, s.dropWhile Rune.isLayout = r :: rest :=
    List.head?_eq_some_iff.mp hr
  obtain ⟨c, rfl, hspace⟩ : ∃ c, r = .char c ∧ isWhiteSpace c = true := by
    refine hblank r ((List.dropWhile_sublist Rune.isLayout).subset ?_)
    rw [hdrop]
    exact List.mem_cons_self
  have hopen : Rune.char c ≠ .char '(' := by
    rintro ⟨⟩
    exact absurd hspace (by decide)
  have hclose : Rune.char c ≠ .char ')' := by
    rintro ⟨⟩
    exact absurd hspace (by decide)
  obtain ⟨content, after, hnext⟩ :
      ∃ content after, Token.next? s = some (.atom content, after) := by
    rw [Token.next?, hdrop]
    dsimp only
    rw [if_neg hopen, if_neg hclose, if_neg hfeed]
    exact ⟨_, _, rfl⟩
  obtain ⟨w, x, hs, -, -⟩ := Token.exists_spelled hnext
  have hafter : Text.isBlank after = true := by
    refine isBlank_iff.mpr fun r hr => hblank r ?_
    rw [hs]
    exact List.mem_append_right _ (List.mem_append_right _ hr)
  refine ⟨.ofContent content, ?_⟩
  rw [read, readExpr_of_atom hnext]
  exact if_pos hafter

/-- **Where the two readers agree.**  Whatever bytes a source text has, all its expressions
are the one expression `v` exactly if it is read as `v` and is not all white space.  So the
two readers agree on a text, unless it is white space and the first rune of it that is not
layout is something else than a form feed. -/
theorem readers_agree_iff (bytes : List UInt8) :
    (∀ v, readAll (Text.ofBytes bytes) = .ok [v] ↔
      read (Text.ofBytes bytes) = .ok v ∧ ¬ Blank (Text.ofBytes bytes)) ∧
    ((∀ v, read (Text.ofBytes bytes) = .ok v ↔ readAll (Text.ofBytes bytes) = .ok [v]) ↔
      ¬ (Blank (Text.ofBytes bytes) ∧
        ∃ r ∈ ((Text.ofBytes bytes).dropWhile Rune.isLayout).head?, r ≠ .char '\x0c')) := by
  refine ⟨fun v => readAll_eq_singleton_iff, ?_, ?_⟩
  · rintro hagree ⟨hblank, r, hr, hfeed⟩
    obtain ⟨v, hv⟩ := exists_read_of_blank hblank hr hfeed
    exact (readAll_eq_singleton_iff.mp ((hagree v).mp hv)).2 hblank
  · intro hnot v
    rw [readAll_eq_singleton_iff]
    constructor
    · exact fun hv => ⟨hv, fun hblank => hnot ⟨hblank, exists_head_of_read hv⟩⟩
    · exact And.left

/-- A no-break space is read as a symbol, and yet there is no expression in it. -/
theorem no_break_space_is_read_as_one_only :
    read (Text.ofBytes [0xC2, 0xA0]) = .ok (.symbol [.char '\u00A0']) ∧
      readAll (Text.ofBytes [0xC2, 0xA0]) = .ok [] ∧
      ¬ ∀ bytes v, read (Text.ofBytes bytes) = .ok v ↔ readAll (Text.ofBytes bytes) = .ok [v] := by
  have htext : Text.ofBytes [0xC2, 0xA0] = [.char '\u00A0'] := by decide
  have hnext : Token.next? [.char '\u00A0'] = some (.atom ['\u00A0'], []) := by decide
  have hsymbol : Value.ofContent ['\u00A0'] = .symbol [.char '\u00A0'] := by
    have hname : Number.ofChars? ['\u00A0'] = none := by decide
    rw [Value.ofContent, hname]
    rfl
  have hread : read (Text.ofBytes [0xC2, 0xA0]) = .ok (.symbol [.char '\u00A0']) := by
    rw [htext, read, readExpr, Reader.readFrom_of_next? hnext, Reader.accept, hsymbol]
    rfl
  have hnone : readAll (Text.ofBytes [0xC2, 0xA0]) = .ok [] := by
    rw [htext, readAll, if_pos (by decide)]
  refine ⟨hread, hnone, fun hagree => ?_⟩
  have hall := (hagree _ _).mp hread
  rw [hnone] at hall
  cases hall

end LexLisp
