import LexLisp.Proofs.PrintRead

/-!
# The grammar of source texts

The spelling of a value is defined here without the reader: `Grammar.Spells x v after`
says that the text `x` spells the value `v` where `after` is the text after it.  The text
after it matters in two ways: an atom goes on as long as it can, and only at the end of the
text may a verbatim section lack its closing quote.

The reader takes spellings for what they spell (`Reader.readFrom_spells`), and whatever it
takes is a spelling (`exists_spells_of_readExpr`).  So a text is read without an error
if and only if it is made of spellings (`readAll_eq_ok_iff`).
-/

namespace LexLisp

namespace Grammar

/-- The runes that may stand between tokens: spaces, tabs, carriage returns and line
feeds. -/
def Layout (w : Text) : Prop :=
  ∀ r ∈ w, r = .char ' ' ∨ r = .char '\t' ∨ r = .char '\r' ∨ r = .char '\n'

/-- There is nothing but white space. -/
def Blank (t : Text) : Prop := ∀ r ∈ t, ∃ c, r = .char c ∧ isWhiteSpace c = true

/-- The rune has no meaning of its own to the reader. -/
def Plain (r : Rune) : Prop := ∀ c ∈ Text.marks, r ≠ .char c

/-- What may stand in a verbatim section, with the characters it stands for: runes
other than the quote and the backslash, and escapes. -/
inductive Quoted : Text → List Char → Prop
  | nil : Quoted [] []
  | rune {r : Rune} {s : Text} {cs : List Char} (hquote : r ≠ .char '"') (hback : r ≠ .char '\\')
      (h : Quoted s cs) : Quoted (r :: s) (r.toChar :: cs)
  | escape (r : Rune) {s : Text} {cs : List Char} (h : Quoted s cs) :
      Quoted (.char '\\' :: r :: s) (r.toChar :: cs)

/-- A piece of an atom, with the characters it stands for and the text after it.  Only
at the end of the text may the quote be missing that closes a verbatim section, or the
rune after a backslash. -/
inductive Piece : Text → List Char → Text → Prop
  | plain {r : Rune} (h : Plain r) (after : Text) : Piece [r] [r.toChar] after
  | escape (r : Rune) (after : Text) : Piece [.char '\\', r] [r.toChar] after
  | verbatim {s : Text} {cs : List Char} (h : Quoted s cs) (after : Text) :
      Piece (.char '"' :: (s ++ [.char '"'])) cs after
  | openEscape : Piece [.char '\\'] [] []
  | openVerbatim {s : Text} {cs : List Char} (h : Quoted s cs) : Piece (.char '"' :: s) cs []
  | openVerbatimEscape {s : Text} {cs : List Char} (h : Quoted s cs) :
      Piece (.char '"' :: (s ++ [.char '\\'])) cs []

/-- Pieces one after the other, at least one. -/
inductive Pieces : Text → List Char → Text → Prop
  | last {p : Text} {cs : List Char} {after : Text} (h : Piece p cs after) : Pieces p cs after
  | cons {p s : Text} {cs ds : List Char} {after : Text} (h : Piece p cs (s ++ after))
      (hs : Pieces s ds after) : Pieces (p ++ s) (cs ++ ds) after

/-- No piece of an atom stands at the beginning of the text. -/
def EndsPieces (after : Text) : Prop :=
  ∀ p cs rest, after = p ++ rest → ¬ Piece p cs rest

/-- An atom: pieces that go on as long as there are any. -/
def Atom (s : Text) (cs : List Char) (after : Text) : Prop :=
  Pieces s cs after ∧ EndsPieces after

mutual

/-- The text spells the value, where `after` is the text after it. -/
inductive Spells : Text → Value → Text → Prop
  | number {s : Text} {cs : List Char} {x : Number} {after : Text} (h : Atom s cs after)
      (hx : Number.ofChars? cs = some x) : Spells s (.number x) after
  | symbol {s : Text} {cs : List Char} {after : Text} (h : Atom s cs after)
      (hx : Number.ofChars? cs = none) : Spells s (.symbol (.ofChars cs)) after
  | list {s w : Text} {vs : List Value} {after : Text}
      (h : Elements s vs (w ++ .char ')' :: after)) (hw : Layout w) :
      Spells (.char '(' :: (s ++ w ++ [.char ')'])) (.list vs) after

/-- The text spells the values one after the other, each after any layout. -/
inductive Elements : Text → List Value → Text → Prop
  | nil (after : Text) : Elements [] [] after
  | cons {w x s : Text} {v : Value} {vs : List Value} {after : Text} (hw : Layout w)
      (hx : Spells x v (s ++ after)) (hs : Elements s vs after) : Elements (w ++ x ++ s) (v :: vs) after

end

/-- The text is made of the spellings of the values. -/
inductive Program : Text → List Value → Prop
  | nil {t : Text} (ht : Blank t) : Program t []
  | cons {w x rest : Text} {v : Value} {vs : List Value} (hw : Layout w) (hx : Spells x v rest)
      (hblank : ¬ Blank (w ++ x ++ rest)) (h : Program rest vs) : Program (w ++ x ++ rest) (v :: vs)

/-- Layout is blanks, tabs and line breaks. -/
theorem isLayout_iff {r : Rune} :
    r.isLayout = true ↔ r = .char ' ' ∨ r = .char '\t' ∨ r = .char '\r' ∨ r = .char '\n' := by
  unfold Rune.isLayout
  split <;> simp_all

/-- The reader tells plain characters from marks as the grammar does. -/
theorem isPlain_iff {r : Rune} : r.isPlain = true ↔ Plain r := by
  constructor
  · intro h c hc heq
    subst heq
    have hmarks : ∀ c ∈ Text.marks, (Rune.char c).isPlain = false := by
      simp [Text.marks, Rune.isPlain, Rune.isLayout]
    rw [hmarks c hc] at h
    cases h
  · intro h
    cases r with
    | char c => exact Rune.isPlain_of_not_mark fun hc => h c hc rfl
    | stray b => simp [Rune.isPlain, Rune.isLayout]

/-- The reader tells blank texts as the grammar does. -/
theorem isBlank_iff {t : Text} : t.isBlank = true ↔ Blank t := by
  simp only [Text.isBlank, List.all_eq_true, Blank]
  apply forall₂_congr
  intro r _
  cases r <;> simp [Rune.isBlank]

end Grammar

namespace Token

open Grammar

theorem scan_openingQuote (s : Text) : scan .between (.char '"' :: s) = scan .verbatim s := rfl

theorem scan_closingQuote (s : Text) : scan .verbatim (.char '"' :: s) = scan .between s := rfl

/-- What stands in a verbatim section is taken for what it stands for. -/
theorem scan_quoted {s : Text} {cs : List Char} (h : Quoted s cs) (rest : Text) :
    scan .verbatim (s ++ rest) =
      (cs ++ (scan .verbatim rest).1, (scan .verbatim rest).2) := by
  induction h with
  | nil => rfl
  | rune hquote hback _ ih =>
      rw [List.cons_append, scan, if_neg hback, if_neg hquote, ih]
      rfl
  | escape r _ ih =>
      rw [List.cons_append, List.cons_append, scan, if_pos rfl, scan]
      simp only [if_true, ih]
      rfl

/-- A verbatim section goes on up to its closing quote, or to the end of the text. -/
theorem exists_quoted (s : Text) : ∃ q cs rest, s = q ++ rest ∧ Quoted q cs ∧
    (rest = [] ∨ rest = [.char '\\'] ∨ ∃ tail, rest = .char '"' :: tail) := by
  match s with
  | [] => exact ⟨[], [], [], rfl, .nil, Or.inl rfl⟩
  | r :: tail =>
      by_cases hquote : r = .char '"'
      · exact ⟨[], [], r :: tail, rfl, .nil, Or.inr (Or.inr ⟨tail, by rw [hquote]⟩)⟩
      · by_cases hback : r = .char '\\'
        · subst hback
          match tail with
          | [] => exact ⟨[], [], _, rfl, .nil, Or.inr (Or.inl rfl)⟩
          | r' :: tail =>
              obtain ⟨q, cs, rest, rfl, hq, hrest⟩ := exists_quoted tail
              exact ⟨_, _, rest, rfl, .escape r' hq, hrest⟩
        · obtain ⟨q, cs, rest, rfl, hq, hrest⟩ := exists_quoted tail
          exact ⟨_, _, rest, rfl, .rune hquote hback hq, hrest⟩
termination_by s.length

/-- A piece of an atom is taken for what it stands for. -/
theorem scan_piece {p : Text} {cs : List Char} {after : Text} (h : Piece p cs after) :
    scan .between (p ++ after) =
      (cs ++ (scan .between after).1, (scan .between after).2) := by
  cases h with
  | @plain r h =>
      have hback : r ≠ .char '\\' := h '\\' (by decide)
      have hquote : r ≠ .char '"' := h '"' (by decide)
      rw [List.singleton_append, scan, if_neg hback, if_neg hquote, if_pos (isPlain_iff.mpr h)]
      rfl
  | escape r =>
      rw [List.cons_append, List.singleton_append, scan, if_pos rfl, scan]
      rfl
  | verbatim h =>
      rw [List.cons_append, List.append_assoc, scan_openingQuote, scan_quoted h,
        List.singleton_append, scan_closingQuote]
  | openEscape => rfl
  | openVerbatim h =>
      rw [List.cons_append, scan_openingQuote, scan_quoted h]
      rfl
  | openVerbatimEscape h =>
      rw [List.append_nil, scan_openingQuote, scan_quoted h]
      rfl

/-- Pieces are taken for what they stand for. -/
theorem scan_pieces {s : Text} {cs : List Char} {after : Text} (h : Pieces s cs after) :
    scan .between (s ++ after) =
      (cs ++ (scan .between after).1, (scan .between after).2) := by
  induction h with
  | last h => exact scan_piece h
  | cons h _ ih => rw [List.append_assoc, scan_piece h, ih, List.append_assoc]

/-- At every place a piece begins, unless a rune stands there that ends an atom. -/
theorem exists_piece_or (s : Text) :
    (∃ p cs after, s = p ++ after ∧ Piece p cs after) ∨ scan .between s = ([], s) := by
  match s with
  | [] => exact Or.inr rfl
  | r :: tail =>
      by_cases hback : r = .char '\\'
      · subst hback
        left
        cases tail with
        | nil => exact ⟨_, _, [], rfl, .openEscape⟩
        | cons r' after => exact ⟨_, _, after, rfl, .escape r' after⟩
      · by_cases hquote : r = .char '"'
        · subst hquote
          left
          obtain ⟨q, cs, rest, rfl, hq, hend⟩ := exists_quoted tail
          rcases hend with hend | hend | ⟨after, hend⟩
          · subst hend
            exact ⟨_, cs, [], by simp, .openVerbatim hq⟩
          · subst hend
            exact ⟨_, cs, [], by simp, .openVerbatimEscape hq⟩
          · subst hend
            exact ⟨_, cs, after, by simp, .verbatim hq after⟩
        · by_cases hplain : r.isPlain = true
          · exact Or.inl ⟨_, _, tail, rfl, .plain (isPlain_iff.mp hplain) tail⟩
          · right
            rw [scan, if_neg hback, if_neg hquote, if_neg hplain]

/-- A piece of an atom has at least one character. -/
theorem piece_ne_nil {p : Text} {cs : List Char} {after : Text} (h : Piece p cs after) : p ≠ [] := by
  cases h <;> exact List.cons_ne_nil _ _

/-- Where no piece begins, an atom ends. -/
theorem scan_of_endsPieces {s : Text} (h : EndsPieces s) : scan .between s = ([], s) := by
  rcases exists_piece_or s with ⟨p, cs, after, hs, hp⟩ | hscan
  · exact absurd hp (h p cs after hs)
  · exact hscan

/-- Where a piece begins, an atom does not end. -/
theorem endsPieces_of_scan {s : Text} (h : scan .between s = ([], s)) : EndsPieces s := by
  intro p cs after hs hp
  have hlt : (scan .between (p ++ after)).2.length < (p ++ after).length := by
    rw [scan_piece hp, List.length_append]
    have hle := length_scan_le .between after
    have hpos := List.length_pos_of_ne_nil (piece_ne_nil hp)
    dsimp only
    omega
  rw [← hs, h] at hlt
  exact absurd hlt (Nat.lt_irrefl _)

/-- **Atoms are scanned.** -/
theorem scan_atom {s : Text} {cs : List Char} {after : Text} (h : Atom s cs after) :
    scan .between (s ++ after) = (cs, after) := by
  rw [scan_pieces h.1, scan_of_endsPieces h.2, List.append_nil]

/-- Where a piece begins, an atom does. -/
theorem exists_atom {p : Text} {cs : List Char} {rest : Text} (hp : Piece p cs rest) :
    ∃ x ds after, p ++ rest = x ++ after ∧ Atom x ds after := by
  rcases exists_piece_or rest with ⟨p', cs', rest', hrest, hp'⟩ | hscan
  · -- The atom goes on with what is left, which is shorter by a piece.
    have hlt : rest'.length < rest.length := by
      have hpos := List.length_pos_of_ne_nil (piece_ne_nil hp')
      rw [hrest, List.length_append]
      omega
    obtain ⟨x, ds, after, heq, hx⟩ := exists_atom hp'
    refine ⟨p ++ x, cs ++ ds, after, by rw [hrest, heq, List.append_assoc], .cons ?_ hx.1, hx.2⟩
    rw [← heq, ← hrest]
    exact hp
  · exact ⟨p, cs, rest, rfl, .last hp, endsPieces_of_scan hscan⟩
termination_by rest.length

/-- An atom does not begin with layout, a parenthesis or a form feed. -/
theorem atom_head {x : Text} {cs : List Char} {after : Text} (h : Atom x cs after) :
    ∃ r tail, x = r :: tail ∧ (Plain r ∨ r = .char '\\' ∨ r = .char '"') := by
  have hpiece : ∀ {p cs after}, Piece p cs after →
      ∃ r tail, p = r :: tail ∧ (Plain r ∨ r = .char '\\' ∨ r = .char '"') := by
    intro p cs after hp
    cases hp with
    | plain h => exact ⟨_, [], rfl, Or.inl h⟩
    | escape r => exact ⟨_, _, rfl, Or.inr (Or.inl rfl)⟩
    | verbatim h => exact ⟨_, _, rfl, Or.inr (Or.inr rfl)⟩
    | openEscape => exact ⟨_, [], rfl, Or.inr (Or.inl rfl)⟩
    | openVerbatim h => exact ⟨_, _, rfl, Or.inr (Or.inr rfl)⟩
    | openVerbatimEscape h => exact ⟨_, _, rfl, Or.inr (Or.inr rfl)⟩
  cases h.1 with
  | last hp => exact hpiece hp
  | cons hp hs =>
      obtain ⟨r, tail, rfl, hr⟩ := hpiece hp
      exact ⟨r, _, rfl, hr⟩

/-- Layout is passed over. -/
theorem next?_append_layout {w : Text} (hw : Layout w) (s : Text) : next? (w ++ s) = next? s := by
  induction w with
  | nil => rfl
  | cons r w ih =>
      obtain ⟨hr, hw⟩ := List.forall_mem_cons.mp hw
      rw [List.cons_append, next?_layout (isLayout_iff.mpr hr), ih hw]

/-- An atom is the next token where it stands. -/
theorem next?_of_atom {x : Text} {cs : List Char} {after : Text} (h : Atom x cs after) :
    next? (x ++ after) = some (.atom cs, after) := by
  have hscan := scan_atom h
  obtain ⟨r, tail, rfl, hr⟩ := atom_head h
  have hmark : ∀ c ∈ Text.marks, c ≠ '\\' → c ≠ '"' → r ≠ .char c := by
    intro c hc hback hquote heq
    rcases hr with hplain | heq' | heq'
    · exact hplain c hc heq
    · exact hback (Rune.char.inj (heq.symm.trans heq'))
    · exact hquote (Rune.char.inj (heq.symm.trans heq'))
  have hlayout : ¬ r.isLayout = true := by
    rw [isLayout_iff]
    intro h
    rcases h with h | h | h | h <;> exact hmark _ (by decide) (by decide) (by decide) h
  rw [next?, List.cons_append, List.dropWhile_cons_of_neg hlayout]
  dsimp only
  rw [if_neg (hmark '(' (by decide) (by decide) (by decide)),
    if_neg (hmark ')' (by decide) (by decide) (by decide)),
    if_neg (hmark '\x0c' (by decide) (by decide) (by decide)), ← List.cons_append, hscan]

/-- How a token is spelled, where `after` is the text after it. -/
def Spelled (x : Text) (token : Token) (after : Text) : Prop :=
  match token with
  | .opening => x = [.char '(']
  | .closing => x = [.char ')']
  | .atom cs => Atom x cs after

/-- **What the next token is.**  It is spelled after some layout. -/
theorem exists_spelled {s after : Text} {token : Token} (h : next? s = some (token, after)) :
    ∃ w x, s = w ++ (x ++ after) ∧ Layout w ∧ Spelled x token after := by
  have hw : Layout (s.takeWhile Rune.isLayout) :=
    fun r hr => isLayout_iff.mp (List.mem_takeWhile_imp hr)
  suffices hx : ∃ x, s.dropWhile Rune.isLayout = x ++ after ∧ Spelled x token after by
    obtain ⟨x, hdrop, hx⟩ := hx
    exact ⟨_, x, by rw [← hdrop, List.takeWhile_append_dropWhile], hw, hx⟩
  have hhead := List.head?_dropWhile_not Rune.isLayout s
  rw [next?] at h
  generalize s.dropWhile Rune.isLayout = t at h hhead
  cases t with
  | nil => cases h
  | cons r rest =>
      have hlayout : r.isLayout = false := by simpa using hhead
      dsimp only at h
      split at h
      · rename_i hopen
        cases h
        exact ⟨[r], rfl, by rw [hopen]; rfl⟩
      · rename_i hopen
        split at h
        · rename_i hclose
          cases h
          exact ⟨[r], rfl, by rw [hclose]; rfl⟩
        · rename_i hclose
          split at h
          · cases h
          · rename_i hfeed
            cases h
            have hlt := length_scan_lt r rest hopen hclose hfeed hlayout
            rcases exists_piece_or (r :: rest) with ⟨p, cs, tail, heq, hp⟩ | hscan
            · obtain ⟨x, ds, after, hx, hatom⟩ := exists_atom hp
              rw [heq, hx, scan_atom hatom]
              exact ⟨x, rfl, hatom⟩
            · rw [hscan] at hlt
              exact absurd hlt (Nat.lt_irrefl _)

end Token

namespace Grammar

/-- An atom spells the value of its content. -/
theorem Atom.spells {x : Text} {cs : List Char} {after : Text} (h : Atom x cs after) :
    Spells x (.ofContent cs) after := by
  unfold Value.ofContent
  split
  · rename_i n hn
    exact .number h hn
  · rename_i hn
    exact .symbol h hn

end Grammar

namespace Reader

open Grammar

/-- Layout in front of an expression makes no difference to how it is read. -/
theorem readFrom_append_layout {w : Text} (hw : Layout w) (opened : Opened) (s : Text) :
    readFrom opened (w ++ s) = readFrom opened s := by
  rw [readFrom_eq, Token.next?_append_layout hw, ← readFrom_eq]

/-- An atom is read as what its content stands for. -/
theorem readFrom_atom {x : Text} {cs : List Char} {after : Text} (h : Atom x cs after)
    (opened : Opened) :
    readFrom opened (x ++ after) = proceed after (place (.ofContent cs) opened) :=
  readFrom_of_next? (Token.next?_of_atom h) opened

mutual

/-- **A spelling is read.** -/
theorem readFrom_spells {x : Text} {v : Value} {after : Text} (h : Spells x v after)
    (opened : Opened) : readFrom opened (x ++ after) = proceed after (place v opened) := by
  cases h with
  | number h hx =>
      rw [readFrom_atom h, Value.ofContent, hx]
  | symbol h hx =>
      rw [readFrom_atom h, Value.ofContent, hx]
  | @list s w vs _ h hw =>
      have hs : .char '(' :: (s ++ w ++ [.char ')']) ++ after =
          .char '(' :: (s ++ (w ++ .char ')' :: after)) := by simp
      rw [hs, readFrom_of_next? (Token.next?_opening _)]
      show readFrom ([] :: opened) _ = _
      rw [readFrom_elements h, readFrom_append_layout hw, readFrom_closing, List.append_nil,
        List.reverse_reverse]

/-- The elements of a list are read in order into the innermost open list. -/
theorem readFrom_elements {s : Text} {vs : List Value} {after : Text} (h : Elements s vs after)
    (cells : List Value) (outer : Opened) :
    readFrom (cells :: outer) (s ++ after) = readFrom ((vs.reverse ++ cells) :: outer) after := by
  cases h with
  | nil => rfl
  | @cons w x s v vs _ hw hx hs =>
      rw [List.append_assoc, List.append_assoc, readFrom_append_layout hw, readFrom_spells hx]
      show readFrom ((v :: cells) :: outer) (s ++ after) = _
      rw [readFrom_elements hs, List.reverse_cons, List.append_assoc]
      rfl

end

/-- Reading begins with a token, and goes on after it. -/
theorem exists_token {opened : Opened} {s rest : Text} {v : Value}
    (h : readFrom opened s = some (v, rest)) :
    ∃ w x token tail r, s = w ++ (x ++ tail) ∧ Layout w ∧ Token.Spelled x token tail ∧
      tail.length < s.length ∧ accept opened token = some r ∧ proceed tail r = some (v, rest) := by
  rw [readFrom_eq] at h
  obtain ⟨⟨token, tail⟩, hnext, h⟩ := Option.bind_eq_some_iff.mp h
  obtain ⟨r, haccept, hproceed⟩ := Option.bind_eq_some_iff.mp h
  obtain ⟨w, x, hs, hw, hx⟩ := Token.exists_spelled hnext
  exact ⟨w, x, token, tail, r, hs, hw, hx, Token.length_lt_of_next? hnext, haccept, hproceed⟩

/-- **What is read in an open list are elements**, up to the parenthesis that closes
it. -/
theorem exists_elements {cells : List Value} {outer : Opened} {s rest : Text} {v : Value}
    (h : readFrom (cells :: outer) s = some (v, rest)) :
    ∃ x vs w after, s = x ++ (w ++ .char ')' :: after) ∧
      Elements x vs (w ++ .char ')' :: after) ∧ Layout w ∧
      proceed after (place (.list (cells.reverse ++ vs)) outer) = some (v, rest) := by
  obtain ⟨w, x, token, tail, r, hs, hw, hx, hlt, haccept, hproceed⟩ := exists_token h
  cases token with
  | closing =>
      cases haccept
      refine ⟨[], [], w, tail, ?_, .nil _, hw, ?_⟩
      · rw [hs, hx]
        rfl
      · rw [List.append_nil]
        exact hproceed
  | atom cs =>
      cases haccept
      obtain ⟨x', vs, w', after, htail, hvs, hw', hend⟩ := exists_elements hproceed
      refine ⟨w ++ x ++ x', .ofContent cs :: vs, w', after, ?_, .cons hw ?_ hvs, hw', ?_⟩
      · rw [hs, htail]
        simp
      · rw [← htail]
        exact hx.spells
      · simpa using hend
  | opening =>
      cases haccept
      -- The inner list is closed first; then the elements of this one go on.
      obtain ⟨y, ws, u, middle, htail, hws, hu, hmiddle⟩ := exists_elements hproceed
      have hshort : middle.length < s.length := by
        rw [htail] at hlt
        simp only [List.length_append, List.length_cons] at hlt
        omega
      obtain ⟨x', vs, w', after, heq, hvs, hw', hend⟩ := exists_elements hmiddle
      have hlist : Spells (.char '(' :: (y ++ u ++ [.char ')'])) (.list ws) middle := .list hws hu
      refine ⟨w ++ (.char '(' :: (y ++ u ++ [.char ')'])) ++ x', .list ws :: vs, w', after, ?_,
        .cons hw ?_ hvs, hw', ?_⟩
      · rw [hs, hx, htail, heq]
        simp
      · rw [← heq]
        exact hlist
      · simpa using hend
termination_by s.length

end Reader

open Grammar

/-- A spelling after any layout is read as one expression. -/
theorem readExpr_spells {w x : Text} {v : Value} {rest : Text} (hw : Layout w)
    (hx : Spells x v rest) : readExpr (w ++ x ++ rest) = some (v, rest) := by
  rw [readExpr, List.append_assoc, Reader.readFrom_append_layout hw, Reader.readFrom_spells hx]
  rfl

/-- What is read as one expression is a spelling after some layout. -/
theorem exists_spells_of_readExpr {s rest : Text} {v : Value} (h : readExpr s = some (v, rest)) :
    ∃ w x, s = w ++ x ++ rest ∧ Layout w ∧ Spells x v rest := by
  obtain ⟨w, x, token, tail, r, hs, hw, hx, -, haccept, hproceed⟩ := Reader.exists_token h
  cases token with
  | closing => cases haccept
  | atom cs =>
      cases haccept
      cases hproceed
      exact ⟨w, x, by rw [hs, List.append_assoc], hw, hx.spells⟩
  | opening =>
      cases haccept
      obtain ⟨y, vs, u, after, htail, hvs, hu, hend⟩ := Reader.exists_elements hproceed
      cases hend
      refine ⟨w, .char '(' :: (y ++ u ++ [.char ')']), ?_, hw, .list hvs hu⟩
      rw [hs, hx, htail]
      simp

/-- The texts that are read are those of the grammar. -/
theorem readAll_eq_ok_iff {s : Text} {vs : List Value} : readAll s = .ok vs ↔ Program s vs := by
  constructor
  · intro h
    fun_induction readAll s generalizing vs with
    | case1 s hblank =>
        cases h
        exact .nil (isBlank_iff.mp hblank)
    | case2 s hblank hnone => cases h
    | case3 s hblank v rest hread ih =>
        cases hrest : readAll rest with
        | error e =>
            rw [hrest] at h
            cases h
        | ok ws =>
            rw [hrest] at h
            cases h
            obtain ⟨w, x, rfl, hw, hx⟩ := exists_spells_of_readExpr hread
            exact .cons hw hx (fun hb => hblank (isBlank_iff.mpr hb)) (ih hrest)
  · intro h
    induction h with
    | nil ht => rw [readAll, if_pos (isBlank_iff.mpr ht)]
    | cons hw hx hblank _ ih =>
        rw [readAll, if_neg (fun hb => hblank (isBlank_iff.mp hb))]
        split
        · rename_i hnone
          rw [readExpr_spells hw hx] at hnone
          cases hnone
        · rename_i v' rest' hread
          rw [readExpr_spells hw hx] at hread
          cases hread
          rw [ih]
          rfl

/-- **The reader accepts exactly its grammar.**  Whatever bytes a source text has, and be they
ill-formed, there is one text they are decoded to, character by character and with a rune for
each byte that begins no character, and no byte is lost in it.  All expressions of this text are
read, with these values, if and only if the text spells these values one after the other. -/
theorem readAll_accepts_exactly_the_grammar (bytes : List UInt8) (vs : List Value) :
    (∀ t, Text.Decodes bytes t ↔ t = Text.ofBytes bytes) ∧
      (Text.ofBytes bytes).toBytes = bytes ∧
      (readAll (Text.ofBytes bytes) = .ok vs ↔ Program (Text.ofBytes bytes) vs) :=
  ⟨fun _ => Text.decodes_iff, Text.toBytes_ofBytes bytes, readAll_eq_ok_iff⟩

end LexLisp
