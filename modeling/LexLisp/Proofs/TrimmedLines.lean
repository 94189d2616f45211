import LexLisp.Proofs.LoopCourse
import LexLisp.Proofs.NumeralCharacters
import LexLisp.Proofs.WhiteSpace

/-!
# Lines without the white space around them

The loop takes the white space around a line away before it reads the line.  Trimming knows all
white space but nothing of atoms: it takes away what stands after a backslash or in a verbatim
section at the end, and blanks that are plain characters to the reader.

A line that is not blank is made of white space, a middle that neither begins nor ends with any,
and white space again (`Text.exists_trimmed`).  What is after the middle changes the expression only
if the middle is one atom and the atom runs on (`read_append_blank_iff`).  Before the middle layout
does not matter; a form feed hides the expression (`read_feed_append_iff`), and any other white
space begins an atom (`read_plain_append_iff`, `read_plain_append_ne`).  So it is known which lines
are safe to trim (`read_trim_iff`).
-/

namespace LexLisp

open Grammar Token Parentheses

namespace Text

/-- The white space at the start of a text. -/
def leading (t : Text) : Text :=
  t.takeWhile Rune.isBlank

/-- The white space at the end of a text. -/
def trailing (t : Text) : Text :=
  (t.reverse.takeWhile Rune.isBlank).reverse

/-- The text neither begins nor ends with white space, and is not empty. -/
structure Trimmed (t : Text) : Prop where
  first : ∃ r ∈ t.head?, r.isBlank = false
  last : ∃ r ∈ t.getLast?, r.isBlank = false

/-- White space ends where something else comes. -/
theorem takeWhile_dropWhile_blank {w s : Text} (hw : Blank w)
    (hs : ∃ r ∈ s.head?, r.isBlank = false) :
    (w ++ s).takeWhile Rune.isBlank = w ∧ (w ++ s).dropWhile Rune.isBlank = s := by
  have hall : ∀ r ∈ w, r.isBlank = true := List.all_eq_true.mp (isBlank_iff.mpr hw)
  obtain ⟨r, hr, hblank⟩ := hs
  obtain ⟨rest, rfl⟩ := List.head?_eq_some_iff.mp hr
  have hnot : ¬ r.isBlank = true := by simp [hblank]
  rw [List.takeWhile_append_of_pos hall, List.dropWhile_append_of_pos hall,
    List.takeWhile_cons_of_neg hnot, List.dropWhile_cons_of_neg hnot, List.append_nil]
  exact ⟨rfl, rfl⟩

namespace Trimmed

variable {l m r : Text}

theorem ne_nil (hm : Trimmed m) : m ≠ [] := by
  intro hnil
  obtain ⟨c, hc, -⟩ := hm.first
  rw [hnil] at hc
  cases hc

theorem reverse (hm : Trimmed m) : Trimmed m.reverse where
  first := by
    rw [List.head?_reverse]
    exact hm.last
  last := by
    rw [List.getLast?_reverse]
    exact hm.first

/-- What begins with a trimmed text begins with no white space. -/
theorem first_append (hm : Trimmed m) (t : Text) : ∃ c ∈ (m ++ t).head?, c.isBlank = false := by
  obtain ⟨c, hc, hblank⟩ := hm.first
  obtain ⟨rest, rfl⟩ := List.head?_eq_some_iff.mp hc
  exact ⟨c, rfl, hblank⟩

/-- A text that contains a trimmed one is not blank. -/
theorem not_blank_append (hm : Trimmed m) (l r : Text) : ¬ Blank (l ++ (m ++ r)) := by
  obtain ⟨c, hc, hblank⟩ := hm.first
  exact not_blank_of_mem hblank
    (List.mem_append_right l (List.mem_append_left r (List.mem_of_mem_head? hc)))

/-- No end of such a text is white space. -/
theorem not_blank_of_suffix (hm : Trimmed m) {s : Text} (hs : s <:+ m) (hne : s ≠ []) :
    ¬ Blank s := by
  obtain ⟨c, hc, hblank⟩ := hm.last
  obtain ⟨t, rfl⟩ := hs
  rw [List.getLast?_append_of_ne_nil t hne] at hc
  exact not_blank_of_mem hblank (List.mem_of_getLast? hc)

/-- White space in front of a trimmed text is what leads. -/
theorem leading_eq (hl : Blank l) (hm : Trimmed m) (r : Text) : leading (l ++ (m ++ r)) = l :=
  (takeWhile_dropWhile_blank hl (hm.first_append r)).1

/-- White space after a trimmed text is what trails. -/
theorem trailing_eq (hm : Trimmed m) (hr : Blank r) (l : Text) : trailing (l ++ (m ++ r)) = r := by
  have hreverse : (l ++ (m ++ r)).reverse = r.reverse ++ (m.reverse ++ l.reverse) := by simp
  have hblank : Blank r.reverse := fun c hc => hr c (List.mem_reverse.mp hc)
  rw [trailing, hreverse, (takeWhile_dropWhile_blank hblank (hm.reverse.first_append _)).1,
    List.reverse_reverse]

/-- Trimming takes the white space around it away, and nothing else. -/
theorem trim_eq (hl : Blank l) (hm : Trimmed m) (hr : Blank r) : trim (l ++ (m ++ r)) = m := by
  have hblank : Blank r.reverse := fun c hc => hr c (List.mem_reverse.mp hc)
  rw [trim, trimLeft, trimLeft, (takeWhile_dropWhile_blank hl (hm.first_append r)).2,
    List.reverse_append, (takeWhile_dropWhile_blank hblank hm.reverse.first).2,
    List.reverse_reverse]

end Trimmed

/-- A text that is not white space has something else in its middle. -/
theorem exists_trimmed {t : Text} (h : ¬ Blank t) :
    ∃ l m r, Blank l ∧ Trimmed m ∧ Blank r ∧ t = l ++ (m ++ r) := by
  obtain ⟨l, c, rest, hl, hc, rfl⟩ := (blank_or_split t).resolve_left h
  have hreverse : ¬ Blank (c :: rest).reverse := not_blank_of_mem hc (by simp)
  obtain ⟨w, d, rest', hw, hd, hsplit⟩ := (blank_or_split _).resolve_left hreverse
  have hmiddle : c :: rest = (d :: rest').reverse ++ w.reverse := by
    rw [← List.reverse_append, ← hsplit, List.reverse_reverse]
  have hfirst : (d :: rest').reverse.head? = some c := by
    rw [← List.head?_append_of_ne_nil _ (by simp), ← hmiddle]
    rfl
  refine ⟨l, (d :: rest').reverse, w.reverse, hl, ⟨⟨c, hfirst, hc⟩, ⟨d, by simp, hd⟩⟩, ?_, ?_⟩
  · exact fun r hr => hw r (List.mem_reverse.mp hr)
  · rw [hmiddle]

/-- A text that is not blank is what leads, what is left by trimming and what trails. -/
theorem leading_trim_trailing {t : Text} (h : ¬ Blank t) :
    t = t.leading ++ (t.trim ++ t.trailing) ∧ t.trim ≠ [] := by
  obtain ⟨l, m, r, hl, hm, hr, rfl⟩ := exists_trimmed h
  rw [hm.trim_eq hl hr, hm.leading_eq hl, hm.trailing_eq hr]
  exact ⟨rfl, hm.ne_nil⟩

end Text

/-- White space after a text does not change what is wrong with it. -/
theorem SyntaxError.diagnose_append_blank (s : Text) {r : Text} (hr : Blank r) :
    diagnose (s ++ r) = diagnose s := by
  rcases blank_or_split s with hs | ⟨w, c, rest, hw, hc, rfl⟩
  · have hall := diagnose_blank (blank_append.mpr ⟨hs, hr⟩) []
    have hfirst := diagnose_blank hs []
    rw [List.append_nil] at hall hfirst
    rw [hall, hfirst]
  · rw [List.append_assoc, List.cons_append, diagnose_append hw hc, diagnose_append hw hc]

/-- White space at the end does not change what is left by trimming. -/
theorem Text.trim_append_blank {s r : Text} (hs : ¬ Blank s) (hr : Blank r) :
    trim (s ++ r) = trim s := by
  obtain ⟨l, m, r', hl, hm, hr', rfl⟩ := exists_trimmed hs
  rw [List.append_assoc, List.append_assoc, hm.trim_eq hl (blank_append.mpr ⟨hr', hr⟩),
    hm.trim_eq hl hr']

section Read

variable {s t rest : Text} {v : Value}

/-- Where no expression can be read the text is diagnosed. -/
theorem read_of_none (h : readExpr s = none) : read s = .error (.diagnose s) := by
  rw [read, h]

/-- An expression with white space after it is read. -/
theorem read_of_blank (h : readExpr s = some (v, rest)) (hrest : Blank rest) : read s = .ok v := by
  rw [read, h]
  exact if_pos (isBlank_iff.mpr hrest)

/-- An expression with anything else after it is not read. -/
theorem read_of_not_blank (h : readExpr s = some (v, rest)) (hrest : ¬ Blank rest) :
    read s = .error (.trailing rest.trim) := by
  rw [read, h]
  exact if_neg (mt isBlank_iff.mp hrest)

/-- Layout before the expression does not count. -/
theorem read_layout {w : Text} (hw : Layout w) (s : Text) : read (w ++ s) = read s := by
  have hexpr : readExpr (w ++ s) = readExpr s := Reader.readFrom_append_layout hw [] s
  rw [read, read, hexpr, SyntaxError.diagnose_blank hw.blank]

/-- White space after the text does not count, if it is left over with the rest of the text. -/
theorem read_append_blank {r : Text} (hr : Blank r)
    (h : readExpr (s ++ r) = (readExpr s).map fun found => (found.1, found.2 ++ r)) :
    read (s ++ r) = read s := by
  cases hread : readExpr s with
  | none =>
      rw [hread] at h
      rw [read_of_none h, read_of_none hread, SyntaxError.diagnose_append_blank s hr]
  | some found =>
      obtain ⟨v, rest⟩ := found
      rw [hread] at h
      by_cases hrest : Blank rest
      · rw [read_of_blank h (blank_append.mpr ⟨hrest, hr⟩), read_of_blank hread hrest]
      · have hnot : ¬ Blank (rest ++ r) := fun hall => hrest (blank_append.mp hall).1
        rw [read_of_not_blank h hnot, read_of_not_blank hread hrest,
          Text.trim_append_blank hrest hr]

end Read

namespace Token

/-- An atom is cut off the front. -/
theorem scan_suffix (p : Place) (s : Text) : (scan p s).2 <:+ s := by
  fun_induction scan p s with
  | case1 p => exact List.suffix_refl _
  | case2 rest ih => exact ih.trans (List.suffix_cons _ _)
  | case3 rest hback ih => exact ih.trans (List.suffix_cons _ _)
  | case4 r rest hback hquote hplain content after hscan ih =>
      rw [hscan] at ih
      exact ih.trans (List.suffix_cons _ _)
  | case5 r rest hback hquote hplain => exact List.suffix_refl _
  | case6 rest ih => exact ih.trans (List.suffix_cons _ _)
  | case7 rest hback ih => exact ih.trans (List.suffix_cons _ _)
  | case8 r rest hback hquote content after hscan ih =>
      rw [hscan] at ih
      exact ih.trans (List.suffix_cons _ _)
  | case9 inVerbatim r rest content after hscan ih =>
      rw [hscan] at ih
      exact ih.trans (List.suffix_cons _ _)

theorem blank_scan (p : Place) {s : Text} (hs : Blank s) : Blank (scan p s).2 :=
  fun r hr => hs r ((scan_suffix p s).subset hr)

/-- An atom that has come to this place goes on in the white space after it. -/
def RunsOn (p : Place) (r : Text) : Prop :=
  (p ≠ .between ∧ r ≠ []) ∨ ∃ c ∈ r.head?, c.isPlain = true

/-- Between pieces an atom takes white space in that is plain. -/
theorem scan_between_space {c : Char} (hc : isWhiteSpace c = true) (rest : Text) :
    scan .between (.char c :: rest) =
      if (Rune.char c).isPlain then (c :: (scan .between rest).1, (scan .between rest).2)
      else ([], .char c :: rest) := by
  rw [scan, if_neg (Rune.char_ne_of_isWhiteSpace hc rfl),
    if_neg (Rune.char_ne_of_isWhiteSpace hc rfl)]
  rfl

section Blank

variable {r : Text} (hr : Blank r)
include hr

/-- White space leaves the place between pieces. -/
theorem placeAtEnd_blank : placeAtEnd .between r = .between := by
  induction r with
  | nil => rfl
  | cons d rest ih =>
      obtain ⟨⟨c, rfl, hspace⟩, hrest⟩ := List.forall_mem_cons.mp hr
      rw [placeAtEnd_cons, placeAfter_of_isWhiteSpace hspace, ih hrest]

/-- An atom takes in white space to the end only if all of it is plain. -/
theorem scan_blank_eq_nil_iff :
    (scan .between r).2 = [] ↔ ∀ d ∈ r, d.isPlain = true := by
  induction r with
  | nil => simp [scan]
  | cons d rest ih =>
      obtain ⟨⟨c, rfl, hspace⟩, hrest⟩ := List.forall_mem_cons.mp hr
      rw [scan_between_space hspace, List.forall_mem_cons, ← ih hrest]
      split
      · rename_i hplain
        exact (and_iff_right hplain).symm
      · rename_i hplain
        exact iff_of_false (List.cons_ne_nil _ _) fun h => hplain h.1

/-- An atom takes white space in just if it goes on in it. -/
theorem scan_blank (p : Place) :
    (¬ RunsOn p r ∧ (scan p r).1 = []) ∨
      (RunsOn p r ∧ ∃ c ∈ (scan p r).1, isWhiteSpace c = true) := by
  cases r with
  | nil => exact Or.inl ⟨by simp [RunsOn], rfl⟩
  | cons d rest =>
      obtain ⟨c, rfl, hspace⟩ := hr d List.mem_cons_self
      cases p with
      | between =>
          rw [scan_between_space hspace]
          split
          · rename_i hplain
            exact Or.inr ⟨Or.inr ⟨_, rfl, hplain⟩, c, List.mem_cons_self, hspace⟩
          · rename_i hplain
            exact Or.inl ⟨by simp [RunsOn, hplain], rfl⟩
      | verbatim =>
          rw [scan, if_neg (Rune.char_ne_of_isWhiteSpace hspace rfl),
            if_neg (Rune.char_ne_of_isWhiteSpace hspace rfl)]
          exact Or.inr ⟨Or.inl ⟨Place.noConfusion, List.cons_ne_nil _ _⟩, c, List.mem_cons_self,
            hspace⟩
      | escape inVerbatim =>
          rw [scan]
          exact Or.inr ⟨Or.inl ⟨Place.noConfusion, List.cons_ne_nil _ _⟩, c, List.mem_cons_self,
            hspace⟩

end Blank

end Token

namespace Reader

/-- What is left of a text after reading is part of it. -/
theorem subset_of_readFrom {opened : Opened} {s rest : Text} {v : Value}
    (h : readFrom opened s = some (v, rest)) : rest ⊆ s := by
  fun_induction readFrom opened s with
  | case1 => cases h
  | case2 => cases h
  | case3 opened s token after hnext w haccept =>
      cases h
      exact subset_of_next? hnext
  | case4 opened s token after hnext opened' haccept ih =>
      exact List.Subset.trans (ih h) (subset_of_next? hnext)

/-- White space closes no list. -/
theorem readFrom_blank {opened : Opened} (hopened : opened ≠ []) {s : Text} (hs : Blank s) :
    readFrom opened s = none := by
  cases hread : readFrom opened s with
  | none => rfl
  | some found =>
      obtain ⟨v, rest⟩ := found
      have hrest : Blank rest := fun r hr => hs r (subset_of_readFrom hread hr)
      have hdepth := depth?_of_readFrom hread
      rw [depth?_of_blank hs, depth?_of_blank hrest] at hdepth
      exact absurd (List.length_eq_zero_iff.mp (Option.some.inj hdepth)) hopened

/-- White space after a text in which lists are open is left over with the rest of the text. -/
theorem readFrom_append_blank {opened : Opened} (hopened : opened ≠ []) {s r : Text}
    (hr : Blank r) :
    readFrom opened (s ++ r) = (readFrom opened s).map fun found => (found.1, found.2 ++ r) := by
  fun_induction readFrom opened s with
  | case1 opened s hnone =>
      rcases layout_or_feed_of_next? hnone with hlayout | ⟨w, rest, hw, rfl⟩
      · rw [readFrom_append_layout hlayout]
        exact readFrom_blank hopened hr
      · rw [List.append_assoc]
        exact readFrom_feed hw opened _
  | case2 opened s token after hnext haccept =>
      rcases next?_goes_on_or_ends hnext with ⟨content, rfl, -, -⟩ | ⟨-, -, hends⟩
      · cases haccept
      · rw [readFrom_of_next? (hends r), haccept]
        rfl
  | case3 opened s token after hnext v haccept =>
      rcases next?_goes_on_or_ends hnext with ⟨content, rfl, -, -⟩ | ⟨-, -, hends⟩
      · cases opened with
        | nil => exact absurd rfl hopened
        | cons cells outer => cases haccept
      · rw [readFrom_of_next? (hends r), haccept]
        rfl
  | case4 opened s token after hnext opened' haccept ih =>
      have hopened' := ne_nil_of_accept haccept
      rcases next?_goes_on_or_ends hnext with ⟨content, rfl, rfl, hgoes⟩ | ⟨-, -, hends⟩
      · -- The atom goes on in the white space, and the list is not closed there.
        have hnone : readFrom opened' [] = none := readFrom_blank hopened' (List.forall_mem_nil _)
        rw [readFrom_of_next? (hgoes r), hnone]
        cases opened with
        | nil => exact absurd rfl hopened
        | cons cells outer =>
            exact readFrom_blank (List.cons_ne_nil _ _) (blank_scan _ hr)
      · rw [readFrom_of_next? (hends r), haccept]
        exact ih hopened'

end Reader

/-- What is left after the atom that a text begins with, if it begins with one. -/
def Token.afterAtom? (s : Text) : Option Text :=
  match next? s with
  | some (.atom _, rest) => some rest
  | _ => none

/-- An atom begins with any rune that is neither layout nor a parenthesis nor a form feed. -/
theorem Token.next?_of_head {c : Rune} (hlayout : c.isLayout = false) (hopen : c ≠ .char '(')
    (hclose : c ≠ .char ')') (hfeed : c ≠ .char '\x0c') (s : Text) :
    next? (c :: s) = some (.atom (scan .between (c :: s)).1, (scan .between (c :: s)).2) := by
  rw [next?, List.dropWhile_cons_of_neg (by simp [hlayout])]
  dsimp only
  rw [if_neg hopen, if_neg hclose, if_neg hfeed]

/-- A plain character begins an atom. -/
theorem Token.next?_plain {c : Rune} (hc : c.isPlain = true) (s : Text) :
    next? (c :: s) = some (.atom (scan .between (c :: s)).1, (scan .between (c :: s)).2) := by
  have hmark := isPlain_iff.mp hc
  have hlayout : c.isLayout = false := by
    rw [Bool.eq_false_iff]
    intro h
    rcases isLayout_iff.mp h with rfl | rfl | rfl | rfl <;> exact absurd hc (by decide)
  exact next?_of_head hlayout (hmark '(' (by decide)) (hmark ')' (by decide))
    (hmark '\x0c' (by decide)) s

namespace Text

/-- A text that does not begin with white space begins with a parenthesis or an atom. -/
theorem Trimmed.next?_eq {m : Text} (hm : Trimmed m) :
    (∃ token after, next? m = some (token, after) ∧ afterAtom? m = none ∧
      ∀ t, scan .between (m ++ t) = ([], m ++ t)) ∨
    next? m = some (.atom (scan .between m).1, (scan .between m).2) := by
  obtain ⟨c, hc, hblank⟩ := hm.first
  obtain ⟨rest, rfl⟩ := List.head?_eq_some_iff.mp hc
  have hlayout : c.isLayout = false := by
    rw [Bool.eq_false_iff]
    intro h
    cases hblank.symm.trans (Rune.isBlank_of_isSpace (Rune.isSpace_of_isLayout h))
  have hfeed : c ≠ .char '\x0c' := by
    intro heq
    rw [heq] at hblank
    cases hblank
  by_cases hopen : c = .char '('
  · rw [hopen]
    exact Or.inl ⟨_, _, rfl, rfl, fun _ => rfl⟩
  by_cases hclose : c = .char ')'
  · rw [hclose]
    exact Or.inl ⟨_, _, rfl, rfl, fun _ => rfl⟩
  exact Or.inr (next?_of_head hlayout hopen hclose hfeed rest)

theorem length_trim_le (t : Text) : t.trim.length ≤ t.length := by
  have hleft : ∀ s : Text, s.trimLeft.length ≤ s.length :=
    fun _ => (List.dropWhile_sublist _).length_le
  calc t.trim.length
      = (trimLeft (trimLeft t).reverse).length := List.length_reverse
    _ ≤ (trimLeft t).reverse.length := hleft _
    _ = (trimLeft t).length := List.length_reverse
    _ ≤ t.length := hleft t

end Text

/-- No text that cannot be read is diagnosed as one with something after its expression.
-/
theorem SyntaxError.diagnose_ne_trailing (s rest : Text) : diagnose s ≠ .trailing rest := by
  unfold diagnose
  split <;> exact nofun

/-- What is left over is less than the text. -/
theorem read_ne_trailing (s : Text) : read s ≠ .error (.trailing s) := by
  intro h
  cases hread : readExpr s with
  | none =>
      rw [read_of_none hread] at h
      exact SyntaxError.diagnose_ne_trailing s s (Except.error.inj h)
  | some found =>
      obtain ⟨v, rest⟩ := found
      by_cases hrest : Blank rest
      · rw [read_of_blank hread hrest] at h
        cases h
      · rw [read_of_not_blank hread hrest] at h
        have hrest : rest.trim = s := SyntaxError.trailing.inj (Except.error.inj h)
        have hlt : rest.length < s.length := Reader.length_lt_of_readFrom hread
        have hle := Text.length_trim_le rest
        rw [hrest] at hle
        omega

section Around

variable {m r : Text} (hr : Blank r)
include hr

/-- **A form feed before an expression** hides it. -/
theorem read_feed_append_iff {k : Text} (hk : Blank k) :
    read (.char '\x0c' :: k ++ (m ++ r)) = read m ↔ readExpr m = none := by
  have hfeed : Blank (.char '\x0c' :: k) := List.forall_mem_cons.mpr ⟨⟨_, rfl, rfl⟩, hk⟩
  have hnone : readExpr (.char '\x0c' :: k ++ (m ++ r)) = none :=
    Reader.readFrom_feed (List.forall_mem_nil _) [] _
  rw [read_of_none hnone, SyntaxError.diagnose_blank hfeed, SyntaxError.diagnose_append_blank m hr]
  cases hread : readExpr m with
  | none => exact iff_of_true (read_of_none hread).symm rfl
  | some found =>
      obtain ⟨v, rest⟩ := found
      refine iff_of_false (fun heq => ?_) nofun
      by_cases hrest : Blank rest
      · rw [read_of_blank hread hrest] at heq
        cases heq
      · rw [read_of_not_blank hread hrest] at heq
        exact SyntaxError.diagnose_ne_trailing _ _ (Except.error.inj heq)

variable (hm : m.Trimmed)
include hm

/-- **White space after an expression** changes what is read if it makes an atom longer that is
all there is. -/
theorem read_append_blank_iff : read (m ++ r) = read m ↔
    (afterAtom? m = some [] → ¬ RunsOn (placeAtEnd .between m) r) := by
  obtain ⟨token, after, hnext⟩ : ∃ token after, next? m = some (token, after) := by
    rcases hm.next?_eq with ⟨token, after, hnext, -⟩ | hnext
    · exact ⟨token, after, hnext⟩
    · exact ⟨_, _, hnext⟩
  rcases next?_goes_on_or_ends hnext with ⟨content, rfl, rfl, hgoes⟩ | ⟨hne, -, hends⟩
  · have hatom : afterAtom? m = some [] := by rw [afterAtom?, hnext]
    rw [read_of_blank (readExpr_of_atom hnext) (List.forall_mem_nil _),
      read_of_blank (readExpr_of_atom (hgoes r)) (blank_scan _ hr)]
    rcases scan_blank hr (placeAtEnd .between m) with ⟨hnot, hnil⟩ | ⟨hruns, c, hc, hspace⟩
    · rw [hnil, List.append_nil]
      exact iff_of_true rfl fun _ => hnot
    · refine iff_of_false (fun heq => ?_) (fun h => h hatom hruns)
      have hlonger : content ++ (scan (placeAtEnd .between m) r).1 ≠ content :=
        mt List.append_right_eq_self.mp (List.ne_nil_of_mem hc)
      exact Value.ofContent_ne hspace (List.mem_append_right _ hc) hlonger (Except.ok.inj heq)
  · refine iff_of_true (read_append_blank hr ?_) fun hatom => ?_
    · rw [readExpr, readExpr, Reader.readFrom_of_next? (hends r), Reader.readFrom_of_next? hnext]
      cases token with
      | opening => exact Reader.readFrom_append_blank (List.cons_ne_nil _ _) hr
      | closing => rfl
      | atom content => rfl
    · rw [afterAtom?, hnext] at hatom
      cases token with
      | opening => cases hatom
      | closing => cases hatom
      | atom content => exact absurd (Option.some.inj hatom) (hne content rfl)

/-- White space that is not all plain ends an atom of its own before the expression. -/
theorem read_plain_append_ne {c : Rune} (hc : c.isPlain = true) {more : Text}
    (hk : Blank (c :: more)) (hnot : ¬ ∀ d ∈ c :: more, d.isPlain = true) :
    read (c :: more ++ (m ++ r)) ≠ read m := by
  have hexpr := readExpr_of_atom (next?_plain hc (more ++ (m ++ r)))
  rcases scan_goes_on_or_ends .between (c :: more) with ⟨hnil, -⟩ | ⟨-, -, hends⟩
  · exact absurd ((scan_blank_eq_nil_iff hk).mp hnil) hnot
  · rw [← List.cons_append, hends] at hexpr
    rw [read_of_not_blank hexpr (hm.not_blank_append _ r), hm.trim_eq (blank_scan .between hk) hr]
    exact (read_ne_trailing m).symm

/-- White space that an atom can begin with runs on into the expression. -/
theorem read_plain_append_iff {c : Rune} {more : Text} (hk : Blank (c :: more))
    (hall : ∀ d ∈ c :: more, d.isPlain = true) :
    read (c :: more ++ (m ++ r)) = read m ↔ ∃ rest ∈ afterAtom? m, rest ≠ [] := by
  have hc := hall c List.mem_cons_self
  have hexpr := readExpr_of_atom (next?_plain hc (more ++ (m ++ r)))
  have hgoes : ∀ t, scan .between (c :: more ++ t) =
      ((scan .between (c :: more)).1 ++ (scan .between t).1, (scan .between t).2) := by
    rcases scan_goes_on_or_ends .between (c :: more) with ⟨-, hgoes⟩ | ⟨hne, -, -⟩
    · rwa [placeAtEnd_blank hk] at hgoes
    · exact absurd ((scan_blank_eq_nil_iff hk).mpr hall) hne
  rw [← List.cons_append, hgoes] at hexpr
  rcases hm.next?_eq with ⟨token, after, -, hatom, hscan⟩ | hnext
  · -- A parenthesis ends the atom, and the expression is left over as a whole.
    rw [hscan] at hexpr
    rw [read_of_not_blank hexpr (hm.not_blank_append [] r), hatom]
    have htrim : Text.trim (m ++ r) = m := hm.trim_eq (List.forall_mem_nil _) hr
    rw [htrim]
    exact iff_of_false (read_ne_trailing m).symm (by simp)
  have hatom : afterAtom? m = some (scan .between m).2 := by rw [afterAtom?, hnext]
  rw [hatom]
  rcases scan_goes_on_or_ends .between m with ⟨hnil, hgoes⟩ | ⟨hne, -, hends⟩
  · -- The expression is an atom, and becomes part of a longer one.
    rw [hgoes] at hexpr
    rw [hnil] at hnext ⊢
    rw [read_of_blank hexpr (blank_scan _ hr),
      read_of_blank (readExpr_of_atom hnext) (List.forall_mem_nil _)]
    refine iff_of_false (fun heq => ?_) (by simp)
    rcases scan_blank hk .between with ⟨hnot, -⟩ | ⟨-, d, hd, hspace⟩
    · exact hnot (Or.inr ⟨c, rfl, hc⟩)
    · refine Value.ofContent_ne hspace (List.mem_append_left _ hd) ?_ (Except.ok.inj heq)
      intro hsame
      have hlength := congrArg List.length hsame
      have hpos := List.length_pos_of_mem hd
      simp only [List.length_append] at hlength
      omega
  · -- The first atom becomes longer, and what is left over is the same.
    rw [hends] at hexpr
    have hrest := hm.not_blank_of_suffix (scan_suffix .between m) hne
    rw [read_of_not_blank hexpr fun hall => hrest (blank_append.mp hall).1,
      read_of_not_blank (readExpr_of_atom hnext) hrest, Text.trim_append_blank hrest hr]
    exact iff_of_true rfl ⟨_, rfl, hne⟩

end Around

/-- White space other than layout and the form feed is plain. -/
theorem Rune.isPlain_of_isWhiteSpace {c : Char} (hc : isWhiteSpace c = true)
    (hlayout : (Rune.char c).isLayout = false) (hfeed : Rune.char c ≠ .char '\x0c') :
    (Rune.char c).isPlain = true := by
  have hne : ∀ d, isWhiteSpace d = false → Rune.char c ≠ .char d :=
    fun _ => Rune.char_ne_of_isWhiteSpace hc
  simp only [Rune.isPlain, hlayout, Bool.and_eq_true, bne_iff_ne]
  exact ⟨⟨⟨⟨⟨rfl, hfeed⟩, hne _ rfl⟩, hne _ rfl⟩, hne _ rfl⟩, hne _ rfl⟩

namespace Text

/-- White space does no harm before an expression `m` and after it.  Layout at the beginning is
left out.  If nothing else is before the expression, this must not be an atom that runs on into `r`.
If a form feed comes next, there must be nothing to read in `m`.  Any other white space must lead
up to an atom, and something must be left over after the atom. -/
def HarmlessAround : Text → Text → Text → Prop
  | [], m, r => afterAtom? m = some [] → ¬ RunsOn (placeAtEnd .between m) r
  | c :: more, m, _ =>
    if c = .char '\x0c' then readExpr m = none
    else (∀ d ∈ c :: more, d.isPlain = true) ∧ ∃ rest ∈ afterAtom? m, rest ≠ []

instance (p : Place) (r : Text) : Decidable (RunsOn p r) :=
  inferInstanceAs (Decidable (_ ∨ _))

instance : ∀ k m r : Text, Decidable (HarmlessAround k m r)
  | [], _, _ => inferInstanceAs (Decidable (_ → _))
  | c :: more, m, _ => inferInstanceAs (Decidable (if c = .char '\x0c' then readExpr m = none
      else (∀ d ∈ c :: more, d.isPlain = true) ∧ ∃ rest ∈ afterAtom? m, rest ≠ []))

/-- The white space that is trimmed from a text does no harm in it. -/
def IsSafeToTrim (t : Text) : Prop :=
  HarmlessAround (t.leading.dropWhile Rune.isLayout) t.trim t.trailing

instance (t : Text) : Decidable t.IsSafeToTrim :=
  inferInstanceAs (Decidable (HarmlessAround _ _ _))

end Text

/-- **What white space around an expression does** is told by what it begins with. -/
theorem read_around_iff {k m r : Text} (hk : Blank k) (hhead : ∀ c ∈ k.head?, c.isLayout = false)
    (hm : m.Trimmed) (hr : Blank r) :
    read (k ++ (m ++ r)) = read m ↔ Text.HarmlessAround k m r := by
  cases k with
  | nil => exact read_append_blank_iff hr hm
  | cons c more =>
      rw [Text.HarmlessAround]
      split
      · rename_i hfeed
        rw [hfeed]
        exact read_feed_append_iff hr (List.forall_mem_cons.mp hk).2
      · rename_i hfeed
        have hc : c.isPlain = true := by
          obtain ⟨d, rfl, hspace⟩ := hk c List.mem_cons_self
          exact Rune.isPlain_of_isWhiteSpace hspace (hhead _ rfl) hfeed
        by_cases hall : ∀ d ∈ c :: more, d.isPlain = true
        · rw [read_plain_append_iff hr hm hk hall, and_iff_right hall]
        · exact iff_of_false (read_plain_append_ne hr hm hc hk hall) fun h => hall h.1

/-- **When trimming keeps the expression.** -/
theorem read_trim_iff {t : Text} (h : ¬ Blank t) : read t = read t.trim ↔ t.IsSafeToTrim := by
  obtain ⟨l, m, r, hl, hm, hr, rfl⟩ := Text.exists_trimmed h
  rw [Text.IsSafeToTrim, hm.trim_eq hl hr, hm.leading_eq hl, hm.trailing_eq hr]
  have hk : Blank (l.dropWhile Rune.isLayout) :=
    fun r hr => hl r ((List.dropWhile_sublist _).subset hr)
  have hhead : ∀ c ∈ (l.dropWhile Rune.isLayout).head?, c.isLayout = false := by
    intro c hc
    have hnot := List.head?_dropWhile_not Rune.isLayout l
    rw [hc] at hnot
    exact hnot
  have hread := read_layout (layout_takeWhile l) (l.dropWhile Rune.isLayout ++ (m ++ r))
  rw [← List.append_assoc, List.takeWhile_append_dropWhile] at hread
  rw [hread, read_around_iff hk hhead hm hr]

namespace Repl

open Interpreter

/-- Texts that are read alike are answered alike. -/
theorem answer_of_read {s t : Text} (h : LexLisp.read s = LexLisp.read t) (n : Nat) (e : EnvId)
    (p : Progress) : answer n e s p = answer n e t p := by
  rw [answer, answer, Interpreter.evalText, Interpreter.evalText, Interpreter.read,
    Interpreter.read, h]

end Repl

end LexLisp
