import LexLisp.Command.Execution
import LexLisp.Proofs.Parentheses

/-!
# Sources one by one or joined

A program may come in several sources.  Each of them is read for itself, and that is as good as
reading them joined by line feeds, if each has come to its end: in no verbatim section and not
after a backslash, and with layout only after its last expression (`Joinable`).

The reader looks ahead in one place only, where an atom goes on as long as it can
(`Token.scan_goes_on_or_ends`).  White space ends it, and so a token and an expression of such a
text are read the same if white space follows and then anything else (`Token.next?_append`,
`Reader.readFrom_append`); and so are all its expressions if a line feed follows
(`readAll_append`).
-/

namespace LexLisp

open Grammar

namespace Rune

/-- Does this rune part one atom from another?  It does if it is layout or a form feed. -/
def isSpace (r : Rune) : Bool := r.isLayout || r == .char '\x0c'

/-- Space is layout and the form feed. -/
theorem isSpace_iff {r : Rune} : r.isSpace = true ↔
    r = .char ' ' ∨ r = .char '\t' ∨ r = .char '\r' ∨ r = .char '\n' ∨ r = .char '\x0c' := by
  simp [isSpace, isLayout_iff, or_assoc]

end Rune

namespace Token

open Parentheses

/-- The place after a text that begins in this one. -/
def placeAtEnd (p : Place) (s : Text) : Place :=
  s.foldl (fun q r => placeAfter r q) p

theorem placeAtEnd_cons (p : Place) (r : Rune) (s : Text) :
    placeAtEnd p (r :: s) = placeAtEnd (placeAfter r p) s := rfl

/-- Layout between tokens does not change the place. -/
theorem placeAtEnd_dropWhile (s : Text) :
    placeAtEnd .between (s.dropWhile Rune.isLayout) = placeAtEnd .between s := by
  induction s with
  | nil => rfl
  | cons r s ih =>
      by_cases hr : r.isLayout = true
      · have hplace : placeAfter r .between = .between := by
          rcases isLayout_iff.mp hr with rfl | rfl | rfl | rfl <;> rfl
        rw [List.dropWhile_cons_of_pos hr, placeAtEnd_cons, hplace, ih]
      · rw [List.dropWhile_cons_of_neg hr]

/-- An atom goes on after a text, from the place in which the text ends; or it ends in the text,
whatever follows, and what is left of the text ends in the same place. -/
def GoesOnOrEnds (p : Place) (s : Text) : Prop :=
  ((scan p s).2 = [] ∧ ∀ t, scan p (s ++ t) =
    ((scan p s).1 ++ (scan (placeAtEnd p s) t).1, (scan (placeAtEnd p s) t).2)) ∨
  ((scan p s).2 ≠ [] ∧ placeAtEnd .between (scan p s).2 = placeAtEnd p s ∧
    ∀ t, scan p (s ++ t) = ((scan p s).1, (scan p s).2 ++ t))

section GoesOnOrEnds

variable {p q : Place} {r : Rune} {s : Text} (hplace : placeAfter r p = q)
include hplace

/-- One rune more that stands for nothing. -/
theorem GoesOnOrEnds.skip (hscan : ∀ t, scan p (r :: t) = scan q t) (h : GoesOnOrEnds q s) :
    GoesOnOrEnds p (r :: s) := by
  simp only [GoesOnOrEnds, List.cons_append, hscan, placeAtEnd_cons, hplace]
  exact h

/-- One rune more that stands for a character. -/
theorem GoesOnOrEnds.take
    (hscan : ∀ t, scan p (r :: t) = (r.toChar :: (scan q t).1, (scan q t).2))
    (h : GoesOnOrEnds q s) : GoesOnOrEnds p (r :: s) := by
  simp only [GoesOnOrEnds, List.cons_append, hscan, placeAtEnd_cons, hplace]
  rcases h with ⟨hnil, hgoes⟩ | ⟨hne, hend, hends⟩
  · exact Or.inl ⟨hnil, fun t => by rw [hgoes]⟩
  · exact Or.inr ⟨hne, hend, fun t => by rw [hends]⟩

end GoesOnOrEnds

/-- Every text leaves an atom open at its end or ends it. -/
theorem scan_goes_on_or_ends (p : Place) (s : Text) : GoesOnOrEnds p s := by
  induction s generalizing p with
  | nil => exact Or.inl ⟨rfl, fun _ => rfl⟩
  | cons r rest ih =>
      cases p with
      | between =>
          by_cases hback : r = .char '\\'
          · exact .skip (if_pos hback) (fun t => by rw [scan, if_pos hback]) (ih _)
          by_cases hquote : r = .char '"'
          · exact .skip (by rw [placeAfter, if_neg hback, if_pos hquote])
              (fun t => by rw [scan, if_neg hback, if_pos hquote]) (ih _)
          by_cases hplain : r.isPlain = true
          · exact .take (by rw [placeAfter, if_neg hback, if_neg hquote])
              (fun t => by rw [scan, if_neg hback, if_neg hquote, if_pos hplain]) (ih _)
          · have hends : ∀ t, scan .between (r :: t) = ([], r :: t) := by
              intro t
              rw [scan, if_neg hback, if_neg hquote, if_neg hplain]
            refine Or.inr ⟨?_, ?_, fun t => ?_⟩
            · rw [hends]
              exact List.cons_ne_nil _ _
            · rw [hends]
            · rw [List.cons_append, hends, hends]
              rfl
      | verbatim =>
          by_cases hback : r = .char '\\'
          · exact .skip (if_pos hback) (fun t => by rw [scan, if_pos hback]) (ih _)
          by_cases hquote : r = .char '"'
          · exact .skip (by rw [placeAfter, if_neg hback, if_pos hquote])
              (fun t => by rw [scan, if_neg hback, if_pos hquote]) (ih _)
          · exact .take (by rw [placeAfter, if_neg hback, if_neg hquote])
              (fun t => by rw [scan, if_neg hback, if_neg hquote]) (ih _)
      | escape inVerbatim => exact .take rfl (fun t => by rw [scan]; rfl) (ih _)

/-- A space ends an atom. -/
theorem scan_space {c : Rune} (hc : c.isSpace = true) (more : Text) :
    scan .between (c :: more) = ([], c :: more) := by
  rcases Rune.isSpace_iff.mp hc with rfl | rfl | rfl | rfl | rfl <;> rfl

/-- A token goes on after a text that it is the end of, if it is an atom; any other is the same,
whatever follows. -/
theorem next?_goes_on_or_ends {s after : Text} {token : Token}
    (h : next? s = some (token, after)) :
    (∃ content, token = .atom content ∧ after = [] ∧ ∀ t, next? (s ++ t) =
      some (.atom (content ++ (scan (placeAtEnd .between s) t).1),
        (scan (placeAtEnd .between s) t).2)) ∨
    ((∀ content, token = .atom content → after ≠ []) ∧
      placeAtEnd .between after = placeAtEnd .between s ∧
      ∀ t, next? (s ++ t) = some (token, after ++ t)) := by
  rw [← placeAtEnd_dropWhile s]
  rw [next?] at h
  cases hdrop : s.dropWhile Rune.isLayout with
  | nil =>
      rw [hdrop] at h
      cases h
  | cons r rest =>
      have hmore : ∀ t, (s ++ t).dropWhile Rune.isLayout = r :: (rest ++ t) := by
        intro t
        rw [List.dropWhile_append, hdrop]
        rfl
      simp only [next?, hmore]
      rw [hdrop] at h
      dsimp only at h
      split at h
      · rename_i hopen
        cases h
        rw [hopen]
        exact Or.inr ⟨fun _ h => Token.noConfusion h, rfl, fun _ => if_pos rfl⟩
      · rename_i hopen
        split at h
        · rename_i hclose
          cases h
          rw [hclose]
          exact Or.inr ⟨fun _ h => Token.noConfusion h, rfl,
            fun _ => by rw [if_neg (by decide), if_pos rfl]⟩
        · rename_i hclose
          split at h
          · cases h
          · rename_i hfeed
            cases h
            simp only [if_neg hopen, if_neg hclose, if_neg hfeed, ← List.cons_append]
            rcases scan_goes_on_or_ends .between (r :: rest) with ⟨hnil, hgoes⟩ | ⟨hne, hend, hends⟩
            · exact Or.inl ⟨_, rfl, hnil, fun t => by rw [hgoes]⟩
            · exact Or.inr ⟨fun _ _ => hne, hend, fun t => by rw [hends]⟩

/-- **A token is the same** if white space follows the text. -/
theorem next?_append {s after : Text} {token : Token} (h : next? s = some (token, after))
    (hend : placeAtEnd .between s = .between) {c : Rune} (hc : c.isSpace = true) (more : Text) :
    next? (s ++ c :: more) = some (token, after ++ c :: more) ∧
      placeAtEnd .between after = .between := by
  rcases next?_goes_on_or_ends h with ⟨content, rfl, rfl, hgoes⟩ | ⟨-, hafter, hends⟩
  · rw [hgoes, hend, scan_space hc, List.append_nil]
    exact ⟨rfl, rfl⟩
  · exact ⟨hends _, hafter.trans hend⟩

end Token

open Token

namespace Reader

/-- **An expression is the same** if white space follows the text. -/
theorem readFrom_append {opened : Opened} {s after : Text} {v : Value}
    (h : readFrom opened s = some (v, after)) (hend : placeAtEnd .between s = .between) {c : Rune}
    (hc : c.isSpace = true) (more : Text) :
    readFrom opened (s ++ c :: more) = some (v, after ++ c :: more) ∧
      placeAtEnd .between after = .between := by
  fun_induction readFrom opened s with
  | case1 => cases h
  | case2 => cases h
  | case3 opened s token after hnext w haccept =>
      cases h
      obtain ⟨hnext', hafter⟩ := next?_append hnext hend hc more
      rw [readFrom_of_next? hnext', haccept]
      exact ⟨rfl, hafter⟩
  | case4 opened s token after hnext opened' haccept ih =>
      obtain ⟨hnext', hafter⟩ := next?_append hnext hend hc more
      rw [readFrom_of_next? hnext', haccept]
      exact ih h hafter

end Reader

/-- White space before a text does not change what is wrong with it. -/
theorem SyntaxError.diagnose_blank {w : Text} (hw : Blank w) (s : Text) :
    diagnose (w ++ s) = diagnose s := by
  rw [diagnose, diagnose, Text.trimLeft, Text.trimLeft, List.dropWhile_append_of_pos]
  exact List.all_eq_true.mp (isBlank_iff.mpr hw)

theorem Grammar.blank_append {s t : Text} : Blank (s ++ t) ↔ Blank s ∧ Blank t :=
  List.forall_mem_append

/-- Layout can be decided rune by rune. -/
theorem Grammar.layout_iff_all {s : Text} : s.all Rune.isLayout = true ↔ Layout s := by
  rw [List.all_eq_true]
  exact forall₂_congr fun r _ => isLayout_iff

/-- Layout before the first expression does not count. -/
theorem readAll_layout {w : Text} (hw : Layout w) (s : Text) : readAll (w ++ s) = readAll s := by
  have hblank : (w ++ s).isBlank = s.isBlank := by
    rw [Bool.eq_iff_iff, isBlank_iff, isBlank_iff, blank_append]
    exact and_iff_right hw.blank
  exact readAll_eq_of_readExpr hblank (SyntaxError.diagnose_blank hw.blank s)
    (Reader.readFrom_append_layout hw [] s)

/-- What follows the last expression that is read from a text. -/
def leftOver (s : Text) : Text :=
  if s.isBlank then s
  else
    match _h : readExpr s with
    | none => s
    | some (_, rest) => leftOver rest
termination_by s.length
decreasing_by exact Reader.length_lt_of_readFrom _h

theorem leftOver_of_blank {s : Text} (hblank : s.isBlank = true) : leftOver s = s := by
  rw [leftOver, if_pos hblank]

/-- What is left over after all expressions is what is left over after all but the first.
-/
theorem leftOver_of_some {s rest : Text} {v : Value} (hblank : ¬ s.isBlank = true)
    (h : readExpr s = some (v, rest)) : leftOver s = leftOver rest := by
  rw [leftOver, if_neg hblank]
  split
  · simp_all
  · simp_all

/-- A source that has come to its end: all its expressions are read, it ends in no verbatim
section and not after a backslash, and only layout follows the last expression. -/
structure Joinable (s : Text) : Prop where
  readable : ∃ vs, readAll s = .ok vs
  ended : placeAtEnd .between s = .between
  layout : Layout (leftOver s)

/-- Whether a source has come to its end can be decided. -/
theorem joinable_iff {s : Text} : Joinable s ↔ (readAll s).isOk = true ∧
    placeAtEnd .between s = .between ∧ (leftOver s).all Rune.isLayout = true := by
  constructor
  · intro h
    obtain ⟨⟨vs, hread⟩, hend, hleft⟩ := h
    exact ⟨by rw [hread]; rfl, hend, layout_iff_all.mpr hleft⟩
  · intro h
    obtain ⟨hok, hend, hleft⟩ := h
    refine ⟨?_, hend, layout_iff_all.mp hleft⟩
    cases hread : readAll s with
    | ok vs => exact ⟨vs, rfl⟩
    | error e =>
        rw [hread] at hok
        cases hok

instance (s : Text) : Decidable (Joinable s) :=
  decidable_of_iff _ joinable_iff.symm

/-- **All expressions are the same** if a line feed follows the text, and after them come those
of the text after it. -/
theorem readAll_append {s : Text} {vs : List Value} (h : readAll s = .ok vs)
    (hend : placeAtEnd .between s = .between) (hleft : Layout (leftOver s)) (more : Text) :
    readAll (s ++ .char '\n' :: more) = (readAll more).map (vs ++ ·) := by
  fun_induction readAll s generalizing vs with
  | case1 s hblank =>
      cases h
      rw [leftOver_of_blank hblank] at hleft
      have hline : Layout [.char '\n'] := by simp [Layout]
      have hlayout : Layout (s ++ [.char '\n']) := List.forall_mem_append.mpr ⟨hleft, hline⟩
      rw [List.append_cons, readAll_layout hlayout]
      cases readAll more <;> rfl
  | case2 s hblank hnone => cases h
  | case3 s hblank v rest hread ih =>
      cases hrest : readAll rest with
      | error e =>
          rw [hrest] at h
          cases h
      | ok ws =>
          rw [hrest] at h
          cases h
          rw [leftOver_of_some hblank hread] at hleft
          have hline : Rune.isSpace (.char '\n') = true := rfl
          obtain ⟨hread', hafter⟩ := Reader.readFrom_append hread hend hline more
          have hblank' : ¬ Text.isBlank (s ++ .char '\n' :: more) = true := by
            rw [isBlank_iff] at hblank ⊢
            exact fun hall => hblank (blank_append.mp hall).1
          rw [readAll_of_some hblank' hread', ih hrest hafter hleft]
          cases readAll more <;> rfl

namespace Command

/-- The first source is read, and then the others. -/
theorem readProgram_cons {arg : Text} {vs : List Value} (h : readAll arg = .ok vs) (files : Files)
    (rest : List Text) :
    readProgram files true (arg :: rest) = (readProgram files true rest).map (vs ++ ·) := by
  have harg : readArgument files true arg = .ok vs := by
    rw [readArgument, if_pos rfl, h]
    rfl
  rw [readProgram, harg]

/-- A single source is read as it is. -/
theorem readProgram_singleton (files : Files) (arg : Text) :
    readProgram files true [arg] = (readAll arg).mapError (.unreadable none) := by
  rw [readProgram, readArgument, if_pos rfl]
  cases readAll arg with
  | error e => rfl
  | ok vs =>
      show Except.ok (vs ++ []) = Except.ok vs
      rw [List.append_nil]

/-- **Sources are read as if they were joined.** -/
theorem readProgram_eq_readAll (files : Files) (sources : List (List UInt8))
    (h : ∀ a ∈ sources.dropLast, Joinable (.ofBytes a)) :
    readProgram files true (sources.map .ofBytes) =
      (readAll (.ofBytes ([0x0A].intercalate sources))).mapError (.unreadable none) := by
  match sources with
  | [] =>
      have hnone : readAll [] = .ok [] := by
        rw [readAll]
        rfl
      exact congrArg (Except.mapError _) hnone.symm
  | [a] =>
      rw [List.intercalate_singleton]
      exact readProgram_singleton files (.ofBytes a)
  | a :: b :: rest =>
      obtain ⟨⟨⟨vs, hread⟩, hend, hleft⟩, hrest⟩ := List.forall_mem_cons.mp h
      have hjoined : ([0x0A] : List UInt8).intercalate (a :: b :: rest) =
          a ++ 0x0A :: [0x0A].intercalate (b :: rest) := by
        rw [List.intercalate_cons_cons, List.append_assoc]
        rfl
      rw [List.map_cons, readProgram_cons hread, readProgram_eq_readAll files (b :: rest) hrest,
        hjoined, Text.ofBytes_append_newline, readAll_append hread hend hleft]
      cases readAll (.ofBytes ([0x0A].intercalate (b :: rest))) <;> rfl

end Command

/-- **Joined sources are read in turn.**  Let a source have come to its end, and let a line feed
and any other source follow it.  If the other source is read, then both are read together, as
the expressions of the first and after them those of the second; if not, then they fail with the
error of the second.

So a program of several sources is read as the sources joined by line feeds, if they have all
come to their ends but perhaps the last. -/
theorem joined_sources_are_read_in_turn :
    (∀ a b : List UInt8, Joinable (.ofBytes a) → ∃ vs, readAll (.ofBytes a) = .ok vs ∧
      (∀ ws, readAll (.ofBytes b) = .ok ws →
        readAll (.ofBytes (a ++ 0x0A :: b)) = .ok (vs ++ ws)) ∧
      ∀ e, readAll (.ofBytes b) = .error e → readAll (.ofBytes (a ++ 0x0A :: b)) = .error e) ∧
    ∀ (files : Command.Files) (sources : List (List UInt8)),
      (∀ a ∈ sources.dropLast, Joinable (.ofBytes a)) →
        Command.readProgram files true (sources.map .ofBytes) =
          (readAll (.ofBytes ([0x0A].intercalate sources))).mapError (.unreadable none) := by
  refine ⟨?_, Command.readProgram_eq_readAll⟩
  intro a b ha
  obtain ⟨⟨vs, hread⟩, hend, hleft⟩ := ha
  have hjoined := readAll_append hread hend hleft (.ofBytes b)
  rw [← Text.ofBytes_append_newline] at hjoined
  refine ⟨vs, hread, ?_, ?_⟩
  · intro ws hws
    rw [hjoined, hws]
    rfl
  · intro e he
    rw [hjoined, he]
    rfl

/-- An atom with a quoted parenthesis, an escaped space and the first byte of a character at its
end, and after the line feed what would have been the other byte. -/
theorem cut_character_is_not_joined :
    ∃ a b : List UInt8, a = [0x22, 0x28, 0x22, 0x5C, 0x20, 0xC3, 0x09] ∧ b = [0xA9, 0x29] ∧
      Joinable (.ofBytes a) ∧ readAll (.ofBytes b) = .error .unexpectedClose ∧
      readAll (.ofBytes (a ++ 0x0A :: b)) = .error .unexpectedClose ∧
      Command.readProgram (fun _ => .error .notFound) true [.ofBytes a, .ofBytes a, .ofBytes b] =
        (readAll (.ofBytes ([0x0A].intercalate [a, a, b]))).mapError (.unreadable none) := by
  obtain ⟨hpair, hall⟩ := joined_sources_are_read_in_turn
  have ha : Joinable (.ofBytes [0x22, 0x28, 0x22, 0x5C, 0x20, 0xC3, 0x09]) := by decide +kernel
  have hb : readAll (.ofBytes [0xA9, 0x29]) = .error .unexpectedClose := by
    have hfails : (readAll (.ofBytes [0xA9, 0x29])).map (fun _ => ()) = .error .unexpectedClose := by
      decide +kernel
    cases hread : readAll (.ofBytes [0xA9, 0x29]) with
    | ok vs =>
        rw [hread] at hfails
        cases hfails
    | error e =>
        rw [hread] at hfails
        cases hfails
        rfl
  obtain ⟨vs, -, -, hfail⟩ := hpair _ [0xA9, 0x29] ha
  refine ⟨_, _, rfl, rfl, ha, hb, hfail _ hb, hall _ [_, _, _] ?_⟩
  intro source hsource
  have heq : source = [0x22, 0x28, 0x22, 0x5C, 0x20, 0xC3, 0x09] := by simpa using hsource
  rw [heq]
  exact ha

end LexLisp
