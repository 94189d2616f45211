import LexLisp.Proofs.Grammar

/-!
# Unbalanced parentheses

The reader gives up on an expression as a whole, and says why by looking at the rune the
expression begins with.  That this is always the true reason is shown by counting: `bare`
leaves out what stands in verbatim sections and after backslashes, and of what is left only
the parentheses count.

`depth?` follows the count rune by rune, up to a parenthesis that closes nothing.  An atom
does not change it (`depth?_scan`), an expression that is read leaves it where it was
(`depth?_of_readFrom`), and a list that is not read is still open at the end
(`exists_depth?_of_unclosed`).  So the count decides what becomes of a text
(`judged_depth?`).
-/

namespace LexLisp

open Token

theorem ne_of_isWhiteSpace {c d : Char} (hc : isWhiteSpace c = true)
    (hd : isWhiteSpace d = false) : c ≠ d := by
  rintro rfl
  cases hc.symm.trans hd

theorem Rune.char_ne_of_isWhiteSpace {c d : Char} (hc : isWhiteSpace c = true)
    (hd : isWhiteSpace d = false) : Rune.char c ≠ .char d :=
  fun heq => ne_of_isWhiteSpace hc hd (Rune.char.inj heq)

namespace Parentheses

/-- Where the next rune stands, after a rune that stands in this place. -/
def placeAfter (r : Rune) : Place → Place
  | .between =>
    if r = .char '\\' then .escape false else if r = .char '"' then .verbatim else .between
  | .verbatim =>
    if r = .char '\\' then .escape true else if r = .char '"' then .between else .verbatim
  | .escape inVerbatim => if inVerbatim then .verbatim else .between

/-- The runes of a text that stand neither in a verbatim section nor right after a
backslash, where the text begins in this place. -/
def bare (p : Place) : Text → Text
  | [] => []
  | r :: rest =>
    if p = .between then r :: bare (placeAfter r p) rest else bare (placeAfter r p) rest

/-- How many parentheses a text opens. -/
def openings (p : Place) (t : Text) : Nat := (bare p t).count (.char '(')

/-- How many parentheses a text closes. -/
def closings (p : Place) (t : Text) : Nat := (bare p t).count (.char ')')

/-- How many parentheses are open after a text, if there were `n` before it.  There is no
answer if a parenthesis is closed that was not opened. -/
def depth? (p : Place) (n : Nat) : Text → Option Nat
  | [] => some n
  | r :: rest =>
    if p = .between ∧ r = .char '(' then depth? .between (n + 1) rest
    else if p = .between ∧ r = .char ')' then
      match n with
      | 0 => none
      | n + 1 => depth? .between n rest
    else depth? (placeAfter r p) n rest

/-- A parenthesis is opened by its mark, outside of verbatim sections and escapes only. -/
theorem openings_cons (p : Place) (r : Rune) (t : Text) :
    openings p (r :: t) =
      openings (placeAfter r p) t + if p = .between ∧ r = .char '(' then 1 else 0 := by
  unfold openings
  rw [bare]
  split <;> simp_all [List.count_cons]

/-- A parenthesis is closed by its mark, outside of verbatim sections and escapes only. -/
theorem closings_cons (p : Place) (r : Rune) (t : Text) :
    closings p (r :: t) =
      closings (placeAfter r p) t + if p = .between ∧ r = .char ')' then 1 else 0 := by
  unfold closings
  rw [bare]
  split <;> simp_all [List.count_cons]

/-- The answer to the question how many parentheses are open after a text, if there were
`n` before it, in terms of all beginnings of the text. -/
def Counts (p : Place) (n : Nat) (t : Text) : Option Nat → Prop
  | none => ∃ q, q <+: t ∧ n + openings p q < closings p q
  | some m => (∀ q, q <+: t → closings p q ≤ n + openings p q) ∧
      n + openings p t = m + closings p t

/-- One rune more at the beginning of the text. -/
theorem Counts.cons {p : Place} {n k : Nat} {r : Rune} {t : Text} {answer : Option Nat}
    (h : Counts (placeAfter r p) k t answer)
    (hn : n + (if p = .between ∧ r = .char '(' then 1 else 0) =
      k + if p = .between ∧ r = .char ')' then 1 else 0) : Counts p n (r :: t) answer := by
  cases answer with
  | none =>
      obtain ⟨q, hq, hlt⟩ := h
      refine ⟨r :: q, List.cons_prefix_cons.mpr ⟨rfl, hq⟩, ?_⟩
      rw [openings_cons, closings_cons]
      omega
  | some m =>
      obtain ⟨hall, htotal⟩ := h
      refine ⟨?_, ?_⟩
      · intro q hq
        rcases List.prefix_cons_iff.mp hq with rfl | ⟨q', rfl, hq'⟩
        · exact Nat.zero_le _
        · have hle := hall q' hq'
          rw [openings_cons, closings_cons]
          omega
      · rw [openings_cons, closings_cons]
        omega

/-- **`depth?` counts.** -/
theorem depth?_counts (p : Place) (n : Nat) (t : Text) : Counts p n t (depth? p n t) := by
  fun_induction depth? p n t with
  | case1 p n =>
      refine ⟨?_, rfl⟩
      intro q hq
      rw [List.prefix_nil.mp hq]
      exact Nat.zero_le _
  | case2 p n r rest hopen ih =>
      obtain ⟨rfl, rfl⟩ := hopen
      exact Counts.cons (k := n + 1) ih (by simp)
  | case3 p r rest hopen hclose =>
      obtain ⟨rfl, rfl⟩ := hclose
      exact ⟨[.char ')'], List.cons_prefix_cons.mpr ⟨rfl, List.nil_prefix⟩, by decide⟩
  | case4 p r rest hopen hclose n ih =>
      obtain ⟨rfl, rfl⟩ := hclose
      exact Counts.cons (k := n) ih (by simp)
  | case5 p n r rest hopen hclose ih => exact ih.cons (by rw [if_neg hopen, if_neg hclose])

/-- There is no depth exactly if a beginning of the text closes more than is open. -/
theorem depth?_eq_none_iff {p : Place} {n : Nat} {t : Text} :
    depth? p n t = none ↔ ∃ q, q <+: t ∧ n + openings p q < closings p q := by
  have hcounts := depth?_counts p n t
  cases hdepth : depth? p n t with
  | none =>
      rw [hdepth] at hcounts
      exact iff_of_true rfl hcounts
  | some m =>
      rw [hdepth] at hcounts
      refine iff_of_false (Option.some_ne_none m) ?_
      rintro ⟨q, hq, hlt⟩
      exact absurd (hcounts.1 q hq) (Nat.not_le_of_lt hlt)

/-- The depth is what is opened and not closed, if no beginning closes too much. -/
theorem depth?_eq_some_iff {p : Place} {n m : Nat} {t : Text} :
    depth? p n t = some m ↔
      (∀ q, q <+: t → closings p q ≤ n + openings p q) ∧ n + openings p t = m + closings p t := by
  have hcounts := depth?_counts p n t
  cases hdepth : depth? p n t with
  | none =>
      rw [hdepth] at hcounts
      obtain ⟨q, hq, hlt⟩ := hcounts
      refine iff_of_false (Option.some_ne_none m).symm ?_
      rintro ⟨hall, -⟩
      exact absurd (hall q hq) (Nat.not_le_of_lt hlt)
  | some m' =>
      rw [hdepth] at hcounts
      constructor
      · rintro ⟨⟩
        exact hcounts
      · rintro ⟨-, htotal⟩
        have hsame : m' = m := Nat.add_right_cancel (hcounts.2.symm.trans htotal)
        rw [hsame]

/-- A rune that is no bare parenthesis does not count. -/
theorem depth?_other {p : Place} {r : Rune} (hopen : ¬ (p = .between ∧ r = .char '('))
    (hclose : ¬ (p = .between ∧ r = .char ')')) (n : Nat) (t : Text) :
    depth? p n (r :: t) = depth? (placeAfter r p) n t := by
  rw [depth?.eq_def]
  dsimp only
  rw [if_neg hopen, if_neg hclose]

/-- The parentheses of an atom do not count. -/
theorem depth?_scan (p : Place) (n : Nat) (t : Text) :
    depth? p n t = depth? .between n (scan p t).2 := by
  fun_induction scan p t with
  | case1 p => rfl
  | case2 rest ih => exact (depth?_other (by decide) (by decide) n rest).trans ih
  | case3 rest hback ih => exact (depth?_other (by decide) (by decide) n rest).trans ih
  | case4 r rest hback hquote hplain content after hscan ih =>
      have hplace : placeAfter r .between = .between := by
        rw [placeAfter, if_neg hback, if_neg hquote]
      have hmark : ∀ c ∈ Text.marks, r ≠ .char c := Grammar.isPlain_iff.mp hplain
      rw [depth?_other (fun h => hmark '(' (by decide) h.2) (fun h => hmark ')' (by decide) h.2),
        hplace, ih, hscan]
  | case5 r rest hback hquote hplain => rfl
  | case6 rest ih => exact (depth?_other (by decide) (by decide) n rest).trans ih
  | case7 rest hback ih => exact (depth?_other (by decide) (by decide) n rest).trans ih
  | case8 r rest hback hquote content after hscan ih =>
      have hplace : placeAfter r .verbatim = .verbatim := by
        rw [placeAfter, if_neg hback, if_neg hquote]
      rw [depth?_other (by simp) (by simp), hplace, ih, hscan]
  | case9 inVerbatim r rest content after hscan ih =>
      rw [depth?_other (by simp) (by simp), placeAfter, ih, hscan]

/-- White space between pieces leaves the place as it is. -/
theorem placeAfter_of_isWhiteSpace {c : Char} (hc : isWhiteSpace c = true) :
    placeAfter (.char c) .between = .between := by
  rw [placeAfter, if_neg (Rune.char_ne_of_isWhiteSpace hc rfl),
    if_neg (Rune.char_ne_of_isWhiteSpace hc rfl)]

/-- White space does not count. -/
theorem depth?_blank {w : Text} (hw : Grammar.Blank w) (n : Nat) (t : Text) :
    depth? .between n (w ++ t) = depth? .between n t := by
  induction w with
  | nil => rfl
  | cons r w ih =>
      obtain ⟨⟨c, rfl, hspace⟩, hrest⟩ := List.forall_mem_cons.mp hw
      have hopen : Rune.char c ≠ .char '(' := Rune.char_ne_of_isWhiteSpace hspace rfl
      have hclose : Rune.char c ≠ .char ')' := Rune.char_ne_of_isWhiteSpace hspace rfl
      rw [List.cons_append, depth?_other (fun h => hopen h.2) (fun h => hclose h.2),
        placeAfter_of_isWhiteSpace hspace, ih hrest]

/-- White space does not change the depth. -/
theorem depth?_of_blank {w : Text} (hw : Grammar.Blank w) (n : Nat) :
    depth? .between n w = some n := by
  have hdepth := depth?_blank hw n []
  rwa [List.append_nil] at hdepth

end Parentheses

open Parentheses

/-- Layout is white space. -/
theorem Grammar.Layout.blank {w : Text} (hw : Layout w) : Blank w := by
  intro r hr
  rcases hw r hr with rfl | rfl | rfl | rfl <;> exact ⟨_, rfl, by decide⟩

theorem Grammar.layout_takeWhile (s : Text) : Layout (s.takeWhile Rune.isLayout) :=
  fun _ hr => isLayout_iff.mp (List.mem_takeWhile_imp hr)

/-- Where no token begins there is only layout, or a form feed after the layout. -/
theorem Token.layout_or_feed_of_next? {s : Text} (h : next? s = none) :
    Grammar.Layout s ∨ ∃ w rest, Grammar.Layout w ∧ s = w ++ .char '\x0c' :: rest := by
  have hw := Grammar.layout_takeWhile s
  have hs := List.takeWhile_append_dropWhile (p := Rune.isLayout) (l := s)
  rw [next?] at h
  cases hdrop : s.dropWhile Rune.isLayout with
  | nil =>
      rw [hdrop, List.append_nil] at hs
      rw [hs] at hw
      exact Or.inl hw
  | cons r rest =>
      rw [hdrop] at h hs
      dsimp only at h
      split at h
      · cases h
      · split at h
        · cases h
        · split at h
          · rename_i hr
            rw [hr] at hs
            exact Or.inr ⟨s.takeWhile Rune.isLayout, rest, hw, hs.symm⟩
          · cases h

/-- If there is no token in a text without form feeds, it is layout. -/
theorem Token.layout_of_next? {s : Text} (hfeed : .char '\x0c' ∉ s) (h : next? s = none) :
    Grammar.Layout s := by
  rcases layout_or_feed_of_next? h with hlayout | ⟨w, rest, -, hs⟩
  · exact hlayout
  · exact absurd (hs ▸ List.mem_append_right w List.mem_cons_self) hfeed

/-- What is left after a token is part of the text. -/
theorem Token.subset_of_next? {s rest : Text} {token : Token} (h : next? s = some (token, rest)) :
    rest ⊆ s := by
  obtain ⟨w, x, hs, -, -⟩ := exists_spelled h
  rw [hs]
  exact fun r hr => List.mem_append_right _ (List.mem_append_right _ hr)

namespace Reader

/-- How many lists are open. -/
def stillOpen : Value ⊕ Opened → Nat
  | .inl _ => 0
  | .inr opened => opened.length

/-- A value that is put in its place opens no list. -/
theorem stillOpen_place (v : Value) (opened : Opened) :
    stillOpen (place v opened) = opened.length := by
  cases opened <;> rfl

/-- A token that is accepted opens and closes lists as its parentheses say. -/
theorem depth?_accept {s rest : Text} {token : Token} {opened : Opened} {r : Value ⊕ Opened}
    (hnext : Token.next? s = some (token, rest)) (haccept : accept opened token = some r) :
    depth? .between opened.length s = depth? .between (stillOpen r) rest := by
  obtain ⟨w, x, rfl, hw, hx⟩ := Token.exists_spelled hnext
  rw [depth?_blank hw.blank]
  cases token with
  | opening =>
      cases haccept
      rw [hx]
      rfl
  | closing =>
      cases opened with
      | nil => cases haccept
      | cons cells outer =>
          cases haccept
          rw [hx, stillOpen_place]
          rfl
  | atom content =>
      cases haccept
      rw [depth?_scan, Token.scan_atom hx, stillOpen_place]

/-- An expression that is read closes what was open, and nothing else. -/
theorem depth?_of_readFrom {opened : Opened} {s rest : Text} {v : Value}
    (h : readFrom opened s = some (v, rest)) :
    depth? .between opened.length s = depth? .between 0 rest := by
  fun_induction readFrom opened s with
  | case1 => cases h
  | case2 => cases h
  | case3 opened s token after hnext w haccept =>
      cases h
      exact depth?_accept hnext haccept
  | case4 opened s token after hnext opened' haccept ih =>
      exact (depth?_accept hnext haccept).trans (ih h)

/-- Where reading goes on some list is open. -/
theorem ne_nil_of_accept {opened opened' : Opened} {token : Token}
    (h : accept opened token = some (.inr opened')) : opened' ≠ [] := by
  have hplace : ∀ {v outer}, place v outer = .inr opened' → opened' ≠ [] := by
    intro v outer hv
    cases outer with
    | nil => cases hv
    | cons cells outer =>
        cases hv
        exact List.cons_ne_nil _ _
  cases token with
  | opening =>
      cases h
      exact List.cons_ne_nil _ _
  | closing =>
      cases opened with
      | nil => cases h
      | cons cells outer => exact hplace (Option.some.inj h)
  | atom content => exact hplace (Option.some.inj h)

/-- A list that is not read to its end is still open at the end of the text. -/
theorem exists_depth?_of_unclosed {opened : Opened} {s : Text} (hopened : opened ≠ [])
    (hfeed : .char '\x0c' ∉ s) (h : readFrom opened s = none) :
    ∃ m, depth? .between opened.length s = some (m + 1) := by
  fun_induction readFrom opened s with
  | case1 opened s hnone =>
      have hblank := (Token.layout_of_next? hfeed hnone).blank
      have hpos := List.length_pos_of_ne_nil hopened
      exact ⟨opened.length - 1, by rw [depth?_of_blank hblank, Nat.sub_add_cancel hpos]⟩
  | case2 opened s token after hnext haccept =>
      cases token with
      | opening => cases haccept
      | atom content => cases haccept
      | closing =>
          cases opened with
          | nil => exact absurd rfl hopened
          | cons cells outer => cases haccept
  | case3 => cases h
  | case4 opened s token after hnext opened' haccept ih =>
      obtain ⟨m, hm⟩ := ih (ne_nil_of_accept haccept)
        (fun hmem => hfeed (Token.subset_of_next? hnext hmem)) h
      exact ⟨m, (depth?_accept hnext haccept).trans hm⟩

end Reader

namespace SyntaxError

/-- What is wrong is told by the first rune after white space. -/
theorem diagnose_append {w : Text} (hw : Grammar.Blank w) {r : Rune} (hr : r.isBlank = false)
    (rest : Text) : diagnose (w ++ r :: rest) =
      if r = .char ')' then unexpectedClose else unexpectedEnd := by
  have htrim : Text.trimLeft (w ++ r :: rest) = r :: rest := by
    rw [Text.trimLeft, List.dropWhile_append_of_pos, List.dropWhile_cons_of_neg (by simp [hr])]
    exact List.all_eq_true.mp (Grammar.isBlank_iff.mpr hw)
  rw [diagnose, htrim]
  split
  · simp_all
  · split
    · simp_all
    · rfl

end SyntaxError

/-- **The reason is the true one.**  If no expression can be read at the beginning of a text
that has no form feed and is not all white space, then a parenthesis that closes nothing
stands there, or one that is not closed. -/
theorem diagnose_of_readExpr {s : Text} (hfeed : .char '\x0c' ∉ s) (hblank : ¬ Grammar.Blank s)
    (h : readExpr s = none) :
    (depth? .between 0 s = none ∧ SyntaxError.diagnose s = .unexpectedClose) ∨
      (∃ m, depth? .between 0 s = some (m + 1)) ∧ SyntaxError.diagnose s = .unexpectedEnd := by
  cases hnext : Token.next? s with
  | none => exact absurd (Token.layout_of_next? hfeed hnext).blank hblank
  | some found =>
      obtain ⟨token, rest⟩ := found
      rw [readExpr, Reader.readFrom_of_next? hnext] at h
      have hsub := Token.subset_of_next? hnext
      obtain ⟨w, x, hs, hw, hx⟩ := Token.exists_spelled hnext
      cases token with
      | atom content => cases h
      | closing =>
          left
          rw [hs, hx]
          exact ⟨depth?_blank hw.blank 0 _, SyntaxError.diagnose_append hw.blank (by decide) rest⟩
      | opening =>
          right
          have hunclosed : Reader.readFrom [[]] rest = none := h
          have hdepth := Reader.exists_depth?_of_unclosed (List.cons_ne_nil _ _)
            (fun hmem => hfeed (hsub hmem)) hunclosed
          rw [hs, hx, depth?_blank hw.blank]
          exact ⟨hdepth, SyntaxError.diagnose_append hw.blank (by decide) rest⟩

theorem readAll_of_blank {s : Text} (hblank : s.isBlank = true) : readAll s = .ok [] := by
  rw [readAll, if_pos hblank]

/-- A text whose first expression cannot be read is diagnosed. -/
theorem readAll_of_none {s : Text} (hblank : ¬ s.isBlank = true) (h : readExpr s = none) :
    readAll s = .error (.diagnose s) := by
  rw [readAll, if_neg hblank]
  split
  · rfl
  · simp_all

/-- All expressions of a text are the first and those of the rest. -/
theorem readAll_of_some {s rest : Text} {v : Value} (hblank : ¬ s.isBlank = true)
    (h : readExpr s = some (v, rest)) : readAll s = (readAll rest).map (v :: ·) := by
  rw [readAll, if_neg hblank]
  split
  · simp_all
  · simp_all

/-- Texts are read the same if they are blank alike, if one and the same expression is read first
from them, and if the same would be wrong with them. -/
theorem readAll_eq_of_readExpr {s t : Text} (hblank : s.isBlank = t.isBlank)
    (hwhy : SyntaxError.diagnose s = .diagnose t) (hexpr : readExpr s = readExpr t) :
    readAll s = readAll t := by
  by_cases ht : t.isBlank = true
  · rw [readAll_of_blank (hblank.trans ht), readAll_of_blank ht]
  · have hs : ¬ s.isBlank = true := by rwa [hblank]
    cases hread : readExpr t with
    | none => rw [readAll_of_none hs (hexpr.trans hread), readAll_of_none ht hread, hwhy]
    | some found =>
        obtain ⟨v, rest⟩ := found
        rw [readAll_of_some hs (hexpr.trans hread), readAll_of_some ht hread]

/-- What becomes of a text after which so many parentheses are open. -/
def Judged (s : Text) : Option Nat → Prop
  | none => readAll s = .error .unexpectedClose
  | some 0 => ∃ vs, readAll s = .ok vs
  | some (_ + 1) => readAll s = .error .unexpectedEnd

/-- An expression before the text does not change what becomes of it. -/
theorem Judged.cons {s rest : Text} {v : Value} {answer : Option Nat}
    (hs : readAll s = (readAll rest).map (v :: ·)) (h : Judged rest answer) : Judged s answer := by
  cases answer with
  | none =>
      have hrest : readAll rest = .error .unexpectedClose := h
      exact hs.trans (by rw [hrest]; rfl)
  | some m =>
      cases m with
      | zero =>
          obtain ⟨vs, hvs⟩ := h
          exact ⟨v :: vs, hs.trans (by rw [hvs]; rfl)⟩
      | succ m =>
          have hrest : readAll rest = .error .unexpectedEnd := h
          exact hs.trans (by rw [hrest]; rfl)

/-- **The count decides.** -/
theorem judged_depth? {s : Text} (hfeed : .char '\x0c' ∉ s) : Judged s (depth? .between 0 s) := by
  fun_induction readAll s with
  | case1 s hblank =>
      rw [depth?_of_blank (Grammar.isBlank_iff.mp hblank)]
      exact ⟨[], readAll_of_blank hblank⟩
  | case2 s hblank hnone =>
      have hfail := readAll_of_none hblank hnone
      have hnot : ¬ Grammar.Blank s := fun hb => hblank (Grammar.isBlank_iff.mpr hb)
      rcases diagnose_of_readExpr hfeed hnot hnone with ⟨hdepth, hwhy⟩ | ⟨⟨m, hdepth⟩, hwhy⟩
      · rw [hdepth]
        exact hfail.trans (by rw [hwhy])
      · rw [hdepth]
        exact hfail.trans (by rw [hwhy])
  | case3 s hblank v rest hread ih =>
      obtain ⟨w, x, hs, -, -⟩ := exists_spells_of_readExpr hread
      have hdepth : depth? .between 0 s = depth? .between 0 rest := Reader.depth?_of_readFrom hread
      rw [hdepth]
      refine (ih fun hmem => hfeed ?_).cons (readAll_of_some hblank hread)
      rw [hs]
      exact List.mem_append_right _ hmem

/-- A form feed in the runes is one in the bytes. -/
theorem Text.feed_not_mem {bytes : List UInt8} (h : 0x0C ∉ bytes) :
    .char '\x0c' ∉ ofBytes bytes := by
  intro hmem
  apply h
  rw [← toBytes_ofBytes bytes]
  exact List.mem_flatMap.mpr ⟨_, hmem, by decide⟩

/-- What becomes of a text tells how many parentheses are open after it. -/
theorem readAll_iff_depth? {s : Text} (hfeed : .char '\x0c' ∉ s) :
    ((∃ vs, readAll s = .ok vs) ↔ depth? .between 0 s = some 0) ∧
    ((∃ e, readAll s = .error e ∧ e.message = ("unexpected ')'" : Text)) ↔
      depth? .between 0 s = none) ∧
    ((∃ e, readAll s = .error e ∧ e.message = ("unexpected end of input" : Text)) ↔
      ∃ m, depth? .between 0 s = some (m + 1)) := by
  have hclose : SyntaxError.message .unexpectedClose ≠ ("unexpected end of input" : Text) := by decide
  have hend : SyntaxError.message .unexpectedEnd ≠ ("unexpected ')'" : Text) := by decide
  have hjudged := judged_depth? hfeed
  generalize depth? .between 0 s = answer at hjudged ⊢
  match answer, hjudged with
  | none, hread =>
      have hread : readAll s = .error .unexpectedClose := hread
      refine ⟨?_, iff_of_true ⟨_, hread, rfl⟩ rfl, ?_⟩
      · simp [hread]
      · simp [hread, hclose]
  | some 0, ⟨vs, hread⟩ => exact ⟨iff_of_true ⟨vs, hread⟩ rfl, by simp [hread], by simp [hread]⟩
  | some (m + 1), hread =>
      have hread : readAll s = .error .unexpectedEnd := hread
      refine ⟨?_, ?_, iff_of_true ⟨_, hread, rfl⟩ ⟨m, rfl⟩⟩
      · simp [hread]
      · simp [hread, hend]

/-- **Syntax errors are unbalanced parentheses.**  Take any bytes without a form feed, and count
the parentheses that stand neither in a verbatim section nor after a backslash.  All
expressions are read if and only if no beginning of the text closes more than it opens and
the whole closes as many as it opens.  Something is wrong with a closing parenthesis if and only
if some beginning closes more than it opens, and the end comes too early if and only if none
does and the whole opens more than it closes. -/
theorem syntax_errors_are_unbalanced_parentheses {bytes : List UInt8} (hfeed : 0x0C ∉ bytes) :
    ((∃ vs, readAll (.ofBytes bytes) = .ok vs) ↔
      (∀ q, q <+: Text.ofBytes bytes → closings .between q ≤ openings .between q) ∧
        openings .between (.ofBytes bytes) = closings .between (.ofBytes bytes)) ∧
    ((∃ e, readAll (.ofBytes bytes) = .error e ∧ e.message = ("unexpected ')'" : Text)) ↔
      ∃ q, q <+: Text.ofBytes bytes ∧ openings .between q < closings .between q) ∧
    ((∃ e, readAll (.ofBytes bytes) = .error e ∧ e.message = ("unexpected end of input" : Text)) ↔
      (∀ q, q <+: Text.ofBytes bytes → closings .between q ≤ openings .between q) ∧
        closings .between (.ofBytes bytes) < openings .between (.ofBytes bytes)) := by
  obtain ⟨hok, hclose, hend⟩ := readAll_iff_depth? (Text.feed_not_mem hfeed)
  refine ⟨hok.trans ?_, hclose.trans ?_, hend.trans ?_⟩
  · simp only [depth?_eq_some_iff, Nat.zero_add]
  · simp only [depth?_eq_none_iff, Nat.zero_add]
  · simp only [depth?_eq_some_iff, Nat.zero_add]
    constructor
    · rintro ⟨m, hall, htotal⟩
      exact ⟨hall, by omega⟩
    · rintro ⟨hall, hlt⟩
      exact ⟨openings .between (.ofBytes bytes) - closings .between (.ofBytes bytes) - 1, hall,
        by omega⟩

/-- A list is not closed by the parenthesis after a backslash, nor one opened in a verbatim
section; a byte that is part of no character counts for nothing. -/
theorem unclosed_list_opens_more :
    ∃ bytes : List UInt8, bytes = [0x28, 0x22, 0x28, 0x22, 0xFF, 0x20, 0x5C, 0x29] ∧
      0x0C ∉ bytes ∧
      (∃ e, readAll (.ofBytes bytes) = .error e ∧ e.message = ("unexpected end of input" : Text)) ∧
      (∀ q, q <+: Text.ofBytes bytes → closings .between q ≤ openings .between q) ∧
      closings .between (.ofBytes bytes) < openings .between (.ofBytes bytes) := by
  have hfeed : (0x0C : UInt8) ∉ [0x28, 0x22, 0x28, 0x22, 0xFF, 0x20, 0x5C, 0x29] := by decide
  have herror : ∃ e, readAll (.ofBytes [0x28, 0x22, 0x28, 0x22, 0xFF, 0x20, 0x5C, 0x29]) =
      .error e ∧ e.message = ("unexpected end of input" : Text) :=
    ⟨_, readAll_of_none (by decide) (by decide +kernel), by decide⟩
  obtain ⟨-, -, hend⟩ := syntax_errors_are_unbalanced_parentheses hfeed
  exact ⟨_, rfl, hfeed, herror, hend.mp herror⟩

end LexLisp
