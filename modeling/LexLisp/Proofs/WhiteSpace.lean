import LexLisp.Proofs.JoinedSources

/-!
# White space between tokens

A space, a tab, a carriage return and a line feed do the same wherever they stand between the
pieces of atoms.  A form feed also ends an atom, but no token begins after it: it can take their
place only where that does not matter.

What comes of a text up to such a rune does not depend on the rune.  An expression may be complete
before it, or nothing that follows can make one, or the reader goes on from the rune with some lists
open (`Reader.standing`, `Reader.readFrom_append_space`).  Which of these it is can be told by
counting parentheses and looking for form feeds (`Reader.standing_told`).  For all expressions of a
text this leaves three cases (`AtSpace`).
-/

namespace LexLisp

open Grammar Token Parentheses

namespace Rune

theorem isSpace_of_isLayout {r : Rune} (h : r.isLayout = true) : r.isSpace = true := by
  rw [isSpace, h]
  rfl

theorem isSpace_feed : isSpace (.char '\x0c') = true := rfl

theorem isBlank_of_isSpace {r : Rune} (h : r.isSpace = true) : r.isBlank = true := by
  rcases isSpace_iff.mp h with rfl | rfl | rfl | rfl | rfl <;> rfl

end Rune

section Feeds

/-- Form feeds in an atom are in verbatim sections or after backslashes. -/
theorem feed_mem_bare_scan (p : Place) (s : Text) :
    .char '\x0c' ∈ bare p s ↔ .char '\x0c' ∈ bare .between (scan p s).2 := by
  have hother : ∀ {p : Place} {r : Rune} {rest : Text}, p ≠ .between ∨ r ≠ .char '\x0c' →
      (.char '\x0c' ∈ bare p (r :: rest) ↔ .char '\x0c' ∈ bare (placeAfter r p) rest) := by
    intro p r rest h
    rw [bare]
    split
    · rename_i hp
      have hr : Rune.char '\x0c' ≠ r := Ne.symm (h.resolve_left fun hne => hne hp)
      rw [List.mem_cons, or_iff_right hr]
    · rfl
  fun_induction scan p s with
  | case1 p => rfl
  | case2 rest ih => exact (hother (Or.inr (by decide))).trans ih
  | case3 rest hback ih => exact (hother (Or.inr (by decide))).trans ih
  | case4 r rest hback hquote hplain content after hscan ih =>
      have hplace : placeAfter r .between = .between := by
        rw [placeAfter, if_neg hback, if_neg hquote]
      rw [hscan] at ih
      rw [hother (Or.inr (isPlain_iff.mp hplain '\x0c' (by decide))), hplace]
      exact ih
  | case5 r rest hback hquote hplain => rfl
  | case6 rest ih => exact (hother (Or.inl (by decide))).trans ih
  | case7 rest hback ih => exact (hother (Or.inl (by decide))).trans ih
  | case8 r rest hback hquote content after hscan ih =>
      have hplace : placeAfter r .verbatim = .verbatim := by
        rw [placeAfter, if_neg hback, if_neg hquote]
      rw [hscan] at ih
      rw [hother (Or.inl (by decide)), hplace]
      exact ih
  | case9 inVerbatim r rest content after hscan ih =>
      rw [hscan] at ih
      exact (hother (Or.inl (by simp))).trans ih

/-- There is no form feed in layout. -/
theorem feed_mem_bare_layout {w : Text} (hw : Layout w) (s : Text) :
    .char '\x0c' ∈ bare .between (w ++ s) ↔ .char '\x0c' ∈ bare .between s := by
  induction w with
  | nil => rfl
  | cons r w ih =>
      obtain ⟨hr, hrest⟩ := List.forall_mem_cons.mp hw
      rw [← ih hrest]
      rcases hr with rfl | rfl | rfl | rfl <;> simp [bare, placeAfter]

/-- There is no form feed in layout. -/
theorem feed_not_mem_bare_layout {w : Text} (hw : Layout w) : .char '\x0c' ∉ bare .between w := by
  have hmem := feed_mem_bare_layout hw []
  rw [List.append_nil] at hmem
  exact mt hmem.mp List.not_mem_nil

/-- A token has no bare form feed. -/
theorem feed_mem_bare_of_next? {s rest : Text} {token : Token}
    (h : next? s = some (token, rest)) :
    .char '\x0c' ∈ bare .between s ↔ .char '\x0c' ∈ bare .between rest := by
  obtain ⟨w, x, rfl, hw, hx⟩ := exists_spelled h
  rw [feed_mem_bare_layout hw]
  cases token with
  | opening =>
      rw [hx]
      simp [bare, placeAfter]
  | closing =>
      rw [hx]
      simp [bare, placeAfter]
  | atom content => rw [feed_mem_bare_scan, scan_atom hx]

end Feeds

namespace Reader

/-- How the reader of one expression stands at the end of a text. -/
inductive Standing where
  /-- The expression is complete, and this is left of the text. -/
  | complete (v : Value) (after : Text)
  /-- Nothing that follows makes an expression of the text. -/
  | stuck
  /-- The expression goes on after the text, with these lists open. -/
  | waiting (opened : Opened)

/-- What is read if more text follows. -/
def Standing.goOn (more : Text) : Standing → Option (Value × Text)
  | complete v after => some (v, after ++ more)
  | stuck => none
  | waiting opened => readFrom opened more

/-- Read a text to its end, with these lists open. -/
def standing (opened : Opened) (s : Text) : Standing :=
  match _h : next? s with
  | none => if s.all Rune.isLayout then .waiting opened else .stuck
  | some (token, rest) =>
    match accept opened token with
    | none => .stuck
    | some (.inl v) => .complete v rest
    | some (.inr opened) => standing opened rest
termination_by s.length
decreasing_by exact length_lt_of_next? _h

/-- No token begins with a form feed. -/
theorem readFrom_feed {w : Text} (hw : Layout w) (opened : Opened) (more : Text) :
    readFrom opened (w ++ .char '\x0c' :: more) = none := by
  have hnext : next? (.char '\x0c' :: more) = none := rfl
  rw [readFrom_append_layout hw, readFrom_eq, hnext]
  rfl

/-- **Reading goes on after white space** from where it stood before. -/
theorem readFrom_append_space {opened : Opened} {s : Text} (hend : placeAtEnd .between s = .between)
    {c : Rune} (hc : c.isSpace = true) (more : Text) :
    readFrom opened (s ++ c :: more) = (standing opened s).goOn (c :: more) := by
  fun_induction standing opened s with
  | case1 opened s hnone hlayout =>
      exact readFrom_append_layout (layout_iff_all.mp hlayout) opened _
  | case2 opened s hnone hlayout =>
      obtain ⟨w, rest, hw, rfl⟩ :=
        (layout_or_feed_of_next? hnone).resolve_left (mt layout_iff_all.mpr hlayout)
      rw [List.append_assoc]
      exact readFrom_feed hw opened _
  | case3 opened s token rest hnext haccept =>
      rw [readFrom_of_next? (next?_append hnext hend hc more).1, haccept]
      rfl
  | case4 opened s token rest hnext v haccept =>
      rw [readFrom_of_next? (next?_append hnext hend hc more).1, haccept]
      rfl
  | case5 opened s token rest hnext opened' haccept ih =>
      obtain ⟨hnext', hrest⟩ := next?_append hnext hend hc more
      rw [readFrom_of_next? hnext', haccept]
      exact ih hrest

/-- What the parentheses and the form feeds of a text tell of the standing at its end. -/
def Standing.Told (n : Nat) (s : Text) : Standing → Prop
  | complete _ after => depth? .between n s = depth? .between 0 after ∧
      (.char '\x0c' ∈ bare .between s ↔ .char '\x0c' ∈ bare .between after)
  | stuck => .char '\x0c' ∈ bare .between s ∨ depth? .between n s = none
  | waiting opened => .char '\x0c' ∉ bare .between s ∧ depth? .between n s = some opened.length

/-- One token more at the beginning of the text. -/
theorem Standing.Told.token {n m : Nat} {s rest : Text} {st : Standing} (h : st.Told m rest)
    (hdepth : depth? .between n s = depth? .between m rest)
    (hfeed : .char '\x0c' ∈ bare .between s ↔ .char '\x0c' ∈ bare .between rest) : st.Told n s := by
  cases st with
  | complete v after => exact ⟨hdepth.trans h.1, hfeed.trans h.2⟩
  | stuck => exact h.imp hfeed.mpr hdepth.trans
  | waiting opened => exact ⟨mt hfeed.mp h.1, hdepth.trans h.2⟩

/-- **The standing is told** by the parentheses that count and the form feeds. -/
theorem standing_told (opened : Opened) (s : Text) : (standing opened s).Told opened.length s := by
  fun_induction standing opened s with
  | case1 opened s hnone hlayout =>
      have hw := layout_iff_all.mp hlayout
      exact ⟨feed_not_mem_bare_layout hw, depth?_of_blank hw.blank opened.length⟩
  | case2 opened s hnone hlayout =>
      obtain ⟨w, rest, hw, rfl⟩ :=
        (layout_or_feed_of_next? hnone).resolve_left (mt layout_iff_all.mpr hlayout)
      exact Or.inl ((feed_mem_bare_layout hw _).mpr List.mem_cons_self)
  | case3 opened s token rest hnext haccept =>
      -- Only a parenthesis that closes nothing is not accepted.
      obtain ⟨w, x, rfl, hw, hx⟩ := exists_spelled hnext
      cases token with
      | opening => cases haccept
      | atom content => cases haccept
      | closing =>
          cases opened with
          | cons cells outer => cases haccept
          | nil =>
              right
              rw [depth?_blank hw.blank, hx]
              rfl
  | case4 opened s token rest hnext v haccept =>
      exact ⟨depth?_accept hnext haccept, feed_mem_bare_of_next? hnext⟩
  | case5 opened s token rest hnext opened' haccept ih =>
      exact ih.token (depth?_accept hnext haccept) (feed_mem_bare_of_next? hnext)

/-- Lists that are open are not forgotten. -/
theorem ne_nil_of_standing {opened still : Opened} {s : Text} (hopened : opened ≠ [])
    (h : standing opened s = .waiting still) : still ≠ [] := by
  fun_induction standing opened s with
  | case1 opened s hnone hlayout =>
      cases h
      exact hopened
  | case2 => cases h
  | case3 => cases h
  | case4 => cases h
  | case5 opened s token rest hnext opened' haccept ih => exact ih (ne_nil_of_accept haccept) h

/-- If the first expression has not begun, there is only layout. -/
theorem layout_of_standing {s : Text} (h : standing [] s = .waiting []) : Layout s := by
  rw [standing] at h
  split at h
  · split at h
    · rename_i hlayout
      exact layout_iff_all.mp hlayout
    · cases h
  · split at h
    · cases h
    · cases h
    · rename_i opened haccept
      exact absurd rfl (ne_nil_of_standing (ne_nil_of_accept haccept) h)

/-- Reading an expression leaves less of the text. -/
theorem length_lt_of_standing {opened : Opened} {s after : Text} {v : Value}
    (h : standing opened s = .complete v after) : after.length < s.length := by
  fun_induction standing opened s with
  | case1 => cases h
  | case2 => cases h
  | case3 => cases h
  | case4 opened s token rest hnext v haccept =>
      cases h
      exact length_lt_of_next? hnext
  | case5 opened s token rest hnext opened' haccept ih =>
      exact (ih h).trans (length_lt_of_next? hnext)

/-- What is left after an expression ends in the same place. -/
theorem placeAtEnd_of_standing {opened : Opened} {s after : Text} {v : Value}
    (h : standing opened s = .complete v after) (hend : placeAtEnd .between s = .between) :
    placeAtEnd .between after = .between := by
  have hspace : Rune.isSpace (.char ' ') = true := rfl
  fun_induction standing opened s with
  | case1 => cases h
  | case2 => cases h
  | case3 => cases h
  | case4 opened s token rest hnext v haccept =>
      cases h
      exact (next?_append hnext hend hspace []).2
  | case5 opened s token rest hnext opened' haccept ih =>
      exact ih h (next?_append hnext hend hspace []).2

end Reader

/-- A text is white space, or there is a first rune in it that is not. -/
theorem Grammar.blank_or_split (s : Text) :
    Blank s ∨ ∃ w r rest, Blank w ∧ r.isBlank = false ∧ s = w ++ r :: rest := by
  have hw : Blank (s.takeWhile Rune.isBlank) :=
    isBlank_iff.mp (List.all_eq_true.mpr fun r hr => List.mem_takeWhile_imp hr)
  have hs := List.takeWhile_append_dropWhile (p := Rune.isBlank) (l := s)
  cases hdrop : s.dropWhile Rune.isBlank with
  | nil =>
      rw [hdrop, List.append_nil] at hs
      rw [hs] at hw
      exact Or.inl hw
  | cons r rest =>
      have hr : r.isBlank = false := by
        have hhead := List.head?_dropWhile_not Rune.isBlank s
        rw [hdrop] at hhead
        exact hhead
      rw [hdrop] at hs
      exact Or.inr ⟨_, r, rest, hw, hr, hs.symm⟩

theorem Grammar.not_blank_of_mem {s : Text} {r : Rune} (hr : r.isBlank = false) (h : r ∈ s) :
    ¬ Blank s := by
  intro hall
  obtain ⟨c, rfl, hspace⟩ := hall r h
  cases hspace.symm.trans hr

namespace SyntaxError

/-- What is wrong does not depend on a white space in the text. -/
theorem diagnose_space {c : Rune} (hc : c.isBlank = true) (p q : Text) :
    diagnose (p ++ c :: q) = diagnose (p ++ q) := by
  rcases blank_or_split p with hp | ⟨w, r, rest, hw, hr, rfl⟩
  · have hpc : Blank (p ++ [c]) :=
      blank_append.mpr ⟨hp, isBlank_iff.mp (by rw [Text.isBlank, List.all_cons, hc]; rfl)⟩
    rw [List.append_cons, diagnose_blank hpc, diagnose_blank hp]
  · rw [List.append_assoc, List.append_assoc, List.cons_append, List.cons_append,
      diagnose_append hw hr, diagnose_append hw hr]

/-- In a list that is not closed, the end has come too early. -/
theorem diagnose_of_depth? {p : Text} {n : Nat} (h : depth? .between 0 p = some (n + 1)) :
    ¬ Blank p ∧ ∀ t, diagnose (p ++ t) = unexpectedEnd := by
  rcases blank_or_split p with hp | ⟨w, r, rest, hw, hr, rfl⟩
  · rw [depth?_of_blank hp] at h
    cases h
  · have hclose : r ≠ .char ')' := by
      intro hr
      rw [hr, depth?_blank hw] at h
      cases h
    refine ⟨not_blank_of_mem hr (List.mem_append_right w List.mem_cons_self), fun t => ?_⟩
    rw [List.append_assoc, List.cons_append, diagnose_append hw hr, if_neg hclose]

end SyntaxError

/-- What is read if white space stands between `p` and `q`. -/
inductive AtSpace (p q : Text) : Prop
  /-- Reading ends before it, whichever it is. -/
  | settled (hp : .char '\x0c' ∈ bare .between p ∨ depth? .between 0 p = none)
      (h : ∀ c : Rune, c.isSpace = true → readAll (p ++ c :: q) = readAll (p ++ .char ' ' :: q))
  /-- It stands in a list. -/
  | inside (n : Nat) (hp : .char '\x0c' ∉ bare .between p)
      (hdepth : depth? .between 0 p = some (n + 1))
      (h : ∀ c : Rune, c.isLayout = true → readAll (p ++ c :: q) = readAll (p ++ .char ' ' :: q))
      (hfeed : readAll (p ++ .char '\x0c' :: q) = .error .unexpectedEnd)
  /-- It stands after these expressions, and in none. -/
  | outside (vs : List Value) (hp : .char '\x0c' ∉ bare .between p)
      (hdepth : depth? .between 0 p = some 0)
      (h : ∀ c : Rune, c.isLayout = true → readAll (p ++ c :: q) = (readAll q).map (vs ++ ·))
      (hfeed : readAll (p ++ .char '\x0c' :: q) =
        if q.isBlank then .ok vs else .error (.diagnose q))

/-- One expression more at the beginning of the text. -/
theorem AtSpace.cons {p after q : Text} {v : Value} (h : AtSpace after q)
    (hdepth : depth? .between 0 p = depth? .between 0 after)
    (hmem : .char '\x0c' ∈ bare .between p ↔ .char '\x0c' ∈ bare .between after)
    (hread : ∀ c : Rune, c.isSpace = true →
      readAll (p ++ c :: q) = (readAll (after ++ c :: q)).map (v :: ·)) : AtSpace p q := by
  have hspace := hread (.char ' ') rfl
  have hread' := fun c (hc : Rune.isLayout c = true) => hread c (Rune.isSpace_of_isLayout hc)
  cases h with
  | settled hp h =>
      refine .settled (hp.imp hmem.mpr hdepth.trans) fun c hc => ?_
      rw [hread c hc, hspace, h c hc]
  | inside n hp hopen h hfeed =>
      refine .inside n (mt hmem.mp hp) (hdepth.trans hopen) (fun c hc => ?_) ?_
      · rw [hread' c hc, hspace, h c hc]
      · rw [hread _ Rune.isSpace_feed, hfeed]
        rfl
  | outside vs hp hopen h hfeed =>
      refine .outside (v :: vs) (mt hmem.mp hp) (hdepth.trans hopen) (fun c hc => ?_) ?_
      · rw [hread' c hc, h c hc]
        cases readAll q <;> rfl
      · rw [hread _ Rune.isSpace_feed, hfeed]
        split <;> rfl

/-- A space between two texts makes them no less blank. -/
theorem isBlank_append_space (p q : Text) {c : Rune} (hc : c.isSpace = true) :
    Text.isBlank (p ++ c :: q) = (p.isBlank && q.isBlank) := by
  rw [Text.isBlank, List.all_append, List.all_cons, Rune.isBlank_of_isSpace hc, Bool.true_and]
  rfl

/-- Before the first expression a form feed hides what follows. -/
theorem atSpace_of_layout {p : Text} (hp : Layout p) (q : Text) : AtSpace p q := by
  refine .outside [] (feed_not_mem_bare_layout hp) (depth?_of_blank hp.blank 0)
    (fun c hc => ?_) ?_
  · have hpc : Layout (p ++ [c]) :=
      List.forall_mem_append.mpr ⟨hp, List.forall_mem_singleton.mpr (isLayout_iff.mp hc)⟩
    rw [List.append_cons, readAll_layout hpc]
    cases readAll q <;> rfl
  · have hblank := isBlank_append_space p q Rune.isSpace_feed
    rw [isBlank_iff.mpr hp.blank, Bool.true_and] at hblank
    split
    · rename_i hq
      exact readAll_of_blank (hblank.trans hq)
    · rename_i hq
      rw [readAll_of_none (by rwa [hblank]) (Reader.readFrom_feed hp [] q),
        SyntaxError.diagnose_space rfl, SyntaxError.diagnose_blank hp.blank]

/-- White space alone is no expression, whatever it would be read as. -/
theorem atSpace_of_blank {p q : Text} (hp : p.isBlank = true) (hq : q.isBlank = true) :
    AtSpace p q := by
  have hread : ∀ c : Rune, c.isSpace = true → readAll (p ++ c :: q) = .ok [] := by
    intro c hc
    apply readAll_of_blank
    rw [isBlank_append_space p q hc, hp, hq]
    rfl
  by_cases hmem : .char '\x0c' ∈ bare .between p
  · exact .settled (Or.inl hmem) fun c hc => (hread c hc).trans (hread (.char ' ') rfl).symm
  · refine .outside [] hmem (depth?_of_blank (isBlank_iff.mp hp) 0) (fun c hc => ?_) ?_
    · rw [hread c (Rune.isSpace_of_isLayout hc), readAll_of_blank hq]
      rfl
    · rw [hread _ Rune.isSpace_feed, if_pos hq]

namespace Reader

variable {p q : Text} (hend : placeAtEnd .between p = .between)
include hend

/-- What is read does not depend on the white space, if the first expression does not. -/
theorem readAll_append_space {c : Rune} (hc : c.isSpace = true)
    (h : (standing [] p).goOn (c :: q) = (standing [] p).goOn (.char ' ' :: q)) :
    readAll (p ++ c :: q) = readAll (p ++ .char ' ' :: q) := by
  have hspace : Rune.isSpace (.char ' ') = true := rfl
  refine readAll_eq_of_readExpr ?_ ?_ ?_
  · rw [isBlank_append_space p q hc, isBlank_append_space p q hspace]
  · rw [SyntaxError.diagnose_space (Rune.isBlank_of_isSpace hc),
      SyntaxError.diagnose_space (Rune.isBlank_of_isSpace hspace)]
  · rw [readExpr, readExpr, readFrom_append_space hend hc, readFrom_append_space hend hspace, h]

/-- In a list a form feed hides the end of the list. -/
theorem atSpace_of_waiting {opened : Opened} (h : standing [] p = .waiting opened)
    (hopened : opened ≠ []) : AtSpace p q := by
  obtain ⟨hmem, hdepth⟩ : Standing.Told 0 p (.waiting opened) := h ▸ standing_told [] p
  have hlength : opened.length = opened.length - 1 + 1 :=
    (Nat.sub_add_cancel (List.length_pos_of_ne_nil hopened)).symm
  rw [hlength] at hdepth
  obtain ⟨hblank, hwhy⟩ := SyntaxError.diagnose_of_depth? hdepth
  refine .inside _ hmem hdepth (fun c hc => ?_) ?_
  · have hskip : ∀ {c : Rune}, c.isLayout = true → readFrom opened (c :: q) = readFrom opened q :=
      fun hc => readFrom_append_layout (List.forall_mem_singleton.mpr (isLayout_iff.mp hc)) _ q
    apply readAll_append_space hend (Rune.isSpace_of_isLayout hc)
    rw [h]
    exact (hskip hc).trans (hskip rfl).symm
  · have hnone : readExpr (p ++ .char '\x0c' :: q) = none := by
      rw [readExpr, readFrom_append_space hend Rune.isSpace_feed, h]
      exact readFrom_feed (List.forall_mem_nil _) opened q
    rw [readAll_of_none ?_ hnone, hwhy]
    rw [isBlank_iff]
    exact fun hall => hblank (blank_append.mp hall).1

end Reader

open Reader in
/-- **There is no other case.** -/
theorem atSpace {p : Text} (hend : placeAtEnd .between p = .between) (q : Text) : AtSpace p q := by
  have htold := standing_told [] p
  cases hst : standing [] p with
  | stuck =>
      rw [hst] at htold
      refine .settled htold fun c hc => readAll_append_space hend hc ?_
      rw [hst]
      rfl
  | waiting opened =>
      by_cases hopened : opened = []
      · rw [hopened] at hst
        exact atSpace_of_layout (layout_of_standing hst) q
      · exact atSpace_of_waiting hend hst hopened
  | complete v after =>
      rw [hst] at htold
      by_cases hblank : p.isBlank = true ∧ q.isBlank = true
      · exact atSpace_of_blank hblank.1 hblank.2
      · have hrest := atSpace (placeAtEnd_of_standing hst hend) q
        refine hrest.cons (v := v) htold.1 htold.2 fun c hc => readAll_of_some ?_ ?_
        · rw [isBlank_append_space p q hc, Bool.and_eq_true]
          exact hblank
        · rw [readExpr, readFrom_append_space hend hc, hst]
          rfl
termination_by p.length
decreasing_by exact length_lt_of_standing hst

section Exchange

variable {p q : Text} (hend : placeAtEnd .between p = .between)
include hend

/-- **Layout is exchangeable.** -/
theorem readAll_exchange_layout {c d : Rune} (hc : c.isLayout = true) (hd : d.isLayout = true) :
    readAll (p ++ c :: q) = readAll (p ++ d :: q) := by
  cases atSpace hend q with
  | settled hp h =>
      exact (h c (Rune.isSpace_of_isLayout hc)).trans (h d (Rune.isSpace_of_isLayout hd)).symm
  | inside n hp hdepth h hfeed => exact (h c hc).trans (h d hd).symm
  | outside vs hp hdepth h hfeed => exact (h c hc).trans (h d hd).symm

/-- **Where a form feed does for layout.** -/
theorem readAll_feed_eq_iff {c : Rune} (hc : c.isLayout = true) :
    readAll (p ++ .char '\x0c' :: q) = readAll (p ++ c :: q) ↔
      .char '\x0c' ∈ bare .between p ∨ depth? .between 0 p = none ∨
      (∃ n, depth? .between 0 p = some (n + 1)) ∧ readAll (p ++ c :: q) = .error .unexpectedEnd ∨
      depth? .between 0 p = some 0 ∧ (Blank q ∨ readAll q = .error (.diagnose q)) := by
  cases atSpace hend q with
  | settled hp h =>
      have hsame := (h _ Rune.isSpace_feed).trans (h c (Rune.isSpace_of_isLayout hc)).symm
      exact iff_of_true hsame (hp.imp_right Or.inl)
  | inside n hp hdepth h hfeed =>
      rw [hfeed, hdepth]
      simp [hp, eq_comm]
  | outside vs hp hdepth h hfeed =>
      have hrest : readAll (p ++ .char '\x0c' :: q) = readAll (p ++ c :: q) ↔
          Blank q ∨ readAll q = .error (.diagnose q) := by
        rw [hfeed, h c hc]
        by_cases hq : q.isBlank = true
        · rw [if_pos hq, readAll_of_blank hq]
          refine iff_of_true ?_ (Or.inl (isBlank_iff.mp hq))
          show Except.ok vs = Except.ok (vs ++ [])
          rw [List.append_nil]
        · rw [if_neg hq, ← isBlank_iff, or_iff_right hq]
          cases readAll q with
          | ok ws => exact iff_of_false (nomatch ·) (nomatch ·)
          | error e => exact eq_comm
      rw [hrest, hdepth]
      simp [hp]

end Exchange

/-- The bytes of layout: space, tab, carriage return and line feed. -/
def layoutBytes : List UInt8 := [0x20, 0x09, 0x0D, 0x0A]

/-- A byte of layout is layout, whatever bytes there are around it. -/
theorem Text.ofBytes_append_layout {b : UInt8} (hb : b ∈ layoutBytes) :
    ∃ c : Rune, c.isLayout = true ∧ ∀ a z, ofBytes (a ++ b :: z) = ofBytes a ++ c :: ofBytes z := by
  have hbyte : b = 0x20 ∨ b = 0x09 ∨ b = 0x0D ∨ b = 0x0A := by simpa [layoutBytes] using hb
  rcases hbyte with rfl | rfl | rfl | rfl
  · exact ⟨.char ' ', rfl, ofBytes_append_char rfl rfl⟩
  · exact ⟨.char '\t', rfl, ofBytes_append_char rfl rfl⟩
  · exact ⟨.char '\r', rfl, ofBytes_append_char rfl rfl⟩
  · exact ⟨.char '\n', rfl, ofBytes_append_char rfl rfl⟩

/-- **Which white space is exchangeable.**  Let bytes be cut at one that stands in no verbatim
section and not after a backslash.  A space, a tab, a carriage return and a line feed can take
each other's places there: all expressions of the text are the same, or it fails with the same
error.

A form feed can take the place of one of them in these cases and no others.  There is another form
feed before the cut, or a parenthesis that closes nothing, and reading does not get to the cut.  Or
the cut is in a list, and the end of the text comes too early anyway.  Or the cut is in no list, and
after it there is only white space, or an error of the kind that the first rune tells. -/
theorem white_space_is_exchangeable_iff {a : List UInt8}
    (hend : placeAtEnd .between (.ofBytes a) = .between) (z : List UInt8) :
    (∀ b ∈ layoutBytes, ∀ b' ∈ layoutBytes,
      readAll (.ofBytes (a ++ b :: z)) = readAll (.ofBytes (a ++ b' :: z))) ∧
    ∀ b ∈ layoutBytes,
      (readAll (.ofBytes (a ++ 0x0C :: z)) = readAll (.ofBytes (a ++ b :: z)) ↔
        .char '\x0c' ∈ bare .between (.ofBytes a) ∨
        depth? .between 0 (.ofBytes a) = none ∨
        (∃ n, depth? .between 0 (.ofBytes a) = some (n + 1)) ∧
          readAll (.ofBytes (a ++ b :: z)) = .error .unexpectedEnd ∨
        depth? .between 0 (.ofBytes a) = some 0 ∧
          (Blank (.ofBytes z) ∨ readAll (.ofBytes z) = .error (.diagnose (.ofBytes z)))) := by
  constructor
  · intro b hb b' hb'
    obtain ⟨c, hc, hcut⟩ := Text.ofBytes_append_layout hb
    obtain ⟨d, hd, hcut'⟩ := Text.ofBytes_append_layout hb'
    rw [hcut, hcut', readAll_exchange_layout hend hc hd]
  · intro b hb
    obtain ⟨c, hc, hcut⟩ := Text.ofBytes_append_layout hb
    have hfeed := Text.ofBytes_append_char (c := '\x0c') (b := 0x0C) (by decide) (by decide) a z
    rw [hcut, hfeed, readAll_feed_eq_iff hend hc]

/-- A list in which a form feed stands after a verbatim one: any layout does there, and the form
feed does not. -/
theorem form_feed_in_a_list_is_not_exchangeable :
    ∃ a z : List UInt8, a = [0x28, 0x22, 0x0C, 0x22] ∧ z = [0x78, 0x29] ∧
      placeAtEnd .between (.ofBytes a) = .between ∧
      (∀ b ∈ layoutBytes, ∀ b' ∈ layoutBytes,
        readAll (.ofBytes (a ++ b :: z)) = readAll (.ofBytes (a ++ b' :: z))) ∧
      0x09 ∈ layoutBytes ∧
      readAll (.ofBytes (a ++ 0x0C :: z)) ≠ readAll (.ofBytes (a ++ 0x09 :: z)) := by
  have hend : placeAtEnd .between (.ofBytes [0x28, 0x22, 0x0C, 0x22]) = .between := by decide
  obtain ⟨hlayout, hfeed⟩ := white_space_is_exchangeable_iff hend [0x78, 0x29]
  refine ⟨_, _, rfl, rfl, hend, hlayout, by decide, fun hsame => ?_⟩
  rcases (hfeed 0x09 (by decide)).mp hsame with hmem | hnone | ⟨-, herror⟩ | ⟨hzero, -⟩
  · exact absurd hmem (by decide)
  · exact absurd hnone (by decide)
  · have hok : (readAll (.ofBytes ([0x28, 0x22, 0x0C, 0x22] ++ 0x09 :: [0x78, 0x29]))).isOk =
        true := by
      decide +kernel
    rw [herror] at hok
    cases hok
  · exact absurd hzero (by decide)

/-- A form feed ends an atom, but the next one is not read. -/
theorem form_feed_does_not_part_expressions :
    readAll (.ofBytes ([0x61] ++ 0x20 :: [0x62])) = .ok [.symbol "a", .symbol "b"] ∧
      readAll (.ofBytes ([0x61] ++ 0x0C :: [0x62])) = .error .unexpectedEnd ∧
      ¬ ∀ a z : List UInt8, placeAtEnd .between (.ofBytes a) = .between →
        ∀ b ∈ 0x0C :: layoutBytes, ∀ b' ∈ 0x0C :: layoutBytes,
          readAll (.ofBytes (a ++ b :: z)) = readAll (.ofBytes (a ++ b' :: z)) := by
  have hsymbol : ∀ {c : Char} {s rest : Text}, next? s = some (.atom [c], rest) →
      Number.ofChars? [c] = none → readExpr s = some (.symbol [.char c], rest) := by
    intro c s rest hnext hname
    rw [readExpr_of_atom hnext, Value.ofContent, hname]
    rfl
  have hspace : readAll (.ofBytes ([0x61] ++ 0x20 :: [0x62])) = .ok [.symbol "a", .symbol "b"] := by
    have hfirst : next? (.ofBytes ([0x61] ++ 0x20 :: [0x62])) =
        some (.atom ['a'], [.char ' ', .char 'b']) := by decide
    have hsecond : next? [.char ' ', .char 'b'] = some (.atom ['b'], []) := by decide
    rw [readAll_of_some (by decide) (hsymbol hfirst (by decide)),
      readAll_of_some (by decide) (hsymbol hsecond (by decide)), readAll_of_blank rfl]
    rfl
  have hfeed : readAll (.ofBytes ([0x61] ++ 0x0C :: [0x62])) = .error .unexpectedEnd := by
    have hfirst : next? (.ofBytes ([0x61] ++ 0x0C :: [0x62])) =
        some (.atom ['a'], [.char '\x0c', .char 'b']) := by decide
    have hnone : readExpr [.char '\x0c', .char 'b'] = none :=
      Reader.readFrom_feed (List.forall_mem_nil _) [] _
    rw [readAll_of_some (by decide) (hsymbol hfirst (by decide)), readAll_of_none (by decide) hnone]
    rfl
  refine ⟨hspace, hfeed, fun hall => ?_⟩
  have hsame := hall [0x61] [0x62] (by decide) 0x20 (by decide) 0x0C (by decide)
  rw [hspace, hfeed] at hsame
  cases hsame

end LexLisp
