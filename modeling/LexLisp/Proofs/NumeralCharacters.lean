import LexLisp.Proofs.Parentheses

/-!
# White space is in no numeral

A numeral is made of digits, letters, signs, points and underscores.  White space is none of these,
and each step of reading a numeral either keeps a character that it does not know or gives up: so
an atom whose content has white space in it is a symbol (`Number.ofChars?_of_mem`), and another one
than any with a different content (`Value.ofContent_ne`).
-/

namespace LexLisp

namespace Numeral

section WhiteSpace

variable {c : Char} (hc : isWhiteSpace c = true) {cs : List Char}
include hc

/-- White space is not where letters, digits and signs are. -/
theorem not_between_of_isWhiteSpace {a b : Char} (ha : 0x20 < a.toNat) (hb : b.toNat < 0x85) :
    ¬ (a ≤ c ∧ c ≤ b) := by
  intro hle
  have hac : a.toNat ≤ c.toNat := UInt32.le_iff_toNat_le.mp hle.1
  have hcb : c.toNat ≤ b.toNat := UInt32.le_iff_toNat_le.mp hle.2
  simp only [isWhiteSpace, Bool.or_eq_true, Bool.and_eq_true, decide_eq_true_eq, beq_iff_eq] at hc
  omega

/-- White space has no case. -/
theorem toLower_of_isWhiteSpace : c.toLower = c :=
  dif_neg (not_between_of_isWhiteSpace hc (by decide) (by decide))

/-- White space is no digit in any base that numerals have. -/
theorem not_isDigit_of_isWhiteSpace {base : Nat} (hbase : base ≤ 16) : isDigit base c = false := by
  have hvalue : digitValue c = 16 := by
    rw [digitValue, if_neg (not_between_of_isWhiteSpace hc (by decide) (by decide)),
      if_neg (not_between_of_isWhiteSpace hc (by decide) (by decide)),
      if_neg (not_between_of_isWhiteSpace hc (by decide) (by decide))]
  rw [isDigit, hvalue]
  exact decide_eq_false (Nat.not_lt.mpr hbase)

/-- A sign is not white space, so what is white space comes after it. -/
theorem mem_takeSign (h : c ∈ cs) : c ∈ (takeSign cs).2 := by
  unfold takeSign
  split
  · exact (List.mem_cons.mp h).resolve_left (ne_of_isWhiteSpace hc (by decide))
  · exact (List.mem_cons.mp h).resolve_left (ne_of_isWhiteSpace hc (by decide))
  · exact h

/-- White space remains when the digits in front are taken away. -/
theorem mem_dropWhile_isDigit {base : Nat} (hbase : base ≤ 16) (h : c ∈ cs) :
    c ∈ cs.dropWhile (isDigit base) := by
  rw [← List.takeWhile_append_dropWhile (p := isDigit base) (l := cs)] at h
  refine (List.mem_append.mp h).resolve_left fun hmem => ?_
  cases (not_isDigit_of_isWhiteSpace hc hbase).symm.trans (List.mem_takeWhile_imp hmem)

/-- No exponent has white space in it. -/
theorem exponent?_of_mem (h : c ∈ cs) : exponent? cs = none := by
  have hall : (takeSign cs).2.all (isDigit 10) = false := by
    rw [List.all_eq_false]
    exact ⟨c, mem_takeSign hc h, by simp [not_isDigit_of_isWhiteSpace hc]⟩
  simp [exponent?, hall]

variable {scale : Scale} (hmark : isWhiteSpace scale.mark = false)
include hmark

/-- Nor does what ends a numeral. -/
theorem ending?_of_mem (h : c ∈ cs) : ending? scale cs = none := by
  cases cs with
  | nil => cases h
  | cons d rest =>
      rw [ending?]
      split
      · rename_i hd
        rcases List.mem_cons.mp h with rfl | hrest
        · rw [toLower_of_isWhiteSpace hc] at hd
          exact absurd hd (ne_of_isWhiteSpace hc hmark)
        · exact exponent?_of_mem hc hrest
      · rfl

/-- Nor does a magnitude. -/
theorem magnitude?_of_mem (hbase : scale.base ≤ 16) (negative : Bool) (h : c ∈ cs) :
    magnitude? scale negative cs = none := by
  have hdrop := mem_dropWhile_isDigit hc hbase h
  unfold magnitude?
  dsimp only
  split
  · rename_i rest hpoint
    rw [hpoint] at hdrop
    have hrest := (List.mem_cons.mp hdrop).resolve_left (ne_of_isWhiteSpace hc (by decide))
    have hending := ending?_of_mem hc hmark (mem_dropWhile_isDigit hc hbase hrest)
    dsimp only
    rw [hending, Option.map_none, ite_self]
  · dsimp only
    rw [ending?_of_mem hc hmark hdrop, Option.map_none, ite_self]

/-- Nor does a magnitude whose digits are separated. -/
theorem separated?_of_mem (hbase : scale.base ≤ 16) (negative afterDigit : Bool) (h : c ∈ cs) :
    separated? scale negative afterDigit cs = none := by
  have hkept : c ∈ cs.filter (· ≠ '_') :=
    List.mem_filter.mpr ⟨h, decide_eq_true (ne_of_isWhiteSpace hc (by decide))⟩
  rw [separated?]
  split
  · exact magnitude?_of_mem hc hmark hbase negative hkept
  · rfl

omit hmark

/-- A word in letters has no white space, in whatever letter case. -/
theorem map_toLower_ne_of_mem (h : c ∈ cs) {word : List Char}
    (hword : word.any isWhiteSpace = false) : cs.map Char.toLower ≠ word := by
  intro heq
  have hmem : c ∈ cs.map Char.toLower :=
    List.mem_map.mpr ⟨c, h, toLower_of_isWhiteSpace hc⟩
  rw [heq] at hmem
  exact List.any_eq_false.mp hword c hmem hc

/-- Nor does a numeral after its sign. -/
theorem unsigned?_of_mem (negative : Bool) (h : c ∈ cs) : unsigned? negative cs = none := by
  have hzero : c ≠ '0' := ne_of_isWhiteSpace hc (by decide)
  unfold unsigned?
  split
  · have hrest := (List.mem_cons.mp h).resolve_left hzero
    have hrest := (List.mem_cons.mp hrest).resolve_left (ne_of_isWhiteSpace hc (by decide))
    exact separated?_of_mem hc (by decide) (by decide) negative true hrest
  · have hrest := (List.mem_cons.mp h).resolve_left hzero
    have hrest := (List.mem_cons.mp hrest).resolve_left (ne_of_isWhiteSpace hc (by decide))
    exact separated?_of_mem hc (by decide) (by decide) negative true hrest
  · dsimp only
    rw [if_neg (not_or.mpr ⟨map_toLower_ne_of_mem hc h rfl, map_toLower_ne_of_mem hc h rfl⟩)]
    exact separated?_of_mem hc (by decide) (by decide) negative false h

end WhiteSpace

end Numeral

/-- **There is no white space in a numeral.** -/
theorem Number.ofChars?_of_mem {c : Char} (hc : isWhiteSpace c = true) {cs : List Char}
    (h : c ∈ cs) : ofChars? cs = none := by
  rw [ofChars?, if_neg (Numeral.map_toLower_ne_of_mem hc h rfl)]
  exact Numeral.unsigned?_of_mem hc _ (Numeral.mem_takeSign hc h)

/-- White space makes a symbol of an atom, and not one that is written without it. -/
theorem Value.ofContent_ne {c : Char} (hc : isWhiteSpace c = true) {cs ds : List Char}
    (h : c ∈ cs) (hne : cs ≠ ds) : ofContent cs ≠ ofContent ds := by
  have hsymbol : ofContent cs = .symbol (.ofChars cs) := by
    rw [ofContent, Number.ofChars?_of_mem hc h]
  rw [hsymbol, ofContent]
  split
  · exact nofun
  · intro heq
    have hname : Text.ofChars cs = .ofChars ds := Value.symbol.inj heq
    exact hne (List.map_injective_iff.mpr (fun _ _ => Rune.char.inj) hname)

end LexLisp
