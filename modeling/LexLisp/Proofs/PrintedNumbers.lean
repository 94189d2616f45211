import LexLisp.Number.Numeral
import LexLisp.Number.Shortest
import LexLisp.Proofs.Rounding
import Mathlib.Data.List.TakeWhile

/-!
# Printed numbers read back

A number is printed as a decimal that rounds to it, and a numeral is read as the
number nearest to what it writes, so the two agree once these are shown:

* rounding depends on the fraction only, not on how it is written
  (`Number.nearestRank_mul_right`), and leaves a magnitude as it is
  (`Number.nearestRank_units`);
* the decimal that is printed rounds to the number (`Decimal.toNumber_shortest`);
* its digits before and after the point write the same decimal
  (`Decimal.ofScaled_positional`), and the reader finds them
  (`Numeral.magnitude?_positional`);
* there are not so many digits before the point that some of them lose their places,
  for else the decimal would be too large for any number (`Decimal.length_whole_le`).
-/

namespace LexLisp

namespace Number

theorem ofScaled_neg (negative : Bool) (digits base p : Nat) :
    ofScaled negative digits base (-(p : Int)) = ofUnits negative (digits * one) (base ^ p) := by
  cases p with
  | zero =>
      show ofUnits negative (digits * 1 * one) 1 = _
      rw [Nat.mul_one, Nat.pow_zero]
  | succ k => rfl

/-- A zero after the last digit that is counted away makes no difference. -/
theorem ofScaled_shift (negative : Bool) (digits p k : Nat) :
    ofScaled negative (digits * 10 ^ k) 10 (-((p + k : Nat) : Int)) =
      ofScaled negative digits 10 (-(p : Int)) := by
  have hk : 0 < 10 ^ k := Nat.pow_pos (by decide)
  rw [ofScaled_neg, ofScaled_neg, Nat.mul_right_comm, Nat.pow_add, ofUnits, ofUnits,
    nearestRank_mul_right _ _ hk]

/-- With all its digits a magnitude is not rounded. -/
theorem ofScaled_units (rank p : Nat) (hone : one = Nat.pow 2 p) :
    ofScaled false (units rank * Nat.pow 5 p) 10 (-(p : Int)) = ofRank false rank := by
  have hpos : 0 < 10 ^ p := Nat.pow_pos (by decide)
  have hnum : units rank * Nat.pow 5 p * one = units rank * 10 ^ p := by
    rw [hone, Nat.mul_assoc, Nat.pow_eq, Nat.pow_eq, ← Nat.mul_pow]
  have hexact := nearestRank_mul_right (units rank) 1 hpos
  rw [Nat.one_mul, nearestRank_units] at hexact
  rw [ofScaled_neg, hnum, ofUnits, hexact]

/-- The rank of a scaled number does not depend on its sign. -/
theorem exists_rank_ofScaled (digits base : Nat) (e : Int) :
    ∃ rank, ∀ negative, ofScaled negative digits base e = ofRank negative rank := by
  cases e with
  | ofNat k => exact ⟨_, fun _ => rfl⟩
  | negSucc k => exact ⟨_, fun _ => rfl⟩

/-- A finite number has one rank. -/
theorem rank_eq_of_ofRank {r rank : Nat} (hrank : rank < finiteCount)
    (h : ofRank false r = ofRank false rank) : r = rank := by
  unfold ofRank at h
  rw [dif_pos hrank] at h
  split at h
  · cases h
    rfl
  · cases h

end Number

namespace Decimal

/-- The shortest decimal reads back as the number it was found for. -/
theorem toNumber_shortest (rank : Nat) :
    (shortest rank).toNumber = Number.ofRank false rank := by
  unfold shortest
  dsimp only
  cases hfound : (List.range 17).findSome? fun n =>
      (neighbours rank (leading rank - (n + 1 : Nat))).find? fun d =>
        d.toNumber = Number.ofRank false rank with
  | some d =>
      obtain ⟨n, -, hfind⟩ := List.exists_of_findSome?_eq_some hfound
      have hreads := List.find?_some hfind
      rw [Option.getD_some]
      exact of_decide_eq_true hreads
  | none =>
      rw [Option.getD_none, toNumber]
      -- The exponent is a large one: as a variable it is not computed with.
      have hone : Number.one = Nat.pow 2 1074 := by decide +kernel
      have hexponent : (-1074 : Int) = -((1074 : Nat) : Int) := rfl
      rw [hexponent]
      generalize 1074 = p at hone ⊢
      exact Number.ofScaled_units rank p hone

end Decimal

namespace Numeral

/-- The digits count from zero. -/
theorem digitValue_of_isDigit {c : Char} (h : c.isDigit = true) :
    digitValue c = c.toNat - '0'.toNat := by
  have hrange : '0' ≤ c ∧ c ≤ '9' := by
    simpa [Char.isDigit, Char.le_def] using h
  rw [digitValue, if_pos hrange]

theorem isDigit_of_isDigit {c : Char} (h : c.isDigit = true) : isDigit 10 c = true := by
  have hrange : '0'.toNat ≤ c.toNat ∧ c.toNat ≤ '9'.toNat := by
    simpa [Char.isDigit, UInt32.le_iff_toNat_le] using h
  have hvalue : c.toNat - '0'.toNat < 10 := by
    have hzero : '0'.toNat = 48 := rfl
    have hnine : '9'.toNat = 57 := rfl
    omega
  rw [isDigit, digitValue_of_isDigit h]
  exact decide_eq_true hvalue

/-- Decimal digits are read as the library reads them. -/
theorem ofDigits_eq_ofDigitChars {digits : List Char} (h : ∀ c ∈ digits, c.isDigit = true) :
    ofDigits 10 digits = Nat.ofDigitChars 10 digits 0 := by
  have hfold : ∀ n, digits.foldl (fun n c => n * 10 + digitValue c) n =
      Nat.ofDigitChars 10 digits n := by
    induction digits with
    | nil => exact fun n => rfl
    | cons c rest ih =>
        intro n
        obtain ⟨hc, hrest⟩ := List.forall_mem_cons.mp h
        rw [List.foldl_cons, ih hrest, Nat.ofDigitChars_cons, digitValue_of_isDigit hc,
          Nat.mul_comm]
  exact hfold 0

end Numeral

namespace Decimal

/-- Fewer digits than the width are padded to it. -/
theorem length_padLeft {width : Nat} {digits : List Char} (h : digits.length ≤ width) :
    (padLeft width digits).length = width := by
  rw [padLeft, List.length_append, List.length_replicate]
  omega

/-- What `dropZeros` takes away are zeros. -/
theorem dropZeros_append (digits : List Char) :
    dropZeros digits ++ List.replicate (digits.length - (dropZeros digits).length) '0' =
      digits := by
  have hsplit : dropZeros digits ++ (digits.reverse.takeWhile (· = '0')).reverse = digits := by
    rw [dropZeros, ← List.reverse_append, List.takeWhile_append_dropWhile, List.reverse_reverse]
  have hzeros : ∀ c ∈ (digits.reverse.takeWhile (· = '0')).reverse, c = '0' := by
    intro c hc
    simpa using List.mem_takeWhile_imp (List.mem_reverse.mp hc)
  have hlength : digits.length - (dropZeros digits).length =
      (digits.reverse.takeWhile (· = '0')).reverse.length := by
    have := congrArg List.length hsplit
    rw [List.length_append] at this
    omega
  rw [hlength, ← List.eq_replicate_of_mem hzeros, hsplit]

/-- The whole part of a decimal. -/
def whole : Decimal → Nat
  | ⟨c, .ofNat k⟩ => c * 10 ^ k
  | ⟨c, .negSucc k⟩ => c / 10 ^ (k + 1)

/-- The digits after the point. -/
def fraction : Decimal → List Char
  | ⟨_, .ofNat _⟩ => []
  | ⟨c, .negSucc k⟩ => dropZeros (padLeft (k + 1) (Nat.toDigits 10 (c % 10 ^ (k + 1))))

/-- The point is written only if there are digits after it. -/
theorem positional_eq (d : Decimal) :
    d.positional = if d.fraction.isEmpty then Nat.toDigits 10 d.whole
      else Nat.toDigits 10 d.whole ++ '.' :: d.fraction := by
  obtain ⟨c, e⟩ := d
  cases e with
  | ofNat k => rfl
  | negSucc k => rfl

/-- What stands after the point are digits. -/
theorem isDigit_of_mem_fraction {d : Decimal} {c : Char} (h : c ∈ d.fraction) :
    c.isDigit = true := by
  obtain ⟨n, e⟩ := d
  cases e with
  | ofNat k => cases h
  | negSucc k =>
      have hpadded : c ∈ padLeft (k + 1) (Nat.toDigits 10 (n % 10 ^ (k + 1))) := by
        rw [← dropZeros_append (padLeft _ _)]
        exact List.mem_append_left _ h
      rcases List.mem_append.mp hpadded with hzero | hdigit
      · rw [(List.mem_replicate.mp hzero).2]
        rfl
      · exact Nat.isDigit_of_mem_toDigits (by decide) (by decide) hdigit

theorem isDigit_of_mem_whole {d : Decimal} {c : Char} (h : c ∈ Nat.toDigits 10 d.whole) :
    c.isDigit = true :=
  Nat.isDigit_of_mem_toDigits (by decide) (by decide) h

/-- The digits of a remainder, filled up to all its places. -/
theorem length_padded (c k : Nat) :
    (padLeft (k + 1) (Nat.toDigits 10 (c % 10 ^ (k + 1)))).length = k + 1 := by
  apply length_padLeft
  rw [Nat.length_toDigits_le_iff (by decide) (Nat.succ_pos k)]
  exact Nat.mod_lt c (Nat.pow_pos (by decide))

/-- After the digits of the quotient, those of the remainder give the number back. -/
theorem ofDigitChars_padded (c k : Nat) :
    Nat.ofDigitChars 10 (padLeft (k + 1) (Nat.toDigits 10 (c % 10 ^ (k + 1))))
      (c / 10 ^ (k + 1)) = c := by
  have hzeros : Nat.ofDigitChars 10 (padLeft (k + 1) (Nat.toDigits 10 (c % 10 ^ (k + 1)))) 0 =
      c % 10 ^ (k + 1) := by
    rw [padLeft, Nat.ofDigitChars_append, Nat.ofDigitChars_replicate_zero, Nat.mul_zero,
      Nat.ofDigitChars_ten_toDigits]
  rw [Nat.ofDigitChars_eq_ofDigitChars_zero, hzeros, length_padded]
  exact Nat.div_add_mod c (10 ^ (k + 1))

/-- The digits after the point are no more than there are places, and with zeros at the
places left out they complete the whole part. -/
theorem fraction_spec (c k : Nat) :
    (fraction ⟨c, .negSucc k⟩).length ≤ k + 1 ∧
      Nat.ofDigitChars 10 (fraction ⟨c, .negSucc k⟩) (c / 10 ^ (k + 1)) *
        10 ^ (k + 1 - (fraction ⟨c, .negSucc k⟩).length) = c := by
  have hsplit := dropZeros_append (padLeft (k + 1) (Nat.toDigits 10 (c % 10 ^ (k + 1))))
  have hlength := congrArg List.length hsplit
  rw [length_padded] at hsplit hlength
  rw [List.length_append, List.length_replicate] at hlength
  have hvalue := ofDigitChars_padded c k
  rw [← hsplit, Nat.ofDigitChars_append, Nat.ofDigitChars_replicate_zero, Nat.mul_comm] at hvalue
  exact ⟨Nat.le.intro hlength, hvalue⟩

/-- The digits before and after the point make up the coefficient, but for the zeros
at the end and the exponent. -/
theorem ofScaled_positional (negative : Bool) (d : Decimal) :
    Number.ofScaled negative (Numeral.ofDigits 10 (Nat.toDigits 10 d.whole ++ d.fraction)) 10
        (-(d.fraction.length : Int)) =
      Number.ofScaled negative d.coefficient 10 d.exponent := by
  have hdigits : ∀ c ∈ Nat.toDigits 10 d.whole ++ d.fraction, c.isDigit = true := by
    intro c hc
    rcases List.mem_append.mp hc with hc | hc
    · exact isDigit_of_mem_whole hc
    · exact isDigit_of_mem_fraction hc
  rw [Numeral.ofDigits_eq_ofDigitChars hdigits, Nat.ofDigitChars_append,
    Nat.ofDigitChars_ten_toDigits]
  obtain ⟨c, e⟩ := d
  cases e with
  | ofNat k =>
      show Number.ofScaled negative (c * 10 ^ k) 10 0 =
        Number.ofUnits negative (c * 10 ^ k * Number.one) 1
      have hzero := Number.ofScaled_neg negative (c * 10 ^ k) 10 0
      rwa [Nat.pow_zero] at hzero
  | negSucc k =>
      obtain ⟨hlength, hvalue⟩ := fraction_spec c k
      have hshift := Number.ofScaled_shift negative
        (Nat.ofDigitChars 10 (fraction ⟨c, .negSucc k⟩) (c / 10 ^ (k + 1)))
        (fraction ⟨c, .negSucc k⟩).length (k + 1 - (fraction ⟨c, .negSucc k⟩).length)
      rw [hvalue, Nat.add_sub_cancel' hlength] at hshift
      exact hshift.symm

/-- A decimal that is not too large for a number has at most 800 digits before the
point. -/
theorem length_whole_le {d : Decimal} {rank : Nat} (hrank : rank < Number.finiteCount)
    (h : d.toNumber = Number.ofRank false rank) : (Nat.toDigits 10 d.whole).length ≤ 800 := by
  -- The exponents are large ones here too.
  obtain ⟨places, hplaces⟩ : ∃ places, places = 800 := ⟨_, rfl⟩
  obtain ⟨bits, hbits⟩ : ∃ bits, bits = 2099 := ⟨_, rfl⟩
  have hone : 2 ^ bits ≤ 10 ^ places * Number.one := by
    subst hplaces hbits
    decide +kernel
  rw [← hplaces, Nat.length_toDigits_le_iff (by decide) (by omega)]
  apply Nat.lt_of_not_le
  intro hlarge
  obtain ⟨num, den, hnumber, hle⟩ : ∃ num den, d.toNumber = Number.ofUnits false num den ∧
      d.whole * Number.one ≤ num / den := by
    obtain ⟨c, e⟩ := d
    cases e with
    | ofNat k => exact ⟨c * 10 ^ k * Number.one, 1, rfl, by rw [Nat.div_one]; rfl⟩
    | negSucc k =>
        refine ⟨c * Number.one, 10 ^ (k + 1), rfl, ?_⟩
        rw [Nat.le_div_iff_mul_le (Nat.pow_pos (by decide)), Nat.mul_right_comm]
        exact Nat.mul_le_mul_right _ (Nat.div_mul_le_self c _)
  have hpow : 2 ^ bits ≤ num / den :=
    hone.trans ((Nat.mul_le_mul_right Number.one hlarge).trans hle)
  rw [hnumber, Number.ofUnits] at h
  have heq := Number.rank_eq_of_ofRank hrank h
  have htoo := Number.finiteCount_le_nearestRank (Nat.le_of_eq hbits.symm) hpow
  omega

theorem positional_ne_nil (d : Decimal) : d.positional ≠ [] := by
  rw [positional_eq]
  split
  · exact Nat.toDigits_ne_nil
  · simp

/-- A printed decimal has digits and a point only. -/
theorem mem_positional {d : Decimal} {c : Char} (h : c ∈ d.positional) :
    c.isDigit = true ∨ c = '.' := by
  rw [positional_eq] at h
  split at h
  · exact Or.inl (isDigit_of_mem_whole h)
  · rcases List.mem_append.mp h with hwhole | hrest
    · exact Or.inl (isDigit_of_mem_whole hwhole)
    · rcases List.mem_cons.mp hrest with hpoint | hfraction
      · exact Or.inr hpoint
      · exact Or.inl (isDigit_of_mem_fraction hfraction)

/-- Only digits and points are printed, so what is no such character is not. -/
theorem not_mem_positional {d : Decimal} {c : Char} (hdigit : c.isDigit = false)
    (hpoint : c ≠ '.') : c ∉ d.positional := by
  intro hc
  rcases mem_positional hc with h | h
  · rw [hdigit] at h
    cases h
  · exact hpoint h

/-- A printed decimal has no capital letters. -/
theorem map_toLower_positional (d : Decimal) : d.positional.map Char.toLower = d.positional := by
  have hlower : ∀ c ∈ d.positional, c.toLower = c := by
    intro c hc
    rcases mem_positional hc with hdigit | rfl
    · have hle : c.val ≤ '9'.val := by
        simp only [Char.isDigit, Bool.and_eq_true, decide_eq_true_eq] at hdigit
        exact hdigit.2
      refine dif_neg ?_
      rintro ⟨hge, -⟩
      exact absurd (UInt32.le_trans hge hle) (by decide)
    · rfl
  rw [List.map_congr_left hlower, List.map_id']

end Decimal

namespace Numeral

/-- Digits that are not separated are well separated. -/
theorem wellSeparated_of_not_mem {base : Nat} {afterDigit : Bool} {cs : List Char}
    (h : '_' ∉ cs) : wellSeparated base afterDigit cs = true := by
  induction cs generalizing afterDigit with
  | nil => rfl
  | cons c rest ih =>
      have hc : c ≠ '_' := fun heq => h (heq ▸ List.mem_cons_self)
      rw [wellSeparated, if_neg hc]
      exact ih fun hrest => h (List.mem_cons_of_mem c hrest)

/-- The parts of a printed decimal are found again. -/
theorem magnitude?_positional (negative : Bool) (d : Decimal) :
    magnitude? decimal negative d.positional =
      some (Digits.value decimal negative ⟨Nat.toDigits 10 d.whole, d.fraction, 0⟩) := by
  have hwhole : ∀ c ∈ Nat.toDigits 10 d.whole, isDigit 10 c = true :=
    fun c hc => isDigit_of_isDigit (Decimal.isDigit_of_mem_whole hc)
  have hfraction : ∀ c ∈ d.fraction, isDigit 10 c = true :=
    fun c hc => isDigit_of_isDigit (Decimal.isDigit_of_mem_fraction hc)
  have hne : (Nat.toDigits 10 d.whole).isEmpty = false := by
    rw [List.isEmpty_eq_false_iff]
    exact Nat.toDigits_ne_nil
  have hpoint : isDigit 10 '.' = false := by decide
  rw [Decimal.positional_eq, magnitude?]
  simp only [decimal]
  split
  · rename_i hempty
    rw [List.isEmpty_iff.mp hempty]
    simp only [List.takeWhile_eq_self_iff.mpr hwhole, List.dropWhile_eq_nil_iff.mpr hwhole]
    simp [hne, ending?]
  · rw [List.takeWhile_append_of_pos hwhole, List.dropWhile_append_of_pos hwhole]
    simp only [List.takeWhile_cons, List.dropWhile_cons, hpoint]
    simp only [Bool.false_eq_true, if_false, List.append_nil,
      List.takeWhile_eq_self_iff.mpr hfraction, List.dropWhile_eq_nil_iff.mpr hfraction]
    simp [hne, ending?]

/-- Up to 800 digits before the point keep their places. -/
theorem value_of_length_le {digits : Digits} (h : digits.whole.length ≤ 800) (negative : Bool) :
    Digits.value decimal negative digits = Digits.nearest decimal negative digits := by
  have hsignificant : digits.significant.length ≤ 800 :=
    Nat.le_trans (List.dropWhile_sublist _).length_le h
  have hdisplaced : digits.displaced decimal = 0 := by
    show digits.significant.length - 800 = 0
    omega
  simp [Digits.value, hdisplaced]

/-- A printed decimal is read as a decimal magnitude and not in another base. -/
theorem unsigned?_positional (negative : Bool) (d : Decimal) :
    unsigned? negative d.positional = magnitude? decimal negative d.positional := by
  have hx : 'x' ∉ d.positional := Decimal.not_mem_positional (by decide) (by decide)
  have hX : 'X' ∉ d.positional := Decimal.not_mem_positional (by decide) (by decide)
  have hi : 'i' ∉ d.positional := Decimal.not_mem_positional (by decide) (by decide)
  have hunderscore : '_' ∉ d.positional := Decimal.not_mem_positional (by decide) (by decide)
  unfold unsigned?
  split
  · rename_i rest heq
    exact absurd (heq ▸ by simp) hx
  · rename_i rest heq
    exact absurd (heq ▸ by simp) hX
  · have hword : ¬ (d.positional.map Char.toLower = ['i', 'n', 'f'] ∨
        d.positional.map Char.toLower = ['i', 'n', 'f', 'i', 'n', 'i', 't', 'y']) := by
      rw [Decimal.map_toLower_positional]
      rintro (heq | heq)
      · exact hi (heq ▸ by simp)
      · exact hi (heq ▸ by simp)
    have hfilter : d.positional.filter (· ≠ '_') = d.positional := by
      rw [List.filter_eq_self]
      intro c hc
      exact decide_eq_true fun heq => hunderscore (heq ▸ hc)
    dsimp only
    rw [if_neg hword, separated?, if_pos (wellSeparated_of_not_mem hunderscore), hfilter]

theorem takeSign_positional (d : Decimal) : takeSign d.positional = (false, d.positional) := by
  have hplus : '+' ∉ d.positional := Decimal.not_mem_positional (by decide) (by decide)
  have hminus : '-' ∉ d.positional := Decimal.not_mem_positional (by decide) (by decide)
  unfold takeSign
  split
  · rename_i rest heq
    exact absurd (heq ▸ List.mem_cons_self) hplus
  · rename_i rest heq
    exact absurd (heq ▸ List.mem_cons_self) hminus
  · rfl

end Numeral

namespace Number

/-- A printed decimal that is not too large is read as the number nearest to it, with
either sign. -/
theorem unsigned?_of_toNumber {d : Decimal} {rank : Fin finiteCount}
    (h : d.toNumber = ofRank false rank) (negative : Bool) :
    Numeral.unsigned? negative d.positional = some (.finite negative rank) := by
  obtain ⟨r, hr⟩ := exists_rank_ofScaled d.coefficient 10 d.exponent
  have hrank : r = rank := rank_eq_of_ofRank rank.isLt ((hr false).symm.trans h)
  have hnearest : Numeral.Digits.nearest Numeral.decimal negative
      ⟨Nat.toDigits 10 d.whole, d.fraction, 0⟩ = .finite negative rank := by
    rw [← ofRank_of_lt, ← hrank, ← hr negative, ← Decimal.ofScaled_positional]
    simp [Numeral.Digits.nearest, Numeral.decimal]
  rw [Numeral.unsigned?_positional, Numeral.magnitude?_positional,
    Numeral.value_of_length_le (Decimal.length_whole_le rank.isLt h), hnearest]

/-- **A number reads back from its printed form**, unless it is not a number. -/
theorem ofChars?_print {x : Number} (hx : x ≠ .nan) : ofChars? x.print = some x := by
  cases x with
  | nan => exact absurd rfl hx
  | infinity negative => cases negative <;> decide
  | finite negative rank =>
      have hreads := unsigned?_of_toNumber (Decimal.toNumber_shortest rank)
      cases negative with
      | false =>
          rw [print, if_neg (by decide)]
          generalize Decimal.shortest rank = d at hreads
          have hn : 'n' ∉ d.positional := Decimal.not_mem_positional (by decide) (by decide)
          have hnan : d.positional.map Char.toLower ≠ ['n', 'a', 'n'] := by
            rw [Decimal.map_toLower_positional]
            exact fun heq => hn (heq ▸ by simp)
          rw [ofChars?, if_neg hnan, Numeral.takeSign_positional]
          exact hreads false
      | true =>
          rw [print, if_pos rfl]
          generalize Decimal.shortest rank = d at hreads
          have hnan : ('-' :: d.positional).map Char.toLower ≠ ['n', 'a', 'n'] := by
            rw [List.map_cons]
            intro heq
            exact absurd (List.cons.inj heq).1 (by decide)
          rw [ofChars?, if_neg hnan]
          exact hreads true

end Number

end LexLisp
