import LexLisp.Machine.Step
import Mathlib.Algebra.Group.Nat.Defs
import Mathlib.Order.Monotone.Basic

/-!
# Rounding and addition

Reading a numeral and adding two numbers both end in `Number.nearestRank`, which picks
the rank of a magnitude for a fraction of units.  Here is what it picks:

* the magnitudes grow with their ranks (`Number.units_strictMono`), and every fraction
  lies between two neighbours among them (`Number.nearestRank_bracket`);
* no magnitude is nearer to the fraction than the one picked, and where another is as
  near, the rank picked is even (`Number.nearestRank_nearest`).

From this come the laws of addition: it is exact where the sum is a number
(`Number.add_exact`), gives a nearest number otherwise (`Number.add_nearest`), does not
depend on the order (`Number.add_comm`) and has negative zero as its neutral element
(`Number.negativeZero_add`).
-/

namespace LexLisp

/-- A factor common to both parts of a fraction does not change how it rounds. -/
theorem roundDiv_mul_right (num den : Nat) {k : Nat} (hk : 0 < k) :
    roundDiv (num * k) (den * k) = roundDiv num den := by
  have htwice : 2 * (num * k % (den * k)) = 2 * (num % den) * k := by
    rw [Nat.mul_mod_mul_right, Nat.mul_assoc]
  simp only [roundDiv, Nat.mul_div_mul_right num den hk, htwice, Nat.mul_lt_mul_right hk]

namespace Number

/-- Within a run the magnitudes are the multiples of its step, up to and including the
first magnitude of the next run. -/
theorem units_of_run {run m : Nat} (hlow : run = 0 ∨ runLength ≤ m) (hhigh : m ≤ 2 * runLength) :
    units (run * runLength + m) = m * 2 ^ run := by
  have hlength : 0 < runLength := Nat.two_pow_pos 52
  simp only [units, Nat.pow_eq]
  rcases Nat.lt_or_eq_of_le hhigh with hlt | heq
  · have hdiv : (run * runLength + m) / runLength - 1 = run := by
      rw [Nat.add_comm, Nat.add_mul_div_right _ _ hlength]
      have hq : m / runLength < 2 := (Nat.div_lt_iff_lt_mul hlength).mpr hlt
      have hone : run = 0 ∨ 1 ≤ m / runLength := hlow.imp_right (Nat.div_pos · hlength)
      omega
    rw [hdiv, Nat.add_sub_cancel_left]
  · have hdiv : (run * runLength + m) / runLength - 1 = run + 1 := by
      rw [heq, ← Nat.add_mul, Nat.mul_div_cancel _ hlength]
      omega
    have hrest : run * runLength + m - (run + 1) * runLength = runLength := by
      rw [heq, Nat.add_mul]
      omega
    rw [hdiv, hrest, heq, Nat.pow_succ]
    ac_rfl

/-- Every rank has a place in a run, with room for the next rank after it. -/
theorem exists_run (rank : Nat) :
    ∃ run m, rank = run * runLength + m ∧ (run = 0 ∨ runLength ≤ m) ∧ m < 2 * runLength := by
  have hlength : 0 < runLength := Nat.two_pow_pos 52
  have hrank := Nat.div_add_mod' rank runLength
  have hmod := Nat.mod_lt rank hlength
  by_cases hfirst : rank / runLength = 0
  · rw [hfirst, Nat.zero_mul, Nat.zero_add] at hrank
    exact ⟨0, rank, by omega, .inl rfl, by omega⟩
  · obtain ⟨run, hrun⟩ := Nat.exists_eq_succ_of_ne_zero hfirst
    rw [hrun, Nat.succ_mul] at hrank
    exact ⟨run, runLength + rank % runLength, by omega, .inr (Nat.le_add_right _ _), by omega⟩

/-- The next rank has the greater magnitude. -/
theorem units_lt_succ (rank : Nat) : units rank < units (rank + 1) := by
  obtain ⟨run, m, hrank, hlow, hhigh⟩ := exists_run rank
  rw [hrank, Nat.add_assoc, units_of_run hlow (Nat.le_of_lt hhigh),
    units_of_run (hlow.imp_right Nat.le_succ_of_le) hhigh]
  exact Nat.mul_lt_mul_of_pos_right (Nat.lt_succ_self m) (Nat.two_pow_pos run)

/-- Magnitudes are in the order of their ranks. -/
theorem units_strictMono : StrictMono units := strictMono_nat_of_lt_succ units_lt_succ

/-- Below the fraction, or at it, lies the magnitude its whole steps count, and above it
the next one. -/
theorem nearestRank_bracket (num : Nat) {den : Nat} (hden : 0 < den) :
    ∃ low step, 0 < step ∧ low % 2 = num / step % 2 ∧
      units low * den = num / step * step ∧ units (low + 1) * den = (num / step + 1) * step ∧
      nearestRank num den + num / step = low + roundDiv num step := by
  obtain ⟨run, hrun⟩ : ∃ run, run = (num / den).log2 - 52 := ⟨_, rfl⟩
  have hpow := Nat.two_pow_pos run
  obtain ⟨q, hq⟩ : ∃ q, q = num / (den * 2 ^ run) := ⟨_, rfl⟩
  have hlength : runLength = 2 ^ 52 := rfl
  have hdiv : q = num / den / 2 ^ run := by rw [hq, Nat.div_div_eq_div_mul]
  have hhigh : q < 2 * runLength := by
    rw [hdiv, Nat.div_lt_iff_lt_mul hpow, hlength, ← Nat.pow_succ', ← Nat.pow_add]
    exact Nat.lt_of_lt_of_le Nat.lt_log2_self (Nat.pow_le_pow_right (by decide) (by omega))
  have hlow : run = 0 ∨ runLength ≤ q := by
    refine or_iff_not_imp_left.mpr fun hne => ?_
    have hnum : num / den ≠ 0 := by
      intro hzero
      rw [hzero] at hrun
      exact hne (by simpa using hrun)
    rw [hdiv, Nat.le_div_iff_mul_le hpow, hlength, ← Nat.pow_add]
    exact Nat.le_trans (Nat.pow_le_pow_right (by decide) (by omega)) (Nat.log2_self_le hnum)
  refine ⟨run * runLength + q, den * 2 ^ run, Nat.mul_pos hden hpow, ?_, ?_, ?_, ?_⟩
  · rw [← hq, hlength, Nat.add_mod, Nat.mul_mod]
    simp
  · rw [← hq, units_of_run hlow (Nat.le_of_lt hhigh)]
    ac_rfl
  · rw [← hq, Nat.add_assoc, units_of_run (hlow.imp_right Nat.le_succ_of_le) hhigh]
    ac_rfl
  · rw [← hq]
    simp only [nearestRank, ← hrun, Nat.pow_eq]
    omega

/-- How far the magnitude of this rank lies from `num / den` units, `den` times over. -/
def distance (rank num den : Nat) : Nat :=
  ((units rank * den : Nat) - (num : Int)).natAbs

/-- No magnitude is nearer to the fraction than the one picked, and where another is as
near, the rank picked is even. -/
theorem nearestRank_nearest (num rank : Nat) {den : Nat} (hden : 0 < den) :
    distance (nearestRank num den) num den ≤ distance rank num den ∧
      (distance rank num den = distance (nearestRank num den) num den →
        rank = nearestRank num den ∨ nearestRank num den % 2 = 0) := by
  obtain ⟨low, step, hstep, heven, hlow, hnext, hpick⟩ := nearestRank_bracket num hden
  have hnum := Nat.div_add_mod' num step
  have hmod := Nat.mod_lt num hstep
  rw [Nat.add_mul, Nat.one_mul] at hnext
  -- A rank is one of the two neighbours or lies strictly outside them.
  have hplace : rank = low ∨ rank = low + 1 ∨ units rank * den < units low * den ∨
      units (low + 1) * den < units rank * den := by
    rcases Nat.lt_trichotomy rank low with hlt | heq | hgt
    · exact .inr (.inr (.inl (Nat.mul_lt_mul_of_pos_right (units_strictMono hlt) hden)))
    · exact .inl heq
    · rcases Nat.lt_or_eq_of_le (Nat.succ_le_of_lt hgt) with hlt | heq
      · exact .inr (.inr (.inr (Nat.mul_lt_mul_of_pos_right (units_strictMono hlt) hden)))
      · exact .inr (.inl heq.symm)
  have hpicked : nearestRank num den = low ∧ 2 * (num % step) ≤ step ∨
      nearestRank num den = low + 1 ∧ step ≤ 2 * (num % step) := by
    simp only [roundDiv] at hpick
    split at hpick
    · omega
    · split at hpick
      · omega
      · omega
  have htie : 2 * (num % step) = step → nearestRank num den % 2 = 0 := by
    intro h
    simp only [roundDiv, h, Nat.lt_irrefl, if_false] at hpick
    omega
  rcases hpicked with ⟨hp, hside⟩ | ⟨hp, hside⟩
  · rw [hp] at htie ⊢
    simp only [distance]
    rcases hplace with rfl | rfl | hout | hout <;> omega
  · rw [hp] at htie ⊢
    simp only [distance]
    rcases hplace with rfl | rfl | hout | hout <;> omega

/-- A magnitude is nearest to itself. -/
theorem nearestRank_units (rank : Nat) : nearestRank (units rank) 1 = rank := by
  have hnear := (nearestRank_nearest (units rank) rank Nat.one_pos).1
  apply units_strictMono.injective
  simp only [distance, Nat.mul_one] at hnear
  omega

/-- Rounding depends on the fraction alone. -/
theorem nearestRank_mul_right (num den : Nat) {k : Nat} (hk : 0 < k) :
    nearestRank (num * k) (den * k) = nearestRank num den := by
  simp only [nearestRank, Nat.mul_div_mul_right num den hk]
  rw [Nat.mul_right_comm den k, roundDiv_mul_right _ _ hk]

/-- Magnitudes that need more than 2099 bits in units are too large. -/
theorem finiteCount_le_nearestRank {num den bits : Nat} (hbits : 2099 ≤ bits)
    (h : 2 ^ bits ≤ num / den) : finiteCount ≤ nearestRank num den := by
  have hne : num / den ≠ 0 := Nat.ne_of_gt (Nat.lt_of_lt_of_le (Nat.two_pow_pos bits) h)
  have hlog : bits ≤ (num / den).log2 := (Nat.le_log2 hne).mpr h
  have hrun : 2047 ≤ (num / den).log2 - 52 := by omega
  calc finiteCount ≤ ((num / den).log2 - 52) * runLength := Nat.mul_le_mul_right _ hrun
    _ ≤ nearestRank num den := Nat.le_add_right _ _

/-- A rank within the finite ones gives a finite number. -/
theorem ofRank_of_lt (negative : Bool) (rank : Fin finiteCount) :
    ofRank negative rank = .finite negative rank := by
  simp [ofRank]

/-- Zero with a minus sign. -/
def negativeZero : Number := ofRank true 0

/-- The sign apart, a finite number has the units of its rank. -/
theorem natAbs_signedUnits (negative : Bool) (rank : Nat) :
    (signedUnits negative rank).natAbs = units rank := by
  cases negative <;> simp [signedUnits]

/-- The other sign turns the units around. -/
theorem signedUnits_not (negative : Bool) (rank : Nat) :
    signedUnits (!negative) rank = -signedUnits negative rank := by
  cases negative <;> simp [signedUnits]

/-- Only rank 0 stands for no units. -/
theorem signedUnits_eq_zero_iff {negative : Bool} {rank : Nat} :
    signedUnits negative rank = 0 ↔ rank = 0 := by
  rw [← Int.natAbs_eq_zero, natAbs_signedUnits]
  exact units_strictMono.injective.eq_iff' rfl

/-- A number that is not zero has the sign its units have. -/
theorem signedUnits_neg_iff {negative : Bool} {rank : Nat} (hrank : rank ≠ 0) :
    signedUnits negative rank < 0 ↔ negative = true := by
  have hpos : units rank ≠ 0 := fun h => hrank (units_strictMono.injective h)
  cases negative with
  | false => simp [signedUnits]
  | true => simp [signedUnits, Nat.pos_of_ne_zero hpos]

/-- The sum does not depend on the order. -/
theorem add_comm (x y : Number) : x.add y = y.add x := by
  cases x <;> cases y <;> simp only [add]
  case infinity.infinity a b => cases a <;> cases b <;> rfl
  case finite.finite a r b s => rw [Int.add_comm, Bool.and_comm]

/-- Where the exact sum is a number other than zero, the sum is that number. -/
theorem add_exact {a b c : Bool} {r s t : Fin finiteCount} (ht : t.val ≠ 0)
    (h : signedUnits a r + signedUnits b s = signedUnits c t) :
    (finite a r).add (.finite b s) = .finite c t := by
  have hne : signedUnits c t ≠ 0 := fun hzero => ht (signedUnits_eq_zero_iff.mp hzero)
  simp only [add, h, if_neg hne, natAbs_signedUnits, ofUnits, nearestRank_units]
  rw [ofRank_of_lt, finite.injEq]
  refine ⟨?_, rfl⟩
  cases c <;> simp [signedUnits_neg_iff ht]

/-- No magnitude is nearer to the exact sum of two finite numbers than that of the number
they add up to, and of two that are as near the even rank is taken.  Its sign is that of
the exact sum, and a sum that is exactly zero is negative only if both numbers are. -/
theorem add_nearest {a b : Bool} {r s : Fin finiteCount} {sum : Int}
    (hsum : sum = signedUnits a r + signedUnits b s) :
    ∃ rank, (finite a r).add (.finite b s) =
        ofRank (if sum = 0 then a && b else decide (sum < 0)) rank ∧
      ∀ other, distance rank sum.natAbs 1 ≤ distance other sum.natAbs 1 ∧
        (distance other sum.natAbs 1 = distance rank sum.natAbs 1 → other = rank ∨ rank % 2 = 0) := by
  refine ⟨nearestRank sum.natAbs 1, ?_, fun other => nearestRank_nearest _ other Nat.one_pos⟩
  by_cases hzero : sum = 0
  · simp only [add, ← hsum, hzero, if_true]
    rfl
  · simp only [add, ← hsum, if_neg hzero]
    rfl

/-- Two finite numbers of one magnitude and opposite signs add up to zero. -/
theorem add_opposite (negative : Bool) (rank : Fin finiteCount) :
    (finite negative rank).add (.finite (!negative) rank) = zero := by
  have hsum : signedUnits negative rank + signedUnits (!negative) rank = 0 := by
    rw [signedUnits_not, Int.add_right_neg]
  simp [add, hsum, zero]

/-- A zero adds nothing to a number other than the zeros. -/
theorem add_of_isZero {z x : Number} (hz : z.isZero = true) (hx : x.isZero = false) :
    z.add x = x := by
  cases z with
  | nan => cases hz
  | infinity _ => cases hz
  | finite a r =>
      have hr : r.val = 0 := eq_of_beq hz
      cases x with
      | nan => rfl
      | infinity _ => rfl
      | finite b s =>
          have hs : s.val ≠ 0 := ne_of_beq_false hx
          exact add_exact hs (by rw [signedUnits_eq_zero_iff.mpr hr, Int.zero_add])

/-- The zeros are the two numbers of rank 0. -/
theorem eq_zero_or_negativeZero {x : Number} (hx : x.isZero = true) :
    x = zero ∨ x = negativeZero := by
  cases x with
  | nan => cases hx
  | infinity _ => cases hx
  | finite negative rank =>
      have hrank : rank = ⟨0, by decide⟩ := Fin.ext (eq_of_beq hx)
      cases negative with
      | false => exact .inl (hrank ▸ rfl)
      | true => exact .inr (hrank ▸ rfl)

/-- Negative zero is neutral. -/
theorem negativeZero_add (x : Number) : negativeZero.add x = x := by
  by_cases hx : x.isZero = true
  · rcases eq_zero_or_negativeZero hx with rfl | rfl <;> rfl
  · exact add_of_isZero rfl (Bool.eq_false_iff.mpr hx)

/-- Zero is neutral for every number other than negative zero, which it turns into zero. -/
theorem zero_add (x : Number) : zero.add x = if x = negativeZero then zero else x := by
  by_cases hx : x.isZero = true
  · rcases eq_zero_or_negativeZero hx with rfl | rfl <;> rfl
  · have hne : x ≠ negativeZero := fun h => hx (h ▸ rfl)
    rw [if_neg hne]
    exact add_of_isZero rfl (Bool.eq_false_iff.mpr hx)

/-- Every rank gives a number. -/
theorem ofRank_ne_nan (negative : Bool) (rank : Nat) : ofRank negative rank ≠ nan := by
  unfold ofRank
  split
  · exact Number.noConfusion
  · exact Number.noConfusion

/-- A sum is not a number only if one of its terms is none or if they are the two
infinities: finite numbers always have a sum. -/
theorem add_eq_nan_iff (x y : Number) :
    x.add y = nan ↔
      x = nan ∨ y = nan ∨ ∃ negative, x = infinity negative ∧ y = infinity (!negative) := by
  cases x with
  | nan => cases y <;> simp [add]
  | infinity a =>
      cases y with
      | nan => simp [add]
      | infinity b => cases a <;> cases b <;> simp [add]
      | finite b s => simp [add]
  | finite a r =>
      cases y with
      | nan => simp [add]
      | infinity b => simp [add]
      | finite b s =>
          obtain ⟨rank, hadd, _⟩ := add_nearest (a := a) (b := b) (r := r) (s := s) rfl
          simp [hadd, ofRank_ne_nan]

/-- Two numbers added to zero in either order give one sum. -/
theorem zero_add_add_comm (x y : Number) : (zero.add x).add y = (zero.add y).add x := by
  by_cases hx : x = negativeZero
  · by_cases hy : y = negativeZero
    · rw [hx, hy]
    · rw [zero_add y, if_neg hy, hx, add_comm y, negativeZero_add]
      rw [zero_add negativeZero, if_pos rfl, zero_add, if_neg hy]
  · by_cases hy : y = negativeZero
    · rw [zero_add x, if_neg hx, hy, add_comm x, negativeZero_add]
      rw [zero_add negativeZero, if_pos rfl, zero_add, if_neg hx]
    · rw [zero_add x, if_neg hx, zero_add y, if_neg hy, add_comm]

end Number

/-- The first two numbers of a sum may change places. -/
theorem Machine.sum_swap (index : Nat) (x y : Number) (rest : List Value) :
    Machine.sum index .zero (.number x :: .number y :: rest) =
      Machine.sum index .zero (.number y :: .number x :: rest) := by
  simp only [Machine.sum]
  rw [Number.zero_add_add_comm]

end LexLisp
