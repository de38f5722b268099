import Mathlib.Algebra.Order.Field.Power
import Mathlib.Tactic.FieldSimp
import Mathlib.Tactic.Linarith
import Mathlib.Tactic.Positivity
import Mathlib.Tactic.Ring
import LogicBoard.Binary64

namespace LogicBoard.Binary64

def value (v : Binary64) : ℚ := v.mantissa * 2 ^ v.exponent

/-- Each number that is a double has one such form. There is no greatest exponent, as rounding comes before the range. -/
structure Canonical (v : Binary64) : Prop where
  below : v.mantissa < 2 ^ 53
  least : -1074 ≤ v.exponent
  full : v.exponent = -1074 ∨ 2 ^ 52 ≤ v.mantissa

/-- No double is nearer to the number, and one that is as near does not have an even mantissa alone. -/
structure Nearest (q : ℚ) (v : Binary64) : Prop where
  canonical : v.Canonical
  closest : ∀ w : Binary64, w.Canonical → |q - v.value| ≤ |q - w.value|
  even : ∀ w : Binary64, w.Canonical → w ≠ v → |q - w.value| = |q - v.value| → v.mantissa % 2 = 0

/-- The number is rounded to the nearest double, ties to the even mantissa. Nothing is left when that double is beyond the
greatest exponent. -/
def Rounds (q : ℚ) (result : Option Binary64) : Prop :=
  ∃ v, Nearest q v ∧ result = if 971 < v.exponent then none else some v

section
variable {v w : Binary64} {m : Nat} {e : Int}

theorem Canonical.value_lt (canonical : v.Canonical) : v.value < 2 ^ 53 * 2 ^ v.exponent := by
  have below : (v.mantissa : ℚ) < 2 ^ 53 := by exact_mod_cast canonical.below
  exact mul_lt_mul_of_pos_right below (by positivity)

/-- A greater exponent makes a greater double, since its mantissa is full. -/
theorem value_lt_of_exponent_lt (canonicalV : v.Canonical) (canonicalW : w.Canonical)
    (less : v.exponent < w.exponent) : v.value < w.value := by
  have full : (2 ^ 52 : ℚ) ≤ w.mantissa := by
    have notLeast : w.exponent ≠ -1074 := by
      have := canonicalV.least
      omega
    exact_mod_cast canonicalW.full.resolve_left notLeast
  have power : (2 : ℚ) ^ (v.exponent + 1) ≤ 2 ^ w.exponent := zpow_le_zpow_right₀ (by norm_num) less
  calc v.value < 2 ^ 53 * 2 ^ v.exponent := canonicalV.value_lt
    _ = 2 ^ 52 * 2 ^ (v.exponent + 1) := by
      rw [zpow_add_one₀ (by norm_num)]
      ring
    _ ≤ w.mantissa * 2 ^ w.exponent := mul_le_mul full power (by positivity) (by positivity)

theorem eq_of_value_eq (canonicalV : v.Canonical) (canonicalW : w.Canonical) (same : v.value = w.value) : v = w := by
  have exponents : v.exponent = w.exponent := by
    rcases lt_trichotomy v.exponent w.exponent with less | equal | greater
    · exact absurd same (value_lt_of_exponent_lt canonicalV canonicalW less).ne
    · exact equal
    · exact absurd same (value_lt_of_exponent_lt canonicalW canonicalV greater).ne'
  obtain ⟨m, e⟩ := v
  obtain ⟨n, e'⟩ := w
  cases exponents
  have power : (2 : ℚ) ^ e ≠ 0 := by positivity
  have mantissas : (m : ℚ) = n := mul_right_cancel₀ power same
  rw [Nat.cast_injective mantissas]

/-- No double lies strictly between two multiples of a power of two that follow one another, from a full mantissa on. -/
theorem Canonical.gap (full : e = -1074 ∨ 2 ^ 52 ≤ m) (canonical : w.Canonical) :
    w.value ≤ m * 2 ^ e ∨ (m + 1 : ℚ) * 2 ^ e ≤ w.value := by
  have power : (0 : ℚ) < 2 ^ e := by positivity
  by_cases finer : w.exponent < e
  · have least := canonical.least
    have full : (2 ^ 52 : ℚ) ≤ m := by exact_mod_cast full.resolve_left (by omega)
    have steps : (2 : ℚ) ^ (w.exponent + 1) ≤ 2 ^ e := zpow_le_zpow_right₀ (by norm_num) finer
    rw [zpow_add_one₀ (by norm_num)] at steps
    left
    nlinarith [canonical.value_lt]
  · have onGrid : w.value = (w.mantissa * 2 ^ (w.exponent - e).toNat : Nat) * 2 ^ e := by
      have split : w.exponent = ((w.exponent - e).toNat : Int) + e := by omega
      unfold value
      rw [split, zpow_add₀ (by norm_num), zpow_natCast]
      push_cast
      rw [← split]
      ring
    rw [onGrid]
    rcases Nat.lt_or_ge m (w.mantissa * 2 ^ (w.exponent - e).toNat) with above | below
    · right
      exact mul_le_mul_of_nonneg_right (by exact_mod_cast above) power.le
    · left
      exact mul_le_mul_of_nonneg_right (by exact_mod_cast below) power.le

/-- Two doubles with no other one between them. -/
structure Neighbours (a b : Binary64) : Prop where
  lower : a.Canonical
  upper : b.Canonical
  less : a.value < b.value
  apart : ∀ w : Binary64, w.Canonical → w.value ≤ a.value ∨ b.value ≤ w.value

/-- The double that follows one with the given mantissa and exponent. -/
def next (m : Nat) (e : Int) : Binary64 := if m + 1 = 2 ^ 53 then ⟨2 ^ 52, e + 1⟩ else ⟨m + 1, e⟩

theorem value_next (m : Nat) (e : Int) : (next m e).value = (m + 1) * 2 ^ e := by
  unfold next value
  split
  · rename_i top
    have cast : (m : ℚ) + 1 = 2 ^ 53 := by exact_mod_cast top
    rw [cast, zpow_add_one₀ (by norm_num)]
    push_cast
    ring
  · push_cast
    rfl

theorem Canonical.neighbours (canonical : Canonical ⟨m, e⟩) : Neighbours ⟨m, e⟩ (next m e) where
  lower := canonical
  upper := by
    obtain ⟨below, least, full⟩ := canonical
    unfold next
    split
    · exact ⟨by norm_num, by simp only at least ⊢; omega, .inr le_rfl⟩
    · exact ⟨by simp only at below ⊢; omega, least, full.imp_right (Nat.le_succ_of_le ·)⟩
  less := by
    have power : (0 : ℚ) < 2 ^ e := by positivity
    rw [value_next]
    exact mul_lt_mul_of_pos_right (lt_add_one _) power
  apart w canonicalW := by
    rw [value_next]
    exact canonicalW.gap canonical.full

namespace Neighbours
variable {a b : Binary64} {q : ℚ}

theorem nearest_lower (neighbours : Neighbours a b) (from_lower : a.value ≤ q)
    (nearer : q - a.value < b.value - q ∨ q - a.value = b.value - q ∧ a.mantissa % 2 = 0) : Nearest q a := by
  have less := neighbours.less
  have distance : |q - a.value| = q - a.value := abs_of_nonneg (by linarith)
  refine ⟨neighbours.lower, fun w canonical => ?_, fun w canonical other same => ?_⟩
  · rw [distance]
    rcases neighbours.apart w canonical with below | above
    · linarith [le_abs_self (q - w.value)]
    · rcases nearer with nearer | ⟨tie, _⟩ <;> linarith [neg_le_abs (q - w.value)]
  · rcases nearer with nearer | ⟨_, even⟩
    · rw [distance] at same
      rcases neighbours.apart w canonical with below | above
      · have equal : w.value = a.value := by linarith [le_abs_self (q - w.value)]
        exact absurd (eq_of_value_eq canonical neighbours.lower equal) other
      · linarith [neg_le_abs (q - w.value)]
    · exact even

theorem nearest_upper (neighbours : Neighbours a b) (to_upper : q ≤ b.value)
    (nearer : b.value - q < q - a.value ∨ b.value - q = q - a.value ∧ b.mantissa % 2 = 0) : Nearest q b := by
  have less := neighbours.less
  have distance : |q - b.value| = b.value - q := by
    rw [abs_sub_comm]
    exact abs_of_nonneg (by linarith)
  refine ⟨neighbours.upper, fun w canonical => ?_, fun w canonical other same => ?_⟩
  · rw [distance]
    rcases neighbours.apart w canonical with below | above
    · rcases nearer with nearer | ⟨tie, _⟩ <;> linarith [le_abs_self (q - w.value)]
    · linarith [neg_le_abs (q - w.value)]
  · rcases nearer with nearer | ⟨_, even⟩
    · rw [distance] at same
      rcases neighbours.apart w canonical with below | above
      · linarith [le_abs_self (q - w.value)]
      · have equal : w.value = b.value := by linarith [neg_le_abs (q - w.value)]
        exact absurd (eq_of_value_eq canonical neighbours.upper equal) other
    · exact even

/-- Above an odd mantissa, the middle between the two is rounded up. -/
theorem le_nearest_iff (neighbours : Neighbours a b) (odd : a.mantissa % 2 = 1) {v : Binary64} (nearest : Nearest q v) :
    b.value ≤ v.value ↔ a.value + b.value ≤ 2 * q := by
  have less := neighbours.less
  constructor
  · intro above
    have closest := nearest.closest a neighbours.lower
    by_contra below
    rcases abs_cases (q - a.value) with ⟨distance, _⟩ | ⟨distance, _⟩ <;> linarith [neg_le_abs (q - v.value)]
  · intro middle
    rcases neighbours.apart v nearest.canonical with below | above
    · have closest := nearest.closest b neighbours.upper
      rcases abs_cases (q - b.value) with ⟨distance, _⟩ | ⟨distance, _⟩
      · linarith [le_abs_self (q - v.value)]
      · have equal : v.value = a.value := by linarith [le_abs_self (q - v.value)]
        obtain rfl := eq_of_value_eq nearest.canonical neighbours.lower equal
        have tie : |q - b.value| = |q - v.value| := by linarith [le_abs_self (q - v.value)]
        have even := nearest.even b neighbours.upper (fun same => less.ne (congrArg value same).symm) tie
        omega
    · exact above

/-- Below an odd mantissa, the middle between the two is rounded down. -/
theorem nearest_le_iff (neighbours : Neighbours a b) (odd : b.mantissa % 2 = 1) {v : Binary64} (nearest : Nearest q v) :
    v.value ≤ a.value ↔ 2 * q ≤ a.value + b.value := by
  have less := neighbours.less
  constructor
  · intro below
    have closest := nearest.closest b neighbours.upper
    by_contra above
    rcases abs_cases (q - b.value) with ⟨distance, _⟩ | ⟨distance, _⟩ <;> linarith [le_abs_self (q - v.value)]
  · intro middle
    rcases neighbours.apart v nearest.canonical with below | above
    · exact below
    · have closest := nearest.closest a neighbours.lower
      rcases abs_cases (q - a.value) with ⟨distance, _⟩ | ⟨distance, _⟩
      · have equal : v.value = b.value := by linarith [neg_le_abs (q - v.value)]
        obtain rfl := eq_of_value_eq nearest.canonical neighbours.upper equal
        have tie : |q - a.value| = |q - v.value| := by linarith [neg_le_abs (q - v.value)]
        have even := nearest.even a neighbours.lower (fun same => less.ne (congrArg value same)) tie
        omega
      · linarith [neg_le_abs (q - v.value)]

end Neighbours

/-- The greatest double with an exponent in range has an odd mantissa, so half a step beyond it already leads out. -/
theorem Nearest.beyond_iff {q : ℚ} (nearest : Nearest q v) : 971 < v.exponent ↔ 2 ^ 1024 - 2 ^ 970 ≤ q := by
  have canonical : Canonical ⟨2 ^ 53 - 1, 971⟩ := ⟨by norm_num, by norm_num, .inr (by norm_num)⟩
  have neighbours := canonical.neighbours
  have first : next (2 ^ 53 - 1) 971 = ⟨2 ^ 52, 972⟩ := by simp [next]
  have beyond : 971 < v.exponent ↔ (next (2 ^ 53 - 1) 971).value ≤ v.value := by
    rw [first]
    have upper : Canonical ⟨2 ^ 52, 972⟩ := first ▸ neighbours.upper
    constructor
    · intro beyond
      rcases (show 972 ≤ v.exponent from beyond).eq_or_lt with equal | greater
      · have full : (2 ^ 52 : ℚ) ≤ v.mantissa := by exact_mod_cast nearest.canonical.full.resolve_left (by omega)
        unfold value
        rw [← equal]
        exact mul_le_mul_of_nonneg_right (by exact_mod_cast full) (by positivity)
      · exact (value_lt_of_exponent_lt upper nearest.canonical greater).le
    · intro above
      by_contra within
      exact absurd above (value_lt_of_exponent_lt nearest.canonical upper (by simp only; omega)).not_ge
  have sum : value ⟨2 ^ 53 - 1, 971⟩ + (next (2 ^ 53 - 1) 971).value = 2 * (2 ^ 1024 - 2 ^ 970) := by
    have step : (2 : ℚ) ^ (971 : Int) = 2 * 2 ^ 970 := by
      rw [← pow_succ']
      rfl
    have whole : (2 : ℚ) ^ 1024 = 2 ^ 54 * 2 ^ 970 := pow_add 2 54 970
    rw [value_next, value, step, whole]
    generalize (2 : ℚ) ^ 970 = unit
    push_cast
    ring
  rw [beyond, neighbours.le_nearest_iff (by norm_num) nearest, sum]
  exact mul_le_mul_iff_right₀ two_pos

/-- The double 5/2 has an odd one above it, so half a step above 5/2 is still rounded down to it. -/
theorem Nearest.above_iff {q : ℚ} (nearest : Nearest q v) : 5 / 2 < v.value ↔ 5 / 2 + 1 / 2 ^ 52 < q := by
  have canonical : Canonical ⟨5 * 2 ^ 50, -51⟩ := ⟨by norm_num, by norm_num, .inr (by norm_num)⟩
  have odd : (next (5 * 2 ^ 50) (-51)).mantissa % 2 = 1 := by simp [next]
  have here : value ⟨5 * 2 ^ 50, -51⟩ = 5 / 2 := by norm_num [value]
  have sum : value ⟨5 * 2 ^ 50, -51⟩ + (next (5 * 2 ^ 50) (-51)).value = 2 * (5 / 2 + 1 / 2 ^ 52) := by
    rw [value_next, here]
    norm_num
  rw [← not_le, ← here, canonical.neighbours.nearest_le_iff odd nearest, sum, here, not_le]
  constructor <;> intro less <;> linarith

end

/-- An integer power as a quotient of two natural ones. -/
theorem zpow_eq_div {base : ℚ} (nonzero : base ≠ 0) (e : Int) : base ^ e = base ^ e.toNat / base ^ (-e).toNat := by
  rw [← zpow_natCast, ← zpow_natCast, ← zpow_sub₀ nonzero]
  congr 1
  omega

/-- The whole part of a quotient, or one more when its fraction is more than a half, or just a half and the whole part
odd, with the exponent. -/
def roundedDiv (top bottom : Nat) (e : Int) : Binary64 :=
  let whole := top / bottom
  let twice := 2 * (top % bottom)
  let rounded := if bottom < twice ∨ (bottom = twice ∧ whole % 2 = 1) then whole + 1 else whole
  if rounded = 2 * leastFull then ⟨leastFull, e + 1⟩ else ⟨rounded, e⟩

theorem nearest_roundedDiv {top bottom : Nat} (positive : 0 < bottom) {e : Int}
    (canonical : Canonical ⟨top / bottom, e⟩) : Nearest ((top / bottom : ℚ) * 2 ^ e) (roundedDiv top bottom e) := by
  have neighbours := canonical.neighbours
  have small : top % bottom < bottom := Nat.mod_lt top positive
  have whole : (top : ℚ) = bottom * (top / bottom : Nat) + (top % bottom : Nat) := by
    exact_mod_cast (Nat.div_add_mod top bottom).symm
  -- Both distances are measured in parts of the step, of which the remainder gives the number.
  have part : (0 : ℚ) < 2 ^ e / bottom := by positivity
  have below : (top / bottom : ℚ) * 2 ^ e - value ⟨top / bottom, e⟩ = (top % bottom : Nat) * (2 ^ e / bottom) := by
    rw [value, whole]
    field_simp
    ring
  have above : (next (top / bottom) e).value - (top / bottom : ℚ) * 2 ^ e =
      (bottom - top % bottom : Nat) * (2 ^ e / bottom) := by
    rw [value_next, whole, Nat.cast_sub small.le]
    field_simp
    ring
  have compare {m n : Nat} : (m * (2 ^ e / bottom) : ℚ) < n * (2 ^ e / bottom) ↔ m < n := by
    rw [mul_lt_mul_iff_left₀ part, Nat.cast_lt]
  unfold roundedDiv
  dsimp only
  split
  · rename_i up
    refine neighbours.nearest_upper ?_ ?_
    · have := mul_nonneg (Nat.cast_nonneg (bottom - top % bottom)) part.le
      linarith
    · rw [above, below, compare]
      refine up.imp (fun _ => by omega) fun tie => ⟨by congr 2; omega, ?_⟩
      unfold next
      split
      · norm_num
      · simp only
        omega
  · rename_i down
    rw [if_neg (canonical.below.trans_eq (by norm_num [leastFull])).ne]
    refine neighbours.nearest_lower ?_ ?_
    · have := mul_nonneg (Nat.cast_nonneg (top % bottom)) part.le
      linarith
    · rw [above, below, compare]
      rcases Nat.lt_or_ge (2 * (top % bottom)) bottom with less | tie
      · exact .inl (by omega)
      · exact .inr ⟨by congr 2; omega, by simp only; omega⟩

/-- The exponent with which a quotient gets 53 bits, or the least one. -/
def scale (num den : Nat) : Int :=
  let guess : Int := (Nat.log2 num : Int) - Nat.log2 den - 52
  let full := decide (leastFull * (den * Nat.pow 2 guess.toNat) ≤ num * Nat.pow 2 (-guess).toNat)
  max (-1074) (if full then guess else guess - 1)

theorem nearest?_eq {num : Nat} (nonzero : num ≠ 0) (den : Nat) :
    nearest? num den =
      let e := scale num den
      let v := roundedDiv (num * Nat.pow 2 (-e).toNat) (den * Nat.pow 2 e.toNat) e
      if 971 < v.exponent then none else some v :=
  if_neg nonzero

/-- The binary logarithms of numerator and denominator leave two scales on which a quotient may have 53 bits. -/
theorem guess_bounds {num den : Nat} (positive : 0 < num) (divides : 0 < den) {guess : Int}
    (guessed : guess = (Nat.log2 num : Int) - Nat.log2 den - 52) :
    (2 ^ 51 * 2 ^ guess : ℚ) < num / den ∧ (num / den : ℚ) < 2 ^ 53 * 2 ^ guess := by
  have numLower : (2 ^ num.log2 : ℚ) ≤ num := by exact_mod_cast Nat.log2_self_le positive.ne'
  have numUpper : (num : ℚ) < 2 ^ num.log2 * 2 := by exact_mod_cast Nat.lt_log2_self
  have denLower : (2 ^ den.log2 : ℚ) ≤ den := by exact_mod_cast Nat.log2_self_le divides.ne'
  have denUpper : (den : ℚ) < 2 ^ den.log2 * 2 := by exact_mod_cast Nat.lt_log2_self
  have power : (2 : ℚ) ^ guess = 2 ^ num.log2 / 2 ^ den.log2 / 2 ^ 52 := by
    rw [guessed, zpow_sub₀ (by norm_num), zpow_sub₀ (by norm_num)]
    norm_cast
  have denPositive : (0 : ℚ) < den := by exact_mod_cast divides
  rw [power, lt_div_iff₀ denPositive, div_lt_iff₀ denPositive]
  constructor
  · calc (2 ^ 51 * (2 ^ num.log2 / 2 ^ den.log2 / 2 ^ 52) * den : ℚ)
        < 2 ^ 51 * (2 ^ num.log2 / 2 ^ den.log2 / 2 ^ 52) * (2 ^ den.log2 * 2) :=
          mul_lt_mul_of_pos_left denUpper (by positivity)
      _ = 2 ^ num.log2 := by field_simp
      _ ≤ num := numLower
  · calc (num : ℚ) < 2 ^ num.log2 * 2 := numUpper
      _ = 2 ^ 53 * (2 ^ num.log2 / 2 ^ den.log2 / 2 ^ 52) * 2 ^ den.log2 := by field_simp
      _ ≤ 2 ^ 53 * (2 ^ num.log2 / 2 ^ den.log2 / 2 ^ 52) * den :=
          mul_le_mul_of_nonneg_left denLower (by positivity)

theorem scaled_div (num den : Nat) (e : Int) :
    ((num * Nat.pow 2 (-e).toNat : Nat) / (den * Nat.pow 2 e.toNat : Nat) : ℚ) = num / den / 2 ^ e := by
  rw [zpow_eq_div (by norm_num) e]
  simp only [Nat.pow_eq, Nat.cast_mul, Nat.cast_pow, Nat.cast_ofNat]
  field_simp

/-- Bounding an exponent that leaves 53 bits from below leaves fewer of them. -/
theorem bounds_max {q : ℚ} {e : Int} (lower : 2 ^ 52 * 2 ^ e ≤ q) (upper : q < 2 ^ 53 * 2 ^ e) :
    -1074 ≤ max (-1074) e ∧ q / 2 ^ max (-1074) e < 2 ^ 53 ∧
      (max (-1074) e = -1074 ∨ 2 ^ 52 ≤ q / 2 ^ max (-1074) e) := by
  refine ⟨le_max_left _ _, ?_, ?_⟩
  · rw [div_lt_iff₀ (by positivity)]
    refine upper.trans_le (mul_le_mul_of_nonneg_left ?_ (by positivity))
    exact zpow_le_zpow_right₀ (by norm_num) (le_max_right _ _)
  · rcases le_total (-1074) e with fits | least
    · rw [max_eq_right fits, le_div_iff₀ (by positivity)]
      exact .inr lower
    · exact .inl (max_eq_left least)

theorem scale_bounds {num den : Nat} (positive : 0 < num) (divides : 0 < den) :
    -1074 ≤ scale num den ∧ (num / den / 2 ^ scale num den : ℚ) < 2 ^ 53 ∧
      (scale num den = -1074 ∨ (2 ^ 52 : ℚ) ≤ num / den / 2 ^ scale num den) := by
  unfold scale
  have bounds := guess_bounds positive divides rfl
  generalize (num.log2 : Int) - den.log2 - 52 = guess at bounds
  obtain ⟨lower, upper⟩ := bounds
  have scaled : (0 : ℚ) < (den * Nat.pow 2 guess.toNat : Nat) := by
    exact_mod_cast Nat.mul_pos divides (Nat.two_pow_pos _)
  have full : leastFull * (den * Nat.pow 2 guess.toNat) ≤ num * Nat.pow 2 (-guess).toNat ↔
      (2 ^ 52 * 2 ^ guess : ℚ) ≤ num / den := by
    rw [← le_div_iff₀ (by positivity), ← scaled_div, le_div_iff₀ scaled]
    norm_num [leastFull, ← Nat.cast_le (α := ℚ)]
  dsimp only
  split
  · rename_i decided
    exact bounds_max (full.mp (of_decide_eq_true decided)) upper
  · rename_i decided
    have short := not_le.mp (full.not.mp fun le => decided (decide_eq_true le))
    have finer : (2 : ℚ) ^ guess = 2 ^ (guess - 1) * 2 := by rw [← zpow_add_one₀ (by norm_num), sub_add_cancel]
    rw [finer] at short lower
    exact bounds_max (by linarith) (by linarith)

theorem canonical_div {top bottom : Nat} (positive : 0 < bottom) {e : Int} (least : -1074 ≤ e)
    (below : (top / bottom : ℚ) < 2 ^ 53) (full : e = -1074 ∨ (2 ^ 52 : ℚ) ≤ top / bottom) :
    Canonical ⟨top / bottom, e⟩ := by
  have bottomPositive : (0 : ℚ) < bottom := by exact_mod_cast positive
  rw [div_lt_iff₀ bottomPositive] at below
  refine ⟨(Nat.div_lt_iff_lt_mul positive).mpr (by exact_mod_cast below), least, full.imp_right fun full => ?_⟩
  rw [le_div_iff₀ bottomPositive] at full
  exact (Nat.le_div_iff_mul_le positive).mpr (by exact_mod_cast full)

theorem canonical_zero : zero.Canonical := ⟨by norm_num [zero], by simp [zero], .inl rfl⟩

/-- What is computed for a quotient is the quotient rounded to the nearest double, ties to the even mantissa. -/
theorem rounds_nearest? (num : Nat) {den : Nat} (divides : 0 < den) : Rounds (num / den) (nearest? num den) := by
  by_cases none : num = 0
  · refine ⟨zero, ⟨canonical_zero, fun w _ => ?_, fun _ _ _ _ => rfl⟩, if_pos none⟩
    have nonneg : 0 ≤ w.value := by
      unfold value
      positivity
    simpa [none, zero, value] using nonneg
  · rw [nearest?_eq none]
    obtain ⟨least, below, full⟩ := scale_bounds (Nat.pos_of_ne_zero none) divides
    dsimp only
    generalize scale num den = e at least below full
    have positive : 0 < den * Nat.pow 2 e.toNat := Nat.mul_pos divides (Nat.two_pow_pos _)
    rw [← scaled_div] at below full
    have nearest := nearest_roundedDiv positive (canonical_div positive least below full)
    rw [scaled_div, div_mul_cancel₀ _ (by positivity)] at nearest
    exact ⟨_, nearest, rfl⟩

end LogicBoard.Binary64
