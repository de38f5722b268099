import LogicBoard.Placement
import LogicBoard.Proofs.LetterCase
import LogicBoard.Proofs.NearestDoubles
import LogicBoard.Proofs.VoltageReadings

namespace LogicBoard

namespace Voltage
open Text

theorem limit_eq : (limit : ℚ) = 2 ^ 1024 - 2 ^ 970 := by
  have ordered : 970 ≤ 1024 := by decide
  unfold limit
  -- with variables for the exponents the powers are not evaluated
  generalize 1024 = b at *
  generalize 970 = a at *
  have powers : 2 ^ a ≤ 2 ^ b := Nat.pow_le_pow_right (by decide) ordered
  exact_mod_cast Nat.cast_sub (R := ℚ) powers

theorem limit_le : (limit : ℚ) ≤ 10 ^ 400 :=
  calc (limit : ℚ) ≤ 2 ^ 1024 := by
        rw [limit_eq]
        exact sub_le_self _ (by positivity)
    _ ≤ 2 ^ (3 * 400) := pow_le_pow_right₀ (by norm_num) (by decide)
    _ = (2 ^ 3) ^ 400 := pow_mul ..
    _ ≤ 10 ^ 400 := pow_le_pow_left₀ (by norm_num) (by norm_num) 400

theorem le_limit : 4 ≤ (limit : ℚ) :=
  calc (4 : ℚ) = 2 ^ 2 := by norm_num
    _ ≤ 2 ^ 970 := pow_le_pow_right₀ (by norm_num) (by decide)
    _ = 2 ^ 970 * 2 - 2 ^ 970 := by rw [mul_two, add_sub_cancel_right]
    _ = 2 ^ 971 - 2 ^ 970 := by rw [← pow_succ]
    _ ≤ 2 ^ 1024 - 2 ^ 970 := sub_le_sub_right (pow_le_pow_right₀ (by norm_num) (by decide)) _
    _ = limit := limit_eq.symm

variable {volts : Voltage} {threshold : ℚ}

/-- The number with the exponent brought into range. -/
def bounded (volts : Voltage) : ℚ := ofDigits volts.digits * 10 ^ volts.boundedExponent

theorem bounded_eq_ratio (volts : Voltage) : volts.bounded = volts.ratio.1 / volts.ratio.2 := by
  rw [bounded, Binary64.zpow_eq_div (by norm_num), mul_div_assoc']
  simp [ratio]

theorem ratio_pos (volts : Voltage) : (0 : ℚ) < volts.ratio.2 := by
  have positive : 0 < 10 ^ (-volts.boundedExponent).toNat := by positivity
  exact_mod_cast positive

/-- An exponent out of range is changed on one side of all thresholds: no digits with a smaller one come up to 1, and
only zero stays below the limit with a greater one. -/
theorem bounded_cases (digits : ∀ c ∈ volts.digits, c.isDigit = true) :
    volts.bounded = volts.magnitude ∨ (volts.bounded < 1 ∧ volts.magnitude < 1) ∨
      (limit ≤ volts.bounded ∧ limit ≤ volts.magnitude) := by
  have below : (ofDigits volts.digits : ℚ) < 10 ^ volts.digits.length := by exact_mod_cast ofDigits_lt digits
  rcases lt_or_ge volts.exponent (-volts.digits.length) with small | notSmall
  · have atBound : volts.boundedExponent = -volts.digits.length := by
      unfold boundedExponent
      omega
    have less : volts.bounded < 1 := by
      rw [bounded, atBound, zpow_neg, zpow_natCast, ← div_eq_mul_inv]
      exact (div_lt_one (by positivity)).mpr below
    have smaller : volts.magnitude ≤ volts.bounded :=
      mul_le_mul_of_nonneg_left (zpow_le_zpow_right₀ (by norm_num) (by omega)) (by positivity)
    exact .inr (.inl ⟨less, smaller.trans_lt less⟩)
  · rcases le_or_gt volts.exponent 400 with within | great
    · have same : volts.boundedExponent = volts.exponent := by
        unfold boundedExponent
        omega
      exact .inl (by rw [bounded, same, magnitude])
    · have atBound : volts.boundedExponent = 400 := by
        unfold boundedExponent
        omega
      rcases Nat.eq_zero_or_pos (ofDigits volts.digits) with zero | positive
      · exact .inl (by simp [bounded, magnitude, zero])
      · have one : (1 : ℚ) ≤ ofDigits volts.digits := by exact_mod_cast positive
        have huge : limit ≤ volts.bounded := by
          rw [bounded, atBound]
          exact limit_le.trans (le_mul_of_one_le_left (by positivity) one)
        have greater : volts.bounded ≤ volts.magnitude :=
          mul_le_mul_of_nonneg_left (zpow_le_zpow_right₀ (by norm_num) (by omega)) (by positivity)
        exact .inr (.inr ⟨huge, huge.trans greater⟩)

theorem inRange_iff (digits : ∀ c ∈ volts.digits, c.isDigit = true) :
    volts.inRange = true ↔ volts.magnitude < 2 ^ 1024 - 2 ^ 970 := by
  have compared : volts.inRange = true ↔ volts.bounded < limit := by
    rw [inRange, decide_eq_true_iff, bounded_eq_ratio, div_lt_iff₀ volts.ratio_pos]
    exact_mod_cast Iff.rfl
  rw [compared, ← limit_eq]
  have := le_limit
  rcases bounded_cases digits with same | ⟨less, less'⟩ | ⟨beyond, beyond'⟩
  · rw [same]
  · exact iff_of_true (by linarith) (by linarith)
  · exact iff_of_false beyond.not_gt beyond'.not_gt

theorem level_eq (digits : ∀ c ∈ volts.digits, c.isDigit = true) :
    volts.level = .ofBool (decide (5 / 2 + 1 / 2 ^ 52 < volts.exact)) := by
  have compared : (5 * Nat.pow 2 51 + 1) * volts.ratio.2 < Nat.pow 2 52 * volts.ratio.1 ↔
      5 / 2 + 1 / 2 ^ 52 < volts.bounded := by
    have threshold : (5 / 2 + 1 / 2 ^ 52 : ℚ) = (5 * 2 ^ 51 + 1) / 2 ^ 52 := by norm_num
    rw [bounded_eq_ratio, threshold, div_lt_div_iff₀ (by positivity) volts.ratio_pos, mul_comm (volts.ratio.1 : ℚ)]
    exact_mod_cast Iff.rfl
  have crossed : 5 / 2 + 1 / 2 ^ 52 < volts.bounded ↔ 5 / 2 + 1 / 2 ^ 52 < volts.magnitude := by
    have low : (1 : ℚ) ≤ 5 / 2 + 1 / 2 ^ 52 := by norm_num
    have high : (5 / 2 + 1 / 2 ^ 52 : ℚ) < 4 := by norm_num
    have := le_limit
    rcases bounded_cases digits with same | ⟨less, less'⟩ | ⟨beyond, beyond'⟩
    · rw [same]
    · exact iff_of_false (by linarith) (by linarith)
    · exact iff_of_true (by linarith) (by linarith)
  unfold level exact
  cases volts.negative with
  | false => simp [compared.trans crossed]
  | true =>
    have notAbove : ¬(5 / 2 + 1 / 2 ^ 52 < -volts.magnitude) := by
      have := volts.magnitude_nonneg
      have : (0 : ℚ) < 5 / 2 + 1 / 2 ^ 52 := by positivity
      linarith
    simp only [↓reduceIte, Bool.not_true, Bool.false_and, decide_eq_false notAbove]

end Voltage

namespace Level
open Voltage

/-- What a voltage stands for once it is rounded to a double: nothing when no finite double is left, else whether the
double is above 2.5. The sign takes no part in rounding. -/
def ofRounded (q : ℚ) (rounded : Option Binary64) : Option Level :=
  rounded.map fun v => .ofBool (decide (5 / 2 < if q < 0 then -v.value else v.value))

variable {token : List Char} {q : ℚ}

/-- The tokens that are known without being read as numbers. -/
def Known (token : List Char) : Prop :=
  token = "true".toList ∨ token = ['1'] ∨ token = "false".toList ∨ token = ['0']

theorem ofToken?_of_not_known (unknown : ¬Known token) :
    ofToken? token = (Voltage.ofToken? token).bind fun volts => if volts.inRange then some volts.level else none := by
  unfold Known at unknown
  push Not at unknown
  obtain ⟨notTrue, notOne, notFalse, notZero⟩ := unknown
  rw [ofToken?, if_neg (not_or.mpr ⟨notTrue, notOne⟩), if_neg (not_or.mpr ⟨notFalse, notZero⟩)]

theorem ofToken?_decimal (unknown : ¬Known token) (decimal : Decimal token q) :
    ofToken? token =
      if 2 ^ 1024 - 2 ^ 970 ≤ |q| then none else some (.ofBool (decide (5 / 2 + 1 / 2 ^ 52 < q))) := by
  obtain ⟨volts, reads, rfl⟩ := decimal.exists_ofToken?
  have digits := (decimal_of_ofToken? reads).2
  rw [ofToken?_of_not_known unknown, reads, Option.bind_some, level_eq digits, abs_exact]
  by_cases below : volts.magnitude < 2 ^ 1024 - 2 ^ 970
  · rw [if_pos ((inRange_iff digits).mpr below), if_neg below.not_ge]
  · rw [if_neg (mt (inRange_iff digits).mp below), if_pos (le_of_not_gt below)]

/-- The exact thresholds are those of rounding first: half a step above 2.5, where a tie goes down to the even mantissa of
2.5, and half a step above the greatest double, where a tie goes up. -/
theorem ofRounded_eq {rounded : Option Binary64} (rounds : Binary64.Rounds |q| rounded) :
    ofRounded q rounded =
      if 2 ^ 1024 - 2 ^ 970 ≤ |q| then none else some (.ofBool (decide (5 / 2 + 1 / 2 ^ 52 < q))) := by
  obtain ⟨v, nearest, rfl⟩ := rounds
  simp only [nearest.beyond_iff]
  split
  · rfl
  · have compared : (5 / 2 < if q < 0 then -v.value else v.value) ↔ 5 / 2 + 1 / 2 ^ 52 < q := by
      rcases lt_or_ge q 0 with negative | notNegative
      · have lower : 0 ≤ v.value := by
          unfold Binary64.value
          positivity
        have : (0 : ℚ) < 5 / 2 + 1 / 2 ^ 52 := by positivity
        rw [if_pos negative]
        exact iff_of_false (by linarith) (by linarith)
      · rw [if_neg notNegative.not_gt, nearest.above_iff, abs_of_nonneg notNegative]
    simp only [ofRounded, Option.map_some, compared]

theorem ofToken?_of_not_decimal (unknown : ¬Known token) (other : ∀ q, ¬Decimal token q) : ofToken? token = none := by
  rw [ofToken?_of_not_known unknown]
  cases reads : Voltage.ofToken? token with
  | none => rfl
  | some volts => exact absurd (decimal_of_ofToken? reads).1 (other _)

/-- Nothing that stands for a level has an N in it, which all names of infinity and of no number have. -/
theorem ofToken?_of_letter {c : Char} (letter : c = 'n' ∨ c = 'N') (member : c ∈ token) : ofToken? token = none := by
  refine ofToken?_of_not_decimal ?_ fun q decimal => ?_
  · rintro (rfl | rfl | rfl | rfl) <;> rcases letter with rfl | rfl <;> exact absurd member (by decide)
  · have inDecimal := decimal.mem member
    rcases letter with rfl | rfl <;> exact absurd inDecimal (by decide)

theorem exists_letter {name : List Char}
    (special : name.map Char.toLower ∈ ["inf".toList, "infinity".toList, "nan".toList]) :
    ∃ c ∈ name, c = 'n' ∨ c = 'N' := by
  have inLower : 'n' ∈ name.map Char.toLower := by
    simp only [List.mem_cons, List.not_mem_nil, or_false] at special
    rcases special with same | same | same <;> rw [same] <;> decide
  obtain ⟨c, member, lower⟩ := List.mem_map.mp inLower
  have letter := Text.eq_toLower_or_eq_toUpper c
  rw [lower] at letter
  exact ⟨c, member, letter⟩

/-- A token stands for a level if it is a truth value or the number 1 or 0, and then if it is a decimal. A decimal is
decided as if it was rounded to a double first, which comes to exact thresholds. Every other token is refused and named,
such as the names of infinity and of no number with or without a sign. -/
theorem token_decision (token : List Char) :
    ((token = "true".toList ∨ token = ['1']) → ofToken? token = some .high) ∧
    ((token = "false".toList ∨ token = ['0']) → ofToken? token = some .low) ∧
    (¬Known token → ∀ q, Decimal token q →
      (ofToken? token =
        if 2 ^ 1024 - 2 ^ 970 ≤ |q| then none else some (.ofBool (decide (5 / 2 + 1 / 2 ^ 52 < q)))) ∧
      (∀ rounded, Binary64.Rounds |q| rounded → ofToken? token = ofRounded q rounded) ∧
      Binary64.Rounds |q| (Binary64.nearest? |q|.num.natAbs |q|.den)) ∧
    (∀ q other, Decimal token q → Decimal token other → q = other) ∧
    (¬Known token → (∀ q, ¬Decimal token q) → ofToken? token = none) ∧
    (∀ name : List Char, name.map Char.toLower ∈ ["inf".toList, "infinity".toList, "nan".toList] →
      name <:+ token → ofToken? token = none) ∧
    ∀ rest, Placement.levelsOf (token :: rest) =
      match ofToken? token with
      | some level => (Placement.levelsOf rest).map (level :: ·)
      | none => .error (.invalidLevel (String.ofList token)) := by
  refine ⟨fun high => if_pos high, ?_, ?_, fun q other decimal => decimal.unique, ofToken?_of_not_decimal, ?_,
    fun rest => rfl⟩
  · rintro (rfl | rfl) <;> rfl
  · intro unknown q decimal
    refine ⟨ofToken?_decimal unknown decimal, fun rounded rounds => ?_, ?_⟩
    · rw [ofToken?_decimal unknown decimal, ofRounded_eq rounds]
    · have rounds := Binary64.rounds_nearest? |q|.num.natAbs |q|.den_pos
      rwa [Nat.cast_natAbs, abs_of_nonneg (Rat.num_nonneg.mpr (abs_nonneg q)), Rat.num_div_den] at rounds
  · intro name special last
    obtain ⟨c, member, letter⟩ := exists_letter special
    exact ofToken?_of_letter letter (last.subset member)

/-- Half a step above 2.5 is a tie, and the last digit of the second token is the first that raises it. -/
example : ["2.5000000000000002220446049250313080847263336181640625",
    "2.50000000000000022204460492503130808472633361816406251"].map (fun token => ofToken? token.toList) =
      [some .low, some .high] := by
  decide +kernel

end Level

end LogicBoard
