import Mathlib.Algebra.Order.Field.Power
import Mathlib.Data.List.TakeWhile
import Mathlib.Tactic.FieldSimp
import Mathlib.Tactic.Positivity
import Mathlib.Tactic.Ring
import LogicBoard.Proofs.IntegerLiterals
import LogicBoard.Voltage

namespace LogicBoard

theorem Text.ofDigits_append (more digits : List Char) :
    ofDigits (more ++ digits) = ofDigits more * 10 ^ digits.length + ofDigits digits := by
  rw [ofDigits, Nat.ofDigitChars_append, Nat.ofDigitChars_eq_ofDigitChars_zero, Nat.mul_comm]
  rfl

theorem Text.ofDigits_singleton_le {c : Char} (digit : c.isDigit = true) : ofDigits [c] ≤ 9 := by
  simp [ofDigits, Nat.ofDigitChars, Char.isDigit] at digit ⊢
  exact UInt32.le_iff_toNat_le.mp digit.2

theorem Text.ofDigits_lt {digits : List Char} (all : ∀ c ∈ digits, c.isDigit = true) :
    ofDigits digits < 10 ^ digits.length := by
  induction digits with
  | nil => decide
  | cons c digits ih =>
    obtain ⟨digit, others⟩ := List.forall_mem_cons.mp all
    calc ofDigits ([c] ++ digits) = ofDigits [c] * 10 ^ digits.length + ofDigits digits := ofDigits_append ..
      _ < 9 * 10 ^ digits.length + 10 ^ digits.length :=
        Nat.add_lt_add_of_le_of_lt (Nat.mul_le_mul_right _ (ofDigits_singleton_le digit)) (ih others)
      _ = 10 ^ (c :: digits).length := by
        rw [List.length_cons, Nat.pow_succ]
        omega

namespace Voltage
open Text
open Json (Digits)

/-- Digits without a point, with one after the first of them, or with one in front, and the number that they denote. -/
inductive Significand : List Char → ℚ → Prop
  | whole {digits : List Char} : Digits digits → Significand digits (ofDigits digits)
  | point {digits fraction : List Char} : Digits digits → (∀ c ∈ fraction, c.isDigit = true) →
      Significand (digits ++ '.' :: fraction) (ofDigits digits + ofDigits fraction / 10 ^ fraction.length)
  | fraction {fraction : List Char} : Digits fraction →
      Significand ('.' :: fraction) (ofDigits fraction / 10 ^ fraction.length)

/-- Nothing at all, or a mark and the exponent. -/
inductive Exponent : List Char → Int → Prop
  | none : Exponent [] 0
  | marked {mark : Char} {text : List Char} {e : Int} :
      mark = 'e' ∨ mark = 'E' → IntLiteral text e → Exponent (mark :: text) e

inductive Unsigned : List Char → ℚ → Prop
  | mk {body tail : List Char} {n : ℚ} {e : Int} :
      Significand body n → Exponent tail e → Unsigned (body ++ tail) (n * 10 ^ e)

/-- A decimal with an optional sign, and the exact number that it denotes. -/
inductive Decimal : List Char → ℚ → Prop
  | plain {text : List Char} {q : ℚ} : Unsigned text q → Decimal text q
  | plus {text : List Char} {q : ℚ} : Unsigned text q → Decimal ('+' :: text) q
  | minus {text : List Char} {q : ℚ} : Unsigned text q → Decimal ('-' :: text) (-q)

/-- The exact number that the reading stands for, without its sign. -/
def magnitude (volts : Voltage) : ℚ := ofDigits volts.digits * 10 ^ volts.exponent

def exact (volts : Voltage) : ℚ := if volts.negative then -volts.magnitude else volts.magnitude

theorem magnitude_nonneg (volts : Voltage) : 0 ≤ volts.magnitude := by
  unfold magnitude
  positivity

theorem abs_exact (volts : Voltage) : |volts.exact| = volts.magnitude := by
  unfold exact
  split
  · rw [abs_neg, abs_of_nonneg volts.magnitude_nonneg]
  · exact abs_of_nonneg volts.magnitude_nonneg

section
variable {negative : Bool} {text whole fraction : List Char} {volts : Voltage} {e : Int} {q : ℚ}

/-- Moving the point behind the fraction is made up for in the exponent. -/
theorem magnitude_point (negative : Bool) (whole fraction : List Char) (e : Int) :
    magnitude ⟨negative, whole ++ fraction, e - fraction.length⟩ =
      (ofDigits whole + ofDigits fraction / 10 ^ fraction.length) * 10 ^ e := by
  unfold magnitude
  rw [ofDigits_append, zpow_sub₀ (by norm_num), zpow_natCast]
  push_cast
  field_simp

theorem exponent?_eq_some_iff : exponent? text = some e ↔ Exponent text e := by
  cases text with
  | nil =>
    constructor
    · intro reads
      cases reads
      exact .none
    · intro exponent
      cases exponent
      rfl
  | cons mark text =>
    constructor
    · intro reads
      rw [exponent?] at reads
      split at reads
      · rename_i marked
        exact .marked marked (intLiteral?_eq_some_iff.mp reads)
      · cases reads
    · intro exponent
      cases exponent with
      | marked marked literal => exact (if_pos marked).trans (intLiteral?_eq_some_iff.mpr literal)

theorem Exponent.head (exponent : Exponent text e) (c : Char) (first : text.head? = some c) :
    c.isDigit = false ∧ c ≠ '.' := by
  cases exponent with
  | none => cases first
  | marked marked =>
    cases first
    rcases marked with rfl | rfl <;> decide

theorem unsigned_of_unsigned? (reads : unsigned? negative text = some volts) :
    volts.negative = negative ∧ Unsigned text volts.magnitude ∧ ∀ c ∈ volts.digits, c.isDigit = true := by
  have shape := List.takeWhile_append_dropWhile (p := Char.isDigit) (l := text)
  have digits : ∀ c ∈ text.takeWhile Char.isDigit, c.isDigit = true := fun c => List.mem_takeWhile_imp
  unfold unsigned? at reads
  generalize text.takeWhile Char.isDigit = whole at shape digits reads
  dsimp only at reads
  split at reads
  · rename_i rest dropped
    have inner := List.takeWhile_append_dropWhile (p := Char.isDigit) (l := rest)
    have decimals : ∀ c ∈ rest.takeWhile Char.isDigit, c.isDigit = true := fun c => List.mem_takeWhile_imp
    generalize rest.takeWhile Char.isDigit = fraction at inner decimals reads
    split at reads
    · cases reads
    · rename_i either
      obtain ⟨e, found, rfl⟩ := Option.map_eq_some_iff.mp reads
      have exponent := exponent?_eq_some_iff.mp found
      refine ⟨rfl, ?_, List.forall_mem_append.mpr ⟨digits, decimals⟩⟩
      rw [magnitude_point, ← shape, dropped, ← inner]
      cases whole with
      | nil =>
        have nonempty : fraction ≠ [] := fun empty => either ⟨rfl, empty⟩
        simpa [ofDigits] using Unsigned.mk (.fraction ⟨nonempty, decimals⟩) exponent
      | cons c whole =>
        have parts := Unsigned.mk (.point ⟨List.cons_ne_nil c whole, digits⟩ decimals) exponent
        simpa using parts
  · split at reads
    · cases reads
    · rename_i nonempty
      obtain ⟨e, found, rfl⟩ := Option.map_eq_some_iff.mp reads
      refine ⟨rfl, ?_, digits⟩
      rw [← shape]
      exact .mk (.whole ⟨nonempty, digits⟩) (exponent?_eq_some_iff.mp found)

theorem unsigned?_whole (digits : Digits whole) {tail : List Char} (exponent : Exponent tail e) :
    unsigned? negative (whole ++ tail) = some ⟨negative, whole, e⟩ := by
  have noDigit : ∀ c, tail.head? = some c → c.isDigit = false := fun c first => (exponent.head c first).1
  have reads := exponent?_eq_some_iff.mpr exponent
  rw [unsigned?, List.takeWhile_append_of_pos digits.2, Json.takeWhile_isDigit noDigit,
    Json.dropWhile_isDigit digits.2 noDigit, List.append_nil]
  dsimp only
  split
  · exact absurd rfl (exponent.head '.' rfl).2
  · rw [if_neg digits.1, reads]
    rfl

theorem unsigned?_point (digits : ∀ c ∈ whole, c.isDigit = true) (decimals : ∀ c ∈ fraction, c.isDigit = true)
    (nonempty : ¬(whole = [] ∧ fraction = [])) {tail : List Char} (exponent : Exponent tail e) :
    unsigned? negative (whole ++ '.' :: (fraction ++ tail)) =
      some ⟨negative, whole ++ fraction, e - fraction.length⟩ := by
  have point : ∀ c, ('.' :: (fraction ++ tail)).head? = some c → c.isDigit = false := by
    intro c first
    cases first
    rfl
  have noDigit : ∀ c, tail.head? = some c → c.isDigit = false := fun c first => (exponent.head c first).1
  have reads := exponent?_eq_some_iff.mpr exponent
  rw [unsigned?, List.takeWhile_append_of_pos digits, Json.takeWhile_isDigit point, Json.dropWhile_isDigit digits point,
    List.append_nil]
  dsimp only
  split
  · rename_i rest same
    cases same
    rw [List.takeWhile_append_of_pos decimals, Json.takeWhile_isDigit noDigit, Json.dropWhile_isDigit decimals noDigit,
      List.append_nil, if_neg nonempty, reads]
    rfl
  · rename_i other
    exact absurd rfl (other _)

theorem exists_unsigned? (unsigned : Unsigned text q) (negative : Bool) :
    ∃ volts, unsigned? negative text = some volts ∧ volts.negative = negative ∧ volts.magnitude = q := by
  obtain ⟨significand, exponent⟩ := unsigned
  cases significand with
  | whole digits => exact ⟨_, unsigned?_whole digits exponent, rfl, rfl⟩
  | point digits decimals =>
    rw [List.append_assoc]
    exact ⟨_, unsigned?_point digits.2 decimals (fun both => digits.1 both.1) exponent, rfl, magnitude_point ..⟩
  | fraction decimals =>
    have none : ∀ c ∈ ([] : List Char), c.isDigit = true := by simp
    refine ⟨_, unsigned?_point none decimals.2 (fun both => decimals.1 both.2) exponent, rfl, ?_⟩
    rw [magnitude_point]
    simp [ofDigits]

theorem Unsigned.head (unsigned : Unsigned text q) : ∃ c rest, text = c :: rest ∧ (c.isDigit = true ∨ c = '.') := by
  obtain ⟨significand, exponent⟩ := unsigned
  cases significand with
  | whole digits =>
    obtain ⟨c, rest, shape, digit⟩ := digits.head _
    exact ⟨c, rest, shape, .inl digit⟩
  | point digits _ =>
    obtain ⟨c, rest, shape, digit⟩ := digits.head ('.' :: _)
    rw [shape]
    exact ⟨c, _, rfl, .inl digit⟩
  | fraction => exact ⟨'.', _, rfl, .inr rfl⟩

theorem Exponent.mem (exponent : Exponent text e) {c : Char} (member : c ∈ text) :
    c.isDigit = true ∨ c ∈ ['+', '-', 'e', 'E'] := by
  cases exponent with
  | none => cases member
  | marked marked literal =>
    rcases List.mem_cons.mp member with rfl | later
    · exact .inr (by rcases marked with rfl | rfl <;> decide)
    · cases literal with
      | minus digits =>
        rcases List.mem_cons.mp later with rfl | digit
        · exact .inr (by decide)
        · exact .inl (digits.2 c digit)
      | ofNat literal =>
        cases literal with
        | plain digits => exact .inl (digits.2 c later)
        | plus digits =>
          rcases List.mem_cons.mp later with rfl | digit
          · exact .inr (by decide)
          · exact .inl (digits.2 c digit)

theorem Unsigned.mem (unsigned : Unsigned text q) {c : Char} (member : c ∈ text) :
    c.isDigit = true ∨ c ∈ ['+', '-', '.', 'e', 'E'] := by
  obtain ⟨significand, exponent⟩ := unsigned
  rcases List.mem_append.mp member with front | back
  · cases significand with
    | whole digits => exact .inl (digits.2 c front)
    | point digits decimals =>
      rcases List.mem_append.mp front with digit | fraction
      · exact .inl (digits.2 c digit)
      · rcases List.mem_cons.mp fraction with rfl | digit
        · exact .inr (by decide)
        · exact .inl (decimals c digit)
    | fraction decimals =>
      rcases List.mem_cons.mp front with rfl | digit
      · exact .inr (by decide)
      · exact .inl (decimals.2 c digit)
  · exact (exponent.mem back).imp_right fun sign => by simp at sign ⊢; tauto

/-- What is read is a decimal, and it is read as the number that the decimal denotes. -/
theorem decimal_of_ofToken? {token : List Char} (reads : ofToken? token = some volts) :
    Decimal token volts.exact ∧ ∀ c ∈ volts.digits, c.isDigit = true := by
  unfold ofToken? at reads
  split at reads
  · obtain ⟨sign, unsigned, digits⟩ := unsigned_of_unsigned? reads
    exact ⟨by simpa [exact, sign] using Decimal.plus unsigned, digits⟩
  · obtain ⟨sign, unsigned, digits⟩ := unsigned_of_unsigned? reads
    exact ⟨by simpa [exact, sign] using Decimal.minus unsigned, digits⟩
  · obtain ⟨sign, unsigned, digits⟩ := unsigned_of_unsigned? reads
    exact ⟨by simpa [exact, sign] using Decimal.plain unsigned, digits⟩

/-- Every decimal is read as the number that it denotes. -/
theorem Decimal.exists_ofToken? {token : List Char} (decimal : Decimal token q) :
    ∃ volts, ofToken? token = some volts ∧ volts.exact = q := by
  cases decimal with
  | plain unsigned =>
    obtain ⟨volts, reads, sign, rfl⟩ := exists_unsigned? unsigned false
    refine ⟨volts, ?_, by simp [exact, sign]⟩
    obtain ⟨c, rest, rfl, known⟩ := unsigned.head
    unfold ofToken?
    split
    · rename_i same
      cases same
      exact absurd known (by decide)
    · rename_i same
      cases same
      exact absurd known (by decide)
    · exact reads
  | plus unsigned =>
    obtain ⟨volts, reads, sign, rfl⟩ := exists_unsigned? unsigned false
    exact ⟨volts, reads, by simp [exact, sign]⟩
  | minus unsigned =>
    obtain ⟨volts, reads, sign, rfl⟩ := exists_unsigned? unsigned true
    exact ⟨volts, reads, by simp [exact, sign]⟩

/-- A decimal denotes one number. -/
theorem Decimal.unique {token : List Char} {other : ℚ} (decimal : Decimal token q) (another : Decimal token other) :
    q = other := by
  obtain ⟨volts, reads, rfl⟩ := decimal.exists_ofToken?
  obtain ⟨same, readsSame, rfl⟩ := another.exists_ofToken?
  rw [reads] at readsSame
  cases readsSame
  rfl

/-- A decimal is written with digits, signs, a point and a mark. -/
theorem Decimal.mem {token : List Char} (decimal : Decimal token q) {c : Char} (member : c ∈ token) :
    c.isDigit = true ∨ c ∈ ['+', '-', '.', 'e', 'E'] := by
  cases decimal with
  | plain unsigned => exact unsigned.mem member
  | plus unsigned | minus unsigned =>
    rcases List.mem_cons.mp member with rfl | later
    · exact .inr (by decide)
    · exact unsigned.mem later

end

end Voltage

end LogicBoard
