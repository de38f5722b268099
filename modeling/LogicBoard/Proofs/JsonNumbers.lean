import LogicBoard.Json.Skip
import LogicBoard.Proofs.JsonLayout

namespace LogicBoard.Json

/-- At least one decimal digit and nothing else. -/
def Digits (text : List Char) : Prop := text ≠ [] ∧ ∀ c ∈ text, c.isDigit = true

/-- Digits that do not start with a zero, unless zero is all there is. -/
def Whole (text : List Char) : Prop := Digits text ∧ (text.head? = some '0' → text = ['0'])

instance (text : List Char) : Decidable (Digits text) :=
  have : Decidable (∀ c ∈ text, c.isDigit = true) := List.decidableBAll _ text
  inferInstanceAs (Decidable (text ≠ [] ∧ ∀ c ∈ text, c.isDigit = true))

instance (text : List Char) : Decidable (Whole text) :=
  inferInstanceAs (Decidable (Digits text ∧ (text.head? = some '0' → text = ['0'])))

def Fraction (text : List Char) : Prop := text = [] ∨ ∃ digits, Digits digits ∧ text = '.' :: digits

def Exponent (text : List Char) : Prop :=
  text = [] ∨ ∃ mark sign digits, mark ∈ ['e', 'E'] ∧ sign ∈ [[], ['+'], ['-']] ∧ Digits digits ∧
    text = mark :: (sign ++ digits)

/-- Anything that has the form of a number, of whatever size. -/
def FormsNumber (text : List Char) : Prop :=
  ∃ sign whole fraction exponent, sign ∈ [[], ['-']] ∧ Whole whole ∧ Fraction fraction ∧ Exponent exponent ∧
    text = sign ++ (whole ++ (fraction ++ exponent))

/-- A number ends before the text. -/
def EndsNumber (rest : List Char) : Prop :=
  ∀ c, rest.head? = some c → c.isDigit = false ∧ c ≠ '.' ∧ c ≠ 'e' ∧ c ≠ 'E'

theorem Follows.endsNumber {rest : List Char} (follows : Follows rest) : EndsNumber rest := by
  intro c first
  rcases follows c first with space | closing
  · simp only [isSpace, Bool.or_eq_true, decide_eq_true_eq] at space
    rcases space with ((rfl | rfl) | rfl) | rfl <;> decide
  · simp only [List.mem_cons, List.not_mem_nil, or_false] at closing
    rcases closing with rfl | rfl | rfl <;> decide

section
variable {digits rest : List Char}

theorem dropWhile_isDigit (all : ∀ c ∈ digits, c.isDigit = true) (ends : ∀ c, rest.head? = some c → c.isDigit = false) :
    (digits ++ rest).dropWhile Char.isDigit = rest := by
  rw [List.dropWhile_append_of_pos all]
  cases rest with
  | nil => rfl
  | cons c rest => exact List.dropWhile_cons_of_neg (by simp [ends c rfl])

theorem takeWhile_isDigit (ends : ∀ c, rest.head? = some c → c.isDigit = false) : rest.takeWhile Char.isDigit = [] := by
  cases rest with
  | nil => rfl
  | cons c rest => exact List.takeWhile_cons_of_neg (by simp [ends c rfl])

theorem Digits.head {text : List Char} (digits : Digits text) (rest : List Char) :
    ∃ c tail, text ++ rest = c :: tail ∧ c.isDigit = true := by
  obtain ⟨nonempty, all⟩ := digits
  cases text with
  | nil => exact absurd rfl nonempty
  | cons c text => exact ⟨c, _, rfl, all c List.mem_cons_self⟩

theorem FormsNumber.head {text : List Char} (forms : FormsNumber text) :
    ∃ c tail, text = c :: tail ∧ (c = '-' ∨ c.isDigit = true) := by
  obtain ⟨sign, whole, fraction, exponent, signs, ⟨digits, _⟩, _, _, rfl⟩ := forms
  obtain ⟨c, tail, shape, digit⟩ := digits.head (fraction ++ exponent)
  simp only [List.mem_cons, List.not_mem_nil, or_false] at signs
  rcases signs with rfl | rfl
  · exact ⟨c, tail, shape, .inr digit⟩
  · exact ⟨'-', _, rfl, .inl rfl⟩

/-- Digits without a leading zero are a zero alone, or they start with another digit. -/
theorem Whole.cases {text : List Char} (whole : Whole text) (rest : List Char) :
    text = ['0'] ∨ ∃ c tail, text ++ rest = c :: tail ∧ c.isDigit = true ∧ c ≠ '0' := by
  obtain ⟨⟨nonempty, all⟩, zero⟩ := whole
  cases text with
  | nil => exact absurd rfl nonempty
  | cons c text =>
    by_cases leading : c = '0'
    · exact .inl (zero (by rw [leading]; rfl))
    · exact .inr ⟨c, _, rfl, all c List.mem_cons_self, leading⟩

theorem Exponent.head {text : List Char} (exponent : Exponent text) (ends : EndsNumber rest) (c : Char)
    (first : (text ++ rest).head? = some c) : c.isDigit = false ∧ c ≠ '.' := by
  rcases exponent with rfl | ⟨mark, sign, digits, known, _, _, rfl⟩
  · exact ⟨(ends c first).1, (ends c first).2.1⟩
  · cases first
    simp only [List.mem_cons, List.not_mem_nil, or_false] at known
    rcases known with rfl | rfl <;> decide

theorem Fraction.head {text : List Char} (fraction : Fraction text)
    (ends : ∀ c, rest.head? = some c → c.isDigit = false) (c : Char) (first : (text ++ rest).head? = some c) :
    c.isDigit = false := by
  rcases fraction with rfl | ⟨digits, _, rfl⟩
  · exact ends c first
  · cases first
    rfl

theorem skipDigits?_append (all : Digits digits) (ends : ∀ c, rest.head? = some c → c.isDigit = false) :
    skipDigits? (digits ++ rest) = some rest := by
  obtain ⟨nonempty, all⟩ := all
  cases digits with
  | nil => exact absurd rfl nonempty
  | cons c digits =>
    obtain ⟨first, others⟩ := List.forall_mem_cons.mp all
    rw [List.cons_append, skipDigits?, if_pos first, dropWhile_isDigit others ends]

theorem skipExponent?_append {text : List Char} (exponent : Exponent text) (ends : EndsNumber rest) :
    skipExponent? (text ++ rest) = some rest := by
  rcases exponent with rfl | ⟨mark, sign, digits, known, signs, all, rfl⟩
  · rw [List.nil_append]
    cases rest with
    | nil => rfl
    | cons c rest =>
      have other : ¬(c = 'e' ∨ c = 'E') := not_or.mpr (ends c rfl).2.2
      exact if_neg other
  · have marked : mark = 'e' ∨ mark = 'E' := by simpa using known
    have skipped := skipDigits?_append all fun c first => (ends c first).1
    rw [List.cons_append, List.append_assoc]
    refine (if_pos marked).trans ?_
    simp only [List.mem_cons, List.not_mem_nil, or_false] at signs
    rcases signs with rfl | rfl | rfl
    · obtain ⟨c, tail, shape, digit⟩ := all.head rest
      rw [List.nil_append]
      rw [shape] at skipped ⊢
      split
      · rename_i same
        cases same
        exact absurd digit (by decide)
      · rename_i same
        cases same
        exact absurd digit (by decide)
      · exact skipped
    · exact skipped
    · exact skipped

theorem skipFraction?_append {text exponent : List Char} (fraction : Fraction text) (exponents : Exponent exponent)
    (ends : EndsNumber rest) : skipFraction? (text ++ (exponent ++ rest)) = some rest := by
  have skipped := skipExponent?_append exponents ends
  rcases fraction with rfl | ⟨digits, all, rfl⟩
  · rw [List.nil_append]
    generalize after : exponent ++ rest = next at skipped ⊢
    unfold skipFraction?
    split
    · exact absurd rfl (exponents.head ends '.' (by rw [after]; rfl)).2
    · exact skipped
  · rw [List.cons_append, skipFraction?, skipDigits?_append all fun c first => (exponents.head ends c first).1]
    exact skipped

theorem skipUnsigned?_append {whole text exponent : List Char} (wholes : Whole whole) (fraction : Fraction text)
    (exponents : Exponent exponent) (ends : EndsNumber rest) :
    skipUnsigned? (whole ++ (text ++ (exponent ++ rest))) = some rest := by
  have skipped := skipFraction?_append fraction exponents ends
  have noDigit := fraction.head fun c first => (exponents.head ends c first).1
  rcases wholes.cases (text ++ (exponent ++ rest)) with rfl | ⟨c, tail, shape, _, other⟩
  · rw [List.cons_append, List.nil_append, skipUnsigned?]
    generalize text ++ (exponent ++ rest) = next at skipped noDigit ⊢
    cases next with
    | nil => exact skipped
    | cons c next =>
      rw [if_neg (by simp [noDigit c rfl])]
      exact skipped
  · have taken := skipDigits?_append wholes.1 noDigit
    rw [shape] at taken ⊢
    unfold skipUnsigned?
    split
    · rename_i same
      cases same
      exact absurd rfl other
    · rw [taken]
      exact skipped

theorem skipNumber_append {text : List Char} (forms : FormsNumber text) (ends : EndsNumber rest) :
    skipNumber (text ++ rest) = .ok ((), rest) := by
  obtain ⟨sign, whole, fraction, exponent, signs, wholes, fractions, exponents, rfl⟩ := forms
  have skipped := skipUnsigned?_append wholes fractions exponents ends
  simp only [List.append_assoc]
  simp only [List.mem_cons, List.not_mem_nil, or_false] at signs
  rcases signs with rfl | rfl
  · obtain ⟨c, tail, shape, digit⟩ := wholes.1.head (fraction ++ (exponent ++ rest))
    rw [List.nil_append]
    rw [shape] at skipped ⊢
    unfold skipNumber
    split
    · rename_i same
      cases same
      exact absurd digit (by decide)
    · rw [skipped]
      rfl
  · rw [List.cons_append, List.nil_append, skipNumber, skipped]
    rfl

theorem digits_decimal (n : Nat) : Digits (Text.decimal n) :=
  ⟨Nat.toDigits_ne_nil, fun _ member => Nat.isDigit_of_mem_toDigits (by decide) (by decide) member⟩

theorem head_decimal {n : Nat} (positive : 0 < n) : (Text.decimal n).head? ≠ some '0' := by
  induction n using Nat.strongRecOn with
  | ind n ih =>
    rw [Text.decimal]
    by_cases small : n < 10
    · rw [Nat.toDigits_of_lt_base small]
      have digits : ∀ n : Fin 10, 0 < n.val → [Nat.digitChar n].head? ≠ some '0' := by decide
      exact digits ⟨n, small⟩ positive
    · have shorter := ih (n / 10) (by omega) (by omega)
      rw [Nat.toDigits_of_base_le (by decide) (by omega), List.head?_append_of_ne_nil _ Nat.toDigits_ne_nil]
      exact shorter

theorem whole_decimal (n : Nat) : Whole (Text.decimal n) := by
  refine ⟨digits_decimal n, fun zero => ?_⟩
  rcases Nat.eq_zero_or_pos n with rfl | positive
  · rfl
  · exact absurd zero (head_decimal positive)

/-- Digits are all taken into the significand while it fits. -/
theorem extend_append (all : ∀ c ∈ digits, c.isDigit = true) (ends : ∀ c, rest.head? = some c → c.isDigit = false)
    {significand : Nat} (fits : Word.fits64 (Nat.ofDigitChars 10 digits significand)) :
    Number.extend significand (digits ++ rest) = (Nat.ofDigitChars 10 digits significand, rest) := by
  induction digits generalizing significand with
  | nil =>
    cases rest with
    | nil => rfl
    | cons c rest =>
      rw [List.nil_append, Number.extend, if_neg (by simp [ends c rfl])]
      rfl
  | cons c digits ih =>
    obtain ⟨first, others⟩ := List.forall_mem_cons.mp all
    have split : Nat.ofDigitChars 10 (c :: digits) significand =
        Nat.ofDigitChars 10 digits (Nat.ofDigitChars 10 [c] significand) :=
      Nat.ofDigitChars_append (l := [c]) significand
    have smaller : Nat.ofDigitChars 10 [c] significand ≤ Nat.ofDigitChars 10 (c :: digits) significand := by
      have power : 0 < 10 ^ digits.length := Nat.pow_pos (by decide)
      rw [split, Nat.ofDigitChars_eq_ofDigitChars_zero (l := digits)]
      exact Nat.le_add_right_of_le (Nat.le_mul_of_pos_left _ power)
    rw [List.cons_append, Number.extend, if_pos first]
    simp only [Word.fits64_of_le smaller fits, ↓reduceIte]
    rw [split] at fits ⊢
    exact ih others fits

theorem afterWhole_of_ends (ends : EndsNumber rest) {negative : Bool} {significand : Nat}
    (within : negative = true → 0 < significand ∧ significand ≤ 9223372036854775808) :
    Number.afterWhole negative significand rest =
      .ok (.integer (if negative then -(significand : Int) else significand), rest) := by
  have noDigit : ∀ c, rest.head? = some c → c.isDigit = false := fun c first => (ends c first).1
  have none := takeWhile_isDigit noDigit
  have all : rest.dropWhile Char.isDigit = rest := by
    have dropped := dropWhile_isDigit (fun c (member : c ∈ []) => nomatch member) noDigit
    exact dropped
  have exact64 : ¬(negative = true ∧ (significand = 0 ∨ 9223372036854775808 < significand)) := by
    rintro ⟨negated, extreme⟩
    have := within negated
    omega
  have noMark : ¬(rest.head? = some 'e' ∨ rest.head? = some 'E') := by
    rintro (mark | mark)
    · exact (ends 'e' mark).2.2.1 rfl
    · exact (ends 'E' mark).2.2.2 rfl
  unfold Number.afterWhole
  rw [none, all]
  split
  · exact absurd rfl (ends '.' rfl).2.1
  · refine if_neg ?_
    rintro (dropped | mark | mark | extreme)
    · exact dropped rfl
    · exact noMark (.inl mark)
    · exact noMark (.inr mark)
    · exact exact64 extreme

/-- An integer that fits 64 bits is read as itself. A zero with a minus sign is not an integer. -/
theorem unsigned_whole (whole : Whole digits) (ends : EndsNumber rest) {negative : Bool}
    (within : negative = true → 0 < Text.ofDigits digits ∧ Text.ofDigits digits ≤ 9223372036854775808)
    (fits : Word.fits64 (Text.ofDigits digits)) :
    Number.unsigned negative (digits ++ rest) =
      .ok (.integer (if negative then -(Text.ofDigits digits : Int) else Text.ofDigits digits), rest) := by
  have noDigit : ∀ c, rest.head? = some c → c.isDigit = false := fun c first => (ends c first).1
  have after := afterWhole_of_ends ends within
  rcases whole.cases rest with rfl | ⟨c, tail, shape, digit, other⟩
  · rw [List.cons_append, List.nil_append, Number.unsigned]
    cases rest with
    | nil => exact after
    | cons c rest =>
      rw [if_neg (by simp [noDigit c rfl])]
      exact after
  · have taken := extend_append whole.1.2 noDigit fits
    rw [shape] at taken ⊢
    unfold Number.unsigned
    split
    · rename_i same
      cases same
    · rename_i same
      cases same
      exact absurd rfl other
    · rename_i same
      cases same
      rw [if_pos digit, taken]
      exact after

theorem ofDigits_decimal (n : Nat) : Text.ofDigits (Text.decimal n) = n :=
  Nat.ofDigitChars_toDigits (by decide) (by decide)

theorem read_signed (ends : EndsNumber rest) {n : Int} (lower : -9223372036854775808 ≤ n)
    (upper : n ≤ 9223372036854775807) : Number.read (Text.signed n ++ rest) = .ok (.integer n, rest) := by
  cases n with
  | ofNat n =>
    have fits : Word.fits64 n := decide_eq_true (by simp only [Int.ofNat_eq_natCast] at upper; omega)
    have read : Number.unsigned false (Text.decimal n ++ rest) = .ok (.integer n, rest) := by
      have taken := unsigned_whole (whole_decimal n) ends (nofun : false = true → _) (by rwa [ofDigits_decimal])
      rwa [ofDigits_decimal] at taken
    obtain ⟨c, tail, shape, digit⟩ := (digits_decimal n).head rest
    rw [Text.signed]
    rw [shape] at read ⊢
    unfold Number.read
    split
    · rename_i same
      cases same
      exact absurd digit (by decide)
    · exact read
  | negSucc n =>
    have fits : Word.fits64 (n + 1) := decide_eq_true (by omega)
    have read : Number.unsigned true (Text.decimal (n + 1) ++ rest) = .ok (.integer (.negSucc n), rest) := by
      have small : true = true → 0 < n + 1 ∧ n + 1 ≤ 9223372036854775808 := fun _ => by omega
      have taken := unsigned_whole (whole_decimal (n + 1)) ends (by rwa [ofDigits_decimal])
        (by rwa [ofDigits_decimal])
      rwa [ofDigits_decimal] at taken
    exact read

end

theorem solid_of_number {c : Char} (starts : c = '-' ∨ c.isDigit = true) :
    isSpace c = false ∧ c ∉ ['[', ']', '\x7b', '\x7d', 'n', 't', 'f'] := by
  constructor
  · by_contra space
    simp only [isSpace, Bool.not_eq_false, Bool.or_eq_true, decide_eq_true_eq] at space
    rcases space with ((rfl | rfl) | rfl) | rfl <;> exact absurd starts (by decide)
  · intro among
    simp only [List.mem_cons, List.not_mem_nil, or_false] at among
    rcases among with rfl | rfl | rfl | rfl | rfl | rfl | rfl <;> exact absurd starts (by decide)

/-- An integer is written in decimal digits, without leading zeros and without a fraction or an exponent. -/
def WritesInt32 (w : Int32) (text : List Char) : Prop := text = Text.signed w.toInt

theorem reads_int32 {w : Int32} {text : List Char} (writes : WritesInt32 w text) : Reads Reader.int32 w text := by
  cases writes
  have lower := w.le_toInt
  have upper := w.toInt_lt
  obtain ⟨c, tail, shape, starts⟩ : ∃ c tail, Text.signed w.toInt = c :: tail ∧ (c = '-' ∨ c.isDigit = true) := by
    cases w.toInt with
    | ofNat n =>
      obtain ⟨c, tail, shape, digit⟩ := (digits_decimal n).head []
      exact ⟨c, tail, by rw [Text.signed, ← shape, List.append_nil], .inr digit⟩
    | negSucc n => exact ⟨'-', _, rfl, .inl rfl⟩
  have solid := solid_of_number starts
  have others : c ≠ ']' ∧ c ≠ '\x7d' := by
    simp only [List.mem_cons, not_or] at solid
    exact ⟨solid.2.2.1, solid.2.2.2.2.1⟩
  refine ⟨⟨c, tail, shape, solid.1, others⟩, fun blank rest spaces follows => ?_⟩
  have read : Reader.lift Number.read (Text.signed w.toInt ++ rest) = .ok (.integer w.toInt, rest) :=
    read_signed follows.endsNumber (by omega) (by omega)
  rw [List.append_assoc]
  rw [shape, List.cons_append] at read ⊢
  rw [Reader.int32, Reader.peek_bind spaces solid.1]
  change (if _ then _ else _ : Reader Int32) _ = _
  rw [if_pos starts, Reader.bind_of_ok read]
  simp only [Word.int32?_eq_some_iff.mpr rfl]
  rfl

end LogicBoard.Json
