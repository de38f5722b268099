import LogicBoard.Word

namespace LogicBoard.Text

/-- The number that a run of ASCII digits denotes. -/
def ofDigits (digits : List Char) : Nat := Nat.ofDigitChars 10 digits 0

/-- At least one ASCII digit and nothing else. -/
def digits? (text : List Char) : Option Nat :=
  if text ≠ [] ∧ text.all Char.isDigit then some (ofDigits text) else none

/-- Digits with an optional plus sign. -/
def natLiteral? : List Char → Option Nat
  | '+' :: digits => digits? digits
  | digits => digits? digits

/-- Digits with an optional sign. -/
def intLiteral? : List Char → Option Int
  | '-' :: digits => (digits? digits).map fun n => -(n : Int)
  | text => (natLiteral? text).map Int.ofNat

/-- A literal of an unsigned 32-bit word. -/
def uint32Literal? (text : List Char) : Option UInt32 := (natLiteral? text).bind Word.uint32?

/-- A literal of a signed 32-bit word. -/
def int32Literal? (text : List Char) : Option Int32 := (intLiteral? text).bind Word.int32?

/-- Decimal digits without leading zeros. -/
def decimal (n : Nat) : List Char := Nat.toDigits 10 n

/-- Decimal digits after a minus sign for a negative number. -/
def signed : Int → List Char
  | .ofNat n => decimal n
  | .negSucc n => '-' :: decimal (n + 1)

/-- The lowest `width` binary digits of a number, most significant first. -/
def binary : Nat → Nat → List Char
  | 0, _ => []
  | width + 1, n => (if n.testBit width then '1' else '0') :: binary width n

theorem digits?_decimal (n : Nat) : digits? (decimal n) = some n := by
  have solid : decimal n ≠ [] := Nat.toDigits_ne_nil
  have digits : (decimal n).all Char.isDigit := by
    simpa [decimal] using fun c member => Nat.isDigit_of_mem_toDigits (by decide) (by decide) member
  rw [digits?, if_pos ⟨solid, digits⟩, ofDigits, decimal, Nat.ofDigitChars_toDigits (by decide) (by decide)]

/-- The first character of a decimal is a digit, so no decimal is read as signed. -/
theorem natLiteral?_decimal (n : Nat) : natLiteral? (decimal n) = some n := by
  have reads := digits?_decimal n
  unfold natLiteral?
  split
  · rename_i rest shape
    rw [shape] at reads
    simp [digits?, show Char.isDigit '+' = false from rfl] at reads
  · exact reads

theorem intLiteral?_signed (n : Int) : intLiteral? (signed n) = some n := by
  cases n with
  | ofNat n =>
    have reads := natLiteral?_decimal n
    unfold intLiteral?
    split
    · rename_i rest shape
      rw [signed] at shape
      rw [shape] at reads
      simp [natLiteral?, digits?, show Char.isDigit '-' = false from rfl] at reads
    · rw [signed, reads]
      rfl
  | negSucc n => simp [signed, intLiteral?, digits?_decimal, Int.negSucc_eq]

theorem uint32Literal?_decimal (w : UInt32) : uint32Literal? (decimal w.toNat) = some w := by
  rw [uint32Literal?, natLiteral?_decimal]
  exact Word.uint32?_eq_some_iff.mpr rfl

theorem int32Literal?_signed (w : Int32) : int32Literal? (signed w.toInt) = some w := by
  rw [int32Literal?, intLiteral?_signed]
  exact Word.int32?_eq_some_iff.mpr rfl

@[simp] theorem length_binary (width n : Nat) : (binary width n).length = width := by
  induction width with
  | zero => rfl
  | succ width ih => simp [binary, ih]

/-- The eight digits of a byte, most significant first. -/
theorem binary_toNat (byte : BitVec 8) :
    binary 8 byte.toNat = (List.range 8).map fun k => if byte.getMsbD k then '1' else '0' := by
  revert byte
  decide +kernel

end LogicBoard.Text
