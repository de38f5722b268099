import LogicBoard.Pin
import LogicBoard.Text.Literal

namespace LogicBoard

/-- A decimal reading, standing for the exact number `± digits · 10 ^ exponent`. -/
structure Voltage where
  negative : Bool
  digits : List Char
  exponent : Int

namespace Voltage
open Text

/-- The exponent part of a reading: nothing, or a mark, an optional sign and digits up to the end. -/
def exponent? : List Char → Option Int
  | [] => some 0
  | mark :: text => if mark = 'e' ∨ mark = 'E' then intLiteral? text else none

/-- Digits with an optional point, at least one digit in all, then the exponent part. -/
def unsigned? (negative : Bool) (text : List Char) : Option Voltage :=
  let whole := text.takeWhile Char.isDigit
  match text.dropWhile Char.isDigit with
  | '.' :: rest =>
    let fraction := rest.takeWhile Char.isDigit
    if whole = [] ∧ fraction = [] then none
    else (exponent? (rest.dropWhile Char.isDigit)).map fun e => ⟨negative, whole ++ fraction, e - fraction.length⟩
  | rest => if whole = [] then none else (exponent? rest).map fun e => ⟨negative, whole, e⟩

def ofToken? : List Char → Option Voltage
  | '+' :: text => unsigned? false text
  | '-' :: text => unsigned? true text
  | text => unsigned? false text

/-- The exponent, brought into a range in which comparing stays cheap. A coefficient with `n` digits is below
`10 ^ n`, so moving the exponent up to `-n` keeps the number below one, and moving it down to 400 keeps a
number other than zero above every finite voltage. -/
def boundedExponent (volts : Voltage) : Int := max (-(volts.digits.length : Int)) (min volts.exponent 400)

/-- The sizes of numerator and denominator, with the exponent brought into range. -/
def ratio (volts : Voltage) : Nat × Nat :=
  (ofDigits volts.digits * Nat.pow 10 volts.boundedExponent.toNat, Nat.pow 10 (-volts.boundedExponent).toNat)

/-- Half a step beyond the largest double, from where on rounding gives infinity. -/
def limit : Nat := Nat.pow 2 1024 - Nat.pow 2 970

def inRange (volts : Voltage) : Bool := decide (volts.ratio.1 < limit * volts.ratio.2)

/-- High is above 2.5 once rounded to a double, so more than half a step above 2.5. -/
def level (volts : Voltage) : Level :=
  .ofBool (!volts.negative && decide ((5 * Nat.pow 2 51 + 1) * volts.ratio.2 < Nat.pow 2 52 * volts.ratio.1))

end Voltage

/-- The level that a token stands for: a truth value, a digit, or a voltage in range. -/
def Level.ofToken? (token : List Char) : Option Level :=
  if token = "true".toList ∨ token = ['1'] then some .high
  else if token = "false".toList ∨ token = ['0'] then some .low
  else (Voltage.ofToken? token).bind fun volts => if volts.inRange then some volts.level else none

end LogicBoard
