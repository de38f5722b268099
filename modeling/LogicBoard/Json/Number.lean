import LogicBoard.Json.Fault

namespace LogicBoard.Json

/-- A number as it is read: an integer of at most 64 bits with its sign, or a double. -/
inductive Number
  | integer (value : Int)
  | float (negative : Bool) (value : Binary64)

def Number.found : Number → Found
  | integer value => .integer value
  | float negative value => .float negative value

namespace Number

/-- Extend a significand by the digits that follow, as long as the number stays below 2 ^ 64. -/
def extend : Nat → List Char → Nat × List Char
  | significand, [] => (significand, [])
  | significand, c :: rest =>
    if c.isDigit then
      let next := Nat.ofDigitChars 10 [c] significand
      if Word.fits64 next then extend next rest else (significand, c :: rest)
    else (significand, c :: rest)

/-- The double for `significand · 10 ^ exponent`, by at most two roundings: one for each power of ten of at most
308 that is multiplied or divided by. Two steps down already leave nothing of 64 bits. -/
def value (significand : Nat) (exponent : Int) : Except Fault Binary64 :=
  let scaled : Option Binary64 := do
    let start ← Binary64.nearest? significand 1
    if 0 ≤ exponent then
      if start = .zero then some .zero
      else if 308 < exponent then none
      else start.mul? (← Binary64.power? exponent.toNat)
    else if -308 ≤ exponent then start.div? (← Binary64.power? (-exponent).toNat)
    else if -616 ≤ exponent then
      let lower ← start.div? (← Binary64.power? 308)
      lower.div? (← Binary64.power? (-exponent - 308).toNat)
    else some .zero
  match scaled with
  | some result => .ok result
  | none => .error .numberOutOfRange

/-- The digits of an exponent after its mark and sign. An exponent of 32 bits or more leaves zero or nothing at
all, whatever came before it. -/
def exponentDigits (significand : Nat) (start : Int) (down : Bool) (text : List Char) :
    Except Fault (Binary64 × List Char) :=
  let digits := text.takeWhile Char.isDigit
  let rest := text.dropWhile Char.isDigit
  if digits = [] then .error (if text = [] then .endOfValue else .invalidNumber)
  else
    let size := Text.ofDigits digits
    if 2147483648 ≤ size then
      if significand ≠ 0 ∧ down = false then .error .numberOutOfRange else .ok (.zero, rest)
    else (value significand (if down then start - size else start + size)).map fun v => (v, rest)

/-- The exponent part, when there is one. -/
def exponentPart (significand : Nat) (start : Int) : List Char → Except Fault (Binary64 × List Char)
  | [] => (value significand start).map fun v => (v, [])
  | mark :: text =>
    if mark = 'e' ∨ mark = 'E' then
      match text with
      | '+' :: digits => exponentDigits significand start false digits
      | '-' :: digits => exponentDigits significand start true digits
      | digits => exponentDigits significand start false digits
    else (value significand start).map fun v => (v, mark :: text)

/-- Digits after the point extend the significand while they fit, and later ones are dropped. -/
def fractionPart (significand : Nat) (start : Int) (text : List Char) : Except Fault (Binary64 × List Char) :=
  match text with
  | [] => .error .endOfValue
  | c :: _ =>
    if c.isDigit then
      let (longer, dropped) := extend significand text
      exponentPart longer (start - (text.length - dropped.length : Nat)) (dropped.dropWhile Char.isDigit)
    else .error .invalidNumber

/-- What follows the digits before the point. -/
def afterWhole (negative : Bool) (significand : Nat) (text : List Char) : Except Fault (Number × List Char) :=
  let dropped := text.takeWhile Char.isDigit
  match text.dropWhile Char.isDigit with
  | '.' :: fraction =>
    (fractionPart significand dropped.length fraction).map fun (v, rest) => (float negative v, rest)
  | rest =>
    let isFloat := dropped ≠ [] ∨ rest.head? = some 'e' ∨ rest.head? = some 'E' ∨
      (negative ∧ (significand = 0 ∨ 9223372036854775808 < significand))
    if isFloat then (exponentPart significand dropped.length rest).map fun (v, rest) => (float negative v, rest)
    else .ok (integer (if negative then -(significand : Int) else significand), rest)

def unsigned (negative : Bool) : List Char → Except Fault (Number × List Char)
  | [] => .error .endOfValue
  | '0' :: rest =>
    if (rest.head?.map Char.isDigit).getD false then .error .invalidNumber else afterWhole negative 0 rest
  | text@(c :: _) =>
    if c.isDigit then
      let (significand, rest) := extend 0 text
      afterWhole negative significand rest
    else .error .invalidNumber

/-- Read the number at the start of a text. -/
def read : List Char → Except Fault (Number × List Char)
  | '-' :: text => unsigned true text
  | text => unsigned false text

end Number

end LogicBoard.Json
