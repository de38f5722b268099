import LogicBoard.Text.Literal

namespace LogicBoard

/-- A finite double that is not negative, with the value `mantissa · 2 ^ exponent`. The mantissa has 53 bits,
or fewer when the exponent is the least one. -/
structure Binary64 where
  mantissa : Nat
  exponent : Int
  deriving DecidableEq

namespace Binary64

def zero : Binary64 := ⟨0, -1074⟩

/-- A number `n · base ^ e` as a numerator and a denominator. -/
def scaled (base n : Nat) (e : Int) : Nat × Nat := (n * Nat.pow base e.toNat, Nat.pow base (-e).toNat)

/-- The least mantissa of 53 bits. -/
def leastFull : Nat := Nat.pow 2 52

/-- The double nearest to a quotient, ties to the even mantissa. There is none when the nearest one would need an
exponent above 971. -/
def nearest? (num den : Nat) : Option Binary64 :=
  if num = 0 then some zero
  else
    let quotient (e : Int) : Nat × Nat := (num * Nat.pow 2 (-e).toNat, den * Nat.pow 2 e.toNat)
    let guess : Int := (Nat.log2 num : Int) - Nat.log2 den - 52
    let full := decide (leastFull * (quotient guess).2 ≤ (quotient guess).1)
    let e := max (-1074) (if full then guess else guess - 1)
    let (top, bottom) := quotient e
    let whole := top / bottom
    let twice := 2 * (top % bottom)
    let rounded := if bottom < twice ∨ (bottom = twice ∧ whole % 2 = 1) then whole + 1 else whole
    let value : Binary64 := if rounded = 2 * leastFull then ⟨leastFull, e + 1⟩ else ⟨rounded, e⟩
    if 971 < value.exponent then none else some value

def ratio (v : Binary64) : Nat × Nat := scaled 2 v.mantissa v.exponent

def mul? (a b : Binary64) : Option Binary64 := nearest? (a.ratio.1 * b.ratio.1) (a.ratio.2 * b.ratio.2)

def div? (a b : Binary64) : Option Binary64 := nearest? (a.ratio.1 * b.ratio.2) (a.ratio.2 * b.ratio.1)

/-- The double nearest to `10 ^ k`. -/
def power? (k : Nat) : Option Binary64 := nearest? (Nat.pow 10 k) 1

/-- Whether `c · 10 ^ k` is read back as the double: it lies between the midpoints towards the two neighbours,
which belong to an even mantissa. -/
def readsBack (v : Binary64) (c : Nat) (k : Int) : Bool :=
  let lowest := if v.mantissa = leastFull ∧ -1074 < v.exponent then 4 * v.mantissa - 1 else 4 * v.mantissa - 2
  let (n, d) := scaled 10 c k
  let (lower, unit) := scaled 2 lowest (v.exponent - 2)
  let (upper, _) := scaled 2 (4 * v.mantissa + 2) (v.exponent - 2)
  if v.mantissa % 2 = 0 then decide (lower * d ≤ n * unit ∧ n * unit ≤ upper * d)
  else decide (lower * d < n * unit ∧ n * unit < upper * d)

/-- The multiple of `10 ^ k` that reads back and is nearest to the double, ties to the even one. -/
def onGrid? (v : Binary64) (k : Int) : Option Nat :=
  let (n, d) := v.ratio
  let (step, unit) := scaled 10 1 k
  let c := n * unit / (d * step)
  let twice := 2 * (n * unit % (d * step))
  match v.readsBack c k, v.readsBack (c + 1) k with
  | true, true => some (if twice < d * step ∨ (twice = d * step ∧ c % 2 = 0) then c else c + 1)
  | true, false => some c
  | false, true => some (c + 1)
  | false, false => none

/-- The first grid, from coarse to fine, with a point that reads back, and that point. -/
def search (v : Binary64) : Nat → Int → Nat × Int
  | 0, k => (0, k)
  | steps + 1, k =>
    match v.onGrid? k with
    | some c => (c, k)
    | none => search v steps (k - 1)

/-- The fewest decimal digits that read back as the double: a coefficient and a power of ten. -/
def shortest (v : Binary64) : Nat × Int := search v 650 309

/-- The text of a double: its shortest digits, positional from 10 ^ -5 up to below 10 ^ 16 and otherwise with one
digit before the point and a signed exponent. A whole number keeps one zero after the point. -/
def text (v : Binary64) : List Char :=
  if v.mantissa = 0 then "0.0".toList
  else
    let (c, k) := v.shortest
    let digits := Text.decimal c
    let leading : Int := k + digits.length - 1
    if -5 ≤ leading ∧ leading < 0 then
      "0.".toList ++ List.replicate (-leading - 1).toNat '0' ++ digits
    else if 0 ≤ leading ∧ leading ≤ 15 then
      let whole := digits.take (leading + 1).toNat
      let fraction := digits.drop (leading + 1).toNat
      whole ++ List.replicate k.toNat '0' ++ '.' :: (if fraction = [] then ['0'] else fraction)
    else
      let fraction := digits.drop 1
      digits.take 1 ++ (if fraction = [] then [] else '.' :: fraction) ++
        'e' :: (if leading < 0 then '-' else '+') :: Text.decimal leading.natAbs

end Binary64

end LogicBoard
