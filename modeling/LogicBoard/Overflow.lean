import LogicBoard.Word

namespace LogicBoard

/-- The machine operation whose exact result does not fit its word. -/
inductive Overflow
  | add
  | subtract
  | multiply
  | shiftRight
  deriving DecidableEq

def Overflow.message : Overflow → String
  | add => "attempt to add with overflow"
  | subtract => "attempt to subtract with overflow"
  | multiply => "attempt to multiply with overflow"
  | shiftRight => "attempt to shift right with overflow"

namespace Checked

/-- The exact integer as a 32-bit word. Outside the signed range the operation that made it is at fault. -/
def word (operation : Overflow) (exact : Int) : Except Overflow Int32 :=
  match Word.int32? exact with
  | some w => .ok w
  | none => .error operation

def add (a b : Int32) : Except Overflow Int32 := word .add (a.toInt + b.toInt)

def sub (a b : Int32) : Except Overflow Int32 := word .subtract (a.toInt - b.toInt)

def mul (a b : Int32) : Except Overflow Int32 := word .multiply (a.toInt * b.toInt)

/-- Counting on by `step` with a 64-bit counter. -/
def count (counter step : Nat) : Except Overflow Nat :=
  if Word.fits64 (counter + step) then .ok (counter + step) else .error .add

theorem word_eq_ok_iff {operation : Overflow} {exact : Int} {w : Int32} :
    word operation exact = .ok w ↔ w.toInt = exact := by
  unfold word
  cases found : Word.int32? exact with
  | some v =>
    rw [Except.ok.injEq, ← Word.int32?_eq_some_iff, found, Option.some.injEq]
  | none => simp [← Word.int32?_eq_some_iff, found]

end Checked

end LogicBoard
