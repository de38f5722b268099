namespace LogicBoard

inductive Level
  | low
  | high
  deriving DecidableEq, Inhabited

namespace Level

def ofBool (b : Bool) : Level := if b then high else low

def isHigh : Level → Bool
  | low => false
  | high => true

def name : Level → String
  | low => "Low"
  | high => "High"

/-- The level as one binary digit. -/
def digit : Level → Char
  | low => '0'
  | high => '1'

def inverse : Level → Level
  | low => high
  | high => low

@[simp] theorem isHigh_ofBool (b : Bool) : (ofBool b).isHigh = b := by cases b <;> rfl

@[simp] theorem ofBool_isHigh (level : Level) : ofBool level.isHigh = level := by cases level <;> rfl

end Level

/-- Edge of a chip outline on which a pin sits. -/
inductive Side
  | north
  | south
  | west
  | east
  deriving DecidableEq

def Side.opposite : Side → Side
  | north => south
  | south => north
  | west => east
  | east => west

/-- The upper and lower edges run from left to right. -/
def Side.isHorizontal : Side → Bool
  | north => true
  | south => true
  | west => false
  | east => false

/-- A connection point on a chip outline, or a free-standing input of a circuit. -/
structure Pin where
  label : String
  level : Level := .low
  /-- Driven by the chip that owns the pin. -/
  output : Bool := false
  /-- Edge-sensitive clock input. -/
  clock : Bool := false
  /-- Slot along the side, counted from the chip's origin. -/
  position : Nat
  side : Side
  /-- Number of the voltage source that drives the pin. -/
  source : Option Nat := none

namespace Pin

def withLevel (level : Level) (pin : Pin) : Pin := { pin with level }

/-- The label on show: a clock input without a label is shown as `Clk`. -/
def shownLabel (pin : Pin) : String := if pin.clock && pin.label.isEmpty then "Clk" else pin.label

/-- One line for the pin, with its level and, when it has one, its voltage source. -/
def text (pin : Pin) : String :=
  let reading := pin.shownLabel ++ ": " ++ pin.level.name
  match pin.source with
  | none => reading
  | some source => reading ++ " [vs " ++ toString source ++ "]"

end Pin

end LogicBoard
