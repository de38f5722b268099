import LogicBoard.Overflow
import LogicBoard.Placement

namespace LogicBoard

/-- Place, flags and size of a chip, with the handles of its pins in the order of its posts. -/
structure Outline where
  x : Int32
  y : Int32
  x2 : Int32
  y2 : Int32
  flags : UInt32 := 0
  /-- Slots along the upper and lower edges. -/
  columns : Nat := 0
  /-- Slots along the left and right edges. -/
  rows : Nat := 0
  handles : List PinId := []

namespace Outline

/-- The chip is drawn at half size. -/
def smallFlag : UInt32 := 1

/-- The chip is turned over from left to right. -/
def flipXFlag : UInt32 := 1024

/-- The chip is turned over from top to bottom. -/
def flipYFlag : UInt32 := 2048

def atPoint (x y : Int32) : Outline := { x, y, x2 := x, y2 := y }

def ofPlacement (p : Placement) : Outline := { x := p.x, y := p.y, x2 := p.x2, y2 := p.y2, flags := p.flags }

def isSmall (o : Outline) : Bool := o.flags &&& smallFlag != 0

def flipX (o : Outline) : Bool := o.flags &&& flipXFlag != 0

def flipY (o : Outline) : Bool := o.flags &&& flipYFlag != 0

/-- Distance between neighbouring slots. -/
def spacing (o : Outline) : Int32 := if o.isSmall then 8 else 16

/-- Width and height. Only the low 32 bits of a size count, and each product has to fit a word. -/
def footprint (o : Outline) : Except Overflow (Int32 × Int32) := do
  let width ← Checked.mul (Int32.ofNat o.columns) o.spacing
  let height ← Checked.mul (Int32.ofNat o.rows) o.spacing
  return (width, height)

/-- A flip along a pin's edge counts its slot from the other end. -/
def slot (flipped : Bool) (size position : Nat) : Except Overflow Int32 :=
  if flipped then Checked.sub (Int32.ofNat size) (Int32.ofNat position) else .ok (Int32.ofNat position)

/-- The coordinates of a pin on the outline. Pins of the upper and lower edges move along them under one flip and
change edges under the other, and those of the left and right edges the other way round. -/
def locate (o : Outline) (pin : Pin) : Except Overflow (Int32 × Int32) := do
  let (width, height) ← o.footprint
  let horizontal := pin.side.isHorizontal
  let position ← if horizontal then slot o.flipX o.columns pin.position else slot o.flipY o.rows pin.position
  let swapped := if horizontal then o.flipY else o.flipX
  let offset ← Checked.mul position o.spacing
  match if swapped then pin.side.opposite else pin.side with
  | .north => return (← Checked.add o.x offset, o.y)
  | .south => return (← Checked.add o.x offset, ← Checked.add o.y height)
  | .west => return (o.x, ← Checked.add o.y offset)
  | .east => return (← Checked.add o.x width, ← Checked.add o.y offset)

/-- The coordinates of a post, when there is a pin behind its handle. -/
def post (o : Outline) (n : Nat) (table : PinTable) : Except Overflow (Option (Int32 × Int32)) :=
  match o.handles[n]?.bind table.get? with
  | none => .ok none
  | some pin => (o.locate pin).map some

/-- Allocate fresh pins for a chip and take their handles and its size. -/
def setup (o : Outline) (columns rows : Nat) (pins : List Pin) (table : PinTable) : Outline × PinTable :=
  ({ o with columns, rows, handles := table.freshHandles pins }, table.allocateAll pins)

/-- The handles whose pins are outputs. -/
def outputs (o : Outline) (table : PinTable) : List PinId :=
  o.handles.filter fun id => ((table.get? id).map Pin.output).getD false

end Outline

end LogicBoard
