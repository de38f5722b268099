import LogicBoard.Outline

namespace LogicBoard

/-- Any chip that works on its own pins alone. In a tick it sees its memory and its pins, in the order of its posts,
and gives its next memory and what the pins become. -/
structure Device where
  name : String
  outline : Outline
  dumpType : UInt32
  hasReset : Bool := true
  sourceCount : Nat
  columns : Nat
  rows : Nat
  /-- The pins as they are allocated. -/
  pinout : List Pin
  memory : List Level := []
  react : List Level → List Pin → List Level × List Pin

namespace Device

def setup (d : Device) (table : PinTable) : Device × PinTable :=
  let (outline, table) := d.outline.setup d.columns d.rows d.pinout table
  ({ d with outline }, table)

/-- One tick: all own pins are read before any of them is written. -/
def execute (d : Device) (table : PinTable) : Device × PinTable :=
  let own := d.outline.handles.filter table.contains
  let (memory, pins) := d.react d.memory (table.select own)
  ({ d with memory }, table.modifyAll (own.zip (pins.map fun pin _ => pin)))

/-- A gate without memory: every output shows the inverse of the first pin. -/
def gate (p : Placement) (columns rows sourceCount : Nat) (pinout : List Pin) : Device where
  name := "gate"
  outline := .ofPlacement p
  dumpType := p.dumpType
  sourceCount
  columns
  rows
  pinout
  react memory pins :=
    match pins with
    | [] => (memory, [])
    | first :: _ => (memory, pins.map fun pin => if pin.output then pin.withLevel first.level.inverse else pin)

/-- The gate with one input, an unlabelled spare pin and one output. -/
def inverter (p : Placement) : Device :=
  gate p 4 2 1 [{ label := "A", position := 0, side := .west }, { label := "", position := 1, side := .south },
    { label := "Y", output := true, position := 1, side := .east }]

end Device

end LogicBoard
