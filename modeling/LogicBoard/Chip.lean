import LogicBoard.Device
import LogicBoard.ShiftRegister

namespace LogicBoard

inductive Chip
  | register (r : ShiftRegister)
  | device (d : Device)

namespace Chip

def name : Chip → String
  | register _ => ShiftRegister.chipName
  | device d => d.name

def outline : Chip → Outline
  | register r => r.outline
  | device d => d.outline

def dumpType : Chip → UInt32
  | register _ => ShiftRegister.dumpType
  | device d => d.dumpType

def postCount : Chip → Nat
  | register _ => ShiftRegister.postCount
  | device d => d.pinout.length

def sourceCount : Chip → Nat
  | register _ => ShiftRegister.sourceCount
  | device d => d.sourceCount

/-- Whether the chip follows the reset pin convention. -/
def hasReset : Chip → Bool
  | register _ => false
  | device d => d.hasReset

def handles (chip : Chip) : List PinId := chip.outline.handles

def setup (chip : Chip) (table : PinTable) : Chip × PinTable :=
  match chip with
  | register r =>
    let (r, table) := r.setup table
    (register r, table)
  | device d =>
    let (d, table) := d.setup table
    (device d, table)

def execute (chip : Chip) (table : PinTable) : Logged (Chip × PinTable) :=
  match chip with
  | register r => do
    let (r, table) ← r.execute table
    return (register r, table)
  | device d =>
    let (d, table) := d.execute table
    return (device d, table)

/-- The output pin with a given number becomes driven by a voltage source. -/
def setSource (chip : Chip) (n source : Nat) (table : PinTable) : PinTable :=
  match (chip.outline.outputs table)[n]? with
  | some id => table.setSource id source
  | none => table

/-- The outputs become driven by consecutive voltage sources, from `first` on and as far as the chip asks for them. -/
def bindSources (chip : Chip) (first : Nat) (table : PinTable) : PinTable :=
  ((chip.outline.outputs table).take chip.sourceCount).zipIdx first |>.foldl
    (fun table (id, source) => table.setSource id source) table

/-- The placement of the chip, with the levels that its outputs have now. -/
def placement (chip : Chip) (table : PinTable) : Placement where
  dumpType := chip.dumpType
  x := chip.outline.x
  y := chip.outline.y
  x2 := chip.outline.x2
  y2 := chip.outline.y2
  flags := chip.outline.flags
  levels := ((table.select chip.handles).filter Pin.output).map Pin.level

def dump (chip : Chip) (table : PinTable) : String := (chip.placement table).line

/-- The name of the chip, then a line for every pin with a label on show. -/
def info (chip : Chip) (table : PinTable) : List String :=
  let labelled := (table.select chip.handles).filter fun pin => pin.shownLabel ≠ ""
  chip.name :: labelled.map fun pin => pin.shownLabel ++ " = " ++ pin.level.digit.toString

/-- The levels of the outputs as one number of eight bits, most significant first. Earlier ones drop out. -/
def outputByte (chip : Chip) (table : PinTable) : BitVec 8 :=
  ((table.select chip.handles).filter Pin.output).foldl
    (fun byte pin => byte <<< 1 ||| if pin.level.isHigh then 1 else 0) 0

end Chip

end LogicBoard
