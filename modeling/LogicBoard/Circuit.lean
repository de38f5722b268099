import LogicBoard.Chip

namespace LogicBoard

/-- A wire in one direction: after every tick the target takes the level of the source. -/
structure Wire where
  source : PinId
  target : PinId
  deriving DecidableEq

namespace PinTable

/-- Bring the level of the source to the target. -/
def carry (table : PinTable) (wire : Wire) : PinTable := table.setLevel wire.target (table.level wire.source)

/-- One pass over the wires in order, so that a chain of wires in that order settles at once. -/
def settle (table : PinTable) (wires : List Wire) : PinTable := wires.foldl carry table

end PinTable

/-- Chips, inputs and wires on one table of pins, advanced tick by tick. -/
structure Circuit where
  name : String
  pins : PinTable := .empty
  chips : List Chip := []
  inputs : List PinId := []
  wires : List Wire := []
  /-- The voltage sources that the chips have asked for. -/
  sources : Nat := 0
  ticks : Nat := 0

namespace Circuit

/-- Place a chip: give it pins, and voltage sources for its outputs. -/
def addChip (c : Circuit) (chip : Chip) : Logged Circuit := do
  let (chip, pins) := chip.setup c.pins
  let sources ← Logged.ofChecked (Checked.count c.sources chip.sourceCount)
  Logged.report (.added c.name chip.name chip.postCount)
  return { c with pins := chip.bindSources c.sources pins, chips := c.chips ++ [chip], sources }

/-- A free-standing pin that is driven from outside. -/
def addInput (c : Circuit) (label : String) : Circuit :=
  { c with
    pins := c.pins.allocate { label, position := c.inputs.length, side := .west }
    inputs := c.inputs ++ [c.pins.size] }

def input? (c : Circuit) (label : String) : Option PinId :=
  c.inputs.find? fun id => decide ((c.pins.get? id).map Pin.label = some label)

/-- Add a wire, over which the level of the source passes at once. -/
def connect (c : Circuit) (source target : PinId) : Logged Circuit := do
  if !c.pins.contains source then Logged.refuse (.unknownPin source)
  else if !c.pins.contains target then Logged.refuse (.unknownPin target)
  else
    Logged.report (.wired c.name source target)
    return { c with pins := c.pins.carry ⟨source, target⟩, wires := c.wires ++ [⟨source, target⟩] }

/-- Drive a pin and pass the level on along the wires. -/
def setInput (c : Circuit) (id : PinId) (level : Level) : Circuit :=
  { c with pins := (c.pins.setLevel id level).settle c.wires }

def executeAll : List Chip → PinTable → Logged (List Chip × PinTable)
  | [], table => return ([], table)
  | chip :: chips, table => do
    let (chip, table) ← chip.execute table
    let (chips, table) ← executeAll chips table
    return (chip :: chips, table)

/-- One tick: the chips, then the wires. -/
def step (c : Circuit) : Logged Circuit := do
  let (chips, pins) ← executeAll c.chips c.pins
  let ticks ← Logged.ofChecked (Checked.count c.ticks 1)
  Logged.report (.ticked c.name ticks)
  return { c with chips, pins := pins.settle c.wires, ticks }

def run : Nat → Circuit → Logged Circuit
  | 0, c => return c
  | ticks + 1, c => do run ticks (← c.step)

/-- A whole clock cycle: a bit on the data pin, a tick with the clock high and one with it low. -/
def clockIn (c : Circuit) (data clock : PinId) (bit : Level) : Logged Circuit := do
  let c ← ((c.setInput data bit).setInput clock .high).step
  (c.setInput clock .low).step

def dump (c : Circuit) : List String := c.chips.map fun chip => chip.dump c.pins

end Circuit

end LogicBoard
