import LogicBoard.Catalog
import LogicBoard.Circuit
import LogicBoard.Description.Reader

namespace LogicBoard

/-- A circuit that was built from a description, with the names of its chips. -/
structure Board where
  circuit : Circuit
  description : Description
  /-- The chip of every entry, the latest entry first. -/
  names : List (String × Nat)

namespace Board

/-- The component name that stands for the inputs of the circuit. -/
def inputsName : String := "inputs"

/-- The index of the last chip with a name. -/
def chipId? (b : Board) (name : String) : Option Nat := b.names.lookup name

def chip? (b : Board) (name : String) : Option Chip := (b.chipId? name).bind fun id => b.circuit.chips[id]?

/-- Whether two texts differ at most in the case of ASCII letters. -/
def sameLetters (a b : String) : Bool := a.toList.map Char.toLower = b.toList.map Char.toLower

/-- A pin answers to its label, and the clock input of a chip also to `Clk` in any case. -/
def answers (pin : Pin) (label : String) : Bool := pin.label = label || (pin.clock && sameLetters label "clk")

/-- The first pin of a component that answers to a label. Inputs answer to their labels alone. -/
def pin (b : Board) (component label : String) : Except BoardError PinId :=
  let found (id? : Option PinId) : Except BoardError PinId :=
    match id? with
    | some id => .ok id
    | none => .error (.unknownPinLabel component label)
  if component = inputsName then found (b.circuit.input? label)
  else
    match b.chip? component with
    | none => .error (.unknownComponent component)
    | some chip =>
      found (chip.handles.find? fun id => ((b.circuit.pins.get? id).map (answers · label)).getD false)

def resolve (b : Board) (reference : PinReference) : Except BoardError PinId := b.pin reference.component reference.pin

/-- The outputs of a named chip as one byte. -/
def outputByte? (b : Board) (name : String) : Option (BitVec 8) :=
  (b.chip? name).map fun chip => chip.outputByte b.circuit.pins

/-- A placement line wins over a component type, whose chip stands at the origin unless a position is given. -/
def makeChip (catalog : Catalog) (entry : ChipEntry) : Logged Chip := do
  Logged.report (.creating entry.name)
  match entry.placement, entry.componentType with
  | some line, _ => catalog.ofLine line
  | none, some typeName =>
    let (x, y) := entry.position.getD (0, 0)
    catalog.ofType typeName x y
  | none, none => Logged.refuse (.incompleteChipEntry entry.name)

def addEntry (catalog : Catalog) (b : Board) (entry : ChipEntry) : Logged Board := do
  let chip ← makeChip catalog entry
  return { b with
    circuit := ← b.circuit.addChip chip
    names := (entry.name, b.circuit.chips.length) :: b.names }

def addEntries (catalog : Catalog) : List ChipEntry → Board → Logged Board
  | [], b => return b
  | entry :: entries, b => do addEntries catalog entries (← b.addEntry catalog entry)

def addTargets (source : PinId) : List PinReference → Board → Logged Board
  | [], b => return b
  | target :: targets, b => do
    let target ← Logged.ofExcept (b.resolve target)
    let circuit ← b.circuit.connect source target
    addTargets source targets { b with circuit }

/-- The source of a connection is resolved first, also when there is no target. -/
def addConnections : List Connection → Board → Logged Board
  | [], b => return b
  | connection :: connections, b => do
    let source ← Logged.ofExcept (b.resolve connection.source)
    addConnections connections (← b.addTargets source connection.targets)

/-- Inputs first, then the chips, then the wires, each in the order of the description. -/
def build (catalog : Catalog) (d : Description) : Logged Board := do
  let circuit := d.inputs.foldl Circuit.addInput { name := d.name }
  let b ← addEntries catalog d.chips { circuit, description := d, names := [] }
  let b ← addConnections d.connections b
  Logged.report (.loaded b.circuit.name b.circuit.chips.length b.circuit.wires.length)
  return b

def ofText (catalog : Catalog) (text : String) : Logged Board := do
  build catalog (← Logged.ofExcept ((Description.ofText text).mapError .malformed))

/-- The circuit that a file describes, given what became of reading the file. -/
def ofFile (catalog : Catalog) (path : String) (content : Except ReadFailure String) : Logged Board :=
  match content with
  | .ok text => ofText catalog text
  | .error failure => Logged.refuse (.unreadable path failure)

end Board

end LogicBoard
