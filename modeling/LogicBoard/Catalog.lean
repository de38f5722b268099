import LogicBoard.Chip

namespace LogicBoard

abbrev Builder := Placement → Logged Chip

/-- The chips that can be asked for, by dump type and by the name of a component type. The latest entries stand
first, and hide earlier ones for the same key. -/
structure Catalog where
  builders : List (UInt32 × Builder) := []
  types : List (String × UInt32) := []

namespace Catalog

def register (catalog : Catalog) (typeName : String) (dumpType : UInt32) (builder : Builder) : Catalog where
  builders := (dumpType, builder) :: catalog.builders
  types := (typeName, dumpType) :: catalog.types

def shiftRegister : Builder := fun p => return .register (← ShiftRegister.restore p)

def inverter : Builder := fun p => return .device (Device.inverter p)

/-- Knows the shift register alone. -/
def standard : Catalog := ({} : Catalog).register "sipo_shift" ShiftRegister.dumpType shiftRegister

def ofPlacement (catalog : Catalog) (p : Placement) : Logged Chip :=
  match catalog.builders.lookup p.dumpType with
  | some builder => builder p
  | none => Logged.refuse (.unknownDumpType p.dumpType)

def ofLine (catalog : Catalog) (line : String) : Logged Chip := do
  catalog.ofPlacement (← Logged.ofExcept (Placement.parse line))

def ofType (catalog : Catalog) (typeName : String) (x y : Int32) : Logged Chip :=
  match catalog.types.lookup typeName with
  | some dumpType => catalog.ofPlacement (.atPoint dumpType x y)
  | none => Logged.refuse (.unknownComponentType typeName)

end Catalog

end LogicBoard
