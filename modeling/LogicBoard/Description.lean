namespace LogicBoard

/-- The pin of a component, by the component's name and the pin's label. -/
structure PinReference where
  component : String
  pin : String
  deriving DecidableEq

/-- Wires from one source to any number of targets. -/
structure Connection where
  source : PinReference
  targets : List PinReference
  deriving DecidableEq

/-- A chip to place: by its placement line, or else as a component type at a point. -/
structure ChipEntry where
  name : String
  componentType : Option String
  placement : Option String
  position : Option (Int32 × Int32)
  deriving DecidableEq

/-- What a circuit is built from. -/
structure Description where
  name : String
  description : String
  inputs : List String
  chips : List ChipEntry
  connections : List Connection
  deriving DecidableEq

end LogicBoard
