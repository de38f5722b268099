import LogicBoard.Description
import LogicBoard.Json.Skip

namespace LogicBoard
open Json

namespace PinReference

/-- The members of an object that have been read. -/
structure Draft where
  component : Option String := none
  pin : Option String := none

def member (draft : Draft) (key : String) : Reader Draft := do
  match key with
  | "component" => return { draft with component := ← Reader.once key draft.component Reader.text }
  | "pin" => return { draft with pin := ← Reader.once key draft.pin Reader.text }
  | _ =>
    Reader.colon
    Reader.skip
    return draft

def finish (draft : Draft) : Except Fault PinReference := do
  return { component := ← required "component" draft.component, pin := ← required "pin" draft.pin }

def shape : Shape := .record "PinReference" 2

def fields : Reader PinReference := do
  let component ← Reader.element shape 0 Reader.text
  let pin ← Reader.element shape 1 Reader.text
  return { component, pin }

def read : Reader PinReference := Reader.record shape fields {} member finish

end PinReference

namespace Connection

structure Draft where
  source : Option PinReference := none
  targets : Option (List PinReference) := none

def member (draft : Draft) (key : String) : Reader Draft := do
  match key with
  | "source" => return { draft with source := ← Reader.once key draft.source PinReference.read }
  | "targets" => return { draft with targets := ← Reader.once key draft.targets (Reader.list PinReference.read) }
  | _ =>
    Reader.colon
    Reader.skip
    return draft

def finish (draft : Draft) : Except Fault Connection := do
  return { source := ← required "source" draft.source, targets := ← required "targets" draft.targets }

def shape : Shape := .record "ConnectionConfig" 2

def fields : Reader Connection := do
  let source ← Reader.element shape 0 PinReference.read
  let targets ← Reader.element shape 1 (Reader.list PinReference.read)
  return { source, targets }

def read : Reader Connection := Reader.record shape fields {} member finish

end Connection

namespace ChipEntry

structure Draft where
  name : Option String := none
  componentType : Option (Option String) := none
  placement : Option (Option String) := none
  position : Option (Option (Int32 × Int32)) := none

def readText : Reader (Option String) := Reader.optional Reader.text

def readPosition : Reader (Option (Int32 × Int32)) := Reader.optional (Reader.pair Reader.int32)

def member (draft : Draft) (key : String) : Reader Draft := do
  match key with
  | "name" => return { draft with name := ← Reader.once key draft.name Reader.text }
  | "component_type" => return { draft with componentType := ← Reader.once key draft.componentType readText }
  | "placement" => return { draft with placement := ← Reader.once key draft.placement readText }
  | "position" => return { draft with position := ← Reader.once key draft.position readPosition }
  | _ =>
    Reader.colon
    Reader.skip
    return draft

def finish (draft : Draft) : Except Fault ChipEntry := do
  return {
    name := ← required "name" draft.name
    componentType := draft.componentType.getD none
    placement := draft.placement.getD none
    position := draft.position.getD none }

def shape : Shape := .record "ChipConfig" 4

def fields : Reader ChipEntry := do
  let name ← Reader.element shape 0 Reader.text
  let componentType ← Reader.element shape 1 readText
  let placement ← Reader.element shape 2 readText
  let position ← Reader.element shape 3 readPosition
  return { name, componentType, placement, position }

def read : Reader ChipEntry := Reader.record shape fields {} member finish

end ChipEntry

namespace Description

structure Draft where
  name : Option String := none
  description : Option String := none
  inputs : Option (List String) := none
  chips : Option (List ChipEntry) := none
  connections : Option (List Connection) := none

def readInputs : Reader (List String) := Reader.list Reader.text

def readChips : Reader (List ChipEntry) := Reader.list ChipEntry.read

def readConnections : Reader (List Connection) := Reader.list Connection.read

def member (draft : Draft) (key : String) : Reader Draft := do
  match key with
  | "name" => return { draft with name := ← Reader.once key draft.name Reader.text }
  | "description" => return { draft with description := ← Reader.once key draft.description Reader.text }
  | "inputs" => return { draft with inputs := ← Reader.once key draft.inputs readInputs }
  | "chips" => return { draft with chips := ← Reader.once key draft.chips readChips }
  | "connections" => return { draft with connections := ← Reader.once key draft.connections readConnections }
  | _ =>
    Reader.colon
    Reader.skip
    return draft

def finish (draft : Draft) : Except Fault Description := do
  return {
    name := ← required "name" draft.name
    description := draft.description.getD ""
    inputs := draft.inputs.getD []
    chips := ← required "chips" draft.chips
    connections := draft.connections.getD [] }

def shape : Shape := .record "CircuitConfig" 5

def fields : Reader Description := do
  let name ← Reader.element shape 0 Reader.text
  let description ← Reader.elementOr "" 1 Reader.text
  let inputs ← Reader.elementOr [] 2 readInputs
  let chips ← Reader.element shape 3 readChips
  let connections ← Reader.elementOr [] 4 readConnections
  return { name, description, inputs, chips, connections }

def read : Reader Description := Reader.record shape fields {} member finish

/-- The description that a whole text gives. -/
def ofText (text : String) : Except Fault Description := Reader.readAll read text

end Description

end LogicBoard
