import LogicBoard.Json.Fault
import LogicBoard.PinTable

namespace LogicBoard

/-- A number of a placement line, in the order in which the line gives them. -/
inductive Field
  | type
  | x
  | y
  | x2
  | y2
  | flags
  deriving DecidableEq

def Field.name : Field → String
  | type => "type"
  | x => "x"
  | y => "y"
  | x2 => "x2"
  | y2 => "y2"
  | flags => "flags"

/-- Why a file could not be read as text. -/
inductive ReadFailure
  | notFound
  | notDirectory
  | isDirectory
  | nameTooLong
  | notUtf8
  | nulInPath
  /-- Any other failure, in the words of the system. -/
  | system (words : String)

def ReadFailure.message : ReadFailure → String
  | notFound => "No such file or directory (os error 2)"
  | notDirectory => "Not a directory (os error 20)"
  | isDirectory => "Is a directory (os error 21)"
  | nameTooLong => "File name too long (os error 36)"
  | notUtf8 => "stream did not contain valid UTF-8"
  | nulInPath => "file name contained an unexpected NUL byte"
  | system words => words

inductive BoardError
  | missingField (field : Field)
  | invalidNumber (field : Field) (token : String)
  | invalidLevel (token : String)
  | dumpTypeMismatch (expected found : UInt32)
  | unknownDumpType (dumpType : UInt32)
  | unknownComponentType (name : String)
  | unknownComponent (name : String)
  | unknownPinLabel (component label : String)
  | unknownPin (id : PinId)
  | incompleteChipEntry (name : String)
  | unreadable (path : String) (failure : ReadFailure)
  | malformed (fault : Json.Fault)

def BoardError.message : BoardError → String
  | missingField field => "placement line is missing the " ++ field.name ++ " field"
  | invalidNumber field token => "invalid number '" ++ token ++ "' for field " ++ field.name
  | invalidLevel token => "invalid pin level '" ++ token ++ "', expected true/false, 1/0 or a voltage"
  | dumpTypeMismatch expected found =>
    "placement has dump type " ++ toString found ++ ", expected " ++ toString expected
  | unknownDumpType dumpType => "no chip registered for dump type " ++ toString dumpType
  | unknownComponentType name => "unknown component type: " ++ name
  | unknownComponent name => "component not found: " ++ name
  | unknownPinLabel component label => "component " ++ component ++ " has no pin labelled '" ++ label ++ "'"
  | unknownPin id => "pin handle " ++ toString id ++ " is not allocated"
  | incompleteChipEntry name =>
    "chip entry '" ++ name ++ "' needs either a placement line or a component type"
  | unreadable path failure => "failed to read config file '" ++ path ++ "': " ++ failure.message
  | malformed fault => "failed to parse circuit description: " ++ fault.message

end LogicBoard
