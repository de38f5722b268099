import LogicBoard.Binary64
import LogicBoard.Text.Quoted

namespace LogicBoard.Json

/-- What a reader expects at a place of the text. -/
inductive Shape
  | text
  | sequence
  | int32
  | pair
  | record (name : String) (fields : Nat)

def Shape.name : Shape → String
  | text => "a string"
  | sequence => "a sequence"
  | int32 => "i32"
  | pair => "an array of length 2"
  | record name _ => "struct " ++ name

/-- The shape as it is named when a sequence is too short for it. -/
def Shape.lengthName : Shape → String
  | record name fields => "struct " ++ name ++ " with " ++ toString fields ++ " elements"
  | shape => shape.name

/-- A value that is well formed as far as it was read, and is not what was expected. -/
inductive Found
  | null
  | boolean (value : Bool)
  | integer (value : Int)
  | float (negative : Bool) (value : Binary64)
  | text (value : String)
  | sequence
  | map

def Found.name : Found → String
  | null => "null"
  | boolean value => "boolean `" ++ (if value then "true" else "false") ++ "`"
  | integer value => "integer `" ++ String.ofList (Text.signed value) ++ "`"
  | float negative value =>
    "floating point `" ++ (if negative then "-" else "") ++ String.ofList value.text ++ "`"
  | text value => "string " ++ String.ofList (Text.quoted value.toList)
  | sequence => "sequence"
  | map => "map"

/-- The first thing at which reading a text stops. -/
inductive Fault
  | endOfValue
  | endOfList
  | endOfString
  | endOfObject
  | expectedValue
  | expectedIdent
  | expectedColon
  | expectedCommaOrBracket
  | expectedCommaOrBrace
  | keyNotText
  | trailingComma
  | trailingCharacters
  | invalidNumber
  | numberOutOfRange
  | invalidEscape
  | unfinishedSurrogatePair
  | loneSurrogate
  | controlCharacter
  | wrongType (found : Found) (expected : Shape)
  | outOfRange (value : Int) (expected : Shape)
  | tooShort (length : Nat) (expected : Shape)
  | missingField (name : String)
  | duplicateField (name : String)

def Fault.message : Fault → String
  | endOfValue => "EOF while parsing a value"
  | endOfList => "EOF while parsing a list"
  | endOfString => "EOF while parsing a string"
  | endOfObject => "EOF while parsing an object"
  | expectedValue => "expected value"
  | expectedIdent => "expected ident"
  | expectedColon => "expected `:`"
  | expectedCommaOrBracket => "expected `,` or `]`"
  | expectedCommaOrBrace => "expected `,` or `\x7d`"
  | keyNotText => "key must be a string"
  | trailingComma => "trailing comma"
  | trailingCharacters => "trailing characters"
  | invalidNumber => "invalid number"
  | numberOutOfRange => "number out of range"
  | invalidEscape => "invalid escape"
  | unfinishedSurrogatePair => "unexpected end of hex escape"
  | loneSurrogate => "lone leading surrogate in hex escape"
  | controlCharacter => "control character (\\u0000-\\u001F) found while parsing a string"
  | wrongType found expected => "invalid type: " ++ found.name ++ ", expected " ++ expected.name
  | outOfRange value expected => "invalid value: " ++ (Found.integer value).name ++ ", expected " ++ expected.name
  | tooShort length expected => "invalid length " ++ toString length ++ ", expected " ++ expected.lengthName
  | missingField name => "missing field `" ++ name ++ "`"
  | duplicateField name => "duplicate field `" ++ name ++ "`"

end LogicBoard.Json
