import LogicBoard.Json.Number
import LogicBoard.Json.Text

namespace LogicBoard.Json

/-- A pass over a text from left to right that stops at the first fault. -/
abbrev Reader := StateT (List Char) (Except Fault)

/-- The white space of the format. -/
def isSpace (c : Char) : Bool := c = ' ' || c = '\n' || c = '\t' || c = '\r'

namespace Reader

/-- Run a function on the text that is left. -/
def lift {α : Type} (f : List Char → Except Fault (α × List Char)) : Reader α := f

/-- The next character that is not white space, left in place. -/
def peek : Reader (Option Char) := fun text =>
  let rest := text.dropWhile isSpace
  .ok (rest.head?, rest)

def advance : Reader Unit := fun text => .ok ((), text.tail)

/-- The letters of a word that has been recognised by its first one. -/
def word : List Char → Reader Unit
  | [] => pure ()
  | expected :: more => fun text =>
    match text with
    | [] => .error .endOfValue
    | c :: rest => if c = expected then word more rest else .error .expectedIdent

def quotedText : Reader String := do
  advance
  lift (readText [])

/-- Fail at a value that is not of the expected shape. A value that cannot even be read to its end is at fault
itself, except that containers are not entered. -/
def refuse {α : Type} (expected : Shape) : Reader α := do
  match ← peek with
  | none => throw .endOfValue
  | some c =>
    let found : Found ←
      if c = 'n' then word ['n', 'u', 'l', 'l'] >>= fun _ => pure Found.null
      else if c = 't' then word ['t', 'r', 'u', 'e'] >>= fun _ => pure (Found.boolean true)
      else if c = 'f' then word ['f', 'a', 'l', 's', 'e'] >>= fun _ => pure (Found.boolean false)
      else if c = '-' ∨ c.isDigit then Number.found <$> lift Number.read
      else if c = '"' then Found.text <$> quotedText
      else if c = '[' then pure Found.sequence
      else if c = '\x7b' then pure Found.map
      else throw .expectedValue
    throw (.wrongType found expected)

def text : Reader String := do
  match ← peek with
  | some '"' => quotedText
  | _ => refuse .text

def int32 : Reader Int32 := do
  match ← peek with
  | none => throw .endOfValue
  | some c =>
    if c = '-' ∨ c.isDigit then
      match ← lift Number.read with
      | .integer n =>
        match Word.int32? n with
        | some w => pure w
        | none => throw (.outOfRange n .int32)
      | number => throw (.wrongType number.found .int32)
    else refuse .int32

/-- A value, or the word `null` for none. -/
def optional {α : Type} (item : Reader α) : Reader (Option α) := do
  match ← peek with
  | some 'n' =>
    word ['n', 'u', 'l', 'l']
    pure none
  | _ => some <$> item

/-- The next element of a list whose opening bracket has been read, or none before the closing bracket. -/
def nextElement {α : Type} (first : Bool) (item : Reader α) : Reader (Option α) := do
  match ← peek with
  | none => throw .endOfList
  | some ']' => pure none
  | some c =>
    if first then some <$> item
    else if c = ',' then
      advance
      match ← peek with
      | none => throw .endOfValue
      | some ']' => throw .trailingComma
      | some _ => some <$> item
    else throw .expectedCommaOrBracket

/-- All the elements that are left. Every element but the first one takes a comma at least, so the length of the
text bounds their number. -/
def elements {α : Type} (item : Reader α) : Nat → Bool → Reader (List α)
  | 0, _ => throw .endOfList
  | bound + 1, first => do
    match ← nextElement first item with
    | none => pure []
    | some x => return x :: (← elements item bound false)

/-- The closing bracket of a list. -/
def closeList : Reader Unit := do
  match ← peek with
  | none => throw .endOfList
  | some ']' => advance
  | some ',' =>
    advance
    match ← peek with
    | some ']' => throw .trailingComma
    | _ => throw .trailingCharacters
  | some _ => throw .trailingCharacters

def list {α : Type} (item : Reader α) : Reader (List α) := do
  match ← peek with
  | some '[' =>
    advance
    let xs ← elements item ((← get).length + 1) true
    closeList
    pure xs
  | _ => refuse .sequence

/-- The next element of a list of fixed length, `index` of which have been read. -/
def element {α : Type} (expected : Shape) (index : Nat) (item : Reader α) : Reader α := do
  match ← nextElement (index = 0) item with
  | some x => pure x
  | none => throw (.tooShort index expected)

/-- The next element of a list of fixed length, which may end before it. -/
def elementOr {α : Type} (default : α) (index : Nat) (item : Reader α) : Reader α := do
  match ← nextElement (index = 0) item with
  | some x => pure x
  | none => pure default

def pair {α : Type} (item : Reader α) : Reader (α × α) := do
  match ← peek with
  | some '[' =>
    advance
    let first ← element .pair 0 item
    let second ← element .pair 1 item
    closeList
    pure (first, second)
  | _ => refuse .pair

/-- The next key of an object whose opening brace has been read, or none before the closing brace. -/
def nextKey (first : Bool) : Reader (Option String) := do
  match ← peek with
  | none => throw .endOfObject
  | some '\x7d' => pure none
  | some c =>
    if first then key c
    else if c = ',' then
      advance
      match ← peek with
      | none => throw .endOfValue
      | some '\x7d' => throw .trailingComma
      | some c => key c
    else throw .expectedCommaOrBrace
where
  key (c : Char) : Reader (Option String) := if c = '"' then some <$> quotedText else throw .keyNotText

def colon : Reader Unit := do
  match ← peek with
  | none => throw .endOfObject
  | some ':' => advance
  | some _ => throw .expectedColon

/-- The members that are left, each of them taken into `s` by `member` once its key has been read. -/
def members {σ : Type} (member : σ → String → Reader σ) : Nat → Bool → σ → Reader σ
  | 0, _, _ => throw .endOfObject
  | bound + 1, first, s => do
    match ← nextKey first with
    | none => pure s
    | some key => members member bound false (← member s key)

/-- A record: an object with its members in any order, or a list of the fields. -/
def record {α σ : Type} (shape : Shape) (fields : Reader α) (start : σ) (member : σ → String → Reader σ)
    (finish : σ → Except Fault α) : Reader α := do
  match ← peek with
  | some '[' =>
    advance
    let value ← fields
    closeList
    pure value
  | some '\x7b' =>
    advance
    let s ← members member ((← get).length + 1) true start
    let value ← finish s
    advance
    pure value
  | _ => refuse shape

/-- The value of a member that may be given once. -/
def once {α : Type} (key : String) (earlier : Option α) (item : Reader α) : Reader (Option α) := do
  if earlier.isSome then throw (.duplicateField key)
  colon
  some <$> item

/-- Run a reader on a whole text. -/
def readAll {α : Type} (item : Reader α) (text : String) : Except Fault α := do
  let (value, rest) ← item text.toList
  if rest.all isSpace then pure value else throw .trailingCharacters

end Reader

/-- The value of a member that has to be given. -/
def required {α : Type} (key : String) : Option α → Except Fault α
  | some value => .ok value
  | none => .error (.missingField key)

end LogicBoard.Json
