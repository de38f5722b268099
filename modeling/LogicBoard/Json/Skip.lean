import LogicBoard.Json.Reader

namespace LogicBoard.Json

def skipDigits? : List Char → Option (List Char)
  | c :: rest => if c.isDigit then some (rest.dropWhile Char.isDigit) else none
  | [] => none

def skipExponent? : List Char → Option (List Char)
  | mark :: rest =>
    if mark = 'e' ∨ mark = 'E' then
      match rest with
      | '+' :: digits => skipDigits? digits
      | '-' :: digits => skipDigits? digits
      | digits => skipDigits? digits
    else some (mark :: rest)
  | [] => some []

def skipFraction? : List Char → Option (List Char)
  | '.' :: rest => (skipDigits? rest).bind skipExponent?
  | rest => skipExponent? rest

/-- The text after a number without its sign. A leading zero stands alone. -/
def skipUnsigned? : List Char → Option (List Char)
  | '0' :: rest => if (rest.head?.map Char.isDigit).getD false then none else skipFraction? rest
  | text => (skipDigits? text).bind skipFraction?

/-- The text after a number, of which nothing but the form is looked at. -/
def skipNumber : List Char → Except Fault (Unit × List Char)
  | '-' :: text => ((skipUnsigned? text).map ((), ·)).elim (.error .invalidNumber) .ok
  | text => ((skipUnsigned? text).map ((), ·)).elim (.error .invalidNumber) .ok

/-- The text after a closing quote. Escapes need the right form only, so that surrogates may stand alone. -/
def skipText : List Char → Except Fault (Unit × List Char)
  | [] => .error .endOfString
  | '"' :: rest => .ok ((), rest)
  | '\\' :: 'u' :: a :: b :: c :: d :: rest =>
    match hexQuad? a b c d with
    | none => .error (hexFault [a, b, c, d])
    | some _ => skipText rest
  | '\\' :: 'u' :: short => .error (hexFault short)
  | '\\' :: c :: rest => if (shortEscape? c).isSome then skipText rest else .error .invalidEscape
  | ['\\'] => .error .endOfString
  | c :: rest => if c.toNat < 32 then .error .controlCharacter else skipText rest

/-- A container that is still open. -/
inductive Enclosing
  | list
  | object
  deriving DecidableEq

def Enclosing.closing : Enclosing → Char
  | list => ']'
  | object => '\x7d'

def Enclosing.endFault : Enclosing → Fault
  | list => .endOfList
  | object => .endOfObject

def Enclosing.separatorFault : Enclosing → Fault
  | list => .expectedCommaOrBracket
  | object => .expectedCommaOrBrace

namespace Reader

def skipKey : Reader Unit := do
  match ← peek with
  | none => throw .endOfObject
  | some '"' =>
    advance
    lift skipText
    colon
  | some _ => throw .keyNotText

def skipScalar (c : Char) : Reader Unit :=
  if c = 'n' then word ['n', 'u', 'l', 'l']
  else if c = 't' then word ['t', 'r', 'u', 'e']
  else if c = 'f' then word ['f', 'a', 'l', 's', 'e']
  else if c = '-' ∨ c.isDigit then lift skipNumber
  else if c = '"' then advance >>= fun _ => lift skipText
  else throw .expectedValue

/-- What is due in front of a value in an open container. -/
def skipLead : Enclosing → Reader Unit
  | .list => pure ()
  | .object => skipKey

/-- Take a closing bracket or brace that follows the opening one at once, or else what is due before a value. -/
def closedAtOnce (container : Enclosing) : Reader Bool := do
  match ← peek with
  | none => throw container.endFault
  | some c =>
    if c = container.closing then
      advance
      pure true
    else
      skipLead container
      pure false

/-- Skip the rest of a value, with the open containers on a stack, innermost first, and `due` telling whether a
value comes next or has just ended. Every step takes a character, so the length of the text bounds their number. -/
def skipFrom : Nat → Bool → List Enclosing → Reader Unit
  | 0, _, _ => throw .endOfValue
  | bound + 1, true, stack => do
    match ← peek with
    | none => throw .endOfValue
    | some c =>
      if c = '[' then
        advance
        if ← closedAtOnce .list then skipFrom bound false stack else skipFrom bound true (.list :: stack)
      else if c = '\x7b' then
        advance
        if ← closedAtOnce .object then skipFrom bound false stack else skipFrom bound true (.object :: stack)
      else
        skipScalar c
        skipFrom bound false stack
  | _ + 1, false, [] => pure ()
  | bound + 1, false, inner :: outer => do
    match ← peek with
    | none => throw inner.endFault
    | some c =>
      if c = ',' then
        advance
        skipLead inner
        skipFrom bound true (inner :: outer)
      else if c = inner.closing then
        advance
        skipFrom bound false outer
      else throw inner.separatorFault

/-- Skip a value of any nesting. -/
def skip : Reader Unit := do skipFrom ((← get).length + 2) true []

end Reader

end LogicBoard.Json
