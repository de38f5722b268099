import LogicBoard.Json.Fault

namespace LogicBoard.Json

def hexDigit? (c : Char) : Option Nat :=
  if c.isDigit then some (c.toNat - 48)
  else if 'a' ≤ c ∧ c ≤ 'f' then some (c.toNat - 87)
  else if 'A' ≤ c ∧ c ≤ 'F' then some (c.toNat - 55)
  else none

/-- The number written by four hexadecimal digits. -/
def hexQuad? (a b c d : Char) : Option Nat := do
  return (((← hexDigit? a) * 16 + (← hexDigit? b)) * 16 + (← hexDigit? c)) * 16 + (← hexDigit? d)

/-- The fault of a text that does not start with four hexadecimal digits: with fewer than four bytes left the text
ends too early. -/
def hexFault (text : List Char) : Fault :=
  if (String.ofList (text.take 4)).utf8ByteSize < 4 then .endOfString else .invalidEscape

/-- The character of an escape of one letter. -/
def shortEscape? : Char → Option Char
  | '"' => some '"'
  | '\\' => some '\\'
  | '/' => some '/'
  | 'b' => some '\x08'
  | 'f' => some '\x0c'
  | 'n' => some '\n'
  | 'r' => some '\r'
  | 't' => some '\t'
  | _ => none

def isHighSurrogate (unit : Nat) : Bool := 0xD800 ≤ unit && unit < 0xDC00

def isLowSurrogate (unit : Nat) : Bool := 0xDC00 ≤ unit && unit < 0xE000

/-- The character that a pair of surrogates stands for. -/
def ofSurrogates (high low : Nat) : Char := .ofNat (0x10000 + (high - 0xD800) * 0x400 + (low - 0xDC00))

/-- Read a text after its opening quote, with `done` holding the characters already read, last one first. -/
def readText (done : List Char) : List Char → Except Fault (String × List Char)
  | [] => .error .endOfString
  | '"' :: rest => .ok (.ofList done.reverse, rest)
  | '\\' :: 'u' :: a :: b :: c :: d :: rest =>
    match hexQuad? a b c d with
    | none => .error (hexFault [a, b, c, d])
    | some unit =>
      if isLowSurrogate unit then .error .loneSurrogate
      else if isHighSurrogate unit then
        match rest with
        | '\\' :: 'u' :: e :: f :: g :: h :: more =>
          match hexQuad? e f g h with
          | none => .error (hexFault [e, f, g, h])
          | some second =>
            if isLowSurrogate second then readText (ofSurrogates unit second :: done) more
            else .error .loneSurrogate
        | '\\' :: 'u' :: short => .error (hexFault short)
        | [] | ['\\'] => .error .endOfString
        | _ => .error .unfinishedSurrogatePair
      else readText (.ofNat unit :: done) rest
  | '\\' :: 'u' :: short => .error (hexFault short)
  | '\\' :: c :: rest =>
    match shortEscape? c with
    | some plain => readText (plain :: done) rest
    | none => .error .invalidEscape
  | ['\\'] => .error .endOfString
  | c :: rest => if c.toNat < 32 then .error .controlCharacter else readText (c :: done) rest

end LogicBoard.Json
