namespace LogicBoard.Text

/-- A control sequence of a terminal, as far as it has been read. An escape character opens it. -/
inductive ControlSequence
  /-- The escape character alone. -/
  | escape
  /-- An escape sequence with intermediate characters. -/
  | intermediate
  /-- Behind `[`, up to the final character. -/
  | control
  /-- Behind `P`. -/
  | device
  /-- Behind `P` and parameters. -/
  | deviceParameter
  /-- Behind `P` and intermediate characters. -/
  | deviceIntermediate
  /-- A string up to its terminator. -/
  | string
  /-- Behind `]`, up to its terminator or a bell. -/
  | command

/-- How a text goes on. -/
inductive Reading
  | plain
  | inside (sequence : ControlSequence)
  /-- White space inside a sequence shows, and so does what follows it up to a control character, with which the
  sequence goes on. -/
  | paused (sequence : ControlSequence)

def isControl (c : Char) : Bool := decide (c.toNat < 0x20) || c = '\x7f'

/-- The white space among the control characters. -/
def isControlBlank (c : Char) : Bool := c = '\t' || c = '\n' || c = '\x0c' || c = '\r'

/-- A character of which a byte is the string terminator of eight-bit terminals. -/
def holdsTerminator (c : Char) : Bool := (String.utf8EncodeChar c).contains 0x9C

namespace ControlSequence

/-- The sequence with one more character, or none when this is its last one. -/
def next (sequence : ControlSequence) (c : Char) : Option ControlSequence :=
  let n := c.toNat
  if c = '\x1b' then some .escape
  else if c = '\x18' ∨ c = '\x1a' then none
  else
    match sequence with
    | .escape =>
      if isControl c || 0x80 ≤ n then some .escape
      else if n ≤ 0x2F then some .intermediate
      else if c = '[' then some .control
      else if c = ']' then some .command
      else if c = 'P' then some .device
      else if c = 'X' ∨ c = '^' ∨ c = '_' then some .string
      else none
    | .intermediate => if isControl c || 0x80 ≤ n || n ≤ 0x2F then some .intermediate else none
    | .control => if isControl c || 0x80 ≤ n || n ≤ 0x3F then some .control else none
    | .device =>
      if isControl c || 0x80 ≤ n then some .device
      else if n ≤ 0x2F then some .deviceIntermediate
      else if n ≤ 0x3F then some .deviceParameter
      else some .string
    | .deviceParameter =>
      if isControl c || 0x80 ≤ n then some .deviceParameter
      else if n ≤ 0x2F then some .deviceIntermediate
      else if n ≤ 0x3B then some .deviceParameter
      else some .string
    | .deviceIntermediate =>
      if isControl c || 0x80 ≤ n || n ≤ 0x2F then some .deviceIntermediate else some .string
    | .string => if holdsTerminator c then none else some .string
    | .command => if c = '\x07' then none else some .command

/-- Strings hide white space too. -/
def hidesBlanks : ControlSequence → Bool
  | .escape | .intermediate | .control => false
  | .device | .deviceParameter | .deviceIntermediate | .string | .command => true

/-- How the text goes on behind the sequence with one more character. -/
def after (sequence : ControlSequence) (c : Char) : Reading :=
  match sequence.next c with
  | some sequence => .inside sequence
  | none => .plain

end ControlSequence

/-- Whether the next character shows, and how the text goes on behind it. -/
def Reading.step (reading : Reading) (c : Char) : Bool × Reading :=
  match reading with
  | .plain =>
    if c = '\x1b' then (false, .inside .escape) else (!isControl c || isControlBlank c, .plain)
  | .inside sequence =>
    if isControlBlank c && !sequence.hidesBlanks then (true, .paused sequence) else (false, sequence.after c)
  | .paused sequence =>
    if 0x80 ≤ c.toNat then (true, .plain)
    else if !isControl c || isControlBlank c then (true, .paused sequence)
    else (false, sequence.after c)

def Reading.visible (reading : Reading) : List Char → List Char
  | [] => []
  | c :: rest =>
    let (shows, next) := reading.step c
    if shows then c :: next.visible rest else next.visible rest

/-- The text without its control sequences, and without control characters other than white space. -/
def visible (text : List Char) : List Char := Reading.plain.visible text

end LogicBoard.Text
