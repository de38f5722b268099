import LogicBoard.Text.Printable

namespace LogicBoard.Text

/-- Lower-case hexadecimal digits without leading zeros. -/
def hexadecimal (n : Nat) : List Char := Nat.toDigits 16 n

/-- A character inside a quoted text: six characters have an escape of their own, and every other one that is not
shown as itself is written by its code point. -/
def escaped (c : Char) : List Char :=
  if c = '\x00' then ['\\', '0']
  else if c = '\t' then ['\\', 't']
  else if c = '\n' then ['\\', 'n']
  else if c = '\r' then ['\\', 'r']
  else if c = '"' then ['\\', '"']
  else if c = '\\' then ['\\', '\\']
  else if isPrintable c then [c]
  else '\\' :: 'u' :: '\x7b' :: (hexadecimal c.toNat ++ ['\x7d'])

def quoted (text : List Char) : List Char := '"' :: (text.flatMap escaped ++ ['"'])

end LogicBoard.Text
