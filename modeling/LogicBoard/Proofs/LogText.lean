import LogicBoard.Console

namespace LogicBoard

namespace Text

/-- A character that a log may show: no control character, unless it is white space. -/
def Fit (c : Char) : Prop := 0x20 ≤ c.toNat ∧ c ≠ '\x7f' ∨ c = '\t' ∨ c = '\n' ∨ c = '\x0c' ∨ c = '\r'

instance (c : Char) : Decidable (Fit c) := inferInstanceAs (Decidable (_ ∨ _))

end Text

namespace Console

/-- How a message stands in the log. Its later lines are indented by four spaces. Characters that are not fit to be
shown are left out, perhaps with some that they control, and nothing is added. -/
structure InLog (message shown : String) : Prop where
  ofFit : ∀ lines, message = "\n".intercalate lines → (∀ line ∈ lines, ∀ c ∈ line.toList, Text.Fit c ∧ c ≠ '\n') →
    shown = "\n    ".intercalate lines
  fit : ∀ c ∈ shown.toList, Text.Fit c
  sublist : ∀ lines, message = "\n".intercalate lines → (∀ line ∈ lines, '\n' ∉ line.toList) →
    shown.toList.Sublist ("\n    ".intercalate lines).toList

end Console

end LogicBoard
