import LogicBoard.PinTable
import LogicBoard.Text.Literal

namespace LogicBoard

/-- What the simulator reports while it works. -/
inductive Event
  | placing (chip : String) (x y : Int32)
  | restoring (chip : String) (x y : Int32) (flags : UInt32)
  | shiftIn (data : Level) (register : BitVec 8)
  | added (circuit chip : String) (posts : Nat)
  | wired (circuit : String) (source target : PinId)
  | ticked (circuit : String) (count : Nat)
  | creating (entry : String)
  | loaded (circuit : String) (chips wires : Nat)

namespace Event

def point (x y : Int32) : String := "(" ++ toString x.toInt ++ ", " ++ toString y.toInt ++ ")"

def severity : Event → String
  | shiftIn .. => "TRACE"
  | ticked .. => "TRACE"
  | loaded .. => "INFO"
  | _ => "DEBUG"

def text : Event → String
  | placing chip x y => "placing " ++ chip ++ " at " ++ point x y
  | restoring chip x y flags => "restoring " ++ chip ++ " at " ++ point x y ++ " flags " ++ toString flags
  | shiftIn data register =>
    "shift in " ++ data.digit.toString ++ " -> " ++ String.ofList (Text.binary 8 register.toNat)
  | added circuit chip posts => circuit ++ ": added " ++ chip ++ " with " ++ toString posts ++ " posts"
  | wired circuit source target => circuit ++ ": wire " ++ source.text ++ " -> " ++ target.text
  | ticked circuit count => circuit ++ ": tick " ++ toString count
  | creating entry => "creating chip " ++ entry
  | loaded circuit chips wires =>
    "loaded circuit " ++ circuit ++ " (" ++ toString chips ++ " chips, " ++ toString wires ++ " wires)"

/-- The line of the log: severity, then text. -/
def line (event : Event) : String := event.severity ++ " " ++ event.text

end Event

end LogicBoard
