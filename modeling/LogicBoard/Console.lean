import LogicBoard.Board
import LogicBoard.Text.Visible

namespace LogicBoard

/-- What a run of the program leaves behind: its exit code, its output, and the error that it logs. -/
structure Console where
  exit : Nat
  output : String
  error : Option String

namespace Console

def defaultPath : String := "configs/sipo_cascade.json"

/-- The file to load: the first argument, or the file that comes with the program. -/
def path (args : List String) : String := args.head?.getD defaultPath

def banner : List String := ["SIPO Shift Register - Cascade Example", "====================================="]

/-- The word that is clocked in, least significant bit first. -/
def pattern : BitVec 16 := 0xA5C3

def summary (b : Board) (path : String) : List String :=
  ["Loaded '" ++ b.circuit.name ++ "' from " ++ path] ++
    (if b.description.description.isEmpty then [] else ["  " ++ b.description.description]) ++
    ["  Chips: " ++ toString b.circuit.chips.length, "  Voltage sources: " ++ toString b.circuit.sources, ""]

/-- The byte that a named chip shows, when there is such a chip. -/
def reading (b : Board) (name : String) : Option String :=
  (b.outputByte? name).map fun byte => name ++ "=" ++ String.ofList (Text.binary 8 byte.toNat)

/-- The line for one edge of the clock, counted from one. -/
def edgeLine (b : Board) (edge : Nat) (bit : Level) : String :=
  let number := toString edge
  let readings := (b.description.chips.map ChipEntry.name).filterMap (reading b)
  "  edge " ++ (if edge < 10 then " " ++ number else number) ++ ": D=" ++ bit.digit.toString ++ " " ++
    String.intercalate " " readings

/-- Clock `count` bits in, beginning with bit `16 - count`, with a line after each of them. -/
def edges (data clock : PinId) : Nat → Board → Logged (List String × Board)
  | 0, b => return ([], b)
  | count + 1, b => do
    let bit := Level.ofBool (pattern.getLsbD (15 - count))
    let b := { b with circuit := ← b.circuit.clockIn data clock bit }
    let (lines, last) ← edges data clock count b
    return (edgeLine b (16 - count) bit :: lines, last)

/-- Clock the pattern in and list the placement lines at the end. -/
def runPattern (b : Board) : Logged (List String) := do
  let data ← Logged.ofExcept (b.pin Board.inputsName "DATA")
  let clock ← Logged.ofExcept (b.pin Board.inputsName "CLK")
  let (lines, last) ← edges data clock 16 b
  return ["Clocking in 0xA5C3, LSB first..."] ++ lines ++
    ["", "Placement lines after " ++ toString last.circuit.ticks ++ " ticks:"] ++
    last.circuit.dump.map ("  " ++ ·)

def unlines (lines : List String) : String := String.join (lines.map (· ++ "\n"))

/-- A message in the log: its later lines are indented by four spaces, and control sequences are left out. -/
def logText (message : String) : String :=
  String.ofList (Text.visible (message.toList.flatMap fun c => if c = '\n' then "\n    ".toList else [c]))

/-- A run of the program, given what became of reading the file. -/
def run (path : String) (content : Except ReadFailure String) : Console :=
  match (Board.ofFile .standard path content).result with
  | .error failure =>
    { exit := 1, output := unlines banner, error := some (logText ("Failed to load circuit: " ++ failure.message)) }
  | .ok b =>
    let loaded := banner ++ summary b path
    match (runPattern b).result with
    | .error failure =>
      { exit := 1, output := unlines loaded, error := some (logText ("Simulation failed: " ++ failure.message)) }
    | .ok lines => { exit := 0, output := unlines (loaded ++ lines), error := none }

end Console

end LogicBoard
