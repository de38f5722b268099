import LogicBoard.Proofs.FilePaths
import LogicBoard.Proofs.LogText
import LogicBoard.Proofs.PatternRuns

namespace LogicBoard

namespace Console
variable {b : Board}

/-- The lines with which every run begins. -/
def titleLines : List String := ["SIPO Shift Register - Cascade Example", "====================================="]

/-- The lines about a board that could be loaded. -/
def loadedLines (path : String) (d : Description) : List String :=
  ["Loaded '" ++ d.name ++ "' from " ++ path] ++ (if d.description = "" then [] else ["  " ++ d.description]) ++
    ["  Chips: " ++ toString d.chips.length, "  Voltage sources: " ++ toString (8 * d.chips.length), ""]

/-- The run ends early. No line is printed but these, and the message is logged. -/
structure Stops (console : Console) (lines : List String) (message : String) : Prop where
  exit : console.exit = 1
  output : console.output = String.join (lines.map fun line => line ++ "\n")
  error : ∃ shown, console.error = some shown ∧ InLog message shown

/-- What the program does with a file: it stops when the board cannot be built, or when the board lacks one of the two
inputs, and shows the whole pattern otherwise. Where a text is malformed, the message is given without the line and the
column of the fault. -/
structure Outcome (path : String) (content : Except ReadFailure String) (console : Console) : Prop where
  exit_eq_zero_iff : console.exit = 0 ↔ ∃ b, (Board.ofFile .standard path content).result = .ok b ∧
    "DATA" ∈ b.description.inputs ∧ "CLK" ∈ b.description.inputs
  exit_le_one : console.exit ≤ 1
  loaded : ∀ b, (Board.ofFile .standard path content).result = .ok b → ∃ text, content = .ok text ∧
    Description.ofText text = .ok b.description ∧ (Board.build .standard b.description).result = .ok b
  ofUnreadable : ∀ reason, content = .error reason → console.Stops titleLines
    ("Failed to load circuit: failed to read config file '" ++ path ++ "': " ++ reason.message)
  ofMalformed : ∀ text fault, content = .ok text → Description.ofText text = .error fault → console.Stops titleLines
    ("Failed to load circuit: failed to parse circuit description: " ++ fault.message)
  ofRefused : ∀ text d error, content = .ok text → Description.ofText text = .ok d →
    (Board.build .standard d).result = .error (.refused error) →
    console.Stops titleLines ("Failed to load circuit: " ++ error.message)
  ofOverflow : ∀ text d operation, content = .ok text → Description.ofText text = .ok d →
    (Board.build .standard d).result = .error (.overflow operation) →
    console.Stops titleLines ("Failed to load circuit: " ++ operation.message)
  ofData : ∀ b, (Board.ofFile .standard path content).result = .ok b → "DATA" ∉ b.description.inputs → console = {
    exit := 1
    output := String.join ((titleLines ++ loadedLines path b.description).map fun line => line ++ "\n")
    error := some "Simulation failed: component inputs has no pin labelled 'DATA'" }
  ofClock : ∀ b, (Board.ofFile .standard path content).result = .ok b → "DATA" ∈ b.description.inputs →
    "CLK" ∉ b.description.inputs → console = {
      exit := 1
      output := String.join ((titleLines ++ loadedLines path b.description).map fun line => line ++ "\n")
      error := some "Simulation failed: component inputs has no pin labelled 'CLK'" }
  shows : ∀ b, (Board.ofFile .standard path content).result = .ok b → "DATA" ∈ b.description.inputs →
    "CLK" ∈ b.description.inputs → ∃ data clock state byte, PatternRun b data clock state byte ∧ console = {
      exit := 0
      output := String.join ((titleLines ++ loadedLines path b.description ++
        patternLines b.description.chips byte (state 16)).map fun line => line ++ "\n")
      error := none }

section
variable {text : String}

end

section
variable {path : String} {content : Except ReadFailure String}

end

section
variable {d : Description} (built : (Board.build .standard d).result = .ok b)
include built

end

section
variable {path : String} {content : Except ReadFailure String}
  (made : (Board.ofFile .standard path content).result = .ok b)
include made

end

end Console

end LogicBoard
