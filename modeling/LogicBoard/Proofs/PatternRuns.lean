import LogicBoard.Console
import LogicBoard.Proofs.BuiltBoards

namespace LogicBoard

namespace Console
variable {b : Board} {data clock : PinId}

/-- A bit of the word that is clocked in, from the least significant one on. -/
def patternBit (k : Nat) : Level := .ofBool (pattern.getLsbD k)

/-- The first bits of the pattern are clocked in. -/
def firstBits (data clock : PinId) (count : Nat) : List Operation :=
  (List.range count).map fun k => .clockIn data clock (patternBit k)

/-- The circuit of the board after the first bits of the pattern. -/
def clocked (b : Board) (data clock : PinId) (count : Nat) : Circuit :=
  (firstBits data clock count).foldl Circuit.after b.circuit

/-- The line for an edge: its number, the bit on the data pin, and every name with the eight digits of its byte. -/
def edgeText (edge : Nat) (bit : Bool) (readings : List (String × BitVec 8)) : String :=
  "  edge " ++ (if edge < 10 then " " else "") ++ toString edge ++ ": D=" ++ (if bit then "1" else "0") ++ " " ++
    String.intercalate " " (readings.map fun (name, byte) =>
      name ++ "=" ++ String.ofList ((List.range 8).map fun k => if byte.getMsbD k then '1' else '0'))

/-- The lines for the whole pattern, and one for each chip of the circuit at the end. -/
def patternLines (entries : List ChipEntry) (byte : Nat → ChipEntry → BitVec 8) (last : Circuit) : List String :=
  ["Clocking in 0xA5C3, LSB first..."] ++
    ((List.range 16).map fun k =>
      edgeText (k + 1) ((0xA5C3#16).getLsbD k) (entries.map fun entry => (entry.name, byte (k + 1) entry))) ++
    ["", "Placement lines after 32 ticks:"] ++ last.chips.map fun chip => "  " ++ chip.dump last.pins

example : edgeText 2 true [("SR0", 0xC0), ("SR1", 0)] = "  edge  2: D=1 SR0=11000000 SR1=00000000" := by
  decide +kernel

section
variable (sound : b.Sound) (fresh : b.circuit.ticks = 0)
include fresh

include sound

end

/-- The circuit and the bytes of the chips after each number of bits of the pattern. At the end there is a chip for each
entry still, in the order in which they were placed. -/
structure PatternRun (b : Board) (data clock : PinId) (state : Nat → Circuit) (byte : Nat → ChipEntry → BitVec 8) :
    Prop where
  atData : b.pin "inputs" "DATA" = .ok data
  atClock : b.pin "inputs" "CLK" = .ok clock
  states : ∀ count ≤ 16, (Circuit.performAll ((List.range count).map fun k =>
    .clockIn data clock (.ofBool ((0xA5C3#16).getLsbD k))) b.circuit).result = .ok (state count)
  bytes : ∀ count ≤ 16, ∀ entry ∈ b.description.chips,
    (b.withCircuit (state count)).outputByte? entry.name = some (byte count entry)
  ticks : (state 16).ticks = 32
  bodies : (state 16).chips.map Chip.body = b.circuit.chips.map Chip.body
  chips : (state 16).chips.length = b.description.chips.length

section
variable {d : Description} (built : (Board.build .standard d).result = .ok b)
include built

end

end Console

end LogicBoard
