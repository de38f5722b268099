import LogicBoard.Logged
import LogicBoard.Outline

namespace LogicBoard

/-- What the edge detector of a clock input waits for: the next high level, or the return to low. -/
inductive ClockPhase
  | armed
  | latched
  deriving DecidableEq

def ClockPhase.name : ClockPhase → String
  | armed => "Armed"
  | latched => "Latched"

/-- A shift register of eight bits with serial input and parallel outputs. Its first handle is the data input,
the second one the clock, and the outputs follow, most significant bit first. -/
structure ShiftRegister where
  outline : Outline
  register : BitVec 8 := 0
  phase : ClockPhase := .armed

namespace ShiftRegister

def chipName : String := "SIPO shift register"

def dumpType : UInt32 := 189

def postCount : Nat := 10

def sourceCount : Nat := 8

/-- A cleared register at a point. -/
def place (x y : Int32) : Logged ShiftRegister := do
  Logged.report (.placing chipName x y)
  return { outline := .atPoint x y }

/-- A register where the placement says. It starts cleared, whatever levels were saved. -/
def restore (p : Placement) : Logged ShiftRegister := do
  if p.dumpType ≠ dumpType then Logged.refuse (.dumpTypeMismatch dumpType p.dumpType)
  else
    Logged.report (.restoring chipName p.x p.y p.flags)
    return { outline := .ofPlacement p }

def restoreLine (line : String) : Logged ShiftRegister := do restore (← Logged.ofExcept (Placement.parse line))

def dataPin? (r : ShiftRegister) : Option PinId := r.outline.handles[0]?

def clockPin? (r : ShiftRegister) : Option PinId := r.outline.handles[1]?

/-- The output that shows a bit of the register. -/
def outputPin? (r : ShiftRegister) (bit : Nat) : Option PinId :=
  if bit ≤ 7 then r.outline.handles[9 - bit]? else none

def outputLabels : List String := ["I7", "I6", "I5", "I4", "I3", "I2", "I1", "I0"]

/-- The pins of a register that holds `register`, its outputs at the levels of its bits. -/
def pinout (register : BitVec 8) : List Pin :=
  { label := "D", position := 1, side := .west } ::
  { label := "", clock := true, position := 2, side := .west } ::
  outputLabels.zipIdx.map fun (label, k) =>
    { label, level := .ofBool (register.getMsbD k), output := true, position := k + 1, side := .north }

def setup (r : ShiftRegister) (table : PinTable) : ShiftRegister × PinTable :=
  let (outline, table) := r.outline.setup 9 3 (pinout r.register) table
  ({ r with outline }, table)

/-- Every bit moves down by one, and the data level becomes the highest one. -/
def shiftIn (register : BitVec 8) (data : Level) : BitVec 8 :=
  register >>> 1 + if data.isHigh then 128 else 0

/-- Write the bits of the register to the outputs, starting with bit `7 - k`. A word of eight bits cannot be shifted
by eight, so a ninth output is a fault. -/
def drive (register : BitVec 8) : Nat → List PinId → PinTable → Logged PinTable
  | _, [], table => return table
  | k, output :: outputs, table =>
    if k < 8 then drive register (k + 1) outputs (table.setLevel output (.ofBool (register.getMsbD k)))
    else Logged.ofChecked (.error .shiftRight)

/-- One tick. Both inputs are read first; a rising edge shifts and then drives the outputs. A register without
its ten pins does nothing. -/
def execute (r : ShiftRegister) (table : PinTable) : Logged (ShiftRegister × PinTable) :=
  match r.outline.handles with
  | dataPin :: clockPin :: outputs =>
    if outputs.length < 8 then return (r, table)
    else
      let clock := table.level clockPin
      let data := table.level dataPin
      match clock, r.phase with
      | .high, .armed => do
        let register := shiftIn r.register data
        Logged.report (.shiftIn data register)
        let table ← drive register 0 outputs table
        return ({ r with register, phase := .latched }, table)
      | .high, .latched => return (r, table)
      | .low, _ => return ({ r with phase := .armed }, table)
  | _ => return (r, table)

/-- The newest bit is the highest one, and the others have moved down by one. -/
theorem getMsbD_shiftIn_zero (register : BitVec 8) (data : Level) :
    (shiftIn register data).getMsbD 0 = data.isHigh := by
  revert register
  cases data <;> decide

theorem getMsbD_shiftIn_succ (register : BitVec 8) (data : Level) (k : Nat) (within : k < 7) :
    (shiftIn register data).getMsbD (k + 1) = register.getMsbD k := by
  have bits : ∀ register : BitVec 8, ∀ k : Fin 7,
      (shiftIn register data).getMsbD (k + 1) = register.getMsbD k := by
    cases data <;> decide +kernel
  exact bits register ⟨k, within⟩

/-- In numbers: half of the register, plus 128 for a high data level. -/
theorem toNat_shiftIn (register : BitVec 8) (data : Level) :
    (shiftIn register data).toNat = register.toNat / 2 + if data.isHigh then 128 else 0 := by
  revert register
  cases data <;> decide

end ShiftRegister

end LogicBoard
