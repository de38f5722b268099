import LogicBoard.Proofs.BoardBuild
import LogicBoard.Proofs.DrivenRuns

namespace LogicBoard

namespace ShiftRegister

/-- The post of a register that answers to a label. -/
def port? (label : String) : Option Nat := (pinout 0).findIdx? (Board.answers · label)

theorem port?_lt {label : String} {n : Nat} (found : port? label = some n) : n < 10 :=
  (List.findIdx?_eq_some_iff_getElem.mp found).1

/-- The first pin that answers to a label is found at the same post of every register. -/
theorem Seated.find?_answers {r : ShiftRegister} {table : PinTable} (seated : r.Seated table)
    (allocated : ∀ id ∈ r.outline.handles, id < table.size) (label : String) :
    (r.outline.handles.find? fun id => ((table.get? id).map (Board.answers · label)).getD false) =
      (port? label).bind (r.outline.handles[·]?) := by
  have faces : (r.outline.handles.map fun id => (table.get? id).map Pin.face) =
      (pinout 0).map fun pin => some pin.face := seated.map_get? allocated fun _ => rfl
  have answer : (fun id => ((table.get? id).map (Board.answers · label)).getD false) =
      (fun face : Option Pin => (face.map (Board.answers · label)).getD false) ∘
        fun id => (table.get? id).map Pin.face := by
    funext id
    cases found : table.get? id <;> simp only [Function.comp_apply, found] <;> rfl
  rw [List.find?_eq_bind_findIdx?_getElem?, answer, ← List.findIdx?_map, faces, List.findIdx?_map]
  rfl

end ShiftRegister

namespace Board

/-- What can be done with a board, with its pins given by references. -/
inductive Command
  | setInput (pin : PinReference) (level : Level)
  | clockIn (data clock : PinReference) (bit : Level)
  | step
  | run (ticks : Nat)

/-- The operation on the circuit that a command stands for, if its references stand for pins. -/
def operation (b : Board) : Command → Except BoardError Operation
  | .setInput pin level => do return .setInput (← b.resolve pin) level
  | .clockIn data clock bit => do return .clockIn (← b.resolve data) (← b.resolve clock) bit
  | .step => return .step
  | .run ticks => return .run ticks

def obey (b : Board) (command : Command) : Logged Board := do
  let operation ← Logged.ofExcept (b.operation command)
  return { b with circuit := ← b.circuit.perform operation }

def obeyAll : List Command → Board → Logged Board
  | [], b => return b
  | command :: commands, b => do obeyAll commands (← b.obey command)

def withCircuit (b : Board) (circuit : Circuit) : Board := { b with circuit }

/-- The pin at a post of the chip with a name. -/
def post? (b : Board) (name : String) (n : Nat) : Option PinId := (b.chipId? name).bind (b.circuit.post? · n)

/-- The register with a name. -/
def register? (b : Board) (name : String) : Option ShiftRegister := (b.chipId? name).bind b.circuit.register?

/-- A board of registers in working order: every name stands for a chip of its own. -/
structure Sound (b : Board) : Prop where
  wellFormed : b.circuit.WellFormed
  registers : b.circuit.AllRegisters
  seats : b.circuit.Seats
  counted : b.circuit.hasRoom 0 0
  indexed : ∀ name i, b.chipId? name = some i → i < b.circuit.chips.length
  distinct : ∀ name other i, b.chipId? name = some i → b.chipId? other = some i → name = other

section
variable {b : Board} {command : Command} {operation : Operation}

theorem drives_of_operation (stands : b.operation command = .ok operation) : operation.Drives := by
  cases command with
  | setInput pin level =>
    cases found : b.resolve pin <;> simp only [Board.operation, found] at stands <;> cases stands
    trivial
  | clockIn data clock bit =>
    cases atData : b.resolve data <;> simp only [Board.operation, atData] at stands
    · cases stands
    · cases atClock : b.resolve clock <;> simp only [atClock] at stands <;> cases stands
      trivial
  | step | run =>
    cases stands
    trivial

theorem post?_eq {name : String} {i : Nat} {r : ShiftRegister} (named : b.chipId? name = some i)
    (atChip : b.circuit.chips[i]? = some (.register r)) : b.post? name = fun n => r.outline.handles[n]? := by
  funext n
  rw [Board.post?, named, Option.bind_some, Circuit.post?, atChip, Option.bind_some]
  rfl

namespace Sound

theorem chip_at (sound : b.Sound) {name : String} {i : Nat} (named : b.chipId? name = some i) :
    ∃ r, b.circuit.chips[i]? = some (.register r) ∧ b.register? name = some r ∧ b.chip? name = some (.register r) := by
  have within := sound.indexed name i named
  obtain ⟨r, same⟩ := sound.registers _ (List.getElem_mem within)
  have atChip : b.circuit.chips[i]? = some (.register r) := by rw [List.getElem?_eq_getElem within, same]
  refine ⟨r, atChip, ?_, ?_⟩
  · rw [Board.register?, named, Option.bind_some, Circuit.register?_eq_some_iff.mpr atChip]
  · rw [chip?, named, Option.bind_some, atChip]

/-- What a reference stands for is decided by its label alone, once the inputs or the chip have been found. -/
theorem pin_eq (sound : b.Sound) (component label : String) : b.pin component label =
    if component = inputsName then
      (b.circuit.input? label).elim (.error (.unknownPinLabel component label)) .ok
    else if (b.chipId? component).isNone then .error (.unknownComponent component)
    else
      ((ShiftRegister.port? label).bind (b.post? component)).elim (.error (.unknownPinLabel component label)) .ok := by
  rw [Board.pin]
  by_cases inputs : component = inputsName
  · rw [if_pos inputs, if_pos inputs]
    cases b.circuit.input? label <;> rfl
  · rw [if_neg inputs, if_neg inputs]
    cases named : b.chipId? component with
    | none => rw [chip?, named]; rfl
    | some i =>
      obtain ⟨r, atChip, _, atName⟩ := sound.chip_at named
      have member := List.mem_of_getElem? atChip
      have found := (sound.seats r member).find?_answers (fun id own => sound.wellFormed.allocated member own) label
      rw [atName, post?_eq named atChip, ← found]
      simp only [Chip.handles, Chip.outline]
      cases List.find? (fun id => ((b.circuit.pins.get? id).map (answers · label)).getD false) r.outline.handles <;> rfl

theorem exists_post (sound : b.Sound) {name : String} {i n : Nat} (named : b.chipId? name = some i) (within : n < 10) :
    ∃ id, b.post? name n = some id := by
  obtain ⟨r, atChip, _⟩ := sound.chip_at named
  rw [post?_eq named atChip]
  exact (show r.Placed from sound.wellFormed.placed _ (List.mem_of_getElem? atChip)).handle within

theorem withCircuit_after (sound : b.Sound) (drives : operation.Drives)
    (room : b.circuit.hasRoom operation.ticks operation.sources) :
    (b.withCircuit (b.circuit.after operation)).Sound where
  wellFormed := sound.wellFormed.after operation
  registers := sound.registers.after drives
  seats := sound.seats.after sound.wellFormed operation
  counted := (b.circuit.hasRoom_after operation 0 0).trans room
  indexed := by
    intro name i named
    have length := congrArg List.length (Circuit.after_bodies (c := b.circuit) drives)
    rw [List.length_map, List.length_map] at length
    exact length ▸ sound.indexed name i named
  distinct := sound.distinct

/-- Driving a board changes nothing about what references stand for. -/
theorem resolve_after (sound : b.Sound) (drives : operation.Drives)
    (room : b.circuit.hasRoom operation.ticks operation.sources) :
    (b.withCircuit (b.circuit.after operation)).resolve = b.resolve := by
  have inputs := sound.registers.input?_after drives
  have posts : (b.withCircuit (b.circuit.after operation)).post? = b.post? := by
    funext name n
    rw [Board.post?, Board.post?, withCircuit, Circuit.after_post? drives]
    rfl
  funext reference
  rw [resolve, resolve, sound.pin_eq, (sound.withCircuit_after drives room).pin_eq, posts, withCircuit, inputs]
  rfl

/-- A command is refused for its references, or it does what its operation makes of the circuit while the count of
ticks lasts. -/
theorem obey_result (sound : b.Sound) (command : Command) :
    (b.obey command).result =
      match b.operation command with
      | .error error => .error (.refused error)
      | .ok operation =>
        if b.circuit.hasRoom operation.ticks operation.sources then .ok (b.withCircuit (b.circuit.after operation))
        else .error (.overflow .add) := by
  rw [obey]
  cases stands : b.operation command with
  | error error => exact Logged.result_bind_of_error (Logged.result_ofExcept_of_error rfl)
  | ok operation =>
    have performed := sound.wellFormed.perform_result sound.counted operation
    rw [Logged.result_bind_of_ok (Logged.result_ofExcept_of_ok rfl)]
    by_cases room : b.circuit.hasRoom operation.ticks operation.sources
    · simp only [room]
      exact Logged.result_bind_of_ok (performed.trans (if_pos room))
    · simp only [room]
      exact Logged.result_bind_of_error (performed.trans (if_neg room))

end Sound

end

end Board

end LogicBoard
