import LogicBoard.Proofs.RegisterOutcome

namespace LogicBoard

/-- The message of a shift: the data level, and the register after it. -/
def Event.ofShift (shift : Level × BitVec 8) : Event := .shiftIn shift.1 shift.2

namespace ShiftRegister
variable {r : ShiftRegister}

/-- What a tick that reads the sample shifts in, and what the register is then. -/
def shift? (r : ShiftRegister) (sample : Sample) : Option (Level × BitVec 8) :=
  if r.Rises sample then some (sample.data, (r.next sample).register) else none

theorem drive_log (register : BitVec 8) (k : Nat) (outputs : List PinId) (table : PinTable) :
    (drive register k outputs table).log = [] := by
  induction outputs generalizing k table with
  | nil => rfl
  | cons output outputs ih =>
    rw [drive]
    split
    · exact ih _ _
    · rfl

/-- The message of a shift comes before the outputs are driven, and tells the register after the shift. -/
theorem execute_log (placed : r.Placed) (table : PinTable) :
    (r.execute table).log = ((r.shift? (r.sample table)).map Event.ofShift).toList := by
  have ten : r.outline.handles.length = 10 := placed
  have eight : 0 + r.outputs.length = 8 := by
    rw [outputs, List.length_drop]
    omega
  rw [execute_many (Nat.le_of_eq ten.symm), shift?]
  split
  · rename_i rises
    have register : (r.next (r.sample table)).register = shiftIn r.register (r.sample table).data := by
      simp only [ShiftRegister.next, rises.1, rises.2]
    have driven := drive_result (shiftIn r.register (r.sample table).data) table eight
    rw [Logged.log_bind_of_ok rfl, Logged.log_bind_of_ok driven, drive_log, register]
    rfl
  · rfl

end ShiftRegister

namespace Chip
variable {chip : Chip}

def shift? (table : PinTable) : Chip → Option (Level × BitVec 8)
  | register r => r.shift? (r.sample table)
  | device _ => none

theorem execute_log (placed : chip.Placed) (table : PinTable) :
    (chip.execute table).log = ((chip.shift? table).map Event.ofShift).toList := by
  cases chip with
  | register r =>
    have told := r.execute_log placed table
    rw [execute, Logged.log_bind_of_ok (r.execute_placed placed table), told]
    exact List.append_nil _
  | device d => rfl

theorem shift?_congr {a b : PinTable} (same : ∀ id ∈ chip.handles, a.get? id = b.get? id) :
    chip.shift? a = chip.shift? b := by
  cases chip with
  | register r => rw [shift?, shift?, sample_congr same]
  | device d => rfl

end Chip

namespace Circuit
variable {c : Circuit}

/-- Each chip tells what it has read from the table as it was at first, in the order of the chips. -/
theorem executeAll_log {chips : List Chip} (placed : ∀ chip ∈ chips, chip.Placed)
    (apart : chips.Pairwise Chip.Apart) (table : PinTable) :
    (executeAll chips table).log = (chips.filterMap (Chip.shift? table)).map Event.ofShift := by
  induction chips generalizing table with
  | nil => rfl
  | cons chip chips ih =>
    obtain ⟨first, apart⟩ := List.pairwise_cons.mp apart
    obtain ⟨here, later⟩ := List.forall_mem_cons.mp placed
    have seen : chips.filterMap (Chip.shift? (table.modifyAll (chip.writes table))) =
        chips.filterMap (Chip.shift? table) :=
      List.filterMap_congr fun other member =>
        Chip.shift?_congr fun id own => (first other member).get?_modifyAll table table own
    have rest := executeAll_result later apart (table.modifyAll (chip.writes table))
    rw [executeAll, Logged.log_bind_of_ok (Chip.execute_placed here table), Logged.log_bind_of_ok rest,
      Chip.execute_log here, ih later apart, seen, List.filterMap_cons]
    cases chip.shift? table with
    | none => exact List.append_nil _
    | some shift => exact congrArg (Event.ofShift shift :: ·) (List.append_nil _)

theorem WellFormed.step_log (wellFormed : c.WellFormed) :
    c.step.log = (c.chips.filterMap (Chip.shift? c.pins)).map Event.ofShift ++
      match c.step.result with
      | .ok next => [.ticked next.name next.ticks]
      | .error _ => [] := by
  have executed := executeAll_result wellFormed.placed wellFormed.apart c.pins
  have counted := count_result c.ticks 1
  rw [wellFormed.step_result, step, Logged.log_bind_of_ok executed, executeAll_log wellFormed.placed wellFormed.apart]
  refine congrArg (_ ++ ·) ?_
  by_cases fits : Word.fits64 (c.ticks + 1)
  · rw [if_pos fits] at counted ⊢
    rw [Logged.log_bind_of_ok counted, Logged.ofChecked]
    rfl
  · rw [if_neg fits] at counted ⊢
    rw [Logged.log_bind_of_error counted]
    rfl

end Circuit

end LogicBoard
