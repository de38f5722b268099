import Mathlib.Algebra.Ring.Nat
import Mathlib.Logic.Function.Iterate
import LogicBoard.Proofs.CircuitLayout

namespace LogicBoard

/-- How many ticks the operation takes. -/
def Operation.ticks : Operation → Nat
  | step => 1
  | run ticks => ticks
  | clockIn .. => 2
  | _ => 0

/-- How many voltage sources the operation asks for. -/
def Operation.sources : Operation → Nat
  | addChip chip => chip.sourceCount
  | _ => 0

@[simp] theorem Chip.setup_sourceCount (chip : Chip) (table : PinTable) :
    (chip.setup table).1.sourceCount = chip.sourceCount := by
  cases chip <;> rfl

namespace Circuit

/-- What an operation makes of a circuit while the counters last. Runs and clock cycles are series of ticks, and a
connection to or from a pin that is not allocated changes nothing. -/
def after (c : Circuit) : Operation → Circuit
  | .addChip chip => c.withChip chip
  | .addInput label => c.addInput label
  | .connect source target =>
    if source < c.pins.size ∧ target < c.pins.size then c.withWire ⟨source, target⟩ else c
  | .setInput id level => c.setInput id level
  | .step => c.ticked
  | .run ticks => ticked^[ticks] c
  | .clockIn data clock bit => (((c.setInput data bit).setInput clock .high).ticked.setInput clock .low).ticked

/-- Whether both counters can count on by so much. -/
def hasRoom (c : Circuit) (ticks sources : Nat) : Bool :=
  Word.fits64 (c.ticks + ticks) && Word.fits64 (c.sources + sources)

variable {c : Circuit}

theorem after_connect (c : Circuit) (source target : PinId) : c.after (.connect source target) =
    if source < c.pins.size ∧ target < c.pins.size then c.withWire ⟨source, target⟩ else c := rfl

theorem hasRoom_iff {ticks sources : Nat} :
    c.hasRoom ticks sources ↔ Word.fits64 (c.ticks + ticks) ∧ Word.fits64 (c.sources + sources) :=
  Bool.and_eq_true_iff

/-- Room for more is room for less. -/
theorem hasRoom_of_le {ticks moreTicks sources moreSources : Nat} (room : c.hasRoom moreTicks moreSources)
    (fewer : ticks ≤ moreTicks) (less : sources ≤ moreSources) : c.hasRoom ticks sources := by
  obtain ⟨atTicks, atSources⟩ := hasRoom_iff.mp room
  exact hasRoom_iff.mpr ⟨Word.fits64_of_le (by omega) atTicks, Word.fits64_of_le (by omega) atSources⟩

theorem iterate_ticked_ticks (c : Circuit) (ticks : Nat) : (ticked^[ticks] c).ticks = c.ticks + ticks := by
  induction ticks generalizing c with
  | zero => rfl
  | succ ticks ih =>
    rw [Function.iterate_succ_apply, ih]
    exact Nat.add_right_comm c.ticks 1 ticks

theorem iterate_ticked_sources (c : Circuit) (ticks : Nat) : (ticked^[ticks] c).sources = c.sources := by
  induction ticks generalizing c with
  | zero => rfl
  | succ ticks ih => exact ih c.ticked

theorem after_ticks (c : Circuit) (operation : Operation) : (c.after operation).ticks = c.ticks + operation.ticks := by
  cases operation with
  | addChip | addInput | setInput | step | clockIn => rfl
  | connect source target =>
    rw [after_connect]
    split <;> rfl
  | run ticks => exact c.iterate_ticked_ticks ticks

theorem after_sources (c : Circuit) (operation : Operation) :
    (c.after operation).sources = c.sources + operation.sources := by
  cases operation with
  | addInput | setInput | step | clockIn => rfl
  | addChip chip => exact congrArg (c.sources + ·) (chip.setup_sourceCount c.pins)
  | connect source target =>
    rw [after_connect]
    split <;> rfl
  | run ticks => exact c.iterate_ticked_sources ticks

theorem hasRoom_after (c : Circuit) (operation : Operation) (ticks sources : Nat) :
    (c.after operation).hasRoom ticks sources = c.hasRoom (operation.ticks + ticks) (operation.sources + sources) := by
  rw [hasRoom, hasRoom, after_ticks, after_sources, Nat.add_assoc, Nat.add_assoc]

namespace WellFormed

theorem iterate_ticked (wellFormed : c.WellFormed) (ticks : Nat) : (Circuit.ticked^[ticks] c).WellFormed := by
  induction ticks generalizing c with
  | zero => exact wellFormed
  | succ ticks ih => exact ih wellFormed.ticked

theorem after (wellFormed : c.WellFormed) (operation : Operation) : (c.after operation).WellFormed := by
  cases operation with
  | addChip chip => exact wellFormed.withChip chip
  | addInput label => exact wellFormed.addInput label
  | connect source target =>
    rw [after_connect]
    split
    · rename_i allocated
      exact wellFormed.withWire allocated.1 allocated.2
    · exact wellFormed
  | setInput id level => exact wellFormed.setInput id level
  | step => exact wellFormed.ticked
  | run ticks => exact wellFormed.iterate_ticked ticks
  | clockIn data clock bit =>
    exact (((wellFormed.setInput data bit).setInput clock .high).ticked.setInput clock .low).ticked

theorem foldl_after (wellFormed : c.WellFormed) (operations : List Operation) :
    (operations.foldl Circuit.after c).WellFormed := by
  induction operations generalizing c with
  | nil => exact wellFormed
  | cons operation operations ih => exact ih (wellFormed.after operation)

theorem run_result (wellFormed : c.WellFormed) (ticks : Nat) (fits : Word.fits64 c.ticks) :
    (Circuit.run ticks c).result =
      if Word.fits64 (c.ticks + ticks) then .ok (Circuit.ticked^[ticks] c) else .error (.overflow .add) := by
  induction ticks generalizing c with
  | zero => exact (if_pos fits).symm
  | succ ticks ih =>
    have stepped := wellFormed.step_result
    have count : c.ticks + (ticks + 1) = c.ticked.ticks + ticks := Nat.add_left_comm c.ticks ticks 1 ▸ Nat.add_comm ..
    rw [Circuit.run]
    by_cases once : Word.fits64 (c.ticks + 1)
    · rw [Logged.result_bind_of_ok (stepped.trans (if_pos once)), ih wellFormed.ticked once, count,
        Function.iterate_succ_apply]
    · have exceeded : ¬Word.fits64 (c.ticks + (ticks + 1)) := fun all => once (Word.fits64_of_le (by omega) all)
      rw [Logged.result_bind_of_error (stepped.trans (if_neg once)), if_neg exceeded]

theorem clockIn_result (wellFormed : c.WellFormed) (data clock : PinId) (bit : Level) :
    (c.clockIn data clock bit).result =
      if Word.fits64 (c.ticks + 2) then .ok (c.after (.clockIn data clock bit)) else .error (.overflow .add) := by
  have high := (wellFormed.setInput data bit).setInput clock .high
  have stepped := high.step_result
  rw [Circuit.clockIn]
  by_cases once : Word.fits64 (c.ticks + 1)
  · rw [Logged.result_bind_of_ok (stepped.trans (if_pos once))]
    exact (high.ticked.setInput clock .low).step_result
  · have exceeded : ¬Word.fits64 (c.ticks + 2) := fun both => once (Word.fits64_of_le (by omega) both)
    rw [Logged.result_bind_of_error (stepped.trans (if_neg once)), if_neg exceeded]

/-- An operation on a well-formed circuit comes to a result unless a counter runs out. -/
theorem perform_result (wellFormed : c.WellFormed) (counted : c.hasRoom 0 0) (operation : Operation) :
    (c.perform operation).result =
      if c.hasRoom operation.ticks operation.sources then .ok (c.after operation) else .error (.overflow .add) := by
  obtain ⟨ticks, sources⟩ := hasRoom_iff.mp counted
  rw [Nat.add_zero] at ticks sources
  cases operation with
  | addInput | setInput => exact (if_pos counted).symm
  | addChip chip =>
    have added := c.addChip_result chip
    rw [Chip.setup_sourceCount] at added
    simpa [perform, hasRoom, Operation.ticks, Operation.sources, Circuit.after, ticks] using added
  | connect source target =>
    have attempt := c.connect_result source target
    refine Eq.trans ?_ (if_pos counted).symm
    rw [perform, Logged.orKeep, after_connect]
    by_cases atSource : source < c.pins.size
    · by_cases atTarget : target < c.pins.size
      · rw [if_pos atSource, if_pos atTarget] at attempt
        rw [attempt, if_pos ⟨atSource, atTarget⟩]
        exact attempt
      · rw [if_pos atSource, if_neg atTarget] at attempt
        rw [attempt, if_neg fun both => atTarget both.2]
    · rw [if_neg atSource] at attempt
      rw [attempt, if_neg fun both => atSource both.1]
  | step =>
    simpa [perform, hasRoom, Operation.ticks, Operation.sources, Circuit.after, sources] using wellFormed.step_result
  | run count =>
    have ran := wellFormed.run_result count ticks
    simpa [perform, hasRoom, Operation.ticks, Operation.sources, Circuit.after, sources] using ran
  | clockIn data clock bit =>
    have clocked := wellFormed.clockIn_result data clock bit
    simpa [perform, hasRoom, Operation.ticks, Operation.sources, sources] using clocked

/-- The same for any number of operations: they come to a result exactly when the counters have room for all of
their ticks and voltage sources. -/
theorem performAll_result (wellFormed : c.WellFormed) (counted : c.hasRoom 0 0) (operations : List Operation) :
    (performAll operations c).result =
      if c.hasRoom (operations.map Operation.ticks).sum (operations.map Operation.sources).sum then
        .ok (operations.foldl Circuit.after c)
      else .error (.overflow .add) := by
  induction operations generalizing c with
  | nil => exact (if_pos counted).symm
  | cons operation operations ih =>
    have performed := wellFormed.perform_result counted operation
    rw [performAll, List.map_cons, List.map_cons, List.sum_cons, List.sum_cons, List.foldl_cons]
    by_cases room : c.hasRoom operation.ticks operation.sources
    · have counting := (c.hasRoom_after operation 0 0).trans room
      rw [Logged.result_bind_of_ok (performed.trans (if_pos room)), ih (wellFormed.after operation) counting,
        hasRoom_after]
    · rw [Logged.result_bind_of_error (performed.trans (if_neg room)), if_neg]
      exact fun all => room (hasRoom_of_le all (Nat.le_add_right _ _) (Nat.le_add_right _ _))

/-- Whatever a run of operations comes to is what the operations make of the circuit, and its counters still fit. -/
theorem eq_foldl_after (wellFormed : c.WellFormed) (counted : c.hasRoom 0 0) {operations : List Operation}
    {d : Circuit} (run : (performAll operations c).result = .ok d) :
    d = operations.foldl Circuit.after c ∧ d.hasRoom 0 0 := by
  induction operations generalizing c with
  | nil =>
    cases run
    exact ⟨rfl, counted⟩
  | cons operation operations ih =>
    obtain ⟨next, performed, rest⟩ := performAll_cons_eq_ok_iff.mp run
    rw [wellFormed.perform_result counted operation] at performed
    split at performed
    · rename_i room
      cases performed
      exact ih (wellFormed.after operation) ((c.hasRoom_after operation 0 0).trans room) rest
    · cases performed

/-- So every circuit made by operations is well-formed, and its counters fit. -/
theorem of_performAll {name : String} {operations : List Operation}
    (built : (performAll operations { name }).result = .ok c) : c.WellFormed ∧ c.hasRoom 0 0 := by
  obtain ⟨rfl, counted⟩ := (WellFormed.new name).eq_foldl_after rfl built
  exact ⟨(WellFormed.new name).foldl_after operations, counted⟩

end WellFormed

end Circuit

end LogicBoard
