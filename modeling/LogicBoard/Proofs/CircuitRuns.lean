import LogicBoard.Circuit

namespace LogicBoard

inductive Operation
  | addChip (chip : Chip)
  | addInput (label : String)
  | connect (source target : PinId)
  | setInput (id : PinId) (level : Level)
  | step
  | run (ticks : Nat)
  | clockIn (data clock : PinId) (bit : Level)

/-- The pins that the operation drives from outside. -/
def Operation.driven : Operation → List PinId
  | setInput id _ => [id]
  | clockIn data clock _ => [data, clock]
  | _ => []

/-- Go on with `value` after a refusal. A fault stays one. -/
def Logged.orKeep {α : Type} (attempt : Logged α) (value : α) : Logged α :=
  match attempt.result with
  | .error (.refused _) => ⟨attempt.log, .ok value⟩
  | _ => attempt

/-- Whether the attempt comes to a value that passes the check. -/
def Logged.passes {α : Type} (attempt : Logged α) (check : α → Bool) : Bool :=
  match attempt.result with
  | .ok value => check value
  | .error _ => false

theorem Logged.passes_iff {α : Type} {attempt : Logged α} {check : α → Bool} :
    attempt.passes check = true ↔ ∃ value, attempt.result = .ok value ∧ check value = true := by
  unfold passes
  cases attempt.result <;> simp

namespace Circuit

/-- Perform one operation. A refused connection leaves the circuit as it was. -/
def perform (c : Circuit) : Operation → Logged Circuit
  | .addChip chip => c.addChip chip
  | .addInput label => return c.addInput label
  | .connect source target => (c.connect source target).orKeep c
  | .setInput id level => return c.setInput id level
  | .step => c.step
  | .run ticks => run ticks c
  | .clockIn data clock bit => c.clockIn data clock bit

def performAll : List Operation → Circuit → Logged Circuit
  | [], c => return c
  | operation :: operations, c => do performAll operations (← c.perform operation)

def startsOfRun : Nat → Circuit → List Circuit
  | 0, _ => []
  | ticks + 1, c =>
    match c.step.result with
    | .ok next => startsOfRun ticks next ++ [c]
    | .error _ => [c]

/-- The circuits at the starts of the steps that an operation takes, latest first. -/
def startsOf (c : Circuit) : Operation → List Circuit
  | .step => [c]
  | .run ticks => startsOfRun ticks c
  | .clockIn data clock bit =>
    let first := (c.setInput data bit).setInput clock .high
    match first.step.result with
    | .ok second => [second.setInput clock .low, first]
    | .error _ => [first]
  | _ => []

/-- The circuits at the starts of all steps of a run, latest first. -/
def starts : List Operation → Circuit → List Circuit
  | [], _ => []
  | operation :: operations, c =>
    match (c.perform operation).result with
    | .ok next => starts operations next ++ c.startsOf operation
    | .error _ => c.startsOf operation

theorem performAll_cons_eq_ok_iff {operation : Operation} {operations : List Operation} {c after : Circuit} :
    (performAll (operation :: operations) c).result = .ok after ↔
      ∃ next, (c.perform operation).result = .ok next ∧ (performAll operations next).result = .ok after :=
  Logged.result_bind_eq_ok_iff

theorem performAll_append (first second : List Operation) (c : Circuit) :
    performAll (first ++ second) c = (performAll first c >>= performAll second) := by
  induction first generalizing c with
  | nil => exact (pure_bind c _).symm
  | cons operation first ih =>
    rw [List.cons_append, performAll, performAll, bind_assoc]
    exact congrArg (c.perform operation >>= ·) (funext ih)

/-- Circuits on their way from an empty one, by admitted chips and by driving the settable pins only. With each circuit
come the circuits at the starts of its steps so far, latest first. A run and a clock cycle are series of these moves. -/
inductive Reach (admitted : Chip → Prop) (settable : PinId → Prop) : Circuit → List Circuit → Prop
  | new (name : String) : Reach admitted settable { name } []
  | addChip {c next : Circuit} {starts : List Circuit} {chip : Chip} :
      Reach admitted settable c starts → admitted chip → (c.addChip chip).result = .ok next →
      Reach admitted settable next starts
  | addInput {c : Circuit} {starts : List Circuit} (label : String) :
      Reach admitted settable c starts → Reach admitted settable (c.addInput label) starts
  | connect {c next : Circuit} {starts : List Circuit} {source target : PinId} :
      Reach admitted settable c starts → (c.connect source target).result = .ok next →
      Reach admitted settable next starts
  | setInput {c : Circuit} {starts : List Circuit} {id : PinId} (level : Level) :
      Reach admitted settable c starts → settable id → Reach admitted settable (c.setInput id level) starts
  | step {c next : Circuit} {starts : List Circuit} :
      Reach admitted settable c starts → c.step.result = .ok next → Reach admitted settable next (c :: starts)

section
variable {admitted : Chip → Prop} {settable : PinId → Prop} {c after : Circuit} {past : List Circuit}

theorem Reach.run {ticks : Nat} (reach : Reach admitted settable c past)
    (run : (Circuit.run ticks c).result = .ok after) :
    Reach admitted settable after (startsOfRun ticks c ++ past) := by
  induction ticks generalizing c past with
  | zero =>
    cases run
    exact reach
  | succ ticks ih =>
    obtain ⟨next, stepped, rest⟩ := Logged.result_bind_eq_ok_iff.mp run
    rw [startsOfRun, stepped, List.append_assoc]
    exact ih (reach.step stepped) rest

theorem Reach.clockIn {data clock : PinId} {bit : Level} (reach : Reach admitted settable c past)
    (atData : settable data) (atClock : settable clock) (run : (c.clockIn data clock bit).result = .ok after) :
    Reach admitted settable after (c.startsOf (.clockIn data clock bit) ++ past) := by
  obtain ⟨second, stepped, rest⟩ := Logged.result_bind_eq_ok_iff.mp run
  have first := (reach.setInput bit atData).setInput .high atClock
  rw [startsOf, stepped]
  exact ((first.step stepped).setInput .low atClock).step rest

theorem Reach.perform {operation : Operation} (reach : Reach admitted settable c past)
    (fits : ∀ chip, operation = .addChip chip → admitted chip) (sets : ∀ id ∈ operation.driven, settable id)
    (run : (c.perform operation).result = .ok after) :
    Reach admitted settable after (c.startsOf operation ++ past) := by
  cases operation with
  | addChip chip => exact reach.addChip (fits chip rfl) run
  | addInput label =>
    cases run
    exact reach.addInput label
  | connect source target =>
    cases attempt : (c.connect source target).result with
    | ok next =>
      simp only [Circuit.perform, Logged.orKeep, attempt] at run
      cases run
      exact reach.connect attempt
    | error failure =>
      cases failure with
      | refused error =>
        simp only [Circuit.perform, Logged.orKeep, attempt] at run
        cases run
        exact reach
      | overflow operation =>
        simp only [Circuit.perform, Logged.orKeep, attempt] at run
        cases run
  | setInput id level =>
    cases run
    exact reach.setInput level (sets id (by simp [Operation.driven]))
  | step => exact reach.step run
  | run ticks => exact reach.run run
  | clockIn data clock bit =>
    exact reach.clockIn (sets data (by simp [Operation.driven])) (sets clock (by simp [Operation.driven])) run

/-- Whatever operations lead to is reached, with the starts of their steps. -/
theorem Reach.performAll {operations : List Operation} (reach : Reach admitted settable c past)
    (fits : ∀ chip, .addChip chip ∈ operations → admitted chip)
    (sets : ∀ operation ∈ operations, ∀ id ∈ operation.driven, settable id)
    (run : (Circuit.performAll operations c).result = .ok after) :
    Reach admitted settable after (starts operations c ++ past) := by
  induction operations generalizing c past with
  | nil =>
    cases run
    exact reach
  | cons operation operations ih =>
    obtain ⟨next, performed, rest⟩ := performAll_cons_eq_ok_iff.mp run
    have now := reach.perform (fun chip same => fits chip (same ▸ List.mem_cons_self))
      (sets operation List.mem_cons_self) performed
    rw [starts, performed, List.append_assoc]
    exact ih now (fun chip member => fits chip (List.mem_cons_of_mem _ member))
      (fun later member => sets later (List.mem_cons_of_mem _ member)) rest

/-- Circuits made by operations on an empty one are reached. -/
theorem Reach.of_performAll {name : String} {operations : List Operation}
    (fits : ∀ chip, .addChip chip ∈ operations → admitted chip)
    (built : (Circuit.performAll operations { name }).result = .ok c) :
    Reach admitted (fun _ => True) c (starts operations { name }) := by
  have reach := (Reach.new name).performAll fits (fun _ _ _ _ => trivial) built
  rwa [List.append_nil] at reach

end

end Circuit

end LogicBoard
