import LogicBoard.Proofs.CircuitIdentity
import LogicBoard.Proofs.RegisterPosts

namespace LogicBoard

/-- The operation drives a circuit as it is and does not build on it. -/
def Operation.Drives : Operation → Prop
  | addChip _ | addInput _ | connect _ _ => False
  | setInput _ _ | step | run _ | clockIn _ _ _ => True

theorem Operation.Drives.sources {operation : Operation} (drives : operation.Drives) : operation.sources = 0 := by
  cases operation with
  | addChip | addInput | connect => exact drives.elim
  | setInput | step | run | clockIn => rfl

namespace Circuit
variable {c : Circuit} {operation : Operation} {operations : List Operation}

/-- Driving a circuit is a series of inputs set and of ticks, so whatever these keep is kept. -/
theorem after_of_drives (kept : Circuit → Prop) (drives : operation.Drives)
    (setInput : ∀ c id level, kept c → kept (c.setInput id level)) (ticked : ∀ c, kept c → kept c.ticked)
    (start : kept c) : kept (c.after operation) := by
  cases operation with
  | addChip | addInput | connect => exact drives.elim
  | setInput id level => exact setInput c id level start
  | step => exact ticked c start
  | run ticks =>
    clear drives
    rw [after]
    induction ticks generalizing c with
    | zero => exact start
    | succ ticks ih => exact ih (ticked c start)
  | clockIn data clock bit =>
    have first := ticked _ (setInput _ clock .high (setInput c data bit start))
    exact ticked _ (setInput _ clock .low first)

theorem after_post? (drives : operation.Drives) : (c.after operation).post? = c.post? :=
  after_of_drives (fun d => d.post? = c.post?) drives (fun _ _ _ same => same)
    (fun d same => d.ticked_post?.trans same) rfl

/-- So it is through any number of such operations. -/
theorem foldl_after_of_drives (kept : Circuit → Prop) (drives : ∀ operation ∈ operations, operation.Drives)
    (setInput : ∀ c id level, kept c → kept (c.setInput id level)) (ticked : ∀ c, kept c → kept c.ticked)
    (start : kept c) : kept (operations.foldl after c) := by
  induction operations generalizing c with
  | nil => exact start
  | cons operation operations ih =>
    obtain ⟨here, later⟩ := List.forall_mem_cons.mp drives
    exact ih later (after_of_drives kept here setInput ticked start)

theorem foldl_after_post? (drives : ∀ operation ∈ operations, operation.Drives) :
    (operations.foldl after c).post? = c.post? :=
  foldl_after_of_drives (fun d => d.post? = c.post?) drives (fun _ _ _ same => same)
    (fun d same => d.ticked_post?.trans same) rfl

/-- Driving asks for no voltage source, so that nothing but the count of ticks can run out. -/
theorem WellFormed.performAll_driven (wellFormed : c.WellFormed) (counted : c.hasRoom 0 0)
    (drives : ∀ operation ∈ operations, operation.Drives) :
    (performAll operations c).result =
      if Word.fits64 (c.ticks + (operations.map Operation.ticks).sum) then .ok (operations.foldl Circuit.after c)
      else .error (.overflow .add) := by
  have sources : (operations.map Operation.sources).sum = 0 := by
    refine List.sum_eq_zero_iff_forall_eq_nat.mpr fun count member => ?_
    obtain ⟨operation, among, rfl⟩ := List.mem_map.mp member
    exact (drives operation among).sources
  rw [wellFormed.performAll_result counted, sources, hasRoom, (hasRoom_iff.mp counted).2, Bool.and_true]

theorem after_inputs (drives : operation.Drives) : (c.after operation).inputs = c.inputs :=
  after_of_drives (fun d => d.inputs = c.inputs) drives (fun _ _ _ same => same) (fun _ same => same) rfl

theorem size_setInput (c : Circuit) (id : PinId) (level : Level) : (c.setInput id level).pins.size = c.pins.size :=
  (PinTable.size_settle _ _).trans (c.pins.size_setLevel id level)

theorem size_ticked (c : Circuit) : c.ticked.pins.size = c.pins.size :=
  (PinTable.size_settle _ _).trans (c.pins.size_modifyAll _)

theorem after_size (drives : operation.Drives) : (c.after operation).pins.size = c.pins.size :=
  after_of_drives (fun d => d.pins.size = c.pins.size) drives
    (fun d id level same => (d.size_setInput id level).trans same) (fun d same => d.size_ticked.trans same) rfl

theorem AllRegisters.after (registers : c.AllRegisters) (drives : operation.Drives) :
    (c.after operation).AllRegisters :=
  after_of_drives AllRegisters drives (fun _ _ _ same => same) (fun _ same => AllRegisters.ticked same) registers

theorem AllRegisters.after_of_added (registers : c.AllRegisters) {operation : Operation}
    (added : ∀ chip, operation = .addChip chip → ∃ r, chip = .register r) : (c.after operation).AllRegisters := by
  cases operation with
  | addChip chip =>
    obtain ⟨r, rfl⟩ := added chip rfl
    intro other member
    rcases List.mem_append.mp member with old | new
    · exact registers other old
    · exact ⟨_, List.mem_singleton.mp new⟩
  | addInput label => exact registers
  | connect source target =>
    rw [after_connect]
    split <;> exact registers
  | setInput | step | run | clockIn => exact registers.after trivial

theorem AllRegisters.foldl_after (registers : c.AllRegisters) {operations : List Operation}
    (added : ∀ chip, .addChip chip ∈ operations → ∃ r, chip = .register r) :
    (operations.foldl Circuit.after c).AllRegisters := by
  induction operations generalizing c with
  | nil => exact registers
  | cons operation operations ih =>
    have here := registers.after_of_added fun chip same => added chip (same ▸ List.mem_cons_self)
    exact ih here fun chip member => added chip (List.mem_cons_of_mem _ member)

theorem after_bodies (drives : operation.Drives) :
    (c.after operation).chips.map Chip.body = c.chips.map Chip.body := by
  rcases c.after_body operation with same | ⟨chip, rfl⟩
  · exact same
  · exact drives.elim

/-- No register touches anything but levels. -/
theorem AllRegisters.face_after (registers : c.AllRegisters) (drives : operation.Drives) (id : PinId) :
    ((c.after operation).pins.get? id).map Pin.face = (c.pins.get? id).map Pin.face := by
  have grown : c.Extends Pin.face (c.after operation) := Extends.after (fun _ _ => rfl) c operation
  refine grown.view_eq (after_size drives) fun d member => ?_
  obtain ⟨r, same⟩ := registers.after drives _ member
  cases same

theorem AllRegisters.input?_after (registers : c.AllRegisters) (drives : operation.Drives) :
    (c.after operation).input? = c.input? := by
  funext label
  have labels (id : PinId) : ((c.after operation).pins.get? id).map Pin.label = (c.pins.get? id).map Pin.label := by
    have face := congrArg (Option.map Pin.label) (registers.face_after drives id)
    rwa [Option.map_map, Option.map_map] at face
  rw [input?, input?, after_inputs drives]
  simp only [labels]

end Circuit

end LogicBoard
