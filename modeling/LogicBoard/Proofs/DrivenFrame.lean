import LogicBoard.Proofs.SourceNumbers

namespace LogicBoard

namespace Pin

/-- What stays of a pin while its level changes. -/
def fixed (pin : Pin) : Pin := pin.withLevel .low

/-- What a chip has to leave of a pin of its own: all of it, but for the level of an output. -/
def given (pin : Pin) : Pin := if pin.output then pin.fixed else pin

theorem fixed_given (pin : Pin) : pin.given.fixed = pin.fixed := by
  unfold given
  split <;> rfl

theorem eq_of_given {pin after : Pin} (input : pin.output = false) (same : after.given = pin.given) : after = pin := by
  have whole : pin.given = pin := if_neg (by simp [input])
  rw [whole] at same
  unfold given at same
  split at same
  · rename_i output
    rw [← same] at input
    exact absurd output (ne_true_of_eq_false input)
  · exact same

end Pin

namespace ShiftRegister
variable {r : ShiftRegister} {table : PinTable}

/-- The pins with an output flag are those behind the clock input. -/
theorem Seated.outputs_eq (seated : r.Seated table) (allocated : ∀ id ∈ r.outline.handles, id < table.size) :
    r.outline.outputs table = r.outputs := by
  have flags : (r.outline.handles.map fun id => (table.get? id).map Pin.output) =
      List.replicate 2 (some false) ++ List.replicate 8 (some true) := seated.map_get? allocated fun _ => rfl
  have inputs : ∀ id ∈ r.outline.handles.take 2, (table.get? id).map Pin.output = some false := by
    intro id member
    have flag := List.mem_map_of_mem (f := fun id => (table.get? id).map Pin.output) member
    rw [List.map_take, flags, List.take_left' List.length_replicate] at flag
    exact List.eq_of_mem_replicate flag
  have outputs : ∀ id ∈ r.outputs, (table.get? id).map Pin.output = some true := by
    intro id member
    have flag := List.mem_map_of_mem (f := fun id => (table.get? id).map Pin.output) member
    rw [ShiftRegister.outputs, List.map_drop, flags, List.drop_left' List.length_replicate] at flag
    exact List.eq_of_mem_replicate flag
  have split : r.outline.handles = r.outline.handles.take 2 ++ r.outputs := (List.take_append_drop 2 _).symm
  rw [Outline.outputs, split, List.filter_append, List.filter_eq_nil_iff.mpr, List.filter_eq_self.mpr,
    List.nil_append]
  · intro id member
    rw [outputs id member]
    rfl
  · intro id member
    rw [inputs id member]
    exact Bool.false_ne_true

end ShiftRegister

/-- In a tick the chip drives its outputs and changes nothing else of its pins, as every register does. -/
def Chip.DrivesOutputs : Chip → Prop
  | register _ => True
  | device d => d.Keeps Pin.given

section
variable {d : Device} (keeps : d.Keeps Pin.given)
include keeps

theorem Device.Keeps.fixed : d.Keeps Pin.fixed := by
  intro memory pins k before after atPin reacted
  rw [← after.fixed_given, keeps memory pins k before after atPin reacted, before.fixed_given]

theorem Device.Keeps.get?_writes {table : PinTable} {id : PinId} (input : table.isOutput id = false) :
    (table.modifyAll (d.writes table)).get? id = table.get? id := by
  cases found : table.get? id with
  | none =>
    have above := (PinTable.get?_eq_none_iff _ _).mp found
    exact (PinTable.get?_eq_none_iff _ _).mpr (by rwa [PinTable.size_modifyAll])
  | some pin =>
    have flag : pin.output = false := by simpa [PinTable.isOutput, found] using input
    have shows : (table.get? id).map Pin.given = some pin.given := congrArg (Option.map Pin.given) found
    have kept : ((table.modifyAll (d.writes table)).get? id).map Pin.given = some pin.given :=
      PinTable.view_modifyAll (fun edit written same other _ => keeps.view_edit written (same ▸ shows) other) shows
    obtain ⟨after, atId, given⟩ := Option.map_eq_some_iff.mp kept
    rw [atId, Pin.eq_of_given flag given]

end

theorem Device.gate_drivesOutputs (p : Placement) (columns rows sourceCount : Nat) (pinout : List Pin) :
    (Chip.device (gate p columns rows sourceCount pinout)).DrivesOutputs := by
  intro memory pins k before after atPin reacted
  cases pins with
  | nil => simp at atPin
  | cons first rest =>
    simp only [gate, List.getElem?_map, atPin, Option.map_some, Option.some.injEq] at reacted
    subst reacted
    split
    · rename_i output
      exact (if_pos output).trans (if_pos output).symm
    · rfl

namespace Circuit
variable {c d e : Circuit}

/-- In a tick no chip touches more than the levels of its outputs. -/
def DrivesOutputs (c : Circuit) : Prop := ∀ chip ∈ c.chips, chip.DrivesOutputs

theorem DrivesOutputs.ticked (drivesOutputs : c.DrivesOutputs) : c.ticked.DrivesOutputs := by
  intro chip member
  obtain ⟨old, inChips, rfl⟩ := List.mem_map.mp member
  have kept := drivesOutputs old inChips
  cases old with
  | register r => trivial
  | device d => exact kept

theorem Reach.drivesOutputs {settable : PinId → Prop} {past : List Circuit}
    (reach : Reach Chip.DrivesOutputs settable c past) : c.DrivesOutputs := by
  induction reach with
  | new name => exact fun chip member => by simp at member
  | @addChip c _ _ chip _ admitted run ih =>
    obtain rfl := eq_withChip run
    intro other member
    rcases List.mem_append.mp member with old | new
    · exact ih other old
    · rw [List.mem_singleton.mp new]
      cases chip with
      | register r => trivial
      | device d => exact admitted
  | addInput label _ ih => exact ih
  | connect _ run ih =>
    obtain ⟨_, _, rfl⟩ := eq_withWire run
    exact ih
  | setInput level _ _ ih => exact ih
  | step reach run ih =>
    obtain rfl := reach.wellFormed.eq_ticked run
    exact ih.ticked

/-- The two circuits differ at most in the levels of pins, in what chips hold, and in the count of ticks. -/
structure Frame (c d : Circuit) : Prop where
  name : d.name = c.name
  size : d.pins.size = c.pins.size
  pins : ∀ id, (d.pins.get? id).map Pin.fixed = (c.pins.get? id).map Pin.fixed
  chips : d.chips.map Chip.body = c.chips.map Chip.body
  inputs : d.inputs = c.inputs
  wires : d.wires = c.wires
  sources : d.sources = c.sources

namespace Frame

theorem refl (c : Circuit) : c.Frame c := ⟨rfl, rfl, fun _ => rfl, rfl, rfl, rfl, rfl⟩

theorem trans (first : c.Frame d) (second : d.Frame e) : c.Frame e where
  name := second.name.trans first.name
  size := second.size.trans first.size
  pins := fun id => (second.pins id).trans (first.pins id)
  chips := second.chips.trans first.chips
  inputs := second.inputs.trans first.inputs
  wires := second.wires.trans first.wires
  sources := second.sources.trans first.sources

theorem setInput (c : Circuit) (id : PinId) (level : Level) : c.Frame (c.setInput id level) where
  name := rfl
  size := c.size_setInput id level
  pins := by
    intro other
    have steady (level : Level) (pin : Pin) : (pin.withLevel level).fixed = pin.fixed := rfl
    exact (PinTable.view_settle steady _ _ _).trans (PinTable.view_setLevel steady _ _ _ _)
  chips := rfl
  inputs := rfl
  wires := rfl
  sources := rfl

theorem ticked (drivesOutputs : c.DrivesOutputs) : c.Frame c.ticked where
  name := rfl
  size := c.size_ticked
  pins := by
    intro id
    have grown : c.Extends Pin.fixed c.ticked := Extends.ticked (fun _ _ => rfl) c
    exact grown.view_eq c.size_ticked fun device member _ => (drivesOutputs.ticked _ member).fixed
  chips := c.ticked_bodies
  inputs := rfl
  wires := rfl
  sources := rfl

/-- Setting inputs and ticking keeps the frame, so every run of driving operations does. -/
theorem foldl_after (drivesOutputs : c.DrivesOutputs) {operations : List Operation}
    (drives : ∀ operation ∈ operations, operation.Drives) : c.Frame (operations.foldl after c) := by
  refine (foldl_after_of_drives (fun d => c.Frame d ∧ d.DrivesOutputs) drives ?_ ?_ ⟨refl c, drivesOutputs⟩).1
  · exact fun d id level kept => ⟨kept.1.trans (setInput d id level), kept.2⟩
  · exact fun d kept => ⟨kept.1.trans (ticked kept.2), kept.2.ticked⟩

end Frame

namespace WellFormed
variable (wellFormed : c.WellFormed)
include wellFormed

/-- The ticks of the chips change no level but those of outputs. -/
theorem level_worked_of_not_output (seats : c.Seats) (drivesOutputs : c.DrivesOutputs) {id : PinId}
    (input : ∀ chip ∈ c.chips, id ∉ chip.outline.outputs c.pins) : c.worked.level id = c.pins.level id := by
  refine PinTable.level_eq_of_get? ?_
  by_cases owned : ∃ chip ∈ c.chips, id ∈ chip.handles
  · obtain ⟨chip, member, own⟩ := owned
    refine (get?_modifyAll_own wellFormed.apart c.pins member own).trans ?_
    cases chip with
    | register r =>
      refine PinTable.get?_modifyAll_of_forall_ne _ fun edit written same => input _ member ?_
      have output : edit.1 ∈ r.outputs := ShiftRegister.mem_outputs_of_writes written
      rw [← (seats r member).outputs_eq fun id own => wellFormed.allocated member own, same] at output
      exact output
    | device d =>
      have flag : c.pins.isOutput id = false :=
        Bool.eq_false_iff.mpr fun output => input _ member (List.mem_filter.mpr ⟨own, output⟩)
      exact Device.Keeps.get?_writes (drivesOutputs _ member) flag
  · exact get?_modifyAll_other c.pins fun chip member own => owned ⟨chip, member, own⟩

/-- Nor does the tick of a register without a rising edge change the level of any of its pins. -/
theorem level_worked_of_not_rises {i : Nat} {r : ShiftRegister} (atChip : c.chips[i]? = some (.register r))
    (quiet : ¬c.Rises i) {id : PinId} (own : id ∈ r.outline.handles) : c.worked.level id = c.pins.level id := by
  have member := List.mem_of_getElem? atChip
  have still : r.writes (r.sample c.pins) = [] :=
    ShiftRegister.writes_of_not_rises fun rises => quiet ((rises_iff atChip).mpr rises)
  have alone := get?_modifyAll_own wellFormed.apart c.pins member own
  rw [Chip.writes, still] at alone
  exact PinTable.level_eq_of_get? alone

theorem level_ticked_of_undriven {id : PinId} (undriven : ∀ wire ∈ c.wires, wire.target ≠ id) :
    c.ticked.pins.level id = c.worked.level id := by
  rw [wellFormed.level_ticked, trace_eq_self undriven]

end WellFormed

/-- From `c` to `next` the chips have changed levels of their outputs only, each register at a rising edge of its clock
only, and further levels have changed at targets of wires. -/
structure StepFrame (c next : Circuit) : Prop where
  outputs : ∀ id, next.pins.level id ≠ c.pins.level id →
    (∃ wire ∈ c.wires, wire.target = id) ∨ ∃ chip ∈ c.chips, id ∈ chip.outline.outputs c.pins
  rises : ∀ i (r : ShiftRegister), c.chips[i]? = some (.register r) → ∀ id ∈ r.outline.outputs c.pins,
    (∀ wire ∈ c.wires, wire.target ≠ id) → next.pins.level id ≠ c.pins.level id → c.Rises i

/-- From `c` to `next` levels have changed at the pin and at targets of wires only, and no chip and no tick has. -/
structure InputFrame (c : Circuit) (id : PinId) (next : Circuit) : Prop where
  chips : next.chips = c.chips
  ticks : next.ticks = c.ticks
  levels : ∀ other, next.pins.level other ≠ c.pins.level other →
    other = id ∨ ∃ wire ∈ c.wires, wire.target = other

theorem WellFormed.stepFrame (wellFormed : c.WellFormed) (seats : c.Seats) (drivesOutputs : c.DrivesOutputs) :
    c.StepFrame c.ticked where
  outputs := by
    intro id changed
    by_contra none
    obtain ⟨unwired, input⟩ := not_or.mp none
    refine changed ?_
    rw [wellFormed.level_ticked_of_undriven fun wire member same => unwired ⟨wire, member, same⟩]
    exact wellFormed.level_worked_of_not_output seats drivesOutputs fun chip member own => input ⟨chip, member, own⟩
  rises := by
    intro i r atChip id output undriven changed
    by_contra quiet
    refine changed ?_
    rw [wellFormed.level_ticked_of_undriven undriven]
    exact wellFormed.level_worked_of_not_rises atChip quiet (List.mem_filter.mp output).1

theorem inputFrame_setInput (c : Circuit) (id : PinId) (level : Level) : c.InputFrame id (c.setInput id level) where
  chips := rfl
  ticks := rfl
  levels := by
    intro other changed
    by_contra none
    obtain ⟨apart, unwired⟩ := not_or.mp none
    refine changed (PinTable.level_eq_of_get? ?_)
    exact get?_setInput_of_ne (Ne.symm apart) fun wire member same => unwired ⟨wire, member, same⟩

/-- Whatever operations have led to a circuit of chips that drive their outputs, driving it changes levels, what chips
hold and the count of ticks, and nothing else; a step and a set input change no levels but those that they have to. -/
theorem performAll_driven_frame {name : String} {operations : List Operation}
    (drivesOutputs : ∀ chip, .addChip chip ∈ operations → chip.DrivesOutputs)
    (built : (performAll operations { name }).result = .ok c) :
    (∀ driving d, (∀ operation ∈ driving, operation.Drives) → (performAll driving c).result = .ok d → c.Frame d) ∧
    (∀ next, c.step.result = .ok next → c.StepFrame next) ∧
    ∀ id level, c.InputFrame id (c.setInput id level) := by
  have reach := Reach.of_performAll drivesOutputs built
  have seats := Seats.of_performAll built
  obtain ⟨wellFormed, counted⟩ := WellFormed.of_performAll built
  refine ⟨fun driving d drives driven => ?_, fun next stepped => ?_, fun id level => inputFrame_setInput c id level⟩
  · obtain ⟨rfl, _⟩ := wellFormed.eq_foldl_after counted driven
    exact .foldl_after reach.drivesOutputs drives
  · obtain rfl := wellFormed.eq_ticked stepped
    exact wellFormed.stepFrame seats reach.drivesOutputs

/-- An inverter in front of the data pin of a register, whose clock has just been set high by hand. -/
def inverterLeads : List Operation :=
  [.addChip (.device (.inverter (.atPoint 7 0 0))), .addChip (.register { outline := .atPoint 0 4 }), .addInput "IN",
    .addInput "CLK", .connect 13 0, .connect 2 3, .connect 14 4, .step, .setInput 14 .high]

def inverterDriven : List Operation := [.step, .clockIn 13 14 .high, .setInput 99 .high, .run 2]

theorem inverterLeads_driven_frame : ∃ c d next, (performAll inverterLeads { name := "leads" }).result = .ok c ∧
    (performAll inverterDriven c).result = .ok d ∧ d.ticks = 6 ∧ c.Frame d ∧ c.step.result = .ok next ∧
    next.pins.level 5 ≠ c.pins.level 5 ∧ c.Rises 1 ∧ next.pins.level 1 = c.pins.level 1 ∧
    (c.setInput 13 .high).pins.level 2 = c.pins.level 2 := by
  have drivesOutputs : ∀ chip, .addChip chip ∈ inverterLeads → chip.DrivesOutputs := by
    intro chip member
    simp only [inverterLeads, List.mem_cons, Operation.addChip.injEq, reduceCtorEq, List.not_mem_nil,
      or_false] at member
    rcases member with rfl | rfl
    · exact Device.gate_drivesOutputs _ _ _ _ _
    · trivial
  have passed : (performAll inverterLeads { name := "leads" }).passes fun c =>
      (performAll inverterDriven c).passes (fun d => decide (d.ticks = 6)) &&
      c.step.passes (fun next => decide (next.pins.level 5 ≠ c.pins.level 5)) &&
      ((c.register? 1).any fun r => decide (5 ∈ r.outline.outputs c.pins)) &&
      decide (c.wires = [⟨13, 0⟩, ⟨2, 3⟩, ⟨14, 4⟩] ∧ ∀ chip ∈ c.chips, 1 ∉ chip.outline.outputs c.pins) := by
    decide +kernel
  obtain ⟨c, built, checked⟩ := Logged.passes_iff.mp passed
  simp only [Bool.and_eq_true, decide_eq_true_eq] at checked
  obtain ⟨⟨⟨atEnd, atStep⟩, atRegister⟩, wires, spare⟩ := checked
  obtain ⟨d, driven, ticks⟩ := Logged.passes_iff.mp atEnd
  obtain ⟨next, stepped, changed⟩ := Logged.passes_iff.mp atStep
  obtain ⟨r, found, output⟩ := (Option.any_eq_true _ _).mp atRegister
  obtain ⟨runs, steps, inputs⟩ := performAll_driven_frame drivesOutputs built
  have drives : ∀ operation ∈ inverterDriven, operation.Drives := by simp [inverterDriven, Operation.Drives]
  have rises := (steps next stepped).rises 1 r (register?_eq_some_iff.mp found) 5 (of_decide_eq_true output)
    (by rw [wires]; decide) (of_decide_eq_true changed)
  refine ⟨c, d, next, built, driven, of_decide_eq_true ticks, runs inverterDriven d drives driven, stepped,
    of_decide_eq_true changed, rises, ?_, ?_⟩
  · by_contra moved
    rcases (steps next stepped).outputs 1 moved with wired | ⟨chip, member, own⟩
    · rw [wires] at wired
      exact absurd wired (by decide)
    · exact spare chip member own
  · by_contra moved
    have reached := (inputs 13 .high).levels 2 moved
    rw [wires] at reached
    exact absurd reached (by decide)

end Circuit

end LogicBoard
