import LogicBoard.Proofs.DrivenRuns

namespace LogicBoard

namespace Pin

/-- Whether the pin is an output, and its voltage source. -/
def supply (pin : Pin) : Bool × Option Nat := (pin.output, pin.source)

def withSource (source : Nat) (pin : Pin) : Pin := { pin with source := some source }

end Pin

namespace PinTable

/-- The voltage source behind a handle. A dangling handle has none. -/
def source? (table : PinTable) (id : PinId) : Option Nat := (table.get? id).bind Pin.source

/-- Whether there is an output behind the handle. -/
def isOutput (table : PinTable) (id : PinId) : Bool := ((table.get? id).map Pin.output).getD false

variable {a b : PinTable} {id : PinId}

theorem source?_of_supply (same : (a.get? id).map Pin.supply = (b.get? id).map Pin.supply) :
    a.source? id = b.source? id := by
  have sources := congrArg (Option.bind · Prod.snd) same
  rwa [Option.bind_map, Option.bind_map] at sources

theorem isOutput_of_supply (same : (a.get? id).map Pin.supply = (b.get? id).map Pin.supply) :
    a.isOutput id = b.isOutput id := by
  have outputs := congrArg (Option.map Prod.fst) same
  rw [Option.map_map, Option.map_map] at outputs
  exact congrArg (Option.getD · false) outputs

theorem isOutput_of_face (same : (a.get? id).map Pin.face = (b.get? id).map Pin.face) :
    a.isOutput id = b.isOutput id := by
  have outputs := congrArg (Option.map Pin.output) same
  rw [Option.map_map, Option.map_map] at outputs
  exact congrArg (Option.getD · false) outputs

end PinTable

theorem Outline.outputs_congr {o : Outline} {a b : PinTable} (same : ∀ id ∈ o.handles, a.isOutput id = b.isOutput id) :
    o.outputs a = o.outputs b :=
  List.filter_congr same

namespace Chip

/-- The pins that the chip allocates when it is placed. -/
def pinout : Chip → List Pin
  | register r => ShiftRegister.pinout r.register
  | device d => d.pinout

/-- The chip leaves voltage sources to its circuit. Its pins are allocated without one, and its ticks change neither
the voltage source of a pin nor whether the pin is an output. -/
def LeavesSources (chip : Chip) : Prop :=
  (∀ pin ∈ chip.pinout, pin.source = none) ∧ ∀ d, chip = device d → d.Keeps Pin.supply

theorem leavesSources_register (r : ShiftRegister) : (register r).LeavesSources :=
  ⟨by simp [pinout, ShiftRegister.pinout, ShiftRegister.outputLabels], nofun⟩

theorem setup_eq (chip : Chip) (table : PinTable) :
    (chip.setup table).2 = table.allocateAll chip.pinout ∧
      (chip.setup table).1.handles = table.freshHandles chip.pinout := by
  cases chip <;> exact ⟨rfl, rfl⟩

theorem handles_eq_of_body {chip other : Chip} (same : chip.body = other.body) : chip.handles = other.handles := by
  have body (chip : Chip) : chip.body.handles = chip.handles := by cases chip <;> rfl
  rw [← body chip, ← body other, same]

@[simp] theorem sourceCount_body (chip : Chip) : chip.body.sourceCount = chip.sourceCount := by cases chip <;> rfl

theorem outputs_setSource (chip : Chip) (n source : Nat) (table : PinTable) :
    chip.outline.outputs (chip.setSource n source table) = chip.outline.outputs table := by
  rw [setSource]
  split
  · exact Outline.outputs_congr fun id _ => PinTable.isOutput_of_face (table.face_setSource _ id source)
  · rfl

/-- The voltage sources are set in a loop over the numbers of the outputs. A number that no output has sets none. -/
theorem bindSources_eq_foldl (chip : Chip) (first : Nat) (table : PinTable) : chip.bindSources first table =
    (List.range chip.sourceCount).foldl (fun table n => chip.setSource n (first + n) table) table := by
  have outputs (count : Nat) : chip.outline.outputs
      ((List.range count).foldl (fun table n => chip.setSource n (first + n) table) table) =
        chip.outline.outputs table := by
    induction count with
    | zero => rfl
    | succ count ih => rw [List.range_succ, List.foldl_concat, outputs_setSource, ih]
  rw [bindSources]
  induction chip.sourceCount with
  | zero => rfl
  | succ count ih =>
    rw [List.range_succ, List.foldl_concat, setSource, outputs, ← ih, List.take_add_one, List.zipIdx_append,
      List.foldl_append]
    cases atCount : (chip.outline.outputs table)[count]? with
    | none => rfl
    | some id =>
      have within := (List.getElem?_eq_some_iff.mp atCount).1
      rw [List.length_take_of_le (Nat.le_of_lt within)]
      rfl

/-- Outputs are bound by one edit each. -/
theorem bindSources_eq (chip : Chip) (first : Nat) (table : PinTable) :
    chip.bindSources first table = table.modifyAll (((chip.outline.outputs table).take chip.sourceCount).zip
      ((List.range' first ((chip.outline.outputs table).take chip.sourceCount).length).map Pin.withSource)) := by
  rw [bindSources, List.zipIdx_eq_zip_range', PinTable.modifyAll, List.zip_map_right, List.foldl_map]
  rfl

section
variable {chip : Chip} {first n : Nat} {table : PinTable} {id : PinId}

/-- Only outputs are bound to voltage sources. -/
theorem source?_bindSources_of_notMem (other : id ∉ chip.outline.outputs table) :
    (chip.bindSources first table).source? id = table.source? id := by
  rw [bindSources_eq, PinTable.source?, PinTable.get?_modifyAll_of_forall_ne]
  · rfl
  · rintro edit member rfl
    exact other (List.mem_of_mem_take (List.of_mem_zip member).1)

/-- The outputs are numbered in their order, as far as the chip asks for voltage sources. -/
theorem source?_bindSources (distinct : chip.handles.Nodup) (atOutput : (chip.outline.outputs table)[n]? = some id) :
    (chip.bindSources first table).source? id =
      if n < chip.sourceCount then some (first + n) else table.source? id := by
  have distinctOutputs : (chip.outline.outputs table).Nodup := distinct.filter _
  have output : table.isOutput id := (List.mem_filter.mp (List.mem_of_getElem? atOutput)).2
  rw [bindSources_eq, PinTable.source?]
  split
  · rename_i bound
    have atBound : ((chip.outline.outputs table).take chip.sourceCount)[n]? = some id := by
      rw [List.getElem?_take_of_lt bound, atOutput]
    have within := (List.getElem?_eq_some_iff.mp atBound).1
    have atEdit : ((List.range' first ((chip.outline.outputs table).take chip.sourceCount).length).map
        Pin.withSource)[n]? = some (Pin.withSource (first + n)) := by
      rw [List.getElem?_map, List.getElem?_range' within, Nat.one_mul, Option.map_some]
    obtain ⟨pin, found⟩ : ∃ pin, table.get? id = some pin := by
      cases found : table.get? id with
      | none => simp [PinTable.isOutput, found] at output
      | some pin => exact ⟨pin, rfl⟩
    rw [table.get?_modifyAll_zip (distinctOutputs.sublist (List.take_sublist _ _)) atBound atEdit, found]
    rfl
  · rename_i free
    rw [PinTable.get?_modifyAll_of_forall_ne]
    · rfl
    · rintro edit member rfl
      obtain ⟨m, atBound⟩ := List.mem_iff_getElem?.mp (List.of_mem_zip member).1
      rw [List.getElem?_take] at atBound
      split at atBound
      · have again := (List.getElem?_inj (List.getElem?_eq_some_iff.mp atOutput).1 distinctOutputs).mp
          (atOutput.trans atBound.symm)
        omega
      · cases atBound

end

end Chip

namespace Circuit
variable {c d : Circuit}

/-- The voltage sources that the chips before the place ask for. -/
def firstSource (c : Circuit) (j : Nat) : Nat := ((c.chips.take j).map Chip.sourceCount).sum

/-- Voltage sources are numbered chip by chip and output by output, and no other pin has one. -/
structure Numbered (c : Circuit) : Prop where
  outputs : ∀ j chip n id, c.chips[j]? = some chip → (chip.outline.outputs c.pins)[n]? = some id →
    c.pins.source? id = if n < chip.sourceCount then some (c.firstSource j + n) else none
  others : ∀ id, c.pins.isOutput id = false → c.pins.source? id = none
  inputs : ∀ id ∈ c.inputs, c.pins.isOutput id = false
  total : c.sources = (c.chips.map Chip.sourceCount).sum
  kept : ∀ d, .device d ∈ c.chips → d.Keeps Pin.supply

theorem numbered_new (name : String) : Numbered { name } where
  outputs := by simp
  others := by simp [PinTable.source?]
  inputs := by simp
  total := rfl
  kept := by simp

namespace Numbered

/-- What changes neither the chips nor which pins there are keeps the numbers. -/
theorem of_extends (numbered : c.Numbered) (grown : c.Extends Pin.supply d) (size : d.pins.size = c.pins.size)
    (chips : d.chips.map Chip.body = c.chips.map Chip.body) (inputs : d.inputs = c.inputs)
    (sources : d.sources = c.sources) : d.Numbered := by
  have kept (device : Device) (member : .device device ∈ d.chips) : device.Keeps Pin.supply := by
    obtain ⟨old, inChips, body⟩ := List.mem_map.mp (chips ▸ List.mem_map_of_mem (f := Chip.body) member)
    obtain ⟨memory, rfl⟩ := Chip.body_eq_device body
    have kept := numbered.kept _ inChips
    exact kept
  have pins (id : PinId) : (d.pins.get? id).map Pin.supply = (c.pins.get? id).map Pin.supply :=
    grown.view_eq size fun device member _ => kept device member
  have counts : d.chips.map Chip.sourceCount = c.chips.map Chip.sourceCount := by
    have bodies := congrArg (List.map Chip.sourceCount) chips
    simpa only [List.map_map, Function.comp_def, Chip.sourceCount_body] using bodies
  refine ⟨fun j chip n id atChip atOutput => ?_, fun id other => ?_, fun id member => ?_, ?_, kept⟩
  · have atBody := congrArg (·[j]?) chips
    simp only [List.getElem?_map, atChip, Option.map_some] at atBody
    obtain ⟨old, atOld, body⟩ := Option.map_eq_some_iff.mp atBody.symm
    have handles : old.outline.handles = chip.outline.handles := Chip.handles_eq_of_body body
    have count : old.sourceCount = chip.sourceCount := by
      rw [← Chip.sourceCount_body old, body, Chip.sourceCount_body]
    have outputs : old.outline.outputs c.pins = chip.outline.outputs d.pins := by
      rw [← Outline.outputs_congr fun id _ => PinTable.isOutput_of_supply (pins id), Outline.outputs, Outline.outputs,
        handles]
    have first : d.firstSource j = c.firstSource j := by
      rw [firstSource, firstSource, List.map_take, List.map_take, counts]
    rw [PinTable.source?_of_supply (pins id), first, ← count]
    exact numbered.outputs j old n id atOld (outputs ▸ atOutput)
  · rw [PinTable.source?_of_supply (pins id)]
    exact numbered.others id (PinTable.isOutput_of_supply (pins id) ▸ other)
  · rw [PinTable.isOutput_of_supply (pins id)]
    exact numbered.inputs id (inputs ▸ member)
  · rw [sources, counts]
    exact numbered.total

theorem drive (numbered : c.Numbered) {operation : Operation} (drives : operation.Drives) :
    (c.after operation).Numbered := by
  refine numbered.of_extends (.after (fun _ _ => rfl) c operation) (after_size drives) (after_bodies drives)
    (after_inputs drives) ?_
  rw [after_sources]
  cases operation with
  | addChip | addInput | connect => exact drives.elim
  | setInput | step | run | clockIn => rfl

theorem withWire (numbered : c.Numbered) (wire : Wire) : (c.withWire wire).Numbered :=
  numbered.of_extends (.withWire (fun _ _ => rfl) c wire) (c.pins.size_carry wire) rfl rfl rfl

/-- The numbers of chips that were there before stay when pins and chips are added. -/
theorem output_of_prefix (numbered : c.Numbered) (wellFormed : c.WellFormed) (chips : c.chips <+: d.chips)
    (pins : ∀ id < c.pins.size, d.pins.get? id = c.pins.get? id) {j n : Nat} {chip : Chip} {id : PinId}
    (atChip : c.chips[j]? = some chip) (atOutput : (chip.outline.outputs d.pins)[n]? = some id) :
    d.pins.source? id = if n < chip.sourceCount then some (d.firstSource j + n) else none := by
  have same (id : PinId) (own : id ∈ chip.outline.handles) : d.pins.get? id = c.pins.get? id :=
    pins id (wellFormed.allocated (List.mem_of_getElem? atChip) own)
  have outputs : chip.outline.outputs d.pins = chip.outline.outputs c.pins :=
    Outline.outputs_congr fun id own => PinTable.isOutput_of_supply (congrArg _ (same id own))
  have first : d.firstSource j = c.firstSource j := by
    obtain ⟨more, joined⟩ := chips
    have within := (List.getElem?_eq_some_iff.mp atChip).1
    rw [firstSource, firstSource, ← joined, List.take_append_of_le_length (Nat.le_of_lt within)]
  rw [outputs] at atOutput
  have own := List.mem_of_mem_filter (List.mem_of_getElem? atOutput)
  rw [PinTable.source?_of_supply (congrArg _ (same id own)), first]
  exact numbered.outputs j chip n id atChip atOutput

theorem addInput (numbered : c.Numbered) (wellFormed : c.WellFormed) (label : String) :
    (c.addInput label).Numbered := by
  have new : (c.addInput label).pins.get? c.pins.size =
      some { label, position := c.inputs.length, side := .west } := by
    rw [Circuit.addInput, PinTable.get?_allocate, if_pos rfl]
  have old (id : PinId) (other : id ≠ c.pins.size) : (c.addInput label).pins.get? id = c.pins.get? id := by
    rw [Circuit.addInput, PinTable.get?_allocate, if_neg other]
  refine ⟨fun j chip n id atChip atOutput => ?_, fun id other => ?_, fun id member => ?_, numbered.total,
    numbered.kept⟩
  · have pins (id : PinId) (below : id < c.pins.size) := old id (Nat.ne_of_lt below)
    exact numbered.output_of_prefix (d := c.addInput label) wellFormed List.prefix_rfl pins atChip atOutput
  · by_cases latest : id = c.pins.size
    · rw [PinTable.source?, latest, new]
      rfl
    · rw [PinTable.isOutput, old id latest] at other
      rw [PinTable.source?, old id latest]
      exact numbered.others id other
  · rcases List.mem_append.mp member with before | latest
    · rw [PinTable.isOutput, old id (Nat.ne_of_lt (wellFormed.input_allocated before))]
      exact numbered.inputs id before
    · rw [PinTable.isOutput, List.mem_singleton.mp latest, new]
      rfl

theorem withChip (numbered : c.Numbered) (wellFormed : c.WellFormed) {chip : Chip} (leaves : chip.LeavesSources) :
    (c.withChip chip).Numbered := by
  obtain ⟨table, handles⟩ := chip.setup_eq c.pins
  have old (id : PinId) (allocated : id < c.pins.size) : (c.withChip chip).pins.get? id = c.pins.get? id :=
    get?_withChip_of_lt chip allocated
  -- Binding sources changes no flags, so the outputs are those of the pins as they were allocated.
  have output (id : PinId) : (c.withChip chip).pins.isOutput id = (chip.setup c.pins).2.isOutput id :=
    PinTable.isOutput_of_face (Chip.face_bindSources _ _ _ id)
  have unbound {id : PinId} (new : ¬id < c.pins.size) : (chip.setup c.pins).2.source? id = none := by
    rw [PinTable.source?, table, PinTable.get?_allocateAll, if_neg new]
    cases found : chip.pinout[id - c.pins.size]? with
    | none => rfl
    | some pin => exact leaves.1 pin (List.mem_of_getElem? found)
  refine ⟨fun j other n id atChip atOutput => ?_, fun id other => ?_, fun id member => ?_, ?_, fun d member => ?_⟩
  · rcases Nat.lt_or_ge j c.chips.length with before | behind
    · have atOld : c.chips[j]? = some other := (List.getElem?_append_left before).symm.trans atChip
      exact numbered.output_of_prefix wellFormed (List.prefix_append _ _) old atOld atOutput
    · have atNew := (List.getElem?_append_right behind).symm.trans atChip
      obtain ⟨rfl, rfl⟩ : j = c.chips.length ∧ (chip.setup c.pins).1 = other := by
        rw [List.getElem?_singleton] at atNew
        split at atNew
        · exact ⟨by omega, Option.some.inj atNew⟩
        · cases atNew
      have first : (c.withChip chip).firstSource c.chips.length = c.sources := by
        rw [firstSource, Circuit.withChip, List.take_left, numbered.total]
      have distinct : (chip.setup c.pins).1.handles.Nodup := handles ▸ List.nodup_range'
      rw [Outline.outputs_congr fun id _ => output id] at atOutput
      have own : id ∈ (chip.setup c.pins).1.handles := List.mem_of_mem_filter (List.mem_of_getElem? atOutput)
      rw [handles, PinTable.freshHandles, List.mem_range'_1] at own
      rw [first, ← unbound (Nat.not_lt.mpr own.1)]
      exact Chip.source?_bindSources distinct atOutput
  · rw [output] at other
    have source : (c.withChip chip).pins.source? id = (chip.setup c.pins).2.source? id :=
      Chip.source?_bindSources_of_notMem fun member =>
        Bool.false_ne_true (other.symm.trans (List.mem_filter.mp member).2)
    rw [source]
    by_cases before : id < c.pins.size
    · have kept := c.pins.get?_allocateAll_of_lt chip.pinout before
      rw [PinTable.isOutput, table, kept] at other
      rw [PinTable.source?, table, kept]
      exact numbered.others id other
    · exact unbound before
  · rw [PinTable.isOutput, old id (wellFormed.input_allocated member)]
    exact numbered.inputs id member
  · rw [Circuit.withChip, List.map_append, List.sum_append, numbered.total]
    rfl
  · rcases List.mem_append.mp member with before | latest
    · exact numbered.kept d before
    · cases chip with
      | register r => cases List.mem_singleton.mp latest
      | device placed =>
        cases List.mem_singleton.mp latest
        exact leaves.2 placed rfl

theorem after (numbered : c.Numbered) (wellFormed : c.WellFormed) {operation : Operation}
    (leaves : ∀ chip, operation = .addChip chip → chip.LeavesSources) : (c.after operation).Numbered := by
  cases operation with
  | addChip chip => exact numbered.withChip wellFormed (leaves chip rfl)
  | addInput label => exact numbered.addInput wellFormed label
  | connect source target =>
    rw [after_connect]
    split
    · exact numbered.withWire _
    · exact numbered
  | setInput | step | run | clockIn => exact numbered.drive trivial

theorem foldl_after (numbered : c.Numbered) (wellFormed : c.WellFormed) {operations : List Operation}
    (leaves : ∀ chip, .addChip chip ∈ operations → chip.LeavesSources) :
    (operations.foldl Circuit.after c).Numbered := by
  induction operations generalizing c with
  | nil => exact numbered
  | cons operation operations ih =>
    have here := numbered.after wellFormed fun chip same => leaves chip (same ▸ List.mem_cons_self)
    exact ih here (wellFormed.after operation) fun chip member => leaves chip (List.mem_cons_of_mem _ member)

/-- A pin with a voltage source is an output of some chip, and its place gives the number. -/
theorem exists_output (numbered : c.Numbered) (wellFormed : c.WellFormed) {id : PinId} {source : Nat}
    (driven : c.pins.source? id = some source) : ∃ j chip n, c.chips[j]? = some chip ∧
      (chip.outline.outputs c.pins)[n]? = some id ∧ n < chip.sourceCount ∧ source = c.firstSource j + n := by
  have output : c.pins.isOutput id = true := by
    rw [← Bool.not_eq_false]
    intro other
    rw [numbered.others id other] at driven
    cases driven
  have allocated : id < c.pins.size := by
    rw [← PinTable.get?_isSome_iff]
    cases found : c.pins.get? id with
    | none => simp [PinTable.isOutput, found] at output
    | some pin => rfl
  rcases List.mem_append.mp (wellFormed.owned.mem_iff.mpr (List.mem_range.mpr allocated)) with owned | input
  · obtain ⟨chip, inChips, own⟩ := List.mem_flatMap.mp owned
    obtain ⟨j, atChip⟩ := List.mem_iff_getElem?.mp inChips
    obtain ⟨n, atOutput⟩ := List.mem_iff_getElem?.mp (List.mem_filter.mpr ⟨own, output⟩)
    have number := numbered.outputs j chip n id atChip atOutput
    rw [driven] at number
    split at number
    · exact ⟨j, chip, n, atChip, atOutput, ‹_›, Option.some.inj number⟩
    · cases number
  · rw [numbered.inputs id input] at output
    cases output

/-- The chips before a later place ask for at least as many sources as those before an earlier one together with the
chip there. -/
theorem firstSource_add_le {i j : Nat} {chip : Chip} (atChip : c.chips[i]? = some chip) (before : i < j) :
    c.firstSource i + chip.sourceCount ≤ c.firstSource j := by
  obtain ⟨more, longer⟩ := List.take_prefix_take_left (l := c.chips) before
  rw [firstSource, firstSource, ← longer, List.take_add_one, atChip]
  simp

/-- No number is given to two pins. -/
theorem source_unique (numbered : c.Numbered) (wellFormed : c.WellFormed) {p q : PinId} {source : Nat}
    (atP : c.pins.source? p = some source) (atQ : c.pins.source? q = some source) : p = q := by
  obtain ⟨i, a, m, chipA, outputA, boundA, numberA⟩ := numbered.exists_output wellFormed atP
  obtain ⟨j, b, n, chipB, outputB, boundB, numberB⟩ := numbered.exists_output wellFormed atQ
  rcases Nat.lt_trichotomy i j with before | rfl | after
  · have apart := firstSource_add_le chipA before
    omega
  · cases Option.some.inj (chipA.symm.trans chipB)
    obtain rfl : m = n := by omega
    exact Option.some.inj (outputA.symm.trans outputB)
  · have apart := firstSource_add_le chipB after
    omega

end Numbered

/-- Whatever operations have built and driven a circuit, the outputs of each chip are bound to as many voltage sources
as the chip asks for, in the order of their handles and numbered on from those of the chips before it. Further outputs
and all other pins have no source, no two pins share one, and the circuit counts those that were asked for. -/
theorem performAll_sources_numbered {name : String} {operations : List Operation}
    (leaves : ∀ chip, .addChip chip ∈ operations → chip.LeavesSources)
    (run : (performAll operations { name }).result = .ok c) :
    (∀ j chip n id, c.chips[j]? = some chip → (chip.outline.outputs c.pins)[n]? = some id →
      c.pins.source? id = if n < chip.sourceCount then some (c.firstSource j + n) else none) ∧
    (∀ id, c.pins.isOutput id = false → c.pins.source? id = none) ∧
    (∀ id ∈ c.inputs, c.pins.source? id = none) ∧
    (∀ p q source, c.pins.source? p = some source → c.pins.source? q = some source → p = q) ∧
    c.sources = (c.chips.map Chip.sourceCount).sum := by
  obtain ⟨rfl, _⟩ := (WellFormed.new name).eq_foldl_after rfl run
  have wellFormed := (WellFormed.new name).foldl_after operations
  have numbered := (numbered_new name).foldl_after (.new name) leaves
  refine ⟨numbered.outputs, numbered.others, fun id member => ?_, fun p q source atP atQ => ?_, numbered.total⟩
  · exact numbered.others id (numbered.inputs id member)
  · exact numbered.source_unique wellFormed atP atQ

/-- Three outputs for two voltage sources, one output for three of them, and a register after an input. -/
def unevenGates : List Operation :=
  [.addChip (.device (.gate (.atPoint 7 0 0) 4 3 2 [{ label := "A", position := 0, side := .west },
      { label := "P", output := true, position := 0, side := .east },
      { label := "Q", output := true, position := 1, side := .east },
      { label := "R", output := true, position := 2, side := .east }])),
    .addChip (.device (.gate (.atPoint 8 0 4) 4 2 3 [{ label := "Z", output := true, position := 1, side := .east }])),
    .addInput "IN", .addChip (.register { outline := .atPoint 4 0 }), .connect 3 6, .setInput 5 .high,
    .clockIn 0 7 .high, .run 2]

theorem unevenGates_sources_numbered : ∃ c, (performAll unevenGates { name := "uneven" }).result = .ok c ∧
    (∀ chip, .addChip chip ∈ unevenGates → chip.LeavesSources) ∧ c.pins.source? 2 = some 1 ∧
    c.pins.source? 3 = none ∧ c.pins.source? 4 = some 2 ∧ c.pins.source? 5 = none ∧ c.pins.source? 8 = some 5 ∧
    c.sources = 13 := by
  have leaves : ∀ chip, .addChip chip ∈ unevenGates → chip.LeavesSources := by
    have gate (d : Device) (unbound : ∀ pin ∈ d.pinout, pin.source = none) (keeps : d.Keeps Pin.supply) :
        (Chip.device d).LeavesSources := ⟨unbound, fun _ same => by cases same; exact keeps⟩
    intro chip member
    simp only [unevenGates, List.mem_cons, Operation.addChip.injEq, reduceCtorEq, false_or, List.not_mem_nil,
      or_false] at member
    rcases member with rfl | rfl | rfl
    · exact gate _ (by simp [Device.gate]) (Device.gate_keeps (fun _ _ => rfl) _ _ _ _ _)
    · exact gate _ (by simp [Device.gate]) (Device.gate_keeps (fun _ _ => rfl) _ _ _ _ _)
    · exact Chip.leavesSources_register _
  obtain ⟨c, a, b, r, run, chips, counts, outputsA, outputsB, outputsR, inputs⟩ : ∃ c a b r,
      (performAll unevenGates { name := "uneven" }).result = .ok c ∧ c.chips = [a, b, r] ∧
      [a, b, r].map Chip.sourceCount = [2, 3, 8] ∧ a.outline.outputs c.pins = [1, 2, 3] ∧
      b.outline.outputs c.pins = [4] ∧ r.outline.outputs c.pins = List.range' 8 8 ∧ c.inputs = [5] :=
    ⟨_, _, _, _, rfl, rfl, rfl, rfl, rfl, rfl, rfl⟩
  obtain ⟨numbers, _, free, _, total⟩ := performAll_sources_numbered leaves run
  simp only [List.map_cons, List.map_nil, List.cons.injEq, and_true] at counts
  obtain ⟨countA, countB, countR⟩ := counts
  refine ⟨c, run, leaves, ?_, ?_, ?_, free 5 (by simp [inputs]), ?_, ?_⟩
  · simpa [firstSource, chips, countA] using numbers 0 a 1 2 (by simp [chips]) (by simp [outputsA])
  · simpa [firstSource, chips, countA] using numbers 0 a 2 3 (by simp [chips]) (by simp [outputsA])
  · simpa [firstSource, chips, countA, countB] using numbers 1 b 0 4 (by simp [chips]) (by simp [outputsB])
  · simpa [firstSource, chips, countA, countB, countR] using numbers 2 r 0 8 (by simp [chips]) (by simp [outputsR])
  · simp [total, chips, countA, countB, countR]

end Circuit

end LogicBoard
