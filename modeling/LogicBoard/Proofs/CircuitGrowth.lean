import LogicBoard.Proofs.CircuitOutcome

namespace LogicBoard

/-- What a pin is, whatever its level and its voltage source are. -/
def Pin.face (pin : Pin) : Pin := { pin with level := .low, source := none }

section
variable {α : Type} {view : Pin → α}

/-- Nothing that the view shows of the device's pins changes in a tick. -/
def Device.Keeps (d : Device) (view : Pin → α) : Prop :=
  ∀ memory (pins : List Pin) (k : Nat) before after, pins[k]? = some before → (d.react memory pins).2[k]? = some after →
    view after = view before

namespace PinTable

theorem view_setLevel (steady : ∀ level pin, view (pin.withLevel level) = view pin) (table : PinTable)
    (id other : PinId) (level : Level) :
    ((table.setLevel id level).get? other).map view = (table.get? other).map view := by
  rw [get?_setLevel]
  split
  · rw [Option.map_map]
    exact congrArg (Option.map · _) (funext (steady level))
  · rfl

theorem view_settle (steady : ∀ level pin, view (pin.withLevel level) = view pin) (table : PinTable)
    (wires : List Wire) (id : PinId) : ((table.settle wires).get? id).map view = (table.get? id).map view := by
  induction wires generalizing table with
  | nil => rfl
  | cons wire wires ih => rw [settle_cons, ih, carry, view_setLevel steady]

/-- Edits that leave the view of one pin alone leave it as it was. -/
theorem view_modifyAll {table : PinTable} {edits : List (PinId × (Pin → Pin))} {id : PinId} {seen : α}
    (keeps : ∀ edit ∈ edits, edit.1 = id → ∀ pin, view pin = seen → view (edit.2 pin) = seen)
    (shows : (table.get? id).map view = some seen) : ((table.modifyAll edits).get? id).map view = some seen := by
  induction edits generalizing table with
  | nil => exact shows
  | cons edit edits ih =>
    refine ih (fun later member => keeps later (List.mem_cons_of_mem _ member)) ?_
    rw [get?_modify]
    split
    · rename_i same
      obtain ⟨pin, found, shown⟩ := Option.map_eq_some_iff.mp shows
      rw [found, Option.map_some, Option.map_some, keeps edit List.mem_cons_self same pin shown]
    · exact shows

theorem getElem?_select {table : PinTable} {ids : List PinId} (allocated : ∀ id ∈ ids, id < table.size) (k : Nat) :
    (table.select ids)[k]? = ids[k]?.bind table.get? := by
  induction ids generalizing k with
  | nil => rfl
  | cons id ids ih =>
    have here := (table.get?_isSome_iff id).mpr (allocated id List.mem_cons_self)
    obtain ⟨pin, found⟩ := Option.isSome_iff_exists.mp here
    have rest := ih fun later member => allocated later (List.mem_cons_of_mem _ member)
    rw [select, List.filterMap_cons_some found]
    cases k with
    | zero => exact found.symm
    | succ k => exact rest k

/-- Behind allocated handles stand the selected pins, one for each. -/
theorem map_get? {table : PinTable} {ids : List PinId} (allocated : ∀ id ∈ ids, id < table.size) :
    ids.map table.get? = (table.select ids).map some := by
  refine List.ext_getElem? fun k => ?_
  rw [List.getElem?_map, List.getElem?_map, getElem?_select allocated]
  cases atId : ids[k]? with
  | none => rfl
  | some id =>
    obtain ⟨pin, found⟩ := Option.isSome_iff_exists.mp
      ((table.get?_isSome_iff id).mpr (allocated id (List.mem_of_getElem? atId)))
    rw [Option.map_some, Option.bind_some, found, Option.map_some]

theorem map_select_congr {a b : PinTable} {ids : List PinId}
    (same : ∀ id ∈ ids, (a.get? id).map view = (b.get? id).map view) :
    (a.select ids).map view = (b.select ids).map view := by
  rw [select, select, List.map_filterMap, List.map_filterMap]
  exact List.filterMap_congr same

/-- The pins allocated together are read back through their handles. -/
theorem select_freshHandles (table : PinTable) (pins : List Pin) :
    (table.allocateAll pins).select (table.freshHandles pins) = pins := by
  refine List.ext_getElem? fun k => ?_
  rw [getElem?_select, freshHandles]
  · by_cases within : k < pins.length
    · rw [List.getElem?_range' within, Nat.one_mul, Option.bind_some, get?_allocateAll_add]
    · have above := Nat.le_of_not_lt within
      rw [List.getElem?_eq_none (by rw [List.length_range']; exact above), List.getElem?_eq_none above,
        Option.bind_none]
  · intro id member
    rw [size_allocateAll]
    exact (List.mem_range'_1.mp member).2

end PinTable

/-- What a device writes to a pin in a tick cannot be seen in a view that it keeps. -/
theorem Device.Keeps.view_edit {d : Device} (keeps : d.Keeps view) {table : PinTable} {edit : PinId × (Pin → Pin)}
    (written : edit ∈ d.writes table) {seen : α} (shows : (table.get? edit.1).map view = some seen) (pin : Pin) :
    view (edit.2 pin) = seen := by
  obtain ⟨k, atEdit⟩ := List.mem_iff_getElem?.mp written
  obtain ⟨atOwn, atPin⟩ := List.getElem?_zip_eq_some.mp atEdit
  obtain ⟨after, reacted, drives⟩ := Option.map_eq_some_iff.mp ((List.getElem?_map ..).symm.trans atPin)
  obtain ⟨before, found, was⟩ := Option.map_eq_some_iff.mp shows
  have allocated : ∀ id ∈ d.own table, id < table.size := fun id member =>
    of_decide_eq_true (List.mem_filter.mp member).2
  have selected : (table.select (d.own table))[k]? = some before := by
    rw [PinTable.getElem?_select allocated, atOwn, Option.bind_some, found]
  rw [← drives, keeps _ _ k before after selected reacted, was]

theorem ShiftRegister.exists_withLevel_of_writes {r : ShiftRegister} {sample : Sample} {edit : PinId × (Pin → Pin)}
    (member : edit ∈ r.writes sample) : ∃ level, edit.2 = Pin.withLevel level := by
  unfold writes at member
  split at member
  · obtain ⟨level, _, drives⟩ := List.mem_map.mp (List.of_mem_zip member).2
    exact ⟨level, drives.symm⟩
  · simp at member
  · simp at member

namespace Chip

theorem get?_bindSources_of_notMem {chip : Chip} {first : Nat} {table : PinTable} {id : PinId}
    (foreign : id ∉ chip.handles) : (chip.bindSources first table).get? id = table.get? id := by
  unfold bindSources
  have apart : ∀ entry ∈ ((chip.outline.outputs table).take chip.sourceCount).zipIdx first, entry.1 ≠ id := by
    rintro entry member rfl
    have output := List.mem_of_mem_take (List.fst_mem_of_mem_zipIdx member)
    exact foreign (List.mem_of_mem_filter output)
  generalize ((chip.outline.outputs table).take chip.sourceCount).zipIdx first = bound at apart ⊢
  induction bound generalizing table with
  | nil => rfl
  | cons entry bound ih =>
    refine (ih fun later member => apart later (List.mem_cons_of_mem _ member)).trans ?_
    exact (PinTable.get?_modify _ _ _ _).trans (if_neg (apart entry List.mem_cons_self))

/-- The chip without its state, which is register and phase or else memory. -/
def body : Chip → Chip
  | register r => register { outline := r.outline }
  | device d => device { d with memory := [] }

@[simp] theorem body_next (chip : Chip) (table : PinTable) : (chip.next table).body = chip.body := by
  cases chip with
  | register r => exact congrArg (fun outline => register { outline }) (r.next_outline _)
  | device d => rfl

theorem body_eq_register {chip : Chip} {r : ShiftRegister} (same : chip.body = (register r).body) :
    ∃ now, chip = register now ∧ now.outline = r.outline := by
  cases chip with
  | register now => exact ⟨now, rfl, congrArg (·.outline) same⟩
  | device d => cases same

theorem body_eq_device {chip : Chip} {d : Device} (same : chip.body = (device d).body) :
    ∃ memory, chip = device { d with memory } := by
  cases chip with
  | register r => cases same
  | device now =>
    cases now
    cases same
    exact ⟨_, rfl⟩

/-- What a chip writes to a pin in a tick cannot be seen in a view that it keeps. -/
theorem view_edit (steady : ∀ level pin, view (pin.withLevel level) = view pin) {chip : Chip} {table : PinTable}
    {edit : PinId × (Pin → Pin)} (written : edit ∈ chip.writes table)
    (keeps : ∀ d, chip = device d → d.Keeps view) {seen : α} (shows : (table.get? edit.1).map view = some seen)
    {pin : Pin} (shown : view pin = seen) : view (edit.2 pin) = seen := by
  cases chip with
  | register r =>
    obtain ⟨level, drives⟩ := ShiftRegister.exists_withLevel_of_writes written
    rw [drives, steady, shown]
  | device d => exact Device.Keeps.view_edit (keeps d rfl) written shows pin

end Chip

namespace Circuit

/-- The view of the pin is kept by the device that owns it, if a device does. -/
def Steady (c : Circuit) (view : Pin → α) (id : PinId) : Prop :=
  ∀ d, .device d ∈ c.chips → id ∈ d.outline.handles → d.Keeps view

/-- Every pin, chip, input and wire of the first circuit is the same one in the second, where there may be more. -/
structure Extends (view : Pin → α) (c d : Circuit) : Prop where
  size : c.pins.size ≤ d.pins.size
  chips : c.chips.map Chip.body <+: d.chips.map Chip.body
  inputs : c.inputs <+: d.inputs
  wires : c.wires <+: d.wires
  pins : ∀ id < c.pins.size, d.Steady view id → (d.pins.get? id).map view = (c.pins.get? id).map view

variable {c d e : Circuit}

theorem Steady.of_chips {id : PinId} (steady : d.Steady view id)
    (chips : c.chips.map Chip.body <+: d.chips.map Chip.body) : c.Steady view id := by
  intro device member own
  obtain ⟨now, inChips, same⟩ := List.mem_map.mp (chips.subset (List.mem_map_of_mem member))
  obtain ⟨memory, rfl⟩ := Chip.body_eq_device same
  have kept := steady _ inChips own
  exact kept

/-- A new chip takes fresh pins and leaves the others as they are. -/
theorem get?_withChip_of_lt (chip : Chip) {id : PinId} (allocated : id < c.pins.size) :
    (c.withChip chip).pins.get? id = c.pins.get? id := by
  obtain ⟨pins, table, handles⟩ := chip.setup_fresh c.pins
  have foreign : id ∉ (chip.setup c.pins).1.handles := by
    rw [handles, PinTable.freshHandles, List.mem_range'_1]
    exact fun fresh => Nat.not_lt.mpr fresh.1 allocated
  rw [withChip, Chip.get?_bindSources_of_notMem foreign, table, PinTable.get?_allocateAll_of_lt _ allocated]

theorem ticked_bodies (c : Circuit) : c.ticked.chips.map Chip.body = c.chips.map Chip.body := by
  simp only [ticked, List.map_map, Function.comp_def, Chip.body_next]

namespace Extends

theorem refl (view : Pin → α) (c : Circuit) : c.Extends view c :=
  ⟨Nat.le_refl _, List.prefix_rfl, List.prefix_rfl, List.prefix_rfl, fun _ _ _ => rfl⟩

theorem trans (first : c.Extends view d) (second : d.Extends view e) : c.Extends view e where
  size := Nat.le_trans first.size second.size
  chips := first.chips.trans second.chips
  inputs := first.inputs.trans second.inputs
  wires := first.wires.trans second.wires
  pins := by
    intro id allocated steady
    rw [second.pins id (Nat.lt_of_lt_of_le allocated first.size) steady]
    exact first.pins id allocated (steady.of_chips second.chips)

/-- A circuit that differs in the levels of its pins only. -/
theorem of_levels (size : d.pins.size = c.pins.size) (chips : d.chips.map Chip.body = c.chips.map Chip.body)
    (inputs : d.inputs = c.inputs) (wires : c.wires <+: d.wires)
    (pins : ∀ id, d.Steady view id → (d.pins.get? id).map view = (c.pins.get? id).map view) : c.Extends view d where
  size := Nat.le_of_eq size.symm
  chips := chips ▸ List.prefix_rfl
  inputs := inputs ▸ List.prefix_rfl
  wires := wires
  pins := fun id _ steady => pins id steady

theorem withChip (view : Pin → α) (c : Circuit) (chip : Chip) : c.Extends view (c.withChip chip) := by
  refine ⟨?_, ?_, List.prefix_rfl, List.prefix_rfl, fun id allocated _ => ?_⟩
  · obtain ⟨pins, table, _⟩ := chip.setup_fresh c.pins
    rw [Circuit.withChip, Chip.size_bindSources, table, PinTable.size_allocateAll]
    exact Nat.le_add_right _ _
  · rw [Circuit.withChip, List.map_append]
    exact List.prefix_append _ _
  · rw [get?_withChip_of_lt chip allocated]

theorem addInput (view : Pin → α) (c : Circuit) (label : String) : c.Extends view (c.addInput label) := by
  refine ⟨?_, List.prefix_rfl, List.prefix_append _ _, List.prefix_rfl, fun id allocated _ => ?_⟩
  · rw [Circuit.addInput, PinTable.size_allocate]
    exact Nat.le_succ _
  · rw [Circuit.addInput, PinTable.get?_allocate, if_neg (Nat.ne_of_lt allocated)]

/-- Where there are no more pins than before, all of them show what they did. -/
theorem view_eq (grown : c.Extends view d) (size : d.pins.size = c.pins.size)
    {id : PinId} (steady : d.Steady view id) : (d.pins.get? id).map view = (c.pins.get? id).map view := by
  by_cases allocated : id < c.pins.size
  · exact grown.pins id allocated steady
  · have above := Nat.le_of_not_lt allocated
    rw [(PinTable.get?_eq_none_iff _ _).mpr above, (PinTable.get?_eq_none_iff _ _).mpr (size ▸ above)]

variable (steady : ∀ level pin, view (pin.withLevel level) = view pin)
include steady

theorem withWire (c : Circuit) (wire : Wire) : c.Extends view (c.withWire wire) :=
  of_levels (c.pins.size_carry wire) rfl rfl (List.prefix_append _ _)
    fun id _ => PinTable.view_setLevel steady c.pins wire.target id _

theorem setInput (c : Circuit) (id : PinId) (level : Level) : c.Extends view (c.setInput id level) := by
  refine of_levels ?_ rfl rfl List.prefix_rfl fun other _ => ?_
  · exact (PinTable.size_settle _ _).trans (c.pins.size_setLevel id level)
  · exact (PinTable.view_settle steady _ _ _).trans (PinTable.view_setLevel steady _ _ _ _)

theorem ticked (c : Circuit) : c.Extends view c.ticked := by
  refine of_levels ((PinTable.size_settle _ _).trans (c.pins.size_modifyAll _)) c.ticked_bodies rfl List.prefix_rfl ?_
  intro id still
  refine (PinTable.view_settle steady _ _ _).trans ?_
  cases found : c.pins.get? id with
  | none =>
    have above := (PinTable.get?_eq_none_iff _ _).mp found
    rw [(PinTable.get?_eq_none_iff _ _).mpr (by rw [PinTable.size_modifyAll]; exact above)]
  | some pin =>
    have shows : (c.pins.get? id).map view = some (view pin) := congrArg (Option.map view) found
    refine PinTable.view_modifyAll ?_ shows
    intro edit member same now shown
    obtain ⟨chip, inChips, written⟩ := List.mem_flatMap.mp member
    refine Chip.view_edit steady written ?_ (same ▸ shows) shown
    rintro device rfl
    have before : c.Steady view id := still.of_chips (c.ticked_bodies ▸ List.prefix_rfl)
    exact before device inChips (same ▸ Chip.mem_handles_of_writes written)

theorem after (c : Circuit) (operation : Operation) : c.Extends view (c.after operation) := by
  cases operation with
  | addChip chip => exact withChip view c chip
  | addInput label => exact addInput view c label
  | connect source target =>
    rw [after_connect]
    split
    · exact withWire steady c _
    · exact refl view c
  | setInput id level => exact setInput steady c id level
  | step => exact ticked steady c
  | run ticks =>
    rw [Circuit.after]
    induction ticks generalizing c with
    | zero => exact refl view c
    | succ ticks ih => exact (ticked steady c).trans (ih c.ticked)
  | clockIn data clock bit =>
    have high := (setInput steady c data bit).trans (setInput steady _ clock .high)
    have low := (high.trans (ticked steady _)).trans (setInput steady _ clock .low)
    exact low.trans (ticked steady _)

theorem foldl_after (c : Circuit) (operations : List Operation) :
    c.Extends view (operations.foldl Circuit.after c) := by
  induction operations generalizing c with
  | nil => exact refl view c
  | cons operation operations ih => exact (after steady c operation).trans (ih (c.after operation))

end Extends

end Circuit

end

end LogicBoard
