import LogicBoard.Proofs.RegisterTick

namespace LogicBoard.ShiftRegister

inductive Constructed : ShiftRegister → Prop
  | place {x y : Int32} {r : ShiftRegister} (made : (place x y).result = .ok r) : Constructed r
  | restore {p : Placement} {r : ShiftRegister} (made : (restore p).result = .ok r) : Constructed r
  | restoreLine {line : String} {r : ShiftRegister} (made : (restoreLine line).result = .ok r) : Constructed r

theorem place_result (x y : Int32) : (place x y).result = .ok { outline := .atPoint x y } := rfl

/-- A placement is accepted when its dump type is the register's own, whatever levels it saves. -/
theorem restore_result_eq_ok_iff {p : Placement} {r : ShiftRegister} :
    (restore p).result = .ok r ↔ p.dumpType = dumpType ∧ r = { outline := .ofPlacement p } := by
  unfold restore
  split
  · rename_i other
    constructor
    · intro made
      cases made
    · intro same
      exact absurd same.1 other
  · rename_i same
    rw [Logged.result_bind_eq_ok_iff]
    constructor
    · rintro ⟨_, _, made⟩
      cases made
      exact ⟨Decidable.not_not.mp same, rfl⟩
    · rintro ⟨_, rfl⟩
      exact ⟨(), rfl, rfl⟩

theorem Constructed.cleared {r : ShiftRegister} (constructed : r.Constructed) :
    r.register = 0 ∧ r.phase = .armed := by
  have restored {p : Placement} (made : (ShiftRegister.restore p).result = .ok r) :
      r.register = 0 ∧ r.phase = .armed := by
    obtain ⟨_, rfl⟩ := restore_result_eq_ok_iff.mp made
    exact ⟨rfl, rfl⟩
  cases constructed with
  | place made =>
    rw [place_result] at made
    cases made
    exact ⟨rfl, rfl⟩
  | restore made => exact restored made
  | restoreLine made =>
    obtain ⟨_, _, made⟩ := Logged.result_bind_eq_ok_iff.mp made
    exact restored made

theorem Constructed.records {r : ShiftRegister} (constructed : r.Constructed) : r.Records [] := by
  obtain ⟨register, phase⟩ := constructed.cleared
  exact ⟨register.trans (packing_nil 8).symm, phase⟩

/-- Runs of one register on one table of pins, from its setup on. The samples are those of the ticks so far, latest
first. Between ticks the register may be set up again or moved, and pins may be added and edited in any way that leaves
the levels of its present outputs alone. -/
inductive Reach : ShiftRegister → PinTable → List Sample → Prop
  | start {r : ShiftRegister} (constructed : r.Constructed) (table : PinTable) :
      Reach (r.setup table).1 (r.setup table).2 []
  | execute {r after : ShiftRegister} {table result : PinTable} {samples : List Sample} :
      Reach r table samples → (r.execute table).result = .ok (after, result) →
      Reach after result (r.sample table :: samples)
  | setup {r : ShiftRegister} {table : PinTable} {samples : List Sample} :
      Reach r table samples → Reach (r.setup table).1 (r.setup table).2 samples
  | move {r : ShiftRegister} {table : PinTable} {samples : List Sample} (outline : Outline) :
      Reach r table samples → outline.handles = r.outline.handles → Reach { r with outline } table samples
  | allocate {r : ShiftRegister} {table : PinTable} {samples : List Sample} (pin : Pin) :
      Reach r table samples → Reach r (table.allocate pin) samples
  | edit {r : ShiftRegister} {table : PinTable} {samples : List Sample} (id : PinId) (change : Pin → Pin) :
      Reach r table samples → (∀ output ∈ r.outputs, (table.modify id change).level output = table.level output) →
      Reach r (table.modify id change) samples

/-- The ten pins of a register stand in the table, and its outputs show the bits of what it has recorded. -/
structure InStep (r : ShiftRegister) (table : PinTable) (samples : List Sample) : Prop where
  records : r.Records samples
  placed : r.Placed
  distinct : r.outline.handles.Nodup
  allocated : ∀ id ∈ r.outline.handles, id < table.size
  shows : ∀ k id, k < 8 → r.outline.handles[2 + k]? = some id → table.level id = .ofBool (r.register.getMsbD k)

theorem Records.inStep_setup {r : ShiftRegister} {samples : List Sample} (records : r.Records samples)
    (table : PinTable) : (r.setup table).1.InStep (r.setup table).2 samples where
  records := ⟨records.register, records.phase⟩
  placed := r.setup_placed table
  distinct := List.nodup_range'
  allocated := by
    intro id member
    have size : (r.setup table).2.size = table.size + 10 := table.size_allocateAll _
    rw [setup_handles, List.mem_range'_1] at member
    rw [size]
    exact member.2
  shows := fun _ _ within atPin => r.level_setup_output within atPin

theorem InStep.execute {r after : ShiftRegister} {table result : PinTable} {samples : List Sample}
    (inStep : r.InStep table samples) (run : (r.execute table).result = .ok (after, result)) :
    after.InStep result (r.sample table :: samples) := by
  rw [execute_placed inStep.placed] at run
  cases run
  refine ⟨inStep.records.next _, ?_, ?_, ?_, ?_⟩
  · exact (congrArg (List.length ∘ Outline.handles) (r.next_outline _)).trans inStep.placed
  · rw [next_outline]
    exact inStep.distinct
  · intro id member
    rw [next_outline] at member
    rw [PinTable.size_modifyAll]
    exact inStep.allocated id member
  · intro k id within atPin
    rw [next_outline] at atPin
    exact level_writes_output _ inStep.distinct within atPin (inStep.allocated id (List.mem_of_getElem? atPin))
      (inStep.shows k id within atPin)

/-- A table that still has the pins of the register, with the outputs at their levels, serves as well. -/
theorem InStep.of_table {r : ShiftRegister} {table other : PinTable} {samples : List Sample}
    (inStep : r.InStep table samples) (size : table.size ≤ other.size)
    (same : ∀ output ∈ r.outputs, other.level output = table.level output) : r.InStep other samples where
  records := inStep.records
  placed := inStep.placed
  distinct := inStep.distinct
  allocated := fun id member => Nat.lt_of_lt_of_le (inStep.allocated id member) size
  shows := by
    intro k id within atPin
    have output : id ∈ r.outputs := by
      have atOutput : r.outputs[k]? = some id := by rw [outputs, List.getElem?_drop, atPin]
      exact List.mem_of_getElem? atOutput
    rw [same id output]
    exact inStep.shows k id within atPin

theorem Reach.inStep {r : ShiftRegister} {table : PinTable} {samples : List Sample}
    (reach : r.Reach table samples) : r.InStep table samples := by
  induction reach with
  | start constructed table => exact constructed.records.inStep_setup table
  | execute _ run ih => exact ih.execute run
  | @setup r table samples _ ih => exact ih.records.inStep_setup table
  | move outline _ same ih =>
    obtain ⟨records, placed, distinct, allocated, shows⟩ := ih
    simp only [← same] at distinct allocated shows
    exact ⟨⟨records.register, records.phase⟩, (congrArg List.length same).trans placed, distinct, allocated, shows⟩
  | @allocate r table samples pin _ ih =>
    refine ih.of_table (by simp) fun output member => ?_
    exact table.level_allocate_of_lt pin (ih.allocated output (List.mem_of_mem_drop member))
  | edit id change _ keeps ih => exact ih.of_table (by simp) keeps

/-- At every point of a run the register holds the data levels of the eight newest rising edges, the detector is
latched exactly while the last clock was high, every bit of the register has its output pin at its level, and
the next tick comes to a result. -/
theorem Reach.register_mirrors_edges {r : ShiftRegister} {table : PinTable} {samples : List Sample}
    (reach : r.Reach table samples) :
    r.register = packing 8 (risingData samples) ∧
    (r.phase = .latched ↔ ∃ sample earlier, samples = sample :: earlier ∧ sample.clock = .high) ∧
    (∀ bit < 8, ∃ id pin, r.outputPin? bit = some id ∧ table.get? id = some pin ∧
      pin.level = .ofBool (r.register.getLsbD bit)) ∧
    ∃ after result, (r.execute table).result = .ok (after, result) := by
  have inStep := reach.inStep
  refine ⟨inStep.records.register, ?_, ?_, _, _, execute_placed inStep.placed table⟩
  · rw [inStep.records.phase]
    exact phaseAfter_eq_latched_iff
  · intro bit within
    obtain ⟨id, atPin⟩ := inStep.placed.handle (by omega : 2 + (7 - bit) < 10)
    have allocated := inStep.allocated id (List.mem_of_getElem? atPin)
    obtain ⟨pin, found⟩ := Option.isSome_iff_exists.mp ((table.get?_isSome_iff id).mpr allocated)
    have shows := inStep.shows (7 - bit) id (by omega) atPin
    have place : 7 - (7 - bit) = bit := by omega
    rw [PinTable.level_of_get? found, getMsbD_eq_getLsbD_of_lt _ (by omega), place] at shows
    exact ⟨id, pin, (r.outputPin?_eq within).trans atPin, found, shows⟩

/-- A register restored with saved levels, clocked once and set up again in the same table. -/
theorem restored_register_mirrors_edge : ∃ r table, Reach r table [⟨.high, .high⟩] ∧ r.register = 128 ∧
    r.phase = .latched ∧ ∃ id pin, r.outputPin? 7 = some id ∧ table.get? id = some pin ∧ pin.level = .high := by
  have reach : ∃ r table, Reach r table [⟨.high, .high⟩] := by
    have saved : (restore { Placement.atPoint dumpType 4 2 with levels := [.low, .high] }).result =
        .ok { outline := .atPoint 4 2 } := rfl
    have placed := Reach.start (.restore saved) .empty
    have ready := (placed.edit 0 (Pin.withLevel .high) (by decide)).edit 1 (Pin.withLevel .high) (by decide)
    have ticked := ready.execute rfl
    exact ⟨_, _, ticked.setup⟩
  obtain ⟨r, table, reach⟩ := reach
  obtain ⟨register, phase, outputs, _⟩ := reach.register_mirrors_edges
  have packed : r.register = 128 := register.trans (by decide)
  refine ⟨r, table, reach, packed, phase.mpr ⟨_, _, rfl, rfl⟩, ?_⟩
  have newest := outputs 7 (by omega)
  rw [packed] at newest
  exact newest

end LogicBoard.ShiftRegister
