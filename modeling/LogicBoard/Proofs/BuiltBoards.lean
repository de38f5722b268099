import LogicBoard.Proofs.BoardRuns

namespace LogicBoard

/-- The register that a placement describes, before it has pins. -/
def Chip.restored (p : Placement) : Chip := register { outline := .ofPlacement p }

namespace Catalog

/-- The standard catalog makes a chip of a placement when its dump type is the register's, and then it is the register
that the placement describes. -/
theorem standard_ofPlacement_eq_ok_iff {p : Placement} {chip : Chip} :
    (standard.ofPlacement p).result = .ok chip ↔ p.dumpType = ShiftRegister.dumpType ∧ chip = .restored p := by
  have builders : standard.builders = [(ShiftRegister.dumpType, shiftRegister)] := rfl
  by_cases own : p.dumpType = ShiftRegister.dumpType
  · have found : standard.builders.lookup p.dumpType = some shiftRegister := by simp [builders, own]
    have restored := ShiftRegister.restore_result_eq_ok_iff.mpr ⟨own, rfl⟩
    have made : (shiftRegister p).result = .ok (.restored p) := Logged.result_bind_of_ok restored
    rw [ofPlacement, found]
    simp only [made, Except.ok.injEq, own, true_and, eq_comm]
  · have unknown : standard.builders.lookup p.dumpType = none := by simp [builders, own]
    rw [ofPlacement, unknown]
    exact ⟨nofun, fun made => absurd made.1 own⟩

/-- The standard catalog makes cleared registers and nothing else. -/
theorem standard_ofPlacement {p : Placement} {chip : Chip} (made : (standard.ofPlacement p).result = .ok chip) :
    ∃ r, chip = .register r ∧ r.Constructed := by
  obtain ⟨own, rfl⟩ := standard_ofPlacement_eq_ok_iff.mp made
  exact ⟨_, rfl, .restore (ShiftRegister.restore_result_eq_ok_iff.mpr ⟨own, rfl⟩)⟩

end Catalog

namespace Board

theorem makes_standard {entry : ChipEntry} {chip : Chip} (makes : Makes .standard entry chip) :
    ∃ r, chip = .register r ∧ r.Constructed := by
  obtain ⟨p, made⟩ := exists_placement_of_makeChip makes
  exact Catalog.standard_ofPlacement made

theorem registers_of_makes {entries : List ChipEntry} {chips : List Chip}
    (makes : List.Forall₂ (Makes .standard) entries chips) :
    ∀ chip ∈ chips, ∃ r, chip = .register r ∧ r.Constructed := by
  intro chip member
  obtain ⟨i, within, rfl⟩ := List.mem_iff_getElem.mp member
  exact makes_standard (makes.get (makes.length_eq ▸ within) within)

theorem exists_lastNamed_iff {entries : List ChipEntry} {name : String} :
    (∃ i, LastNamed entries name i) ↔ name ∈ entries.map ChipEntry.name := by
  induction entries using List.reverseRecOn with
  | nil => simp [LastNamed]
  | append_singleton entries entry ih =>
    simp only [lastNamed_append_singleton]
    by_cases same : entry.name = name
    · simp [same]
    · simp [same, ih, Ne.symm same]

theorem LastNamed.unique {entries : List ChipEntry} {name other : String} {i : Nat} (first : LastNamed entries name i)
    (second : LastNamed entries other i) : name = other :=
  Option.some.inj (first.1.symm.trans second.1)

section
variable {labels : List String} {entries : List ChipEntry} {chips : List Chip} {b : Board}

theorem Furnished.input?_isSome (furnished : Furnished labels entries chips b) (label : String) :
    (b.circuit.input? label).isSome ↔ label ∈ labels := by
  rw [Circuit.input?, List.find?_isSome, furnished.inputs]
  constructor
  · rintro ⟨i, member, labelled⟩
    obtain ⟨other, atI⟩ : ∃ other, labels[i]? = some other := ⟨_, List.getElem?_eq_getElem (List.mem_range.mp member)⟩
    rw [furnished.labelled i other atI] at labelled
    cases of_decide_eq_true labelled
    exact List.mem_of_getElem? atI
  · intro member
    obtain ⟨i, atI⟩ := List.mem_iff_getElem?.mp member
    refine ⟨i, List.mem_range.mpr (List.getElem?_eq_some_iff.mp atI).1, ?_⟩
    rw [furnished.labelled i label atI]
    exact decide_eq_true rfl

theorem Furnished.chipId?_isSome (furnished : Furnished labels entries chips b) (name : String) :
    (b.chipId? name).isSome ↔ name ∈ entries.map ChipEntry.name := by
  rw [Option.isSome_iff_exists, ← exists_lastNamed_iff]
  exact exists_congr fun i => furnished.named name i

/-- All chips stand cleared when each of them was made cleared. -/
theorem Furnished.cleared (furnished : Furnished labels entries chips b)
    (registers : ∀ chip ∈ chips, ∃ r, chip = .register r ∧ r.Constructed) {i : Nat}
    (within : i < b.circuit.chips.length) :
    ∃ r, b.circuit.chips[i]? = some (.register r) ∧ r.register = 0 ∧ r.phase = .armed := by
  rw [furnished.count, ← furnished.paired] at within
  have atI := List.getElem?_eq_getElem within
  obtain ⟨table, _, placed, _⟩ := furnished.seated i _ atI
  obtain ⟨r, same, constructed⟩ := registers _ (List.getElem_mem within)
  rw [same] at placed
  exact ⟨_, placed, constructed.cleared.1, constructed.cleared.2⟩

end

section
variable {catalog : Catalog} {d : Description} {chips : List Chip}

theorem withEntries_circuit (b : Board) {entries : List ChipEntry} (paired : chips.length = entries.length) :
    (b.withEntries entries chips).circuit = (chips.map Operation.addChip).foldl Circuit.after b.circuit := by
  induction chips generalizing b entries with
  | nil =>
    cases entries with
    | nil => rfl
    | cons entry entries => cases paired
  | cons chip chips ih =>
    cases entries with
    | nil => cases paired
    | cons entry entries => exact ih _ (Nat.succ.inj paired)

/-- A board before any wire is the work of operations on an empty circuit. -/
theorem furnished_circuit (paired : chips.length = d.chips.length) : (furnished d chips).circuit =
    (d.inputs.map Operation.addInput ++ chips.map Operation.addChip).foldl Circuit.after { name := d.name } := by
  rw [furnished, withEntries_circuit _ paired, List.foldl_append, List.foldl_map (l := d.inputs)]
  rfl

theorem sound_furnished (makes : List.Forall₂ (Makes .standard) d.chips chips)
    (fits : Word.fits64 (chips.map Chip.sourceCount).sum) : (furnished d chips).Sound := by
  have start := furnished_furnished .standard makes
  have registers := registers_of_makes makes
  have seats : Circuit.Seats { name := d.name } := fun r member => by simp at member
  refine ⟨?_, fun chip member => ?_, ?_, ?_, fun name i named => ?_, fun name other i first second => ?_⟩
  · rw [furnished_circuit start.paired]
    exact (Circuit.WellFormed.new d.name).foldl_after _
  · obtain ⟨i, atI⟩ := List.mem_iff_getElem?.mp member
    obtain ⟨r, same, _⟩ := start.cleared registers (List.getElem?_eq_some_iff.mp atI).1
    exact ⟨r, Option.some.inj (atI.symm.trans same)⟩
  · rw [furnished_circuit start.paired]
    exact seats.foldl_after (.new d.name) _
  · exact Circuit.hasRoom_iff.mpr ⟨by rw [start.ticks]; rfl, by rwa [start.sources]⟩
  · have last := (start.named name i).mp named
    rw [start.count]
    by_contra beyond
    rw [LastNamed, List.getElem?_eq_none (Nat.le_of_not_lt beyond)] at last
    cases last.1
  · exact ((start.named name i).mp first).unique ((start.named other i).mp second)

theorem Sound.withWires {b : Board} (sound : b.Sound) {wires : List Wire}
    (allocated : ∀ wire ∈ wires, wire.source < b.circuit.pins.size ∧ wire.target < b.circuit.pins.size) :
    (b.withWires wires).Sound where
  wellFormed :=
    ⟨sound.wellFormed.placed, sound.wellFormed.owned, List.forall_mem_append.mpr ⟨sound.wellFormed.wired, allocated⟩⟩
  registers := sound.registers
  seats := sound.seats
  counted := sound.counted
  indexed := sound.indexed
  distinct := sound.distinct

theorem allocated_wires {b : Board} {pinOf : PinReference → PinId} {connections : List Connection}
    (resolved : ∀ reference ∈ connections.flatMap Connection.references, b.resolve reference = .ok (pinOf reference)) :
    ∀ wire ∈ connections.flatMap (Connection.wires pinOf),
      wire.source < b.circuit.pins.size ∧ wire.target < b.circuit.pins.size := by
  intro wire member
  obtain ⟨connection, inConnections, inWires⟩ := List.mem_flatMap.mp member
  obtain ⟨target, inTargets, rfl⟩ := List.mem_map.mp inWires
  have atSource := resolved _ (List.mem_flatMap.mpr ⟨connection, inConnections, List.mem_cons_self⟩)
  have atTarget := resolved _ (List.mem_flatMap.mpr ⟨connection, inConnections, List.mem_cons_of_mem _ inTargets⟩)
  exact ⟨allocated_of_resolve atSource, allocated_of_resolve atTarget⟩

/-- A board that could be built is the furnished one with the wires between the pins that the references stand for. -/
theorem eq_withWires_of_build (stocked : catalog.Stocked) {b : Board} (ran : (build catalog d).result = .ok b) :
    ∃ chips pinOf, List.Forall₂ (Makes catalog) d.chips chips ∧ Word.fits64 (chips.map Chip.sourceCount).sum ∧
      (∀ reference ∈ d.references, (furnished d chips).resolve reference = .ok (pinOf reference)) ∧
      b = (furnished d chips).withWires (d.connections.flatMap (Connection.wires pinOf)) := by
  rcases build_cases stocked d with ⟨failure, failed, _⟩ | ⟨chips, _, _, _, makes, fits, resolved⟩
  · rw [ran] at failed
    cases failed
  · choose! pinOf resolved using resolved
    have start := furnished_furnished stocked makes
    refine ⟨chips, pinOf, makes, fits, resolved, ?_⟩
    rw [build_result, Logged.result_bind_of_ok ((addEntries_bare makes).trans (if_pos fits)),
      addConnections_ok start.low resolved] at ran
    exact (Except.ok.inj ran).symm

theorem sound_of_build {b : Board} (ran : (build .standard d).result = .ok b) : b.Sound := by
  obtain ⟨chips, pinOf, makes, fits, resolved, rfl⟩ := eq_withWires_of_build .standard ran
  exact (sound_furnished makes fits).withWires (allocated_wires resolved)

end

end Board

end LogicBoard
