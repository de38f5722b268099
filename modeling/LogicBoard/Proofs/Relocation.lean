import LogicBoard.Proofs.DescriptionOrder

namespace LogicBoard

/-- Handles and size alone, without place and flags. -/
def Outline.unplaced (o : Outline) : Outline := { o with x := 0, y := 0, x2 := 0, y2 := 0, flags := 0 }

namespace Chip

/-- The chip as it would be at the origin with no flag set. -/
def unplaced : Chip → Chip
  | register r => register { r with outline := r.outline.unplaced }
  | device d => device { d with outline := d.outline.unplaced }

theorem unplaced_setup (chip : Chip) (table : PinTable) :
    chip.unplaced.setup table = ((chip.setup table).1.unplaced, (chip.setup table).2) := by
  cases chip <;> rfl

theorem unplaced_handles (chip : Chip) : chip.unplaced.handles = chip.handles := by
  cases chip <;> rfl

theorem unplaced_sourceCount (chip : Chip) : chip.unplaced.sourceCount = chip.sourceCount := by
  cases chip <;> rfl

theorem unplaced_bindSources (chip : Chip) (first : Nat) (table : PinTable) :
    chip.unplaced.bindSources first table = chip.bindSources first table := by
  cases chip <;> rfl

theorem unplaced_next (chip : Chip) (table : PinTable) : chip.unplaced.next table = (chip.next table).unplaced := by
  cases chip with
  | register r =>
    have next (sample : Sample) : ({ r with outline := r.outline.unplaced } : ShiftRegister).next sample =
        { r.next sample with outline := (r.next sample).outline.unplaced } := by
      obtain ⟨data, clock⟩ := sample
      obtain ⟨outline, register, phase⟩ := r
      cases clock <;> cases phase <;> rfl
    exact congrArg register (next (r.sample table))
  | device d => rfl

theorem unplaced_writes (chip : Chip) (table : PinTable) : chip.unplaced.writes table = chip.writes table := by
  cases chip <;> rfl

theorem unplaced_levels (chip : Chip) (table : PinTable) :
    (chip.unplaced.placement table).levels = (chip.placement table).levels := by
  cases chip <;> rfl

end Chip

/-- The operation with a chip to add taken to the origin. -/
def Operation.unplaced : Operation → Operation
  | addChip chip => addChip chip.unplaced
  | operation => operation

theorem Operation.Drives.unplaced {operation : Operation} (drives : operation.Drives) :
    operation.unplaced = operation := by
  cases operation with
  | addChip | addInput | connect => exact drives.elim
  | setInput | step | run | clockIn => rfl

namespace Circuit
variable {c d : Circuit}

/-- The circuit without its name and with all chips at the origin. -/
def unplaced (c : Circuit) : Circuit := { c with name := "", chips := c.chips.map Chip.unplaced }

theorem unplaced_ticks (c : Circuit) : c.unplaced.ticks = c.ticks := rfl

theorem unplaced_input? (c : Circuit) : c.unplaced.input? = c.input? := rfl

theorem unplaced_post? (c : Circuit) : c.unplaced.post? = c.post? := by
  funext i n
  rw [post?, post?, unplaced, List.getElem?_map]
  cases c.chips[i]? with
  | none => rfl
  | some chip => exact congrArg (·[n]?) chip.unplaced_handles

theorem unplaced_withChip (c : Circuit) (chip : Chip) :
    c.unplaced.withChip chip.unplaced = (c.withChip chip).unplaced := by
  simp only [unplaced, withChip, Chip.unplaced_setup, Chip.unplaced_bindSources, Chip.unplaced_sourceCount,
    List.map_append, List.map_singleton]

theorem unplaced_ticked (c : Circuit) : c.unplaced.ticked = c.ticked.unplaced := by
  simp only [unplaced, ticked, List.map_map, List.flatMap_map, Function.comp_def, Chip.unplaced_next,
    Chip.unplaced_writes]

theorem unplaced_iterate_ticked (c : Circuit) (ticks : Nat) :
    ticked^[ticks] c.unplaced = (ticked^[ticks] c).unplaced := by
  induction ticks generalizing c with
  | zero => rfl
  | succ ticks ih => rw [Function.iterate_succ_apply, Function.iterate_succ_apply, unplaced_ticked, ih]

/-- No operation asks for the place of a chip. -/
theorem unplaced_after (c : Circuit) (operation : Operation) :
    c.unplaced.after operation.unplaced = (c.after operation).unplaced := by
  cases operation with
  | addChip chip => exact c.unplaced_withChip chip
  | addInput | setInput => rfl
  | connect source target =>
    exact (apply_ite unplaced (source < c.pins.size ∧ target < c.pins.size) (c.withWire ⟨source, target⟩) c).symm
  | step => exact c.unplaced_ticked
  | run ticks => exact c.unplaced_iterate_ticked ticks
  | clockIn data clock bit =>
    have first := unplaced_ticked ((c.setInput data bit).setInput clock .high)
    have second := unplaced_ticked (((c.setInput data bit).setInput clock .high).ticked.setInput clock .low)
    exact (congrArg (fun d => (d.setInput clock .low).ticked) first).trans second

theorem unplaced_foldl_after (c : Circuit) (operations : List Operation) :
    (operations.map Operation.unplaced).foldl after c.unplaced = (operations.foldl after c).unplaced := by
  induction operations generalizing c with
  | nil => rfl
  | cons operation operations ih => rw [List.map_cons, List.foldl_cons, unplaced_after, ih, List.foldl_cons]

/-- Circuits of registers that differ in nothing but their names and the places of their chips. -/
structure Relocated (c d : Circuit) : Prop where
  pins : c.pins = d.pins
  inputs : c.inputs = d.inputs
  wires : c.wires = d.wires
  sources : c.sources = d.sources
  ticks : c.ticks = d.ticks
  registers : List.Forall₂ (fun one other => ∃ r s, one = .register r ∧ other = .register s ∧ r.register = s.register ∧
    r.phase = s.phase ∧ r.outline.unplaced = s.outline.unplaced) c.chips d.chips
  lines : c.dump.map Placement.levelTokens = d.dump.map Placement.levelTokens

theorem levelTokens_dump (c : Circuit) : c.dump.map Placement.levelTokens =
    c.unplaced.chips.map fun chip => (chip.placement c.pins).levels.map Placement.levelToken := by
  rw [dump, unplaced, List.map_map, List.map_map]
  refine List.map_congr_left fun chip _ => ?_
  simp only [Function.comp_apply, Chip.dump, Placement.levelTokens_line, Chip.unplaced_levels]

theorem relocated_of_unplaced_eq (registers : c.AllRegisters) (same : c.unplaced = d.unplaced) : c.Relocated d := by
  obtain ⟨_, pins, chips, inputs, wires, sources, ticks⟩ := (Circuit.mk.injEq ..).mp same
  refine ⟨pins, inputs, wires, sources, ticks, ?_, by rw [levelTokens_dump, levelTokens_dump, same, pins]⟩
  have pairs : List.Forall₂ (· = ·) (c.chips.map Chip.unplaced) (d.chips.map Chip.unplaced) :=
    List.forall₂_eq_eq_eq ▸ chips
  rw [List.forall₂_map_left_iff, List.forall₂_map_right_iff] at pairs
  obtain ⟨lengths, paired⟩ := List.forall₂_iff_zip.mp pairs
  refine List.forall₂_iff_zip.mpr ⟨lengths, fun {one other} member => ?_⟩
  obtain ⟨r, rfl⟩ := registers one (List.of_mem_zip member).1
  have unplaced := paired member
  cases other with
  | register s =>
    have fields := Chip.register.inj unplaced
    exact ⟨r, s, rfl, rfl, congrArg (·.register) fields, congrArg (·.phase) fields, congrArg (·.outline) fields⟩
  | device d => cases unplaced

/-- Driving two circuits alike keeps them alike but for the places, and neither runs out of ticks alone. -/
theorem performAll_unplaced {operations : List Operation} (wellFormed : c.WellFormed ∧ d.WellFormed)
    (counted : c.hasRoom 0 0 ∧ d.hasRoom 0 0) (registers : c.AllRegisters) (same : c.unplaced = d.unplaced)
    (drives : ∀ operation ∈ operations, operation.Drives) :
    (Word.fits64 (c.ticks + (operations.map Operation.ticks).sum) ∧ ∃ c' d', (performAll operations c).result = .ok c' ∧
        (performAll operations d).result = .ok d' ∧ c'.Relocated d') ∨
      (¬Word.fits64 (c.ticks + (operations.map Operation.ticks).sum) ∧
        (performAll operations c).result = .error (.overflow .add) ∧
        (performAll operations d).result = .error (.overflow .add)) := by
  have still : operations.map Operation.unplaced = operations :=
    (List.map_congr_left fun operation member => (drives operation member).unplaced).trans (List.map_id _)
  have now := unplaced_foldl_after c operations
  rw [same, unplaced_foldl_after] at now
  have ticks : d.ticks = c.ticks := by rw [← unplaced_ticks, ← same, unplaced_ticks]
  have ranC := wellFormed.1.performAll_driven counted.1 drives
  have ranD := wellFormed.2.performAll_driven counted.2 drives
  rw [ticks] at ranD
  by_cases fits : Word.fits64 (c.ticks + (operations.map Operation.ticks).sum)
  · rw [if_pos fits] at ranC ranD
    refine .inl ⟨fits, _, _, ranC, ranD, relocated_of_unplaced_eq ?_ now.symm⟩
    exact registers.foldl_after fun chip member => (drives _ member).elim
  · rw [if_neg fits] at ranC ranD
    exact .inr ⟨fits, ranC, ranD⟩

end Circuit

namespace Board
variable {a b : Board}

/-- The standard catalog makes registers that differ in nothing but their places. -/
theorem unplaced_of_makes {entry other : ChipEntry} {chip mate : Chip} (makes : Makes .standard entry chip)
    (makesMate : Makes .standard other mate) : chip.unplaced = mate.unplaced := by
  obtain ⟨p, made⟩ := exists_placement_of_makeChip makes
  obtain ⟨q, madeMate⟩ := exists_placement_of_makeChip makesMate
  obtain ⟨_, rfl⟩ := Catalog.standard_ofPlacement_eq_ok_iff.mp made
  obtain ⟨_, rfl⟩ := Catalog.standard_ofPlacement_eq_ok_iff.mp madeMate
  rfl

theorem map_unplaced_of_makes {entries others : List ChipEntry} {chips mates : List Chip}
    (makes : List.Forall₂ (Makes .standard) entries chips) (makesMates : List.Forall₂ (Makes .standard) others mates)
    (count : entries.length = others.length) : chips.map Chip.unplaced = mates.map Chip.unplaced := by
  have lengths : chips.length = mates.length := makes.length_eq.symm.trans (count.trans makesMates.length_eq)
  refine List.ext_getElem (by rw [List.length_map, List.length_map, lengths]) fun i atChips atMates => ?_
  rw [List.length_map] at atChips atMates
  rw [List.getElem_map, List.getElem_map]
  exact unplaced_of_makes (makes.get (makes.length_eq ▸ atChips) atChips)
    (makesMates.get (makesMates.length_eq ▸ atMates) atMates)

/-- What a reference stands for does not depend on the places of chips. -/
theorem resolve_eq_of_unplaced (sound : a.Sound ∧ b.Sound) (named : a.chipId? = b.chipId?)
    (same : a.circuit.unplaced = b.circuit.unplaced) : a.resolve = b.resolve := by
  have inputs : a.circuit.input? = b.circuit.input? := by
    rw [← Circuit.unplaced_input?, same, Circuit.unplaced_input?]
  have post : a.post? = b.post? := by
    funext name n
    rw [post?, post?, named, ← a.circuit.unplaced_post?, ← b.circuit.unplaced_post?, same]
  funext reference
  rw [resolve, resolve, sound.1.pin_eq, sound.2.pin_eq, inputs, named, post]

section
variable {d e : Description}

theorem Furnished.chipId?_eq {labels : List String} {entries others : List ChipEntry} {chips mates : List Chip}
    (furnished : Furnished labels entries chips a) (other : Furnished labels others mates b)
    (names : entries.map ChipEntry.name = others.map ChipEntry.name) : a.chipId? = b.chipId? := by
  have lastNamed (name : String) (i : Nat) : LastNamed entries name i ↔ LastNamed others name i := by
    simp only [LastNamed, ← List.getElem?_map, names]
  funext name
  refine Option.ext fun i => ?_
  rw [furnished.named, other.named, lastNamed]

theorem furnished_unplaced {chips mates : List Chip} (inputs : d.inputs = e.inputs)
    (paired : chips.length = d.chips.length) (pairedMates : mates.length = e.chips.length)
    (same : chips.map Chip.unplaced = mates.map Chip.unplaced) :
    (furnished d chips).circuit.unplaced = (furnished e mates).circuit.unplaced := by
  have operations (labels : List String) (chips : List Chip) :
      (labels.map Operation.addInput ++ chips.map Operation.addChip).map Operation.unplaced =
        labels.map Operation.addInput ++ (chips.map Chip.unplaced).map Operation.addChip := by
    simp only [List.map_append, List.map_map]
    rfl
  rw [furnished_circuit paired, furnished_circuit pairedMates, ← Circuit.unplaced_foldl_after,
    ← Circuit.unplaced_foldl_after, operations, operations, inputs, same]
  rfl

/-- Descriptions with the same inputs, names and connections lead to boards that differ in the places of their chips at
most, and on which all references stand for the same pins. -/
theorem unplaced_of_build (inputs : d.inputs = e.inputs)
    (names : d.chips.map ChipEntry.name = e.chips.map ChipEntry.name) (connections : d.connections = e.connections)
    (builtD : (build .standard d).result = .ok a) (builtE : (build .standard e).result = .ok b) :
    a.circuit.unplaced = b.circuit.unplaced ∧ a.chipId? = b.chipId? ∧ a.resolve = b.resolve := by
  obtain ⟨chips, f, makesD, fitsD, resolvedD, rfl⟩ := eq_withWires_of_build .standard builtD
  obtain ⟨mates, g, makesE, fitsE, resolvedE, rfl⟩ := eq_withWires_of_build .standard builtE
  have count : d.chips.length = e.chips.length := by simpa using congrArg List.length names
  have startD := furnished_furnished .standard makesD
  have startE := furnished_furnished .standard makesE
  have same := furnished_unplaced inputs startD.paired startE.paired (map_unplaced_of_makes makesD makesE count)
  have named : (furnished d chips).chipId? = (furnished e mates).chipId? :=
    startD.chipId?_eq (inputs ▸ startE) names
  have resolve := resolve_eq_of_unplaced ⟨sound_furnished makesD fitsD, sound_furnished makesE fitsE⟩ named same
  have wires : d.connections.flatMap (Connection.wires f) = e.connections.flatMap (Connection.wires g) := by
    rw [← connections, ← List.forall₂_eq_eq_eq]
    have ends : ∀ reference ∈ d.references, f reference = g reference := by
      intro reference member
      have atE := resolvedE reference (by rwa [Description.references, ← connections])
      rw [← resolve, resolvedD reference member] at atE
      exact Except.ok.inj atE
    exact (forall₂_wires ends).imp fun u v same => (Wire.mk.injEq ..).mpr same
  refine ⟨?_, named, resolve⟩
  rw [wires]
  exact congrArg (fun c => { c with wires := c.wires ++ e.connections.flatMap (Connection.wires g) }) same

/-- Placement lines, component types and positions have no part in what a board does. Boards with the same inputs, the
same connections and chips of the same names use the same pins for the same names, and when they are driven alike, they
either both run out of ticks or come to circuits that differ in the places of their chips at most. -/
theorem build_relocated (inputs : d.inputs = e.inputs)
    (names : d.chips.map ChipEntry.name = e.chips.map ChipEntry.name) (connections : d.connections = e.connections)
    (builtD : (build .standard d).result = .ok a) (builtE : (build .standard e).result = .ok b) :
    a.chipId? = b.chipId? ∧ a.resolve = b.resolve ∧
      ∀ operations : List Operation, (∀ operation ∈ operations, operation.Drives) →
        (Word.fits64 (operations.map Operation.ticks).sum ∧ ∃ c' d',
          (Circuit.performAll operations a.circuit).result = .ok c' ∧
          (Circuit.performAll operations b.circuit).result = .ok d' ∧ c'.Relocated d') ∨
        (¬Word.fits64 (operations.map Operation.ticks).sum ∧
          (Circuit.performAll operations a.circuit).result = .error (.overflow .add) ∧
          (Circuit.performAll operations b.circuit).result = .error (.overflow .add)) := by
  obtain ⟨same, named, resolve⟩ := unplaced_of_build inputs names connections builtD builtE
  have soundA := sound_of_build builtD
  have soundB := sound_of_build builtE
  obtain ⟨_, _, built⟩ := exists_built_of_build .standard builtD
  refine ⟨named, resolve, fun operations drives => ?_⟩
  have ran := Circuit.performAll_unplaced ⟨soundA.wellFormed, soundB.wellFormed⟩ ⟨soundA.counted, soundB.counted⟩
    soundA.registers same drives
  rwa [built.ticks, Nat.zero_add] at ran

end

/-- The two registers of `pair` by placement lines, one of them turned over and the other one with levels saved and with
a component type that nobody knows. -/
def pairMoved : Description where
  name := "pair moved"
  description := "the same somewhere else"
  inputs := pair.inputs
  chips := [⟨"u", none, some "189 -5 6 139 6 1024 true false true", none⟩,
    ⟨"v", some "unknown", some "189 0 96 144 96 4294967295 true true true true true true true true true", some (1, 1)⟩]
  connections := pair.connections

/-- A bit for `u`, an output of `v` set by hand, and then another bit. -/
def pairOperations : List Operation := [.clockIn 0 1 .high, .setInput 20 .high, .step, .run 3, .clockIn 0 1 .low]

theorem pairMoved_relocated : ∃ a b c d, (build .standard pair).result = .ok a ∧
    (build .standard pairMoved).result = .ok b ∧ (Circuit.performAll pairOperations a.circuit).result = .ok c ∧
    (Circuit.performAll pairOperations b.circuit).result = .ok d ∧ c.Relocated d ∧
    c.dump = ["189 0 0 0 0 0 false true false false false false false false",
      "189 3 4 3 4 0 true false false false false false false false"] ∧
    d.dump = ["189 -5 6 139 6 1024 false true false false false false false false",
      "189 0 96 144 96 4294967295 true false false false false false false false"] := by
  have left : (build .standard pair).passes fun a => (Circuit.performAll pairOperations a.circuit).passes fun c =>
      decide (c.dump = ["189 0 0 0 0 0 false true false false false false false false",
        "189 3 4 3 4 0 true false false false false false false false"]) := by
    decide +kernel
  have right : (build .standard pairMoved).passes fun b => (Circuit.performAll pairOperations b.circuit).passes fun d =>
      decide (d.dump = ["189 -5 6 139 6 1024 false true false false false false false false",
        "189 0 96 144 96 4294967295 true false false false false false false false"]) := by
    decide +kernel
  obtain ⟨a, builtA, checkedA⟩ := Logged.passes_iff.mp left
  obtain ⟨c, ranC, linesC⟩ := Logged.passes_iff.mp checkedA
  obtain ⟨b, builtB, checkedB⟩ := Logged.passes_iff.mp right
  obtain ⟨d, ranD, linesD⟩ := Logged.passes_iff.mp checkedB
  have drives : ∀ operation ∈ pairOperations, operation.Drives := by simp [pairOperations, Operation.Drives]
  have inputs : pair.inputs = pairMoved.inputs := rfl
  have names : pair.chips.map ChipEntry.name = pairMoved.chips.map ChipEntry.name := rfl
  have connections : pair.connections = pairMoved.connections := rfl
  rcases (build_relocated inputs names connections builtA builtB).2.2 pairOperations drives with
    ⟨_, c', d', againC, againD, relocated⟩ | ⟨_, failed, _⟩
  · cases ranC.symm.trans againC
    cases ranD.symm.trans againD
    exact ⟨a, b, c, d, builtA, builtB, ranC, ranD, relocated, of_decide_eq_true linesC, of_decide_eq_true linesD⟩
  · cases ranC.symm.trans failed

end Board

end LogicBoard
