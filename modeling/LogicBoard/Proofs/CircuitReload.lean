import LogicBoard.Proofs.BuiltBoards
import LogicBoard.Proofs.DumpLines
import LogicBoard.Proofs.SourceNumbers

namespace LogicBoard

namespace Placement
open Text

/-- The same placement with all saved levels low. -/
def lowered (p : Placement) : Placement := { p with levels := p.levels.map fun _ => .low }

/-- The line with `false` in the place of every token behind the six numbers. -/
def lowerLine (line : String) : String :=
  String.ofList (spaced ((tokens line.toList).take 6 ++ (levelTokens line).map fun _ => "false".toList))

theorem lowerLine_line (p : Placement) : lowerLine p.line = p.lowered.line := by
  rw [lowerLine, levelTokens_line, tokens_line, line]
  simp only [toTokens, lowered, List.cons_append, List.nil_append, List.take_succ_cons, List.take_zero, List.map_map,
    Function.comp_def, levelToken]

theorem lowered_lowered (p : Placement) : p.lowered.lowered = p.lowered := by
  simp only [lowered, List.map_map, Function.comp_def]

end Placement

/-- Position, end point and flags, without size and pins. -/
def Outline.place (o : Outline) : Outline := { x := o.x, y := o.y, x2 := o.x2, y2 := o.y2, flags := o.flags }

namespace Chip

/-- The chip taken off the table, with its place and its state only. -/
def lifted : Chip → Chip
  | register r => register { r with outline := r.outline.place }
  | device d => device { d with outline := d.outline.place }

theorem lifted_setup (chip : Chip) (table : PinTable) : (chip.setup table).1.lifted = chip.lifted := by
  cases chip <;> rfl

theorem lifted_eq_restored {chip : Chip} {p : Placement} (same : chip.lifted = restored p) :
    ∃ r, chip = register r ∧ r.outline.place = .ofPlacement p ∧ r.register = 0 ∧ r.phase = .armed := by
  cases chip with
  | register r =>
    have fields := Chip.register.inj same
    exact ⟨r, rfl, congrArg (·.outline) fields, congrArg (·.register) fields, congrArg (·.phase) fields⟩
  | device d => cases same

end Chip

theorem Catalog.standard_ofLine_line {p : Placement} (own : p.dumpType = ShiftRegister.dumpType) :
    (standard.ofLine p.line).result = .ok (.restored p) := by
  rw [ofLine, Logged.result_bind_of_ok (Logged.result_ofExcept_of_ok p.parse_line)]
  exact standard_ofPlacement_eq_ok_iff.mpr ⟨own, rfl⟩

namespace Circuit
variable {c d : Circuit}

/-- Place a chip for each line. -/
def addLines (catalog : Catalog) : List String → Circuit → Logged Circuit
  | [], c => return c
  | line :: lines, c => do addLines catalog lines (← c.addChip (← catalog.ofLine line))

theorem addLines_result {catalog : Catalog} {lines : List String} {chips : List Chip}
    (makes : List.Forall₂ (fun line chip => (catalog.ofLine line).result = .ok chip) lines chips) (c : Circuit) :
    (addLines catalog lines c).result = (performAll (chips.map .addChip) c).result := by
  induction makes generalizing c with
  | nil => rfl
  | @cons line chip lines chips made _ ih =>
    rw [addLines, Logged.result_bind_of_ok made, List.map_cons, performAll, perform]
    cases added : (c.addChip chip).result with
    | error failure => rw [Logged.result_bind_of_error added, Logged.result_bind_of_error added]
    | ok next => rw [Logged.result_bind_of_ok added, Logged.result_bind_of_ok added, ih]

/-- Circuits of registers in working order: the pins are as they were allocated, and voltage sources as they were
numbered. -/
structure Orderly (c : Circuit) : Prop where
  wellFormed : c.WellFormed
  registers : c.AllRegisters
  seats : c.Seats
  numbered : c.Numbered

theorem orderly_foldl_after {name : String} {operations : List Operation}
    (added : ∀ chip, .addChip chip ∈ operations → ∃ r, chip = .register r) :
    (operations.foldl Circuit.after { name }).Orderly where
  wellFormed := (WellFormed.new name).foldl_after operations
  registers := AllRegisters.foldl_after (fun chip member => by simp at member) added
  seats := (show Seats { name } from fun r member => by simp at member).foldl_after (.new name) operations
  numbered := by
    refine (numbered_new name).foldl_after (.new name) fun chip member => ?_
    obtain ⟨r, rfl⟩ := added chip member
    exact Chip.leavesSources_register r

namespace Orderly

/-- A register has eight outputs. -/
theorem length_outputs (orderly : c.Orderly) {chip : Chip} (member : chip ∈ c.chips) :
    (chip.outline.outputs c.pins).length = 8 := by
  obtain ⟨r, rfl⟩ := orderly.registers chip member
  have flags : (c.pins.select r.outline.handles).map Pin.output = (ShiftRegister.pinout 0).map Pin.output :=
    (orderly.seats r member).map_select fun _ => rfl
  have levels := congrArg List.length (Chip.levels_placement (.register r) c.pins)
  rw [List.length_map] at levels
  rw [← levels]
  have counted := congrArg (List.countP id) flags
  rw [List.countP_map, List.countP_eq_length_filter] at counted
  rw [Chip.placement, List.length_map]
  exact counted

theorem sourceCount (orderly : c.Orderly) {chip : Chip} (member : chip ∈ c.chips) : chip.sourceCount = 8 := by
  obtain ⟨r, rfl⟩ := orderly.registers chip member
  rfl

theorem firstSource_eq (orderly : c.Orderly) {i : Nat} (within : i ≤ c.chips.length) : c.firstSource i = 8 * i := by
  have counts : (c.chips.take i).map Chip.sourceCount = List.replicate i 8 := by
    refine List.eq_replicate_iff.mpr ⟨by rw [List.length_map, List.length_take_of_le within], fun count among => ?_⟩
    obtain ⟨chip, inChips, rfl⟩ := List.mem_map.mp among
    exact orderly.sourceCount (List.mem_of_mem_take inChips)
  rw [firstSource, counts, List.sum_replicate_nat, Nat.mul_comm]

theorem sources_total (orderly : c.Orderly) : c.sources = 8 * c.chips.length := by
  rw [orderly.numbered.total, ← orderly.firstSource_eq (Nat.le_refl _), firstSource, List.take_length]

/-- The outputs of the chip at a place have the eight voltage sources that come with the place. -/
theorem sources_eq (orderly : c.Orderly) {i : Nat} {chip : Chip} (atChip : c.chips[i]? = some chip) :
    (chip.outline.outputs c.pins).map c.pins.source? = (List.range' (8 * i) 8).map some := by
  have member := List.mem_of_getElem? atChip
  have first := orderly.firstSource_eq (Nat.le_of_lt (List.getElem?_eq_some_iff.mp atChip).1)
  refine List.ext_getElem (by simp [orderly.length_outputs member]) fun n inOutputs _ => ?_
  rw [List.length_map] at inOutputs
  have number := orderly.numbered.outputs i chip n _ atChip (List.getElem?_eq_getElem inOutputs)
  rw [orderly.length_outputs member, ← orderly.sourceCount member] at inOutputs
  rw [if_pos inOutputs, first] at number
  simpa using number

end Orderly

/-- The chips that the placement lines of the circuit describe. -/
def restoredChips (c : Circuit) : List Chip := c.chips.map fun chip => .restored (chip.placement c.pins)

/-- The circuit made of the placement lines of another one. -/
def reloaded (c : Circuit) (name : String) : Circuit :=
  (c.restoredChips.map Operation.addChip).foldl Circuit.after { name }

theorem foldl_addChip_lifted (chips : List Chip) (c : Circuit) :
    ((chips.map Operation.addChip).foldl Circuit.after c).chips.map Chip.lifted =
      c.chips.map Chip.lifted ++ chips.map Chip.lifted := by
  induction chips generalizing c with
  | nil => exact (List.append_nil _).symm
  | cons chip chips ih =>
    rw [List.map_cons, List.foldl_cons, ih, after, withChip, List.map_append, List.append_assoc, List.map_singleton,
      Chip.lifted_setup]
    rfl

theorem foldl_addChip_low {chips : List Chip} (starts : ∀ chip ∈ chips, chip.StartsLow) (low : c.pins.Low) :
    ((chips.map Operation.addChip).foldl Circuit.after c).pins.Low := by
  induction chips generalizing c with
  | nil => exact low
  | cons chip chips ih =>
    obtain ⟨here, later⟩ := List.forall_mem_cons.mp starts
    exact ih later (low_withChip low here)

theorem reloaded_orderly (c : Circuit) (name : String) : (c.reloaded name).Orderly := by
  refine orderly_foldl_after fun chip member => ?_
  obtain ⟨other, inChips, same⟩ := List.mem_map.mp member
  obtain ⟨old, _, rfl⟩ := List.mem_map.mp inChips
  cases same
  exact ⟨_, rfl⟩

theorem reloaded_low (c : Circuit) (name : String) : (c.reloaded name).pins.Low := by
  refine foldl_addChip_low (fun chip member => ?_) fun id => by simp [PinTable.level]
  obtain ⟨old, _, rfl⟩ := List.mem_map.mp member
  exact rfl

theorem reloaded_lifted (c : Circuit) (name : String) : (c.reloaded name).chips.map Chip.lifted = c.restoredChips := by
  rw [reloaded, foldl_addChip_lifted, List.map_nil, List.nil_append, restoredChips, List.map_map]
  rfl

theorem reloaded_length (c : Circuit) (name : String) : (c.reloaded name).chips.length = c.chips.length := by
  have lengths := congrArg List.length (c.reloaded_lifted name)
  rwa [List.length_map, restoredChips, List.length_map] at lengths

theorem reloaded_chip {i : Nat} {chip : Chip} (atChip : c.chips[i]? = some chip) (name : String) :
    ∃ r, (c.reloaded name).chips[i]? = some (.register r) ∧ r.outline.place = chip.outline.place ∧ r.register = 0 ∧
      r.phase = .armed := by
  have lifted := congrArg (·[i]?) (c.reloaded_lifted name)
  simp only [restoredChips, List.getElem?_map, atChip, Option.map_some] at lifted
  obtain ⟨placed, atPlaced, same⟩ := Option.map_eq_some_iff.mp lifted
  obtain ⟨r, rfl, place, register, phase⟩ := Chip.lifted_eq_restored same
  exact ⟨r, atPlaced, place, register, phase⟩

namespace Orderly

/-- The lines of a circuit of registers are all accepted, as long as there are voltage sources for the outputs. -/
theorem addLines_dump (orderly : c.Orderly) (fits : Word.fits64 c.sources) (name : String) :
    (addLines .standard c.dump { name }).result = .ok (c.reloaded name) := by
  have makes : List.Forall₂ (fun line chip => (Catalog.standard.ofLine line).result = .ok chip)
      c.dump c.restoredChips := by
    rw [dump, restoredChips, List.forall₂_map_left_iff, List.forall₂_map_right_iff, List.forall₂_same]
    intro chip member
    obtain ⟨r, rfl⟩ := orderly.registers chip member
    exact Catalog.standard_ofLine_line rfl
  have ticks : ((c.restoredChips.map Operation.addChip).map Operation.ticks).sum = 0 := by
    simp [Function.comp_def, Operation.ticks]
  have sources : ((c.restoredChips.map Operation.addChip).map Operation.sources).sum = c.sources := by
    rw [orderly.numbered.total, restoredChips, List.map_map, List.map_map]
    exact congrArg List.sum (List.map_congr_left fun chip member => (orderly.sourceCount member).symm)
  have room : ({ name } : Circuit).hasRoom 0 c.sources := hasRoom_iff.mpr ⟨rfl, (Nat.zero_add _).symm ▸ fits⟩
  rw [addLines_result makes, (WellFormed.new name).performAll_result rfl, ticks, sources, if_pos room, reloaded]

/-- Reloading keeps the placements, but for the levels. -/
theorem reloaded_placements (orderly : c.Orderly) (name : String) :
    (c.reloaded name).chips.map (Chip.placement · (c.reloaded name).pins) =
      c.chips.map fun chip => (chip.placement c.pins).lowered := by
  refine List.ext_getElem? fun i => ?_
  rw [List.getElem?_map, List.getElem?_map]
  cases atChip : c.chips[i]? with
  | none =>
    have beyond := List.getElem?_eq_none_iff.mp atChip
    rw [List.getElem?_eq_none (c.reloaded_length name ▸ beyond)]
    rfl
  | some chip =>
    obtain ⟨r, atReloaded, place, _⟩ := reloaded_chip atChip name
    have member := List.mem_of_getElem? atChip
    obtain ⟨old, rfl⟩ := orderly.registers chip member
    have now : ((Chip.register r).placement (c.reloaded name).pins).levels = List.replicate 8 .low := by
      rw [Chip.levels_placement, List.eq_replicate_iff, List.length_map]
      refine ⟨(c.reloaded_orderly name).length_outputs (List.mem_of_getElem? atReloaded), fun level among => ?_⟩
      obtain ⟨id, _, rfl⟩ := List.mem_map.mp among
      exact c.reloaded_low name id
    have before : ((Chip.register old).placement c.pins).lowered.levels = List.replicate 8 .low := by
      rw [Placement.lowered, Chip.levels_placement, List.map_map, Function.comp_def, List.map_const',
        orderly.length_outputs member]
    simp only [Outline.place, Chip.outline, Outline.mk.injEq, and_true] at place
    obtain ⟨x, y, x2, y2, flags⟩ := place
    rw [atReloaded, Option.map_some, Option.map_some, Option.some.injEq]
    exact (Placement.mk.injEq ..).mpr ⟨rfl, x, y, x2, y2, flags, now.trans before.symm⟩

theorem reloaded_dump (orderly : c.Orderly) (name : String) :
    (c.reloaded name).dump = c.dump.map Placement.lowerLine := by
  have lines := congrArg (List.map Placement.line) (orderly.reloaded_placements name)
  rw [List.map_map, List.map_map] at lines
  rw [dump, dump, List.map_map]
  refine lines.trans (List.map_congr_left fun chip _ => ?_)
  exact (Placement.lowerLine_line _).symm

end Orderly

/-- One circuit is another one reloaded: the same registers at the same places, all cleared, with the same voltage
sources at their outputs. -/
structure Reloads (c d : Circuit) : Prop where
  count : d.chips.length = c.chips.length
  chips : ∀ (i : Nat) chip, c.chips[i]? = some chip → ∃ r, d.chips[i]? = some (.register r) ∧
    r.outline.x = chip.outline.x ∧ r.outline.y = chip.outline.y ∧ r.outline.x2 = chip.outline.x2 ∧
    r.outline.y2 = chip.outline.y2 ∧ r.outline.flags = chip.outline.flags ∧ r.register = 0 ∧ r.phase = .armed
  sources : ∀ (i : Nat) chip other, c.chips[i]? = some chip → d.chips[i]? = some other →
    (chip.outline.outputs c.pins).map c.pins.source? = (List.range' (8 * i) 8).map some ∧
      (other.outline.outputs d.pins).map d.pins.source? = (List.range' (8 * i) 8).map some
  low : d.pins.Low
  lines : d.dump = c.dump.map Placement.lowerLine

theorem Orderly.reloads (orderly : c.Orderly) (name : String) : c.Reloads (c.reloaded name) where
  count := c.reloaded_length name
  chips := by
    intro i chip atChip
    obtain ⟨r, atReloaded, place, cleared⟩ := reloaded_chip atChip name
    simp only [Outline.place, Outline.mk.injEq, and_true] at place
    obtain ⟨x, y, x2, y2, flags⟩ := place
    exact ⟨r, atReloaded, x, y, x2, y2, flags, cleared⟩
  sources := fun i chip other atChip atOther =>
    ⟨orderly.sources_eq atChip, (c.reloaded_orderly name).sources_eq atOther⟩
  low := c.reloaded_low name
  lines := orderly.reloaded_dump name

/-- Whatever run a circuit of registers comes from, an empty circuit accepts all of its placement lines, and the result
is the circuit with its registers cleared and its pins low. Reloading that one leaves the lines as they are. -/
theorem performAll_dump_reloads {name : String} {operations : List Operation}
    (registers : ∀ chip, .addChip chip ∈ operations → ∃ r, chip = .register r)
    (run : (performAll operations { name }).result = .ok c) (fresh again : String) :
    ∃ d, (addLines .standard c.dump { name := fresh }).result = .ok d ∧ c.Reloads d ∧
      ∃ e, (addLines .standard d.dump { name := again }).result = .ok e ∧ d.Reloads e ∧ e.dump = d.dump := by
  obtain ⟨rfl, counted⟩ := (WellFormed.new name).eq_foldl_after rfl run
  have orderly : (operations.foldl Circuit.after { name }).Orderly := orderly_foldl_after registers
  generalize operations.foldl Circuit.after { name } = c at *
  have orderlyNow := c.reloaded_orderly fresh
  have fits : Word.fits64 c.sources := (hasRoom_iff.mp counted).2
  have same : (c.reloaded fresh).sources = c.sources := by
    rw [orderlyNow.sources_total, orderly.sources_total, reloaded_length]
  refine ⟨_, orderly.addLines_dump fits fresh, orderly.reloads fresh, _,
    orderlyNow.addLines_dump (same ▸ fits) again, orderlyNow.reloads again, ?_⟩
  rw [orderlyNow.reloaded_dump, orderly.reloaded_dump, List.map_map, dump, List.map_map, List.map_map]
  refine List.map_congr_left fun chip _ => ?_
  simp only [Function.comp_apply, Chip.dump, Placement.lowerLine_line, Placement.lowered_lowered]

/-- A register at half size and turned over, and one behind it, after two high bits. -/
def turnedOver : List Operation :=
  [.addChip (.register { outline := { x := -3, y := 7, x2 := 80, y2 := 7, flags := 1025 } }),
    .addChip (.register { outline := .atPoint 0 64 }), .addInput "DATA", .addInput "CLK", .connect 20 0, .connect 21 1,
    .connect 21 11, .connect 2 10, .clockIn 20 21 .high, .clockIn 20 21 .high]

theorem turnedOver_dump_reloads : ∃ c d e, (performAll turnedOver { name := "turned" }).result = .ok c ∧
    c.dump = ["189 -3 7 80 7 1025 true true false false false false false false",
      "189 0 64 0 64 0 true false false false false false false false"] ∧
    (addLines .standard c.dump { name := "copy" }).result = .ok d ∧ c.Reloads d ∧
    (addLines .standard d.dump { name := "copy again" }).result = .ok e ∧
    e.dump = ["189 -3 7 80 7 1025 false false false false false false false false",
      "189 0 64 0 64 0 false false false false false false false false"] := by
  have passed : (performAll turnedOver { name := "turned" }).passes fun c =>
      decide (c.dump = ["189 -3 7 80 7 1025 true true false false false false false false",
        "189 0 64 0 64 0 true false false false false false false false"]) := by
    decide +kernel
  obtain ⟨c, run, checked⟩ := Logged.passes_iff.mp passed
  have lines := of_decide_eq_true checked
  have registers : ∀ chip, .addChip chip ∈ turnedOver → ∃ r, chip = .register r := by simp [turnedOver]
  obtain ⟨d, reloaded, reloads, e, again, _, same⟩ := performAll_dump_reloads registers run "copy" "copy again"
  refine ⟨c, d, e, run, lines, reloaded, reloads, again, ?_⟩
  rw [same, reloads.lines, lines]
  decide +kernel

end Circuit

end LogicBoard
