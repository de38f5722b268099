import LogicBoard.Proofs.BuiltBoards
import LogicBoard.Proofs.CircuitRenaming

namespace LogicBoard

theorem PinTable.map_level_select {table : PinTable} {ids : List PinId} (allocated : ∀ id ∈ ids, id < table.size) :
    (table.select ids).map Pin.level = ids.map table.level := by
  induction ids with
  | nil => rfl
  | cons id ids ih =>
    obtain ⟨here, later⟩ := List.forall_mem_cons.mp allocated
    obtain ⟨pin, found⟩ := Option.isSome_iff_exists.mp ((table.get?_isSome_iff id).mpr here)
    rw [select, List.filterMap_cons_some found, List.map_cons, List.map_cons, level_of_get? found, ← ih later, select]

/-- Which pins are outputs, and their levels, make up the byte. -/
theorem Chip.outputByte_congr {chip other : Chip} {a b : PinTable}
    (outputs : (a.select chip.handles).map Pin.output = (b.select other.handles).map Pin.output)
    (levels : (a.select chip.handles).map Pin.level = (b.select other.handles).map Pin.level) :
    chip.outputByte a = other.outputByte b := by
  have through (pins : List Pin) : (pins.filter Pin.output).foldl
      (fun (byte : BitVec 8) pin => byte <<< 1 ||| if pin.level.isHigh then 1 else 0) 0 =
      (((pins.map Pin.output).zip (pins.map Pin.level)).filter Prod.fst).foldl
        (fun (byte : BitVec 8) shown => byte <<< 1 ||| if shown.2.isHigh then 1 else 0) 0 := by
    rw [List.zip_map', List.filter_map, List.foldl_map]
    rfl
  rw [outputByte, outputByte, through, through, outputs, levels]

namespace Board

/-- Two pins with the same name: the inputs with one label, or the pins at one post of the chips with one name. -/
def Twins (a b : Board) (p q : PinId) : Prop :=
  (∃ label, a.circuit.input? label = some p ∧ b.circuit.input? label = some q) ∨
    ∃ name n, a.post? name n = some p ∧ b.post? name n = some q

/-- Two chips with the same name. -/
def Mates (a b : Board) (i j : Nat) : Prop := ∃ name, a.chipId? name = some i ∧ b.chipId? name = some j

/-- Two boards in working order on which the same names are in use. -/
structure Matched (a b : Board) : Prop where
  sound : a.Sound ∧ b.Sound
  inputs : ∀ label, (a.circuit.input? label).isSome ↔ (b.circuit.input? label).isSome
  names : ∀ name, (a.chipId? name).isSome ↔ (b.chipId? name).isSome

/-- Two boards on which every reference and every name stand for corresponding pins and chips. -/
structure Linked (twins : PinId → PinId → Prop) (mates : Nat → Nat → Prop) (a b : Board) : Prop where
  sound : a.Sound ∧ b.Sound
  renamed : a.circuit.Renamed twins mates b.circuit
  resolve : ∀ reference, (∃ p q, a.resolve reference = .ok p ∧ b.resolve reference = .ok q ∧ twins p q) ∨
    ∃ error, a.resolve reference = .error error ∧ b.resolve reference = .error error
  named : ∀ name, (a.chipId? name = none ∧ b.chipId? name = none) ∨
    ∃ i j, a.chipId? name = some i ∧ b.chipId? name = some j ∧ mates i j

/-- No difference can be seen between the boards by one who knows pins and chips by their names alone. -/
structure Alike (a b : Board) : Prop where
  levels : ∀ component label,
    (a.pin component label).map a.circuit.pins.level = (b.pin component label).map b.circuit.pins.level
  bytes : ∀ name, a.outputByte? name = b.outputByte? name
  registers : ∀ name, (a.register? name).map (fun r => (r.register, r.phase)) =
    (b.register? name).map fun r => (r.register, r.phase)

section
variable {a b : Board}

theorem Sound.input_of_input? (sound : a.Sound) {label : String} {p : PinId}
    (found : a.circuit.input? label = some p) : p < a.circuit.pins.size ∧ ∀ i n, a.circuit.post? i n ≠ some p := by
  have member : p ∈ a.circuit.inputs := List.mem_of_find?_eq_some found
  exact ⟨sound.wellFormed.input_allocated member, fun _ _ => sound.wellFormed.not_post_input member⟩

theorem exists_place_of_post? {name : String} {n : Nat} {p : PinId} (found : a.post? name n = some p) :
    ∃ i, a.chipId? name = some i ∧ a.circuit.post? i n = some p :=
  Option.bind_eq_some_iff.mp found

namespace Twins

theorem symm {p q : PinId} (twins : Twins a b p q) : Twins b a q p := by
  rcases twins with ⟨label, atA, atB⟩ | ⟨name, n, atA, atB⟩
  · exact .inl ⟨label, atB, atA⟩
  · exact .inr ⟨name, n, atB, atA⟩

/-- A pin has one name at most, so it has one twin at most. -/
theorem right_unique (sound : a.Sound) {p q r : PinId} (first : Twins a b p q) (second : Twins a b p r) : q = r := by
  rcases first with ⟨label, atA, atB⟩ | ⟨name, n, atA, atB⟩
  · rcases second with ⟨other, againA, againB⟩ | ⟨other, m, againA, _⟩
    · have same := (Circuit.label_of_input? atA).symm.trans (Circuit.label_of_input? againA)
      cases Option.some.inj same
      exact Option.some.inj (atB.symm.trans againB)
    · obtain ⟨j, _, place⟩ := exists_place_of_post? againA
      exact ((sound.input_of_input? atA).2 j m place).elim
  · obtain ⟨i, named, place⟩ := exists_place_of_post? atA
    rcases second with ⟨other, againA, _⟩ | ⟨other, m, againA, againB⟩
    · exact ((sound.input_of_input? againA).2 i n place).elim
    · obtain ⟨j, again, place'⟩ := exists_place_of_post? againA
      obtain ⟨rfl, rfl⟩ := sound.wellFormed.post_unique place place'
      cases sound.distinct name other i named again
      exact Option.some.inj (atB.symm.trans againB)

end Twins

namespace Matched

theorem biUnique (matched : Matched a b) : Relator.BiUnique (Twins a b) :=
  ⟨fun _ _ _ first second => first.symm.right_unique matched.sound.2 second.symm,
    fun _ _ _ first second => first.right_unique matched.sound.1 second⟩

theorem named (matched : Matched a b) (name : String) : (a.chipId? name = none ∧ b.chipId? name = none) ∨
    ∃ i j, a.chipId? name = some i ∧ b.chipId? name = some j ∧ Mates a b i j := by
  have both := matched.names name
  cases atA : a.chipId? name with
  | none =>
    rw [atA] at both
    exact .inl ⟨rfl, Option.not_isSome_iff_eq_none.mp fun atB => nomatch both.mpr atB⟩
  | some i =>
    obtain ⟨j, atB⟩ := Option.isSome_iff_exists.mp (both.mp (by rw [atA]; rfl))
    exact .inr ⟨i, j, rfl, atB, name, atA, atB⟩

/-- A reference stands for twins, or it fails on both boards in the same way. -/
theorem resolve (matched : Matched a b) (reference : PinReference) :
    (∃ p q, a.resolve reference = .ok p ∧ b.resolve reference = .ok q ∧ Twins a b p q) ∨
      ∃ error, a.resolve reference = .error error ∧ b.resolve reference = .error error := by
  obtain ⟨component, label⟩ := reference
  rw [Board.resolve, Board.resolve, matched.sound.1.pin_eq, matched.sound.2.pin_eq]
  by_cases atInputs : component = inputsName
  · rw [if_pos atInputs, if_pos atInputs]
    have both := matched.inputs label
    cases atA : a.circuit.input? label with
    | none =>
      rw [atA] at both
      rw [Option.not_isSome_iff_eq_none.mp (mt both.mpr Bool.false_ne_true)]
      exact .inr ⟨_, rfl, rfl⟩
    | some p =>
      obtain ⟨q, atB⟩ := Option.isSome_iff_exists.mp (both.mp (by rw [atA]; rfl))
      rw [atB]
      exact .inl ⟨p, q, rfl, rfl, .inl ⟨label, atA, atB⟩⟩
  · rw [if_neg atInputs, if_neg atInputs]
    rcases matched.named component with ⟨noneA, noneB⟩ | ⟨i, j, atA, atB, _⟩
    · rw [noneA, noneB]
      exact .inr ⟨_, rfl, rfl⟩
    · rw [atA, atB]
      cases port : ShiftRegister.port? label with
      | none => exact .inr ⟨_, rfl, rfl⟩
      | some n =>
        obtain ⟨p, postA⟩ := matched.sound.1.exists_post atA (ShiftRegister.port?_lt port)
        obtain ⟨q, postB⟩ := matched.sound.2.exists_post atB (ShiftRegister.port?_lt port)
        refine .inl ⟨p, q, ?_, ?_, .inr ⟨component, n, postA, postB⟩⟩
        · rw [Option.bind_some, postA]
          rfl
        · rw [Option.bind_some, postB]
          rfl

theorem allocated (matched : Matched a b) {p q : PinId} (twins : Twins a b p q) :
    p < a.circuit.pins.size ∧ q < b.circuit.pins.size := by
  rcases twins with ⟨label, atA, atB⟩ | ⟨name, n, atA, atB⟩
  · exact ⟨(matched.sound.1.input_of_input? atA).1, (matched.sound.2.input_of_input? atB).1⟩
  · obtain ⟨i, _, placeA⟩ := exists_place_of_post? atA
    obtain ⟨j, _, placeB⟩ := exists_place_of_post? atB
    exact ⟨matched.sound.1.wellFormed.post_allocated placeA, matched.sound.2.wellFormed.post_allocated placeB⟩

theorem places {p q : PinId} (matched : Matched a b) (twins : Twins a b p q) :
    (∃ i j n, Mates a b i j ∧ a.circuit.post? i n = some p ∧ b.circuit.post? j n = some q) ∨
      (∀ i n, a.circuit.post? i n ≠ some p) ∧ ∀ j n, b.circuit.post? j n ≠ some q := by
  rcases twins with ⟨label, atA, atB⟩ | ⟨name, n, atA, atB⟩
  · exact .inr ⟨(matched.sound.1.input_of_input? atA).2, (matched.sound.2.input_of_input? atB).2⟩
  · obtain ⟨i, namedA, placeA⟩ := exists_place_of_post? atA
    obtain ⟨j, namedB, placeB⟩ := exists_place_of_post? atB
    exact .inl ⟨i, j, n, ⟨name, namedA, namedB⟩, placeA, placeB⟩

end Matched

namespace Linked
variable {twins : PinId → PinId → Prop} {mates : Nat → Nat → Prop}

/-- A command is refused on both boards for the same reason, or it stands for corresponding operations. -/
theorem operation (linked : Linked twins mates a b) (command : Command) :
    (∃ error, a.operation command = .error error ∧ b.operation command = .error error) ∨
      ∃ first second, a.operation command = .ok first ∧ b.operation command = .ok second ∧
        first.Renamed twins second := by
  cases command with
  | setInput pin level =>
    rcases linked.resolve pin with ⟨p, q, atA, atB, twin⟩ | ⟨error, atA, atB⟩
    · refine .inr ⟨.setInput p level, .setInput q level, ?_, ?_, .setInput level twin⟩
      · rw [Board.operation, atA]
        rfl
      · rw [Board.operation, atB]
        rfl
    · refine .inl ⟨error, ?_, ?_⟩
      · rw [Board.operation, atA]
        rfl
      · rw [Board.operation, atB]
        rfl
  | clockIn data clock bit =>
    rcases linked.resolve data with ⟨p, q, dataA, dataB, twin⟩ | ⟨error, dataA, dataB⟩
    · rcases linked.resolve clock with ⟨r, s, clockA, clockB, other⟩ | ⟨error, clockA, clockB⟩
      · refine .inr ⟨.clockIn p r bit, .clockIn q s bit, ?_, ?_, .clockIn bit twin other⟩
        · rw [Board.operation, dataA, clockA]
          rfl
        · rw [Board.operation, dataB, clockB]
          rfl
      · refine .inl ⟨error, ?_, ?_⟩
        · rw [Board.operation, dataA, clockA]
          rfl
        · rw [Board.operation, dataB, clockB]
          rfl
    · refine .inl ⟨error, ?_, ?_⟩
      · rw [Board.operation, dataA]
        rfl
      · rw [Board.operation, dataB]
        rfl
  | step => exact .inr ⟨_, _, rfl, rfl, .step⟩
  | run ticks => exact .inr ⟨_, _, rfl, rfl, .run ticks⟩

theorem after (linked : Linked twins mates a b) {first second : Operation} (drives : first.Drives ∧ second.Drives)
    (same : first.Renamed twins second)
    (room : a.circuit.hasRoom first.ticks first.sources ∧ b.circuit.hasRoom second.ticks second.sources) :
    Linked twins mates (a.withCircuit (a.circuit.after first)) (b.withCircuit (b.circuit.after second)) where
  sound := ⟨linked.sound.1.withCircuit_after drives.1 room.1, linked.sound.2.withCircuit_after drives.2 room.2⟩
  renamed := linked.renamed.after same
  resolve := by
    rw [linked.sound.1.resolve_after drives.1 room.1, linked.sound.2.resolve_after drives.2 room.2]
    exact linked.resolve
  named := linked.named

/-- A command fails on both boards in the same way, or both go on as they were linked. -/
theorem obey (linked : Linked twins mates a b) (command : Command) :
    (∃ failure, (a.obey command).result = .error failure ∧ (b.obey command).result = .error failure) ∨
      ∃ c d, (a.obey command).result = .ok c ∧ (b.obey command).result = .ok d ∧ Linked twins mates c d := by
  rw [linked.sound.1.obey_result, linked.sound.2.obey_result]
  rcases linked.operation command with ⟨error, atA, atB⟩ | ⟨first, second, atA, atB, same⟩
  · rw [atA, atB]
    exact .inl ⟨_, rfl, rfl⟩
  · rw [atA, atB]
    have rooms := linked.renamed.hasRoom_eq same
    by_cases room : a.circuit.hasRoom first.ticks first.sources
    · have drives := And.intro (drives_of_operation atA) (drives_of_operation atB)
      exact .inr ⟨_, _, if_pos room, if_pos (rooms ▸ room), linked.after drives same ⟨room, rooms ▸ room⟩⟩
    · exact .inl ⟨_, if_neg room, if_neg (rooms ▸ room)⟩

theorem obeyAll (linked : Linked twins mates a b) (commands : List Command) :
    (∃ failure, (obeyAll commands a).result = .error failure ∧ (obeyAll commands b).result = .error failure) ∨
      ∃ c d, (obeyAll commands a).result = .ok c ∧ (obeyAll commands b).result = .ok d ∧ Linked twins mates c d := by
  induction commands generalizing a b with
  | nil => exact .inr ⟨a, b, rfl, rfl, linked⟩
  | cons command commands ih =>
    rw [Board.obeyAll, Board.obeyAll]
    rcases linked.obey command with ⟨failure, atA, atB⟩ | ⟨c, d, atA, atB, next⟩
    · exact .inl ⟨failure, Logged.result_bind_of_error atA, Logged.result_bind_of_error atB⟩
    · rw [Logged.result_bind_of_ok atA, Logged.result_bind_of_ok atB]
      exact ih next

/-- The outputs of corresponding registers read as the same byte. -/
theorem outputByte_eq (linked : Linked twins mates a b) {i j : Nat} (mated : mates i j) {r s : ShiftRegister}
    (atA : a.circuit.chips[i]? = some (.register r)) (atB : b.circuit.chips[j]? = some (.register s)) :
    (Chip.register r).outputByte a.circuit.pins = (Chip.register s).outputByte b.circuit.pins := by
  have inA := List.mem_of_getElem? atA
  have inB := List.mem_of_getElem? atB
  have seatedA := linked.sound.1.seats r inA
  have seatedB := linked.sound.2.seats s inB
  refine Chip.outputByte_congr ?_ ?_
  · exact (seatedA.map_select fun _ => rfl).trans (seatedB.map_select fun _ => rfl).symm
  · rw [PinTable.map_level_select fun _ own => linked.sound.1.wellFormed.allocated inA own,
      PinTable.map_level_select fun _ own => linked.sound.2.wellFormed.allocated inB own]
    exact linked.renamed.levels_eq mated atA atB

theorem alike (linked : Linked twins mates a b) : Alike a b where
  levels := by
    intro component label
    rcases linked.resolve ⟨component, label⟩ with ⟨p, q, atA, atB, twin⟩ | ⟨error, atA, atB⟩
    · rw [Board.resolve] at atA atB
      rw [atA, atB]
      exact congrArg Except.ok (linked.renamed.levels p q twin)
    · rw [Board.resolve] at atA atB
      rw [atA, atB]
      rfl
  bytes := by
    intro name
    rcases linked.named name with ⟨noneA, noneB⟩ | ⟨i, j, atA, atB, mated⟩
    · rw [outputByte?, outputByte?, chip?, chip?, noneA, noneB]
      rfl
    · obtain ⟨r, s, chipA, chipB, _⟩ := linked.renamed.chips i j mated
      rw [outputByte?, outputByte?, chip?, chip?, atA, atB, Option.bind_some, Option.bind_some, chipA, chipB]
      exact congrArg some (linked.outputByte_eq mated chipA chipB)
  registers := by
    intro name
    rcases linked.named name with ⟨noneA, noneB⟩ | ⟨i, j, atA, atB, mated⟩
    · rw [register?, register?, noneA, noneB]
      rfl
    · obtain ⟨r, s, chipA, chipB, same⟩ := linked.renamed.chips i j mated
      rw [register?, register?, atA, atB, Option.bind_some, Option.bind_some,
        Circuit.register?_eq_some_iff.mpr chipA, Circuit.register?_eq_some_iff.mpr chipB]
      exact congrArg some (Prod.ext same.1 same.2)

end Linked

end

end Board

end LogicBoard
