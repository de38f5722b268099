import Mathlib.Data.Nat.Find
import LogicBoard.Proofs.BuiltBoards
import LogicBoard.Proofs.LetterCase

namespace LogicBoard

namespace ShiftRegister

/-- The labels of the clock input: none at all, or `clk` with any of its letters as a capital. -/
def clockLabels : List String := ["", "clk", "clK", "cLk", "cLK", "Clk", "ClK", "CLk", "CLK"]

/-- The labels that each post of a register answers to, in the order of the posts. -/
def portLabels : List (List String) :=
  [["D"], clockLabels, ["I7"], ["I6"], ["I5"], ["I4"], ["I3"], ["I2"], ["I1"], ["I0"]]

theorem mem_clockLabels_of_sameLetters {label : String} (same : Board.sameLetters label "clk") :
    label ∈ clockLabels := by
  have letters : label.toList.map Char.toLower = ['c', 'l', 'k'] := of_decide_eq_true same
  have spelled := Text.mem_spellings label.toList
  rw [letters] at spelled
  have listed : ∀ letters ∈ Text.spellings ['c', 'l', 'k'], String.ofList letters ∈ clockLabels := by decide
  rw [← String.ofList_toList (s := label)]
  exact listed _ spelled

theorem mem_portLabels_of_port? {label : String} {n : Nat} (found : port? label = some n) :
    label ∈ portLabels.flatten := by
  obtain ⟨within, answers, _⟩ := List.findIdx?_eq_some_iff_getElem.mp found
  have own : ∀ pin ∈ pinout 0, pin.label ∈ portLabels.flatten := by decide
  rcases (Bool.or_eq_true _ _).mp answers with same | clock
  · exact of_decide_eq_true same ▸ own _ (List.getElem_mem within)
  · have clockLabel := mem_clockLabels_of_sameLetters ((Bool.and_eq_true _ _).mp clock).2
    exact List.mem_flatten_of_mem (by simp [portLabels]) clockLabel

theorem port?_eq_some_iff {label : String} {n : Nat} :
    port? label = some n ↔ ∃ labels, portLabels[n]? = some labels ∧ label ∈ labels := by
  have table : ∀ row ∈ portLabels.zipIdx, ∀ label ∈ row.1, port? label = some row.2 := by decide
  have answered {label : String} {n : Nat} {labels : List String} (atN : portLabels[n]? = some labels)
      (member : label ∈ labels) : port? label = some n :=
    table (labels, n) (List.mem_zipIdx_iff_getElem?.mpr atN) label member
  constructor
  · intro found
    obtain ⟨labels, inTable, member⟩ := List.mem_flatten.mp (mem_portLabels_of_port? found)
    obtain ⟨m, atM⟩ := List.mem_iff_getElem?.mp inTable
    obtain rfl := Option.some.inj (found.symm.trans (answered atM member))
    exact ⟨labels, atM, member⟩
  · rintro ⟨labels, atN, member⟩
    exact answered atN member

theorem port?_eq_none_iff {label : String} : port? label = none ↔ label ∉ portLabels.flatten := by
  constructor
  · intro none member
    obtain ⟨labels, inTable, member⟩ := List.mem_flatten.mp member
    obtain ⟨n, atN⟩ := List.mem_iff_getElem?.mp inTable
    cases none.symm.trans (port?_eq_some_iff.mpr ⟨labels, atN, member⟩)
  · intro strange
    cases found : port? label with
    | none => rfl
    | some n => exact absurd (mem_portLabels_of_port? found) strange

/-- No two labels stand for one post, but for those of the clock. -/
theorem eq_or_clockLabels_of_port? {first second : String} {n : Nat} (atFirst : port? first = some n)
    (atSecond : port? second = some n) : first = second ∨ first ∈ clockLabels ∧ second ∈ clockLabels := by
  have rows : ∀ labels ∈ portLabels, ∀ first ∈ labels, ∀ second ∈ labels,
      first = second ∨ first ∈ clockLabels ∧ second ∈ clockLabels := by decide
  obtain ⟨labels, atN, inFirst⟩ := port?_eq_some_iff.mp atFirst
  obtain ⟨others, again, inSecond⟩ := port?_eq_some_iff.mp atSecond
  obtain rfl := Option.some.inj (atN.symm.trans again)
  exact rows labels (List.mem_of_getElem? atN) first inFirst second inSecond

end ShiftRegister

namespace Board

/-- The first of the inputs with the label is the one at the index. -/
def FirstLabelled (labels : List String) (label : String) (i : Nat) : Prop :=
  labels[i]? = some label ∧ ∀ j < i, labels[j]? ≠ some label

theorem exists_firstLabelled_iff {labels : List String} {label : String} :
    (∃ i, FirstLabelled labels label i) ↔ label ∈ labels := by
  constructor
  · rintro ⟨i, here, _⟩
    exact List.mem_of_getElem? here
  · intro member
    have somewhere := List.mem_iff_getElem?.mp member
    exact ⟨Nat.find somewhere, Nat.find_spec somewhere, fun j before => Nat.find_min somewhere before⟩

theorem Furnished.input?_eq_some_iff {labels : List String} {entries : List ChipEntry} {chips : List Chip} {b : Board}
    (furnished : Furnished labels entries chips b) {label : String} {id : PinId} :
    b.circuit.input? label = some id ↔ FirstLabelled labels label id := by
  have labelAt {i : Nat} (within : i < labels.length) :
      (b.circuit.pins.get? i).map Pin.label = some label ↔ labels[i]? = some label := by
    have atI := List.getElem?_eq_getElem within
    rw [furnished.labelled i _ atI, atI]
    rfl
  simp only [Circuit.input?, furnished.inputs, List.find?_range_eq_some, List.mem_range, decide_eq_true_eq,
    Bool.not_eq_true', decide_eq_false_iff_not]
  constructor
  · rintro ⟨here, within, earlier⟩
    exact ⟨(labelAt within).mp here, fun j before => mt (labelAt (Nat.lt_trans before within)).mpr (earlier j before)⟩
  · rintro ⟨here, earlier⟩
    have within := (List.getElem?_eq_some_iff.mp here).1
    exact ⟨(labelAt within).mpr here, within, fun j before =>
      mt (labelAt (Nat.lt_trans before within)).mp (earlier j before)⟩

/-- A board of registers whose inputs and chips have the labels and names of a description. -/
structure Labelled (d : Description) (b : Board) : Prop extends b.Sound where
  inputs : b.circuit.inputs = List.range d.inputs.length
  input? : ∀ label id, b.circuit.input? label = some id ↔ FirstLabelled d.inputs label id
  named : ∀ name i, b.chipId? name = some i ↔ LastNamed d.chips name i

theorem labelled_of_build {d : Description} {b : Board} (ran : (build .standard d).result = .ok b) : Labelled d b := by
  obtain ⟨_, _, built⟩ := exists_built_of_build .standard ran
  exact ⟨sound_of_build ran, built.inputs, fun _ _ => built.input?_eq_some_iff, built.named⟩

namespace Labelled
variable {d : Description} {b : Board}

theorem after (labelled : Labelled d b) {operation : Operation} (drives : operation.Drives)
    (room : b.circuit.hasRoom operation.ticks operation.sources) :
    Labelled d (b.withCircuit (b.circuit.after operation)) where
  toSound := labelled.withCircuit_after drives room
  inputs := (Circuit.after_inputs drives).trans labelled.inputs
  input? := by
    rw [withCircuit, labelled.registers.input?_after drives]
    exact labelled.input?
  named := labelled.named

theorem performAll (labelled : Labelled d b) {operations : List Operation}
    (drives : ∀ operation ∈ operations, operation.Drives) {c : Circuit}
    (driven : (Circuit.performAll operations b.circuit).result = .ok c) : Labelled d (b.withCircuit c) := by
  induction operations generalizing b with
  | nil =>
    cases driven
    exact labelled
  | cons operation operations ih =>
    obtain ⟨here, later⟩ := List.forall_mem_cons.mp drives
    obtain ⟨next, performed, rest⟩ := Circuit.performAll_cons_eq_ok_iff.mp driven
    rw [labelled.wellFormed.perform_result labelled.counted] at performed
    split at performed
    · rename_i room
      cases performed
      have driven := ih (labelled.after here room) later rest
      exact driven
    · cases performed

end Labelled

/-- How names and labels stand for pins on a board that was built from the description. The inputs are looked up first,
so that no chip with their name can be reached. -/
structure NamesPins (d : Description) (b : Board) : Prop where
  input : ∀ label i, FirstLabelled d.inputs label i → ∃ id, b.circuit.inputs[i]? = some id ∧
    (b.circuit.pins.get? id).map Pin.label = some label ∧ b.pin inputsName label = .ok id
  noInput : ∀ label, b.pin inputsName label = .error (.unknownPinLabel inputsName label) ↔ label ∉ d.inputs
  noChip : ∀ name label, name ≠ inputsName →
    (b.pin name label = .error (.unknownComponent name) ↔ name ∉ d.chips.map ChipEntry.name)
  chip : ∀ name i, name ≠ inputsName → LastNamed d.chips name i → ∃ chip, b.circuit.chips[i]? = some chip ∧
    chip.handles.length = 10 ∧
    (∀ (n : Nat) labels, ShiftRegister.portLabels[n]? = some labels → ∀ label ∈ labels,
      ∃ id : PinId, chip.handles[n]? = some id ∧ b.pin name label = .ok id) ∧
    ∀ label, label ∉ ShiftRegister.portLabels.flatten → b.pin name label = .error (.unknownPinLabel name label)
  apart : ∀ name other label otherLabel id, name ≠ inputsName → other ≠ inputsName → b.pin name label = .ok id →
    b.pin other otherLabel = .ok id → name = other ∧
    (label = otherLabel ∨ label ∈ ShiftRegister.clockLabels ∧ otherLabel ∈ ShiftRegister.clockLabels)
  allocated : ∀ name label id, b.pin name label = .ok id → id < b.circuit.pins.size

namespace Labelled
variable {d : Description} {b : Board} (labelled : Labelled d b) {name label : String}
include labelled

theorem pin_input : b.pin inputsName label =
    (b.circuit.input? label).elim (.error (.unknownPinLabel inputsName label)) .ok := by
  rw [labelled.pin_eq, if_pos rfl]

theorem pin_of_notMem (chip : name ≠ inputsName) (unknown : name ∉ d.chips.map ChipEntry.name) :
    b.pin name label = .error (.unknownComponent name) := by
  have none : b.chipId? name = none := by
    refine Option.eq_none_iff_forall_ne_some.mpr fun i named => unknown ?_
    exact exists_lastNamed_iff.mp ⟨i, (labelled.named name i).mp named⟩
  rw [labelled.pin_eq, if_neg chip, none, if_pos Option.isNone_none]

theorem pin_of_lastNamed {i : Nat} (chip : name ≠ inputsName) (last : LastNamed d.chips name i) : b.pin name label =
    ((ShiftRegister.port? label).bind (b.circuit.post? i)).elim (.error (.unknownPinLabel name label)) .ok := by
  have posts : b.post? name = b.circuit.post? i := by
    funext n
    rw [Board.post?, (labelled.named name i).mpr last, Option.bind_some]
  rw [labelled.pin_eq, if_neg chip, (labelled.named name i).mpr last, posts]
  rfl

theorem pin_eq_ok_iff (chip : name ≠ inputsName) {id : PinId} : b.pin name label = .ok id ↔
    ∃ i n, LastNamed d.chips name i ∧ ShiftRegister.port? label = some n ∧ b.circuit.post? i n = some id := by
  by_cases known : name ∈ d.chips.map ChipEntry.name
  · obtain ⟨i, last⟩ := exists_lastNamed_iff.mpr known
    have chosen (found : Option PinId) : found.elim (.error (.unknownPinLabel name label)) .ok =
        (.ok id : Except BoardError PinId) ↔ found = some id := by
      cases found <;> simp
    -- No other index than the one found is the last with the name.
    have only {j : Nat} (again : LastNamed d.chips name j) : i = j :=
      Option.some.inj (((labelled.named name i).mpr last).symm.trans ((labelled.named name j).mpr again))
    rw [labelled.pin_of_lastNamed chip last, chosen, Option.bind_eq_some_iff]
    constructor
    · rintro ⟨n, port, place⟩
      exact ⟨i, n, last, port, place⟩
    · rintro ⟨j, n, again, port, place⟩
      exact ⟨n, port, only again ▸ place⟩
  · rw [labelled.pin_of_notMem chip known]
    exact ⟨nofun, fun ⟨i, _, last, _⟩ => absurd (exists_lastNamed_iff.mp ⟨i, last⟩) known⟩

theorem namesPins : NamesPins d b where
  input := by
    intro label i first
    have found := (labelled.input? label i).mpr first
    refine ⟨i, ?_, Circuit.label_of_input? found, by rw [labelled.pin_input, found]; rfl⟩
    rw [labelled.inputs]
    exact List.getElem?_range (List.getElem?_eq_some_iff.mp first.1).1
  noInput := by
    intro label
    rw [labelled.pin_input, ← exists_firstLabelled_iff]
    cases found : b.circuit.input? label with
    | none =>
      have absent : ¬∃ i, FirstLabelled d.inputs label i := by
        rintro ⟨i, first⟩
        cases found.symm.trans ((labelled.input? label i).mpr first)
      exact ⟨fun _ => absent, fun _ => rfl⟩
    | some id => exact ⟨nofun, fun none => absurd ⟨id, (labelled.input? label id).mp found⟩ none⟩
  noChip := by
    intro name label chip
    refine ⟨fun failed known => ?_, labelled.pin_of_notMem chip⟩
    obtain ⟨i, last⟩ := exists_lastNamed_iff.mpr known
    rw [labelled.pin_of_lastNamed chip last] at failed
    cases found : (ShiftRegister.port? label).bind (b.circuit.post? i) <;> rw [found] at failed <;> cases failed
  chip := by
    intro name i own last
    obtain ⟨r, atChip, _⟩ := labelled.chip_at ((labelled.named name i).mpr last)
    have placed : r.Placed := labelled.wellFormed.placed _ (List.mem_of_getElem? atChip)
    refine ⟨_, atChip, placed, fun n labels atN label member => ?_, fun label strange => ?_⟩
    · have port := ShiftRegister.port?_eq_some_iff.mpr ⟨labels, atN, member⟩
      obtain ⟨id, atPost⟩ := placed.handle (ShiftRegister.port?_lt port)
      have place : b.circuit.post? i n = some id := Circuit.post?_eq_some_iff.mpr ⟨_, atChip, atPost⟩
      exact ⟨id, atPost, (labelled.pin_eq_ok_iff own).mpr ⟨i, n, last, port, place⟩⟩
    · rw [labelled.pin_of_lastNamed own last, ShiftRegister.port?_eq_none_iff.mpr strange]
      rfl
  apart := by
    intro name other label otherLabel id nameOwn otherOwn first second
    obtain ⟨i, m, named, atLabel, atPost⟩ := (labelled.pin_eq_ok_iff nameOwn).mp first
    obtain ⟨j, n, again, atOther, samePost⟩ := (labelled.pin_eq_ok_iff otherOwn).mp second
    obtain ⟨rfl, rfl⟩ := labelled.wellFormed.post_unique atPost samePost
    exact ⟨named.unique again, ShiftRegister.eq_or_clockLabels_of_port? atLabel atOther⟩
  allocated := by
    intro name label id found
    have resolved : b.resolve ⟨name, label⟩ = .ok id := found
    exact allocated_of_resolve resolved

end Labelled

/-- Driving a board that was built, by whatever operations, leaves all its names as they were described. -/
theorem namesPins_of_performAll {d : Description} {b : Board} (ran : (build .standard d).result = .ok b)
    {operations : List Operation} (drives : ∀ operation ∈ operations, operation.Drives) {c : Circuit}
    (driven : (Circuit.performAll operations b.circuit).result = .ok c) : NamesPins d (b.withCircuit c) :=
  ((labelled_of_build ran).performAll drives driven).namesPins

/-- Two inputs share a label, two chips a name, and a third chip has the name that is kept for the inputs. -/
def namesakes : Description where
  name := "namesakes"
  description := ""
  inputs := ["A", "", "A"]
  chips := [⟨"u", some "sipo_shift", none, none⟩, ⟨"inputs", some "sipo_shift", none, none⟩,
    ⟨"u", none, some "189 0 0 9 3 1024", none⟩]
  connections := [⟨⟨"inputs", "A"⟩, [⟨"u", "D"⟩]⟩, ⟨⟨"inputs", ""⟩, [⟨"u", "CLk"⟩]⟩]

def namesakesDriven : List Operation := [.setInput 99 .high, .clockIn 0 1 .high, .step, .run 2]

theorem namesakes_namesPins : ∃ b c, (build .standard namesakes).result = .ok b ∧
    (Circuit.performAll namesakesDriven b.circuit).result = .ok c ∧ c.ticks = 5 ∧
    (b.withCircuit c).pin "inputs" "A" = .ok 0 ∧
    (b.withCircuit c).pin "inputs" "D" = .error (.unknownPinLabel "inputs" "D") ∧
    (b.withCircuit c).pin "v" "" = .error (.unknownComponent "v") ∧
    (b.withCircuit c).pin "u" "cLK" = .ok 24 ∧
    (b.withCircuit c).pin "u" "I8" = .error (.unknownPinLabel "u" "I8") := by
  have passed : (build .standard namesakes).passes fun b =>
      (Circuit.performAll namesakesDriven b.circuit).passes fun c => decide (c.ticks = 5 ∧ c.inputs = [0, 1, 2] ∧
        (c.chips[2]?).map Chip.handles = some (List.range' 23 10)) := by
    decide +kernel
  obtain ⟨b, ran, checked⟩ := Logged.passes_iff.mp passed
  obtain ⟨c, driven, checked⟩ := Logged.passes_iff.mp checked
  obtain ⟨ticks, inputs, handles⟩ := of_decide_eq_true checked
  have drives : ∀ operation ∈ namesakesDriven, operation.Drives := by simp [namesakesDriven, Operation.Drives]
  have names := namesPins_of_performAll ran drives driven
  have last : LastNamed namesakes.chips "u" 2 := by
    refine ⟨rfl, fun j after => ?_⟩
    rw [List.getElem?_eq_none (show namesakes.chips.length ≤ j from after)]
    exact nofun
  obtain ⟨id, atInput, _, input⟩ := names.input "A" 0 ⟨rfl, nofun⟩
  obtain ⟨chip, atChip, _, known, strange⟩ := names.chip "u" 2 (by decide) last
  obtain ⟨clock, atHandle, found⟩ := known 1 _ rfl "cLK" (by decide)
  obtain rfl : 0 = id := by simpa [withCircuit, inputs] using atInput
  rw [withCircuit] at atChip
  rw [atChip] at handles
  rw [Option.some.inj handles] at atHandle
  cases atHandle
  exact ⟨b, c, ran, driven, ticks, input, (names.noInput "D").mpr (by decide),
    (names.noChip "v" "" (by decide)).mpr (by decide), found, strange "I8" (by decide)⟩

end Board

end LogicBoard
