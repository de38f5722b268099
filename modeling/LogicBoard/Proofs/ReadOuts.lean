import LogicBoard.Proofs.BoardRuns
import LogicBoard.Proofs.DumpLines

namespace LogicBoard

namespace Level

/-- The number that levels are as binary digits, most significant first. -/
def number (levels : List Level) : Nat := levels.foldl (fun n level => 2 * n + if level.isHigh then 1 else 0) 0

/-- One more digit behind those of a byte, whose first one drops out. -/
def push (byte : BitVec 8) (level : Level) : BitVec 8 := byte <<< 1 ||| if level.isHigh then 1 else 0

theorem toNat_push (byte : BitVec 8) (level : Level) :
    (push byte level).toNat = (2 * byte.toNat + if level.isHigh then 1 else 0) % 256 := by
  revert byte
  cases level <;> decide +kernel

theorem getLsbD_push_zero (byte : BitVec 8) (level : Level) : (push byte level).getLsbD 0 = level.isHigh := by
  revert byte
  cases level <;> decide +kernel

theorem getLsbD_push_succ (byte : BitVec 8) (level : Level) {k : Nat} (within : k + 1 < 8) :
    (push byte level).getLsbD (k + 1) = byte.getLsbD k := by
  have bits : ∀ byte : BitVec 8, ∀ k : Fin 7, (push byte level).getLsbD (k + 1) = byte.getLsbD k := by
    cases level <;> decide +kernel
  exact bits byte ⟨k, by omega⟩

/-- Digits that drop out of a byte are the multiples of 256 in the number. -/
theorem toNat_foldl_push (levels : List Level) {byte : BitVec 8} {n : Nat} (start : byte.toNat = n % 256) :
    (levels.foldl push byte).toNat =
      levels.foldl (fun n level => 2 * n + if level.isHigh then 1 else 0) n % 256 := by
  induction levels generalizing byte n with
  | nil => exact start
  | cons level levels ih =>
    have pushed := toNat_push byte level
    have next : (push byte level).toNat = (2 * n + if level.isHigh then 1 else 0) % 256 := by omega
    exact ih next

/-- The bits of the byte are the last eight levels, or zero where there are fewer. -/
theorem getLsbD_foldl_push (levels : List Level) {k : Nat} (within : k < 8) :
    (levels.foldl push 0).getLsbD k = (levels.reverse[k]?).any isHigh := by
  induction levels using List.reverseRecOn generalizing k with
  | nil => simp
  | append_singleton levels level ih =>
    rw [List.foldl_concat, List.reverse_concat]
    cases k with
    | zero => exact getLsbD_push_zero _ level
    | succ k =>
      rw [getLsbD_push_succ _ level within, ih (by omega)]
      rfl

end Level

namespace PinTable

/-- The label on show at the pin behind a handle. -/
def shownLabel (table : PinTable) (id : PinId) : String := ((table.get? id).map Pin.shownLabel).getD ""

/-- The line for the pin behind a handle: its label, and one digit for its level. -/
def levelLine (table : PinTable) (id : PinId) : String :=
  table.shownLabel id ++ if table.level id = .high then " = 1" else " = 0"

end PinTable

namespace Chip
variable (chip : Chip) (table : PinTable)

/-- The handles whose pins have a label on show. -/
def labelled : List PinId := chip.handles.filter fun id => decide (table.shownLabel id ≠ "")

theorem outputByte_eq :
    chip.outputByte table = ((chip.outline.outputs table).map table.level).foldl Level.push 0 := by
  rw [← levels_placement, placement, List.foldl_map]
  rfl

theorem info_eq : chip.info table = chip.name :: (chip.labelled table).map table.levelLine := by
  have kept : (chip.handles.filter fun id =>
      ((table.get? id).map fun pin => decide (pin.shownLabel ≠ "")).getD false) = chip.labelled table := by
    refine List.filter_congr fun id _ => ?_
    rw [PinTable.shownLabel]
    cases table.get? id <;> rfl
  have lines : (fun id => ((table.get? id).map fun pin =>
      pin.shownLabel ++ " = " ++ pin.level.digit.toString).getD " = 0") = table.levelLine := by
    funext id
    rw [PinTable.levelLine, PinTable.shownLabel, PinTable.level]
    cases table.get? id with
    | none => rfl
    | some pin =>
      have digit : " = " ++ pin.level.digit.toString = if pin.level = .high then " = 1" else " = 0" := by
        cases pin.level <;> rfl
      simp only [Option.map_some, Option.getD_some, String.append_assoc, digit]
  rw [← kept, ← lines, ← table.map_filter_select]
  rfl

/-- The levels of the outputs as the byte has them, as the placement line has them, and as the lines for the labelled
pins have them. A line ends in a one for the same pins for which the placement line has a high level. -/
structure ReadOuts (p : Placement) (byte : BitVec 8) : Prop where
  number : byte.toNat = Level.number p.levels % 256
  bits : ∀ k < 8, byte.getLsbD k = (p.levels.reverse[k]?).any Level.isHigh
  levels : p.levels = (chip.outline.outputs table).map table.level
  info : chip.info table = chip.name :: (chip.labelled table).map table.levelLine
  agree : ∀ (i j : Nat) id, (chip.labelled table)[i]? = some id → (chip.outline.outputs table)[j]? = some id →
    (chip.info table)[i + 1]? = some (table.shownLabel id ++ " = 1") ∧
      (Placement.levelTokens (chip.dump table))[j]? = some "true".toList ∨
    (chip.info table)[i + 1]? = some (table.shownLabel id ++ " = 0") ∧
      (Placement.levelTokens (chip.dump table))[j]? = some "false".toList

theorem readOuts : chip.ReadOuts table (chip.placement table) (chip.outputByte table) where
  number := by
    rw [outputByte_eq, ← levels_placement]
    exact Level.toNat_foldl_push _ rfl
  bits := by
    intro k within
    rw [outputByte_eq, ← levels_placement]
    exact Level.getLsbD_foldl_push _ within
  levels := chip.levels_placement table
  info := chip.info_eq table
  agree := by
    intro i j id atLine atToken
    have line : (chip.info table)[i + 1]? = some (table.levelLine id) := by
      rw [info_eq, List.getElem?_cons_succ, List.getElem?_map, atLine, Option.map_some]
    have token : (Placement.levelTokens (chip.dump table))[j]? = some (Placement.levelToken (table.level id)) := by
      rw [dump, Placement.levelTokens_line, levels_placement, List.getElem?_map, List.getElem?_map, atToken]
      rfl
    rw [line, token, PinTable.levelLine]
    cases table.level id with
    | high => exact .inl ⟨rfl, rfl⟩
    | low => exact .inr ⟨rfl, rfl⟩

end Chip

namespace Board
variable {catalog : Catalog} {d : Description} {b built : Board} {past : List Circuit}

/-- Circuits on their way by any chips and any pins driven. -/
abbrev Reached : Circuit → List Circuit → Prop := Circuit.Reach (fun _ => True) fun _ => True

theorem reached_of_addEntries {entries : List ChipEntry} (reach : Reached b.circuit past)
    (added : (addEntries catalog entries b).result = .ok built) : Reached built.circuit past := by
  induction entries generalizing b with
  | nil =>
    cases added
    exact reach
  | cons entry entries ih =>
    obtain ⟨next, first, rest⟩ := Logged.result_bind_eq_ok_iff.mp added
    obtain ⟨chip, _, placing⟩ := Logged.result_bind_eq_ok_iff.mp first
    obtain ⟨circuit, placed, same⟩ := Logged.result_bind_eq_ok_iff.mp placing
    cases same
    exact ih (reach.addChip trivial placed) rest

theorem reached_of_addTargets {source : PinId} {targets : List PinReference} (reach : Reached b.circuit past)
    (added : (addTargets source targets b).result = .ok built) : Reached built.circuit past := by
  induction targets generalizing b with
  | nil =>
    cases added
    exact reach
  | cons target targets ih =>
    obtain ⟨id, _, connecting⟩ := Logged.result_bind_eq_ok_iff.mp added
    obtain ⟨circuit, connected, rest⟩ := Logged.result_bind_eq_ok_iff.mp connecting
    exact ih (b := { b with circuit }) (reach.connect connected) rest

theorem reached_of_addConnections {connections : List Connection} (reach : Reached b.circuit past)
    (added : (addConnections connections b).result = .ok built) : Reached built.circuit past := by
  induction connections generalizing b with
  | nil =>
    cases added
    exact reach
  | cons connection connections ih =>
    obtain ⟨source, _, connecting⟩ := Logged.result_bind_eq_ok_iff.mp added
    obtain ⟨next, wired, rest⟩ := Logged.result_bind_eq_ok_iff.mp connecting
    exact ih (reached_of_addTargets reach wired) rest

/-- Whatever builders are registered, building is a series of the operations that a circuit allows. -/
theorem reached_of_build (ran : (build catalog d).result = .ok built) : Reached built.circuit [] := by
  rw [build_result] at ran
  obtain ⟨b, placed, wired⟩ := Logged.result_bind_eq_ok_iff.mp ran
  have inputs : Reached (bare d).circuit [] := by
    have more (labels : List String) {c : Circuit} (reach : Reached c []) :
        Reached (labels.foldl Circuit.addInput c) [] := by
      induction labels generalizing c with
      | nil => exact reach
      | cons label labels ih => exact ih (reach.addInput label)
    exact more d.inputs (.new d.name)
  exact reached_of_addConnections (reached_of_addEntries inputs placed) wired

/-- Whatever a board was built from and whatever has been done to its circuit, a chip that answers to a name has its own
pins, and all read-outs of them agree. -/
theorem readOuts_agree {b : Board} (ran : (build catalog d).result = .ok b) {operations : List Operation} {c : Circuit}
    (driven : (Circuit.performAll operations b.circuit).result = .ok c) {name : String} {chip : Chip}
    (named : (b.withCircuit c).chip? name = some chip) :
    chip.handles.Nodup ∧ (∀ id ∈ chip.handles, ∃ pin, c.pins.get? id = some pin) ∧
    ∃ p byte, Placement.parse (chip.dump c.pins) = .ok p ∧ (b.withCircuit c).outputByte? name = some byte ∧
      chip.ReadOuts c.pins p byte := by
  have reach := (reached_of_build ran).performAll (fun _ _ => trivial) (fun _ _ _ _ => trivial) driven
  have wellFormed := reach.wellFormed
  obtain ⟨i, _, atChip⟩ := Option.bind_eq_some_iff.mp named
  have member := List.mem_of_getElem? atChip
  refine ⟨wellFormed.distinct member, fun id own => ?_, _, _, Placement.parse_line _, ?_, chip.readOuts c.pins⟩
  · exact Option.isSome_iff_exists.mp ((c.pins.get?_isSome_iff id).mpr (wellFormed.allocated member own))
  · rw [outputByte?, named, Option.map_some]
    rfl

/-- Ten outputs, three of them without a label, among inputs and a clock input that is shown as `Clk`. -/
def widePinout : List Pin :=
  { label := "A", position := 0, side := .west } ::
  { label := "Q9", output := true, position := 1, side := .east } ::
  { label := "", clock := true, position := 1, side := .west } ::
  { label := "", position := 2, side := .west } ::
  ["Q8", "", "Q6", "", "Q4", "Q3", "Q2", "", "Q0"].zipIdx.map fun (label, k) =>
    { label, output := true, position := k + 2, side := .east }

def wideCatalog : Catalog :=
  Catalog.standard.register "wide" 7 fun p => return .device (Device.gate p 12 12 10 widePinout)

def wide : Description where
  name := "wide"
  description := ""
  inputs := ["IN"]
  chips := [⟨"sr", some "sipo_shift", none, none⟩, ⟨"w", some "wide", none, some (3, 4)⟩]
  connections := [⟨⟨"inputs", "IN"⟩, [⟨"w", "A"⟩]⟩, ⟨⟨"w", "Q0"⟩, [⟨"sr", "D"⟩, ⟨"sr", "clk"⟩]⟩]

/-- All outputs of the gate go high, and two of them are set back by hand. -/
def wideDriven : List Operation := [.step, .setInput 16 .low, .setInput 23 .low]

def wideLevels : List Level := [.high, .high, .low, .high, .high, .high, .high, .high, .high, .low]

def wideInfo : List String :=
  ["gate", "A = 0", "Q9 = 1", "Clk = 0", "Q8 = 1", "Q6 = 1", "Q4 = 1", "Q3 = 1", "Q2 = 1", "Q0 = 0"]

theorem wide_readOuts : ∃ b c chip p byte, (build wideCatalog wide).result = .ok b ∧
    (Circuit.performAll wideDriven b.circuit).result = .ok c ∧ (b.withCircuit c).chip? "w" = some chip ∧
    Placement.parse (chip.dump c.pins) = .ok p ∧ p.levels = wideLevels ∧
    (b.withCircuit c).outputByte? "w" = some byte ∧ byte.toNat = 126 ∧ chip.info c.pins = wideInfo := by
  have passed : (build wideCatalog wide).passes fun b => (Circuit.performAll wideDriven b.circuit).passes fun c =>
      ((b.withCircuit c).chip? "w").any fun chip =>
        decide ((chip.outline.outputs c.pins).map c.pins.level = wideLevels) &&
        decide (chip.name :: (chip.labelled c.pins).map c.pins.levelLine = wideInfo) := by
    decide +kernel
  obtain ⟨b, ran, checked⟩ := Logged.passes_iff.mp passed
  obtain ⟨c, driven, checked⟩ := Logged.passes_iff.mp checked
  obtain ⟨chip, named, checked⟩ := (Option.any_eq_true _ _).mp checked
  obtain ⟨levels, info⟩ := (Bool.and_eq_true_iff.mp checked).imp of_decide_eq_true of_decide_eq_true
  obtain ⟨_, _, p, byte, parsed, shown, readOuts⟩ := readOuts_agree ran driven named
  have expected : p.levels = wideLevels := readOuts.levels.trans levels
  have number := readOuts.number
  rw [expected] at number
  exact ⟨b, c, chip, p, byte, ran, driven, named, parsed, expected, shown, number, readOuts.info.trans info⟩

end Board

end LogicBoard
