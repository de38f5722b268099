import Mathlib.Data.List.Forall2
import Mathlib.Data.List.Induction
import LogicBoard.Proofs.CatalogStock
import LogicBoard.Proofs.CircuitIdentity

namespace LogicBoard

namespace PinTable

/-- No pin is high. -/
def Low (table : PinTable) : Prop := ∀ id, table.level id = .low

theorem Low.allocate {table : PinTable} (low : table.Low) {pin : Pin} (starts : pin.level = .low) :
    (table.allocate pin).Low := by
  intro id
  rw [level, get?_allocate]
  split
  · exact starts
  · exact low id

theorem Low.allocateAll {table : PinTable} (low : table.Low) {pins : List Pin}
    (starts : ∀ pin ∈ pins, pin.level = .low) : (table.allocateAll pins).Low := by
  intro id
  by_cases old : id < table.size
  · rw [level_eq_of_get? (table.get?_allocateAll_of_lt pins old)]
    exact low id
  · cases found : (table.allocateAll pins).get? id with
    | none => rw [level, found, Option.map_none, Option.getD_none]
    | some pin =>
      rw [level_of_get? found]
      rw [get?_allocateAll, if_neg old] at found
      exact starts pin (List.mem_of_getElem? found)

end PinTable

namespace Chip

theorem StartsLow.setup {chip : Chip} (starts : chip.StartsLow) {table : PinTable} (low : table.Low) :
    (chip.setup table).2.Low := by
  cases chip with
  | register r =>
    obtain ⟨outline, register, phase⟩ := r
    cases (show register = 0 from starts)
    have pins : ∀ pin ∈ ShiftRegister.pinout 0, pin.level = .low := by decide
    exact low.allocateAll pins
  | device d => exact low.allocateAll starts

theorem size_setup (chip : Chip) (table : PinTable) : (chip.setup table).2.size = table.size + chip.postCount := by
  cases chip with
  | register r => exact table.size_allocateAll _
  | device d => exact table.size_allocateAll _

theorem setup_allocated {chip : Chip} {table : PinTable} {id : PinId} (own : id ∈ (chip.setup table).1.handles) :
    id < (chip.setup table).2.size := by
  obtain ⟨pins, allocated, handles⟩ := chip.setup_fresh table
  rw [handles, PinTable.freshHandles] at own
  rw [allocated, PinTable.size_allocateAll]
  exact (List.mem_range'_1.mp own).2

end Chip

namespace Circuit

theorem size_withChip (c : Circuit) (chip : Chip) : (c.withChip chip).pins.size = c.pins.size + chip.postCount := by
  rw [withChip, Chip.size_bindSources, Chip.size_setup]

theorem low_withChip {c : Circuit} (low : c.pins.Low) {chip : Chip} (starts : chip.StartsLow) :
    (c.withChip chip).pins.Low := by
  intro id
  rw [withChip, Chip.level_bindSources]
  exact starts.setup low id

end Circuit

namespace Board

/-- The catalog makes the chip for the entry. -/
def Makes (catalog : Catalog) (entry : ChipEntry) (chip : Chip) : Prop := (makeChip catalog entry).result = .ok chip

/-- The board with the inputs of the description and nothing else. -/
def bare (d : Description) : Board where
  circuit := d.inputs.foldl Circuit.addInput { name := d.name }
  description := d
  names := []

def withEntry (b : Board) (entry : ChipEntry) (chip : Chip) : Board :=
  { b with circuit := b.circuit.withChip chip, names := (entry.name, b.circuit.chips.length) :: b.names }

/-- The board with a chip more for each of the entries, in their order. -/
def withEntries (b : Board) : List ChipEntry → List Chip → Board
  | entry :: entries, chip :: chips => (b.withEntry entry chip).withEntries entries chips
  | _, _ => b

/-- The inputs and the chips of a description, before any wire. -/
def furnished (d : Description) (chips : List Chip) : Board := (bare d).withEntries d.chips chips

section
variable {catalog : Catalog} {b : Board} {entry : ChipEntry} {chip : Chip} {entries : List ChipEntry}
  {chips : List Chip}

theorem addEntry_result (makes : Makes catalog entry chip) :
    (b.addEntry catalog entry).result =
      if Word.fits64 (b.circuit.sources + chip.sourceCount) then .ok (b.withEntry entry chip)
      else .error (.overflow .add) := by
  have added := b.circuit.addChip_result chip
  rw [Chip.setup_sourceCount] at added
  rw [addEntry, Logged.result_bind_of_ok makes]
  split
  · rename_i fits
    exact Logged.result_bind_of_ok (added.trans (if_pos fits))
  · rename_i exceeds
    exact Logged.result_bind_of_error (added.trans (if_neg exceeds))

theorem withEntry_sources (b : Board) (entry : ChipEntry) (chip : Chip) :
    (b.withEntry entry chip).circuit.sources = b.circuit.sources + chip.sourceCount :=
  congrArg (b.circuit.sources + ·) (chip.setup_sourceCount b.circuit.pins)

/-- Chips that can all be made are all placed, unless the voltage sources run out. -/
theorem addEntries_result (makes : List.Forall₂ (Makes catalog) entries chips)
    (counted : Word.fits64 b.circuit.sources) :
    (addEntries catalog entries b).result =
      if Word.fits64 (b.circuit.sources + (chips.map Chip.sourceCount).sum) then .ok (b.withEntries entries chips)
      else .error (.overflow .add) := by
  induction makes generalizing b with
  | nil => exact (if_pos counted).symm
  | @cons entry chip entries chips first rest ih =>
    have added := addEntry_result (b := b) first
    rw [addEntries, List.map_cons, List.sum_cons]
    by_cases fits : Word.fits64 (b.circuit.sources + chip.sourceCount)
    · rw [Logged.result_bind_of_ok (added.trans (if_pos fits)), ih (b.withEntry_sources entry chip ▸ fits),
        withEntry_sources, Nat.add_assoc]
      rfl
    · rw [Logged.result_bind_of_error (added.trans (if_neg fits)), if_neg]
      exact fun all => fits (Word.fits64_of_le (by omega) all)

theorem addEntries_append (before after : List ChipEntry) (b : Board) :
    addEntries catalog (before ++ after) b = addEntries catalog before b >>= addEntries catalog after := by
  induction before generalizing b with
  | nil => exact (pure_bind b _).symm
  | cons entry before ih =>
    simp only [List.cons_append, addEntries, bind_assoc]
    exact congrArg (b.addEntry catalog entry >>= ·) (funext fun next => ih next)

theorem addEntries_overflow {after : List ChipEntry} (makes : List.Forall₂ (Makes catalog) entries chips)
    (counted : Word.fits64 b.circuit.sources)
    (exceeds : ¬Word.fits64 (b.circuit.sources + (chips.map Chip.sourceCount).sum)) :
    (addEntries catalog (entries ++ after) b).result = .error (.overflow .add) := by
  rw [addEntries_append]
  exact Logged.result_bind_of_error ((addEntries_result makes counted).trans (if_neg exceeds))

/-- The first entry for which no chip can be made decides. -/
theorem addEntries_error {after : List ChipEntry} {failure : Failure}
    (makes : List.Forall₂ (Makes catalog) entries chips) (counted : Word.fits64 b.circuit.sources)
    (fits : Word.fits64 (b.circuit.sources + (chips.map Chip.sourceCount).sum))
    (failed : (makeChip catalog entry).result = .error failure) :
    (addEntries catalog (entries ++ entry :: after) b).result = .error failure := by
  rw [addEntries_append, Logged.result_bind_of_ok ((addEntries_result makes counted).trans (if_pos fits)), addEntries]
  refine Logged.result_bind_of_error ?_
  exact Logged.result_bind_of_error failed

end

section
variable {catalog : Catalog}

theorem exists_chips_of_addEntries {entries : List ChipEntry} {b full : Board}
    (added : (addEntries catalog entries b).result = .ok full) :
    ∃ chips, List.Forall₂ (Makes catalog) entries chips := by
  induction entries generalizing b with
  | nil => exact ⟨[], .nil⟩
  | cons entry entries ih =>
    obtain ⟨next, first, rest⟩ := Logged.result_bind_eq_ok_iff.mp added
    obtain ⟨chip, makes, _⟩ := Logged.result_bind_eq_ok_iff.mp first
    obtain ⟨chips, others⟩ := ih rest
    exact ⟨chip :: chips, .cons makes others⟩

theorem addEntries_sparesPins (stocked : catalog.Stocked) (entries : List ChipEntry) (b : Board) :
    ErrorsIn Failure.SparesPins (addEntries catalog entries b).result := by
  induction entries generalizing b with
  | nil => exact errorsIn_ok b
  | cons entry entries ih =>
    refine Logged.errorsIn_bind ?_ fun next _ => ih next
    refine Logged.errorsIn_bind (makeChip_sparesPins stocked entry) fun chip _ => ?_
    refine Logged.errorsIn_bind ?_ fun _ _ => errorsIn_ok _
    rw [Circuit.addChip_result]
    split
    · exact errorsIn_ok _
    · exact errorsIn_error trivial

end

/-- The last of the entries with the name is the one at the index. -/
def LastNamed (entries : List ChipEntry) (name : String) (i : Nat) : Prop :=
  entries[i]?.map ChipEntry.name = some name ∧ ∀ j, i < j → entries[j]?.map ChipEntry.name ≠ some name

theorem lastNamed_append_singleton {entries : List ChipEntry} {entry : ChipEntry} {name : String} {i : Nat} :
    LastNamed (entries ++ [entry]) name i ↔
      if entry.name = name then i = entries.length else LastNamed entries name i := by
  have latest : (entries ++ [entry])[entries.length]? = some entry := List.getElem?_concat_length ..
  have early {j : Nat} (before : j < entries.length) : (entries ++ [entry])[j]? = entries[j]? :=
    List.getElem?_append_left before
  have late {j : Nat} (after : entries.length < j) : (entries ++ [entry])[j]? = none :=
    List.getElem?_eq_none (by rw [List.length_append]; exact after)
  split
  · rename_i same
    constructor
    · rintro ⟨here, none⟩
      rcases Nat.lt_trichotomy i entries.length with before | equal | after
      · exact absurd (by rw [latest, Option.map_some, same]) (none entries.length before)
      · exact equal
      · rw [late after] at here
        cases here
    · rintro rfl
      refine ⟨by rw [latest, Option.map_some, same], fun j after => ?_⟩
      rw [late after]
      exact nofun
  · rename_i other
    have everywhere (j : Nat) : (entries ++ [entry])[j]?.map ChipEntry.name = some name ↔
        entries[j]?.map ChipEntry.name = some name := by
      rcases Nat.lt_trichotomy j entries.length with before | rfl | after
      · rw [early before]
      · rw [latest, List.getElem?_eq_none (Nat.le_refl _)]
        simp [other]
      · rw [late after, List.getElem?_eq_none (Nat.le_of_lt after)]
    simp only [LastNamed, ne_eq, everywhere]

/-- A board with labelled inputs and a chip for each of the entries. Every chip has been set up on a table that held
the inputs and the chips before it, and has the pins of that setup. -/
structure Furnished (labels : List String) (entries : List ChipEntry) (chips : List Chip) (b : Board) : Prop where
  inputs : b.circuit.inputs = List.range labels.length
  labelled : ∀ (i : Nat) label, labels[i]? = some label →
    b.circuit.pins.get? i = some { label, position := i, side := .west }
  size : b.circuit.pins.size = labels.length + (chips.map Chip.postCount).sum
  paired : chips.length = entries.length
  count : b.circuit.chips.length = entries.length
  seated : ∀ i chip, chips[i]? = some chip → ∃ table : PinTable,
    table.size = labels.length + ((chips.take i).map Chip.postCount).sum ∧
    b.circuit.chips[i]? = some (chip.setup table).1 ∧
    ∀ id ∈ (chip.setup table).1.handles,
      (b.circuit.pins.get? id).map Pin.face = ((chip.setup table).2.get? id).map Pin.face
  named : ∀ name i, b.chipId? name = some i ↔ LastNamed entries name i
  low : b.circuit.pins.Low
  ticks : b.circuit.ticks = 0
  sources : b.circuit.sources = (chips.map Chip.sourceCount).sum

namespace Furnished
variable {labels : List String} {entries : List ChipEntry} {chips : List Chip} {b : Board}

theorem addInput (furnished : Furnished labels [] [] b) (label : String) :
    Furnished (labels ++ [label]) [] [] { b with circuit := b.circuit.addInput label } := by
  have size : b.circuit.pins.size = labels.length := furnished.size
  have length : (labels ++ [label]).length = labels.length + 1 := List.length_append
  have position : b.circuit.inputs.length = labels.length := by rw [furnished.inputs, List.length_range]
  refine ⟨?_, fun i other atI => ?_, ?_, rfl, furnished.count, nofun, furnished.named, ?_, furnished.ticks,
    furnished.sources⟩
  · rw [length, List.range_succ, ← furnished.inputs, ← size]
    rfl
  · rw [Circuit.addInput, PinTable.get?_allocate, size, position]
    rw [List.getElem?_append] at atI
    split at atI
    · rename_i before
      rw [if_neg (Nat.ne_of_lt before)]
      exact furnished.labelled i other atI
    · rename_i behind
      rw [List.getElem?_singleton] at atI
      split at atI
      · cases atI
        rw [show i = labels.length by omega, if_pos rfl]
      · cases atI
  · rw [length, Circuit.addInput, PinTable.size_allocate, size]
    rfl
  · exact furnished.low.allocate rfl

theorem withEntry (furnished : Furnished labels entries chips b) (entry : ChipEntry) {chip : Chip}
    (starts : chip.StartsLow) : Furnished labels (entries ++ [entry]) (chips ++ [chip]) (b.withEntry entry chip) where
  inputs := furnished.inputs
  labelled := by
    intro i label atI
    have before : i < b.circuit.pins.size := by
      have within := (List.getElem?_eq_some_iff.mp atI).1
      exact Nat.lt_of_lt_of_le within (Nat.le.intro furnished.size.symm)
    rw [Board.withEntry, Circuit.get?_withChip_of_lt chip before]
    exact furnished.labelled i label atI
  size := by
    rw [Board.withEntry, Circuit.size_withChip, furnished.size, List.map_append, List.sum_append, Nat.add_assoc]
    rfl
  paired := by
    rw [List.length_append, List.length_append, furnished.paired]
    rfl
  count := by
    rw [Board.withEntry, Circuit.withChip, List.length_append, List.length_append, furnished.count]
    rfl
  seated := by
    intro i other atI
    have count : b.circuit.chips.length = chips.length := furnished.count.trans furnished.paired.symm
    rw [Board.withEntry, Circuit.withChip]
    rcases Nat.lt_or_ge i chips.length with before | behind
    · -- A chip from before keeps its place, and the new chip has taken none of its pins.
      rw [List.getElem?_append_left before] at atI
      obtain ⟨table, size, placed, faces⟩ := furnished.seated i other atI
      refine ⟨table, ?_, ?_, fun id own => ?_⟩
      · rw [List.take_append_of_le_length (Nat.le_of_lt before), size]
      · rw [List.getElem?_append_left (count ▸ before), placed]
      · have allocated : id < b.circuit.pins.size := by
          rw [← PinTable.get?_isSome_iff, ← Option.isSome_map, faces id own, Option.isSome_map]
          exact (PinTable.get?_isSome_iff _ _).mpr (Chip.setup_allocated own)
        exact (congrArg _ (Circuit.get?_withChip_of_lt chip allocated)).trans (faces id own)
    · -- The new chip has been set up on the table of the board.
      rw [List.getElem?_append_right behind, List.getElem?_singleton] at atI
      split at atI
      · obtain rfl : i = chips.length := by omega
        cases atI
        refine ⟨b.circuit.pins, ?_, ?_, fun id _ => Chip.face_bindSources ..⟩
        · rw [List.take_left, furnished.size]
        · rw [← count, List.getElem?_concat_length]
      · cases atI
  named := by
    intro name i
    rw [lastNamed_append_singleton, ← furnished.named, ← furnished.count, chipId?, Board.withEntry, List.lookup_cons]
    by_cases same : entry.name = name
    · subst same
      simp [eq_comm]
    · have other : (name == entry.name) = false := by simpa using fun equal => same equal.symm
      rw [other, if_neg same]
      rfl
  low := Circuit.low_withChip furnished.low starts
  ticks := furnished.ticks
  sources := by
    rw [withEntry_sources, furnished.sources, List.map_append, List.sum_append]
    rfl

theorem withEntries {more : List ChipEntry} {others : List Chip} (furnished : Furnished labels entries chips b)
    (pairs : List.Forall₂ (fun _ chip => chip.StartsLow) more others) :
    Furnished labels (entries ++ more) (chips ++ others) (b.withEntries more others) := by
  induction pairs generalizing entries chips b with
  | nil =>
    rw [List.append_nil, List.append_nil]
    exact furnished
  | @cons entry chip more others starts _ ih =>
    rw [List.append_cons, List.append_cons chips]
    exact ih (furnished.withEntry entry starts)

end Furnished

/-- The inputs of a description are the first pins, all low. -/
theorem furnished_bare (d : Description) : Furnished d.inputs [] [] (bare d) := by
  unfold bare
  induction d.inputs using List.reverseRecOn with
  | nil =>
    refine ⟨rfl, nofun, rfl, rfl, rfl, nofun, fun name i => ?_, fun id => ?_, rfl, rfl⟩
    · simp [chipId?, LastNamed]
    · simp [PinTable.level]
  | append_singleton labels label ih =>
    rw [List.foldl_append]
    exact ih.addInput label

theorem bare_sources_add (d : Description) (count : Nat) : (bare d).circuit.sources + count = count := by
  rw [(furnished_bare d).sources]
  exact Nat.zero_add count

theorem bare_counted (d : Description) : Word.fits64 (bare d).circuit.sources := by
  rw [(furnished_bare d).sources]
  rfl

theorem bare_wires (d : Description) : (bare d).circuit.wires = [] := by
  unfold bare
  induction d.inputs using List.reverseRecOn with
  | nil => rfl
  | append_singleton labels label ih =>
    rw [List.foldl_append]
    exact ih

theorem withEntries_wires (b : Board) (entries : List ChipEntry) (chips : List Chip) :
    (b.withEntries entries chips).circuit.wires = b.circuit.wires := by
  fun_induction withEntries b entries chips with
  | case1 b entry entries chip chips ih => exact ih
  | case2 => rfl

theorem withEntries_description (b : Board) (entries : List ChipEntry) (chips : List Chip) :
    (b.withEntries entries chips).description = b.description := by
  fun_induction withEntries b entries chips with
  | case1 b entry entries chip chips ih => exact ih
  | case2 => rfl

end Board

end LogicBoard
