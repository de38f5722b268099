import Mathlib.Data.List.Basic
import LogicBoard.Circuit
import LogicBoard.Proofs.RegisterTick

namespace LogicBoard

theorem PinTable.select_congr {a b : PinTable} {ids : List PinId} (same : ∀ id ∈ ids, a.get? id = b.get? id) :
    a.select ids = b.select ids :=
  List.filterMap_congr same

namespace Device

def own (d : Device) (table : PinTable) : List PinId := d.outline.handles.filter table.contains

def next (d : Device) (table : PinTable) : Device :=
  { d with memory := (d.react d.memory (table.select (d.own table))).1 }

def writes (d : Device) (table : PinTable) : List (PinId × (Pin → Pin)) :=
  (d.own table).zip ((d.react d.memory (table.select (d.own table))).2.map fun pin _ => pin)

theorem own_congr {d : Device} {a b : PinTable} (same : ∀ id ∈ d.outline.handles, a.get? id = b.get? id) :
    d.own a = d.own b :=
  List.filter_congr fun id member => PinTable.contains_eq_of_get? (same id member)

theorem select_own_congr {d : Device} {a b : PinTable} (same : ∀ id ∈ d.outline.handles, a.get? id = b.get? id) :
    a.select (d.own a) = b.select (d.own b) := by
  rw [own_congr same]
  exact PinTable.select_congr fun id member => same id (List.mem_filter.mp member).1

end Device

namespace Chip

/-- A register has the ten pins of its pinout. Nothing is asked of other chips. -/
def Placed : Chip → Prop
  | register r => r.Placed
  | device _ => True

def next (chip : Chip) (table : PinTable) : Chip :=
  match chip with
  | register r => register (r.next (r.sample table))
  | device d => device (d.next table)

def writes (chip : Chip) (table : PinTable) : List (PinId × (Pin → Pin)) :=
  match chip with
  | register r => r.writes (r.sample table)
  | device d => d.writes table

theorem execute_placed {chip : Chip} (placed : chip.Placed) (table : PinTable) :
    (chip.execute table).result = .ok (chip.next table, table.modifyAll (chip.writes table)) := by
  cases chip with
  | register r =>
    rw [execute, Logged.result_bind_eq_ok_iff]
    exact ⟨_, r.execute_placed placed table, rfl⟩
  | device d => rfl

@[simp] theorem next_handles (chip : Chip) (table : PinTable) : (chip.next table).handles = chip.handles := by
  cases chip with
  | register r => exact congrArg Outline.handles (r.next_outline _)
  | device d => rfl

theorem Placed.next {chip : Chip} (placed : chip.Placed) (table : PinTable) : (chip.next table).Placed := by
  cases chip with
  | register r => exact (congrArg (List.length ∘ Outline.handles) (r.next_outline _)).trans placed
  | device d => trivial

/-- A chip writes to its own pins only. -/
theorem mem_handles_of_writes {chip : Chip} {table : PinTable} {edit : PinId × (Pin → Pin)}
    (member : edit ∈ chip.writes table) : edit.1 ∈ chip.handles := by
  cases chip with
  | register r => exact List.mem_of_mem_drop (ShiftRegister.mem_outputs_of_writes member)
  | device d => exact (List.mem_filter.mp (List.of_mem_zip member).1).1

theorem sample_congr {r : ShiftRegister} {a b : PinTable}
    (same : ∀ id ∈ r.outline.handles, a.get? id = b.get? id) : r.sample a = r.sample b := by
  have input (k : Nat) : (r.outline.handles[k]?).map a.level = (r.outline.handles[k]?).map b.level := by
    cases atPin : r.outline.handles[k]? with
    | none => rfl
    | some id => exact congrArg some (PinTable.level_eq_of_get? (same id (List.mem_of_getElem? atPin)))
  rw [ShiftRegister.sample, ShiftRegister.dataPin?, ShiftRegister.clockPin?, input 0, input 1]
  rfl

/-- A chip reads its own pins only. -/
theorem next_congr {chip : Chip} {a b : PinTable} (same : ∀ id ∈ chip.handles, a.get? id = b.get? id) :
    chip.next a = chip.next b := by
  cases chip with
  | register r => simp only [next, sample_congr same]
  | device d => simp only [next, Device.next, Device.select_own_congr same]

theorem writes_congr {chip : Chip} {a b : PinTable} (same : ∀ id ∈ chip.handles, a.get? id = b.get? id) :
    chip.writes a = chip.writes b := by
  cases chip with
  | register r => simp only [writes, sample_congr same]
  | device d => rw [writes, writes, Device.writes, Device.writes, Device.select_own_congr same, Device.own_congr same]

def Apart (a b : Chip) : Prop := ∀ id ∈ a.handles, id ∉ b.handles

theorem Apart.symm {a b : Chip} (apart : a.Apart b) : b.Apart a := fun id inB inA => apart id inA inB

theorem Apart.get?_modifyAll {a b : Chip} (apart : a.Apart b) (table other : PinTable) {id : PinId}
    (member : id ∈ b.handles) : (other.modifyAll (a.writes table)).get? id = other.get? id := by
  refine other.get?_modifyAll_of_forall_ne fun edit written same => ?_
  exact apart edit.1 (mem_handles_of_writes written) (same ▸ member)

end Chip

namespace Circuit

theorem mem_handles_of_flatMap_writes {chips : List Chip} {table : PinTable} {edit : PinId × (Pin → Pin)}
    (member : edit ∈ chips.flatMap fun chip => chip.writes table) : ∃ chip ∈ chips, edit.1 ∈ chip.handles := by
  obtain ⟨chip, inChips, written⟩ := List.mem_flatMap.mp member
  exact ⟨chip, inChips, Chip.mem_handles_of_writes written⟩

/-- Chips that share no pins all work on the table as it was at first, although they run one after the other. -/
theorem executeAll_result {chips : List Chip} (placed : ∀ chip ∈ chips, chip.Placed)
    (apart : chips.Pairwise Chip.Apart) (table : PinTable) :
    (executeAll chips table).result =
      .ok (chips.map fun chip => chip.next table, table.modifyAll (chips.flatMap fun chip => chip.writes table)) := by
  induction chips generalizing table with
  | nil => rfl
  | cons chip chips ih =>
    obtain ⟨first, apart⟩ := List.pairwise_cons.mp apart
    have seen : ∀ later ∈ chips, ∀ id ∈ later.handles,
        (table.modifyAll (chip.writes table)).get? id = table.get? id :=
      fun later member id own => (first later member).get?_modifyAll table table own
    have nexts : (chips.map fun later => later.next (table.modifyAll (chip.writes table))) =
        chips.map fun later => later.next table :=
      List.map_congr_left fun later member => Chip.next_congr (seen later member)
    have written : (chips.flatMap fun later => later.writes (table.modifyAll (chip.writes table))) =
        chips.flatMap fun later => later.writes table := by
      rw [List.flatMap_def, List.flatMap_def,
        List.map_congr_left fun later member => Chip.writes_congr (seen later member)]
    have rest := ih (fun later member => placed later (List.mem_cons_of_mem _ member)) apart
      (table.modifyAll (chip.writes table))
    rw [nexts, written] at rest
    rw [executeAll, Logged.result_bind_eq_ok_iff]
    refine ⟨_, Chip.execute_placed (placed chip List.mem_cons_self) table, ?_⟩
    rw [Logged.result_bind_eq_ok_iff]
    refine ⟨_, rest, ?_⟩
    rw [List.flatMap_cons, PinTable.modifyAll_append]
    rfl

/-- After a tick of all chips, the pins of each one are as if it had run alone. -/
theorem get?_modifyAll_own {chips : List Chip} (apart : chips.Pairwise Chip.Apart) (table : PinTable)
    {chip : Chip} (inChips : chip ∈ chips) {id : PinId} (own : id ∈ chip.handles) :
    (table.modifyAll (chips.flatMap fun chip => chip.writes table)).get? id =
      (table.modifyAll (chip.writes table)).get? id := by
  obtain ⟨before, after, rfl⟩ := List.append_of_mem inChips
  obtain ⟨_, rest, cross⟩ := List.pairwise_append.mp apart
  have later := (List.pairwise_cons.mp rest).1
  rw [List.flatMap_append, List.flatMap_cons, PinTable.modifyAll_append, PinTable.modifyAll_append]
  refine (PinTable.get?_modifyAll_of_forall_ne _ fun edit written same => ?_).trans ?_
  · obtain ⟨other, member, owned⟩ := mem_handles_of_flatMap_writes written
    exact later other member id own (same ▸ owned)
  · refine PinTable.get?_modifyAll_congr (PinTable.get?_modifyAll_of_forall_ne _ fun edit written same => ?_) _
    obtain ⟨other, member, owned⟩ := mem_handles_of_flatMap_writes written
    exact cross other member chip List.mem_cons_self id (same ▸ owned) own

theorem get?_modifyAll_other {chips : List Chip} (table : PinTable) {id : PinId}
    (foreign : ∀ chip ∈ chips, id ∉ chip.handles) :
    (table.modifyAll (chips.flatMap fun chip => chip.writes table)).get? id = table.get? id := by
  refine table.get?_modifyAll_of_forall_ne fun edit written same => ?_
  obtain ⟨chip, member, owned⟩ := mem_handles_of_flatMap_writes written
  exact foreign chip member (same ▸ owned)

end Circuit

end LogicBoard
