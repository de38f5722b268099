import Mathlib.Data.List.Forall2
import LogicBoard.Proofs.CircuitLayout

namespace LogicBoard.Circuit

/-- Every chip has become what it becomes in a tick of its own on the table, its pins are what they become in that
tick, and the pins of no chip are as they were. -/
structure Snapshot (chips : List Chip) (table : PinTable) (nexts : List Chip) (result : PinTable) : Prop where
  alone : List.Forall₂ (fun chip next => ∃ own, (chip.execute table).result = .ok (next, own) ∧
    ∀ id ∈ chip.handles, result.get? id = own.get? id) chips nexts
  foreign : ∀ id, (∀ chip ∈ chips, id ∉ chip.handles) → result.get? id = table.get? id

section
variable {chips : List Chip} {table : PinTable}

theorem Snapshot.own {nexts : List Chip} {result : PinTable} {chip : Chip}
    (snapshot : Snapshot chips table nexts result) (member : chip ∈ chips) :
    ∃ next own, (chip.execute table).result = .ok (next, own) ∧
      ∀ id ∈ chip.handles, result.get? id = own.get? id := by
  obtain ⟨i, within, rfl⟩ := List.mem_iff_getElem.mp member
  have related := snapshot.alone.get within (snapshot.alone.length_eq ▸ within)
  exact ⟨_, related⟩

/-- There is one snapshot only. -/
theorem Snapshot.unique {nexts others : List Chip} {result other : PinTable}
    (first : Snapshot chips table nexts result) (second : Snapshot chips table others other) :
    others = nexts ∧ other = result := by
  constructor
  · have same : Relator.RightUnique fun (chip next : Chip) => ∃ own, (chip.execute table).result = .ok (next, own) := by
      rintro chip a b ⟨_, executedA⟩ ⟨_, executedB⟩
      rw [executedA] at executedB
      cases executedB
      rfl
    refine same.forall₂ (a := chips) ?_ ?_
    · exact second.alone.imp fun chip next related => related.imp fun own both => both.1
    · exact first.alone.imp fun chip next related => related.imp fun own both => both.1
  · refine PinTable.ext_get? fun id => ?_
    by_cases owned : ∃ chip ∈ chips, id ∈ chip.handles
    · obtain ⟨chip, member, own⟩ := owned
      obtain ⟨_, mine, executed, same⟩ := first.own member
      obtain ⟨_, yours, again, equal⟩ := second.own member
      rw [executed] at again
      cases again
      rw [same id own, equal id own]
    · have none : ∀ chip ∈ chips, id ∉ chip.handles := fun chip member own => owned ⟨chip, member, own⟩
      rw [first.foreign id none, second.foreign id none]

theorem snapshot_modifyAll (placed : ∀ chip ∈ chips, chip.Placed) (apart : chips.Pairwise Chip.Apart)
    (table : PinTable) :
    Snapshot chips table (chips.map fun chip => chip.next table)
      (table.modifyAll (chips.flatMap fun chip => chip.writes table)) where
  alone := by
    rw [List.forall₂_map_right_iff, List.forall₂_same]
    intro chip member
    exact ⟨_, Chip.execute_placed (placed chip member) table, fun id own => get?_modifyAll_own apart table member own⟩
  foreign := fun id none => get?_modifyAll_other table none

theorem apart_of_perm {order : List Chip} (perm : order.Perm chips) (apart : chips.Pairwise Chip.Apart) :
    order.Pairwise Chip.Apart :=
  perm.symm.pairwise apart fun disjoint => disjoint.symm

/-- Chips that share no pins write the same whatever their order is. -/
theorem modifyAll_perm {order : List Chip} (perm : order.Perm chips) (apart : chips.Pairwise Chip.Apart)
    (table : PinTable) :
    table.modifyAll (order.flatMap fun chip => chip.writes table) =
      table.modifyAll (chips.flatMap fun chip => chip.writes table) := by
  have reordered := apart_of_perm perm apart
  refine PinTable.ext_get? fun id => ?_
  by_cases owned : ∃ chip ∈ chips, id ∈ chip.handles
  · obtain ⟨chip, member, own⟩ := owned
    rw [get?_modifyAll_own apart table member own,
      get?_modifyAll_own reordered table (perm.mem_iff.mpr member) own]
  · have none : ∀ chip ∈ chips, id ∉ chip.handles := fun chip member own => owned ⟨chip, member, own⟩
    rw [get?_modifyAll_other table none,
      get?_modifyAll_other table fun chip member => none chip (perm.mem_iff.mp member)]

/-- In whatever order the chips run, each becomes the same and so do the pins. -/
theorem executeAll_perm {order : List Chip} (perm : order.Perm chips) (placed : ∀ chip ∈ chips, chip.Placed)
    (apart : chips.Pairwise Chip.Apart) (table : PinTable) :
    ∃ nexts, (executeAll order table).result =
        .ok (nexts, table.modifyAll (chips.flatMap fun chip => chip.writes table)) ∧
      (order.zip nexts).Perm (chips.zip (chips.map fun chip => chip.next table)) := by
  have here : ∀ chip ∈ order, chip.Placed := fun chip member => placed chip (perm.mem_iff.mp member)
  have executed := executeAll_result here (apart_of_perm perm apart) table
  rw [modifyAll_perm perm apart] at executed
  refine ⟨_, executed, ?_⟩
  rw [← List.map_prod_left_eq_zip, ← List.map_prod_left_eq_zip]
  exact perm.map _

end

/-- Whatever operations have built a circuit, its next step takes the one snapshot of its chips and then passes the
levels on along the wires. Running the chips in another order takes the same snapshot. -/
theorem performAll_step_synchronous {name : String} {operations : List Operation} {c : Circuit}
    (run : (performAll operations { name }).result = .ok c) :
    ∃ nexts pins, Snapshot c.chips c.pins nexts pins ∧
      (∀ others other, Snapshot c.chips c.pins others other → others = nexts ∧ other = pins) ∧
      c.step.result =
        (if Word.fits64 (c.ticks + 1) then
          .ok { c with chips := nexts, pins := pins.settle c.wires, ticks := c.ticks + 1 }
        else .error (.overflow .add)) ∧
      ∀ order, order.Perm c.chips → ∃ shuffled, (executeAll order c.pins).result = .ok (shuffled, pins) ∧
        (order.zip shuffled).Perm (c.chips.zip nexts) := by
  have reach : Reach (fun _ => True) (fun _ => True) c (starts operations { name } ++ []) :=
    (Reach.new name).performAll (fun _ _ => trivial) (fun _ _ _ _ => trivial) run
  have wellFormed := reach.wellFormed
  have snapshot := snapshot_modifyAll wellFormed.placed wellFormed.apart c.pins
  refine ⟨_, _, snapshot, fun others other again => snapshot.unique again, wellFormed.step_result, ?_⟩
  intro order perm
  exact executeAll_perm perm wellFormed.placed wellFormed.apart c.pins

/-- An inverter in front of the data input of a register, both driven by hand, after one step. -/
def invertedData : List Operation :=
  [.addChip (.register { outline := .atPoint 0 0 }),
    .addChip (.device (.inverter (.atPoint 7 0 0))),
    .addInput "IN", .addInput "CLK", .connect 13 10, .connect 12 0, .connect 14 1, .step, .setInput 14 .high]

theorem invertedData_step_synchronous : ∃ c nexts pins,
    (performAll invertedData { name := "inverted" }).result = .ok c ∧ c.chips.length = 2 ∧
      Snapshot c.chips c.pins nexts pins ∧
      c.step.result = .ok { c with chips := nexts, pins := pins.settle c.wires, ticks := 2 } := by
  obtain ⟨c, run, two, once⟩ : ∃ c, (performAll invertedData { name := "inverted" }).result = .ok c ∧
    c.chips.length = 2 ∧ c.ticks = 1 := ⟨_, rfl, rfl, rfl⟩
  obtain ⟨nexts, pins, snapshot, _, stepped, _⟩ := performAll_step_synchronous run
  refine ⟨c, nexts, pins, run, two, snapshot, ?_⟩
  rw [once] at stepped
  exact stepped

end LogicBoard.Circuit
