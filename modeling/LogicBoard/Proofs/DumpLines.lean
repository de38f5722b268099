import LogicBoard.Chip

namespace LogicBoard

/-- What is read from the pins behind a list of handles can be looked up handle by handle. -/
theorem PinTable.map_filter_select {α : Type} (table : PinTable) (keep : Pin → Bool) (read : Pin → α) (missing : α)
    (ids : List PinId) :
    ((table.select ids).filter keep).map read =
      (ids.filter fun id => ((table.get? id).map keep).getD false).map fun id =>
        ((table.get? id).map read).getD missing := by
  induction ids with
  | nil => rfl
  | cons id ids ih =>
    cases found : table.get? id with
    | none =>
      rw [select, List.filterMap_cons_none found, List.filter_cons_of_neg (by simp [found])]
      exact ih
    | some pin =>
      rw [select, List.filterMap_cons_some found]
      by_cases kept : keep pin
      · rw [List.filter_cons_of_pos kept, List.filter_cons_of_pos (by simp [found, kept]), List.map_cons, List.map_cons,
          found]
        exact congrArg (read pin :: ·) ih
      · rw [List.filter_cons_of_neg kept, List.filter_cons_of_neg (by simp [found, kept])]
        exact ih

namespace Chip

theorem levels_placement (chip : Chip) (table : PinTable) :
    (chip.placement table).levels = (chip.outline.outputs table).map table.level :=
  table.map_filter_select Pin.output Pin.level .low chip.handles

/-- The line of a chip is read back as its own place and flags, with the level of every allocated handle that has an
output behind it, in the order of the handles. A handle may be dangling, and it may occur more than once. -/
theorem parse_dump (chip : Chip) (table : PinTable) : ∃ p, Placement.parse (chip.dump table) = .ok p ∧
    p.dumpType = chip.dumpType ∧ p.x = chip.outline.x ∧ p.y = chip.outline.y ∧ p.x2 = chip.outline.x2 ∧
    p.y2 = chip.outline.y2 ∧ p.flags = chip.outline.flags ∧
    p.levels = (chip.handles.filter fun id => ((table.get? id).map Pin.output).getD false).map table.level :=
  ⟨chip.placement table, Placement.parse_line _, rfl, rfl, rfl, rfl, rfl, rfl, chip.levels_placement table⟩

end Chip

end LogicBoard
