import LogicBoard.PinTable

namespace LogicBoard.PinTable

theorem ext_get? {a b : PinTable} (same : ∀ id, a.get? id = b.get? id) : a = b := by
  cases a
  cases b
  exact congrArg PinTable.mk (Array.ext_getElem? same)

theorem get?_isSome_iff (table : PinTable) (id : PinId) : (table.get? id).isSome ↔ id < table.size := by
  rw [Option.isSome_iff_ne_none, ne_eq, get?_eq_none_iff, Nat.not_le]

theorem contains_eq_of_get? {a b : PinTable} {id : PinId} (same : a.get? id = b.get? id) :
    a.contains id = b.contains id := by
  simp only [contains, ← get?_isSome_iff, same]

theorem level_eq_of_get? {a b : PinTable} {id : PinId} (same : a.get? id = b.get? id) :
    a.level id = b.level id := by
  simp only [level, same]

theorem level_of_get? {table : PinTable} {id : PinId} {pin : Pin} (found : table.get? id = some pin) :
    table.level id = pin.level := by
  simp only [level, found, Option.map_some, Option.getD_some]

theorem get?_setLevel (table : PinTable) (id other : PinId) (level : Level) :
    (table.setLevel id level).get? other =
      if id = other then (table.get? other).map (Pin.withLevel level) else table.get? other :=
  get?_modify table id other _

/-- Writing the level that a pin has already changes nothing. -/
theorem setLevel_level (table : PinTable) (id : PinId) : table.setLevel id (table.level id) = table := by
  refine ext_get? fun other => ?_
  rw [get?_setLevel]
  split
  · rename_i same
    subst same
    cases found : table.get? id with
    | none => rfl
    | some pin =>
      rw [level_of_get? found]
      rfl
  · rfl

@[simp] theorem size_setLevel (table : PinTable) (id : PinId) (level : Level) :
    (table.setLevel id level).size = table.size :=
  size_modify table id _

theorem modifyAll_cons (table : PinTable) (edit : PinId × (Pin → Pin)) (edits : List (PinId × (Pin → Pin))) :
    table.modifyAll (edit :: edits) = (table.modify edit.1 edit.2).modifyAll edits := rfl

theorem modifyAll_append (table : PinTable) (first second : List (PinId × (Pin → Pin))) :
    table.modifyAll (first ++ second) = (table.modifyAll first).modifyAll second :=
  List.foldl_append

@[simp] theorem size_modifyAll (table : PinTable) (edits : List (PinId × (Pin → Pin))) :
    (table.modifyAll edits).size = table.size := by
  induction edits generalizing table with
  | nil => rfl
  | cons edit edits ih => rw [modifyAll_cons, ih, size_modify]

theorem get?_modifyAll_of_forall_ne (table : PinTable) {edits : List (PinId × (Pin → Pin))} {id : PinId}
    (apart : ∀ edit ∈ edits, edit.1 ≠ id) : (table.modifyAll edits).get? id = table.get? id := by
  induction edits generalizing table with
  | nil => rfl
  | cons edit edits ih =>
    rw [modifyAll_cons, ih _ fun later member => apart later (List.mem_cons_of_mem _ member), get?_modify,
      if_neg (apart edit List.mem_cons_self)]

/-- What a series of edits leaves at a handle depends on the pin that was there and on nothing else. -/
theorem get?_modifyAll_congr {a b : PinTable} {id : PinId} (same : a.get? id = b.get? id)
    (edits : List (PinId × (Pin → Pin))) : (a.modifyAll edits).get? id = (b.modifyAll edits).get? id := by
  induction edits generalizing a b with
  | nil => exact same
  | cons edit edits ih =>
    rw [modifyAll_cons, modifyAll_cons]
    refine ih ?_
    rw [get?_modify, get?_modify, same]

/-- Of the edits through one handle only the last one counts if nothing shows through it of those before. -/
theorem get?_modifyAll_last (table : PinTable) {ids : List PinId} {edits : List (Pin → Pin)} {k : Nat} {id : PinId}
    {edit : Pin → Pin} (atId : ids[k]? = some id) (atEdit : edits[k]? = some edit)
    (last : ∀ later, k < later → ids[later]? ≠ some id)
    (covers : ∀ earlier former, earlier < k → ids[earlier]? = some id → edits[earlier]? = some former →
      edit ∘ former = edit) :
    (table.modifyAll (ids.zip edits)).get? id = (table.get? id).map edit := by
  induction ids generalizing table edits k with
  | nil => simp at atId
  | cons first ids ih =>
    cases edits with
    | nil => simp at atEdit
    | cons foremost edits =>
      rw [List.zip_cons_cons, modifyAll_cons]
      cases k with
      | zero =>
        rw [List.getElem?_cons_zero, Option.some.injEq] at atId atEdit
        subst atId
        subst atEdit
        have untouched : ∀ entry ∈ ids.zip edits, entry.1 ≠ first := by
          intro entry member same
          obtain ⟨later, atLater⟩ := List.mem_iff_getElem?.mp (same ▸ (List.of_mem_zip member).1)
          exact last (later + 1) (Nat.succ_pos later) atLater
        rw [get?_modifyAll_of_forall_ne _ untouched, get?_modify, if_pos rfl]
      | succ k =>
        rw [ih _ atId atEdit (fun later after => last (later + 1) (Nat.succ_lt_succ after))
          fun earlier former before => covers (earlier + 1) former (Nat.succ_lt_succ before), get?_modify]
        split
        · rename_i same
          rw [Option.map_map, covers 0 foremost (Nat.succ_pos k) (congrArg some same) rfl]
        · rfl

/-- Through distinct handles every pin gets its own edit. -/
theorem get?_modifyAll_zip (table : PinTable) {ids : List PinId} {edits : List (Pin → Pin)} (distinct : ids.Nodup)
    {k : Nat} {id : PinId} {edit : Pin → Pin} (atId : ids[k]? = some id) (atEdit : edits[k]? = some edit) :
    (table.modifyAll (ids.zip edits)).get? id = (table.get? id).map edit := by
  have alone : ∀ other, ids[other]? = some id → k = other := fun other atOther =>
    (List.getElem?_inj (List.getElem?_eq_some_iff.mp atId).1 distinct).mp (atId.trans atOther.symm)
  refine table.get?_modifyAll_last atId atEdit (fun later after again => ?_) fun earlier _ before again _ => ?_
  · exact Nat.ne_of_lt after (alone later again)
  · exact absurd (alone earlier again).symm (Nat.ne_of_lt before)

/-- Of the levels that are written through a handle again and again the last one stays. -/
theorem get?_modifyAll_levels (table : PinTable) {ids : List PinId} {levels : List Level} {k : Nat} {id : PinId}
    {level : Level} (atId : ids[k]? = some id) (atLevel : levels[k]? = some level)
    (last : ∀ later, k < later → ids[later]? ≠ some id) :
    (table.modifyAll (ids.zip (levels.map Pin.withLevel))).get? id = (table.get? id).map (Pin.withLevel level) := by
  refine table.get?_modifyAll_last atId ?_ last fun earlier former _ _ written => ?_
  · rw [List.getElem?_map, atLevel, Option.map_some]
  · rw [List.getElem?_map] at written
    obtain ⟨_, _, rfl⟩ := Option.map_eq_some_iff.mp written
    rfl

theorem level_allocate_of_lt {table : PinTable} {id : PinId} (pin : Pin) (allocated : id < table.size) :
    (table.allocate pin).level id = table.level id := by
  refine level_eq_of_get? ?_
  rw [get?_allocate, if_neg (Nat.ne_of_lt allocated)]

theorem get?_allocateAll_of_lt {table : PinTable} {id : PinId} (pins : List Pin) (allocated : id < table.size) :
    (table.allocateAll pins).get? id = table.get? id := by
  rw [get?_allocateAll, if_pos allocated]

/-- The pins allocated together stand behind the fresh handles in their order. -/
theorem get?_allocateAll_add (table : PinTable) (pins : List Pin) (k : Nat) :
    (table.allocateAll pins).get? (table.size + k) = pins[k]? := by
  rw [get?_allocateAll, if_neg (Nat.not_lt.mpr (Nat.le_add_right _ _)), Nat.add_sub_cancel_left]

end LogicBoard.PinTable
