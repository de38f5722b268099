import LogicBoard.Pin

namespace LogicBoard

/-- Handle to a pin: its index in the table. A handle that names no pin is dangling. -/
abbrev PinId := Nat

def PinId.text (id : PinId) : String := "#" ++ toString id

/-- Every pin of a circuit, in order of allocation. -/
structure PinTable where
  pins : Array Pin := #[]

namespace PinTable

def empty : PinTable := {}

def size (table : PinTable) : Nat := table.pins.size

def get? (table : PinTable) (id : PinId) : Option Pin := table.pins[id]?

def contains (table : PinTable) (id : PinId) : Bool := decide (id < table.size)

/-- A dangling handle reads low. -/
def level (table : PinTable) (id : PinId) : Level := ((table.get? id).map Pin.level).getD .low

/-- The new pin's handle is the size of the table before. -/
def allocate (table : PinTable) (pin : Pin) : PinTable := ⟨table.pins.push pin⟩

/-- The new pins take consecutive handles, starting with the size of the table before. -/
def allocateAll (table : PinTable) (pins : List Pin) : PinTable := ⟨table.pins ++ pins.toArray⟩

/-- The handles that `allocateAll` gives out. -/
def freshHandles (table : PinTable) (pins : List Pin) : List PinId := List.range' table.size pins.length

/-- Edit a pin in place; an edit through a dangling handle is dropped. -/
def modify (table : PinTable) (id : PinId) (edit : Pin → Pin) : PinTable := ⟨table.pins.modify id edit⟩

def setLevel (table : PinTable) (id : PinId) (level : Level) : PinTable :=
  table.modify id (Pin.withLevel level)

def setSource (table : PinTable) (id : PinId) (source : Nat) : PinTable :=
  table.modify id fun pin => { pin with source := some source }

/-- Make several edits, one after the other. -/
def modifyAll (table : PinTable) (edits : List (PinId × (Pin → Pin))) : PinTable :=
  edits.foldl (fun table edit => table.modify edit.1 edit.2) table

/-- The pins behind a list of handles, dangling ones left out. -/
def select (table : PinTable) (ids : List PinId) : List Pin := ids.filterMap table.get?

@[simp] theorem get?_empty (id : PinId) : empty.get? id = none := by simp [empty, get?]

theorem get?_eq_none_iff (table : PinTable) (id : PinId) : table.get? id = none ↔ table.size ≤ id := by
  simp [get?, size]

theorem get?_allocate (table : PinTable) (pin : Pin) (id : PinId) :
    (table.allocate pin).get? id = if id = table.size then some pin else table.get? id :=
  Array.getElem?_push

theorem get?_allocateAll (table : PinTable) (pins : List Pin) (id : PinId) :
    (table.allocateAll pins).get? id = if id < table.size then table.get? id else pins[id - table.size]? := by
  by_cases below : id < table.size
  · exact (Array.getElem?_append_left below).trans (if_pos below).symm
  · rw [if_neg below]
    exact (Array.getElem?_append_right (Nat.le_of_not_lt below)).trans List.getElem?_toArray

theorem get?_modify (table : PinTable) (id other : PinId) (edit : Pin → Pin) :
    (table.modify id edit).get? other = if id = other then (table.get? other).map edit else table.get? other := by
  simp [get?, modify, Array.getElem?_modify]

@[simp] theorem size_allocate (table : PinTable) (pin : Pin) : (table.allocate pin).size = table.size + 1 := by
  simp [size, allocate]

@[simp] theorem size_allocateAll (table : PinTable) (pins : List Pin) :
    (table.allocateAll pins).size = table.size + pins.length := by
  simp [size, allocateAll]

@[simp] theorem size_modify (table : PinTable) (id : PinId) (edit : Pin → Pin) :
    (table.modify id edit).size = table.size := by
  simp [size, modify]

/-- A write is seen by its own handle alone, and only when the handle names a pin. -/
theorem level_setLevel (table : PinTable) (id other : PinId) (level : Level) :
    (table.setLevel id level).level other = if id = other ∧ other < table.size then level else table.level other := by
  unfold PinTable.level setLevel
  rw [get?_modify]
  by_cases same : id = other
  · cases found : table.get? other with
    | none => simp [same, Nat.not_lt.mpr ((get?_eq_none_iff table other).mp found)]
    | some pin =>
      have allocated : other < table.size := by
        refine Nat.lt_of_not_le fun above => ?_
        rw [(get?_eq_none_iff table other).mpr above] at found
        cases found
      simp [same, allocated, Pin.withLevel]
  · simp [same]

end PinTable

end LogicBoard
