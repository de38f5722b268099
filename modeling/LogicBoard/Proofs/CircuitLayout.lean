import Mathlib.Data.List.Nodup
import LogicBoard.Proofs.ChipLocality
import LogicBoard.Proofs.CircuitRuns
import LogicBoard.Proofs.WireTrace

namespace LogicBoard

theorem PinTable.level_setSource (table : PinTable) (id other : PinId) (source : Nat) :
    (table.setSource id source).level other = table.level other := by
  simp only [level, setSource, get?_modify]
  split
  · simp only [Option.map_map]
    rfl
  · rfl

@[simp] theorem Chip.size_bindSources (chip : Chip) (first : Nat) (table : PinTable) :
    (chip.bindSources first table).size = table.size := by
  unfold bindSources
  generalize ((chip.outline.outputs table).take chip.sourceCount).zipIdx first = bound
  induction bound generalizing table with
  | nil => rfl
  | cons entry bound ih => exact (ih _).trans (table.size_modify _ _)

theorem Chip.level_bindSources (chip : Chip) (first : Nat) (table : PinTable) (id : PinId) :
    (chip.bindSources first table).level id = table.level id := by
  unfold bindSources
  generalize ((chip.outline.outputs table).take chip.sourceCount).zipIdx first = bound
  induction bound generalizing table with
  | nil => rfl
  | cons entry bound ih => exact (ih _).trans (table.level_setSource _ _ _)

theorem Chip.setup_placed (chip : Chip) (table : PinTable) : (chip.setup table).1.Placed := by
  cases chip with
  | register r => exact r.setup_placed table
  | device d => trivial

/-- A chip gets as many fresh pins as there are handles, in their order. -/
theorem Chip.setup_fresh (chip : Chip) (table : PinTable) : ∃ pins,
    (chip.setup table).2 = table.allocateAll pins ∧ (chip.setup table).1.handles = table.freshHandles pins := by
  cases chip with
  | register r => exact ⟨_, rfl, rfl⟩
  | device d => exact ⟨_, rfl, rfl⟩

namespace Circuit

/-- The pin at a post of the chip at a place. -/
def post? (c : Circuit) (i n : Nat) : Option PinId := c.chips[i]?.bind fun chip => chip.handles[n]?

/-- The circuit after a tick: all chips have worked on the pins as they were, then the wires have passed the levels
on. -/
def ticked (c : Circuit) : Circuit :=
  { c with
    chips := c.chips.map fun chip => chip.next c.pins
    pins := (c.pins.modifyAll (c.chips.flatMap fun chip => chip.writes c.pins)).settle c.wires
    ticks := c.ticks + 1 }

/-- The circuit with one chip more, its pins allocated and bound to voltage sources. -/
def withChip (c : Circuit) (chip : Chip) : Circuit :=
  { c with
    pins := (chip.setup c.pins).1.bindSources c.sources (chip.setup c.pins).2
    chips := c.chips ++ [(chip.setup c.pins).1]
    sources := c.sources + (chip.setup c.pins).1.sourceCount }

def withWire (c : Circuit) (wire : Wire) : Circuit :=
  { c with pins := c.pins.carry wire, wires := c.wires ++ [wire] }

theorem post?_eq_some_iff {c : Circuit} {i n : Nat} {id : PinId} :
    c.post? i n = some id ↔ ∃ chip, c.chips[i]? = some chip ∧ chip.handles[n]? = some id :=
  Option.bind_eq_some_iff

theorem ticked_post? (c : Circuit) : c.ticked.post? = c.post? := by
  funext i n
  rw [post?, post?, ticked, List.getElem?_map]
  cases c.chips[i]? with
  | none => rfl
  | some chip => simp only [Option.map_some, Option.bind_some, Chip.next_handles]

theorem count_result (counter step : Nat) :
    (Logged.ofChecked (Checked.count counter step)).result =
      if Word.fits64 (counter + step) then .ok (counter + step) else .error (.overflow .add) := by
  unfold Checked.count
  split <;> rfl

theorem addChip_result (c : Circuit) (chip : Chip) :
    (c.addChip chip).result =
      if Word.fits64 (c.sources + (chip.setup c.pins).1.sourceCount) then .ok (c.withChip chip)
      else .error (.overflow .add) := by
  have counted := count_result c.sources (chip.setup c.pins).1.sourceCount
  by_cases fits : Word.fits64 (c.sources + (chip.setup c.pins).1.sourceCount)
  · rw [if_pos fits] at counted ⊢
    exact Logged.result_bind_of_ok counted
  · rw [if_neg fits] at counted ⊢
    exact Logged.result_bind_of_error counted

/-- An end that is not allocated is reported, the source first. -/
theorem connect_result (c : Circuit) (source target : PinId) :
    (c.connect source target).result =
      if source < c.pins.size then
        if target < c.pins.size then .ok (c.withWire ⟨source, target⟩)
        else .error (.refused (.unknownPin target))
      else .error (.refused (.unknownPin source)) := by
  by_cases atSource : source < c.pins.size
  · by_cases atTarget : target < c.pins.size
    · simp only [connect, PinTable.contains, atSource, atTarget]
      rfl
    · simp only [connect, PinTable.contains, atSource, atTarget]
      rfl
  · simp only [connect, PinTable.contains, atSource]
    rfl

theorem eq_withChip {c next : Circuit} {chip : Chip} (run : (c.addChip chip).result = .ok next) :
    next = c.withChip chip := by
  rw [addChip_result] at run
  split at run
  · cases run
    rfl
  · cases run

theorem eq_withWire {c next : Circuit} {source target : PinId} (run : (c.connect source target).result = .ok next) :
    source < c.pins.size ∧ target < c.pins.size ∧ next = c.withWire ⟨source, target⟩ := by
  rw [connect_result] at run
  split at run
  · rename_i atSource
    split at run
    · rename_i atTarget
      cases run
      exact ⟨atSource, atTarget, rfl⟩
    · cases run
  · cases run

/-- Every pin below the size of the table belongs to one chip or is one input, registers have their ten pins, and
wires lead from allocated pins to allocated pins. -/
structure WellFormed (c : Circuit) : Prop where
  placed : ∀ chip ∈ c.chips, chip.Placed
  owned : (c.chips.flatMap Chip.handles ++ c.inputs).Perm (List.range c.pins.size)
  wired : ∀ wire ∈ c.wires, wire.source < c.pins.size ∧ wire.target < c.pins.size

namespace WellFormed
variable {c next : Circuit}

theorem nodup (wellFormed : c.WellFormed) : (c.chips.flatMap Chip.handles ++ c.inputs).Nodup :=
  wellFormed.owned.nodup_iff.mpr List.nodup_range

theorem apart (wellFormed : c.WellFormed) : c.chips.Pairwise Chip.Apart := by
  have disjoint := (List.nodup_flatMap.mp (List.nodup_append.mp wellFormed.nodup).1).2
  exact disjoint.imp fun none id inA inB => none inA inB

theorem distinct (wellFormed : c.WellFormed) {chip : Chip} (member : chip ∈ c.chips) : chip.handles.Nodup :=
  (List.nodup_flatMap.mp (List.nodup_append.mp wellFormed.nodup).1).1 chip member

theorem allocated (wellFormed : c.WellFormed) {chip : Chip} (member : chip ∈ c.chips) {id : PinId}
    (own : id ∈ chip.handles) : id < c.pins.size := by
  have used : id ∈ c.chips.flatMap Chip.handles ++ c.inputs :=
    List.mem_append_left _ (List.mem_flatMap.mpr ⟨chip, member, own⟩)
  exact List.mem_range.mp (wellFormed.owned.mem_iff.mp used)

theorem input_allocated (wellFormed : c.WellFormed) {id : PinId} (member : id ∈ c.inputs) : id < c.pins.size :=
  List.mem_range.mp (wellFormed.owned.mem_iff.mp (List.mem_append_right _ member))

theorem input_foreign (wellFormed : c.WellFormed) {id : PinId} (member : id ∈ c.inputs) {chip : Chip}
    (inChips : chip ∈ c.chips) : id ∉ chip.handles := by
  intro own
  have disjoint := (List.nodup_append.mp wellFormed.nodup).2.2
  exact disjoint id (List.mem_flatMap.mpr ⟨chip, inChips, own⟩) id member rfl

theorem post_unique (wellFormed : c.WellFormed) {i j m n : Nat} {id : PinId} (atI : c.post? i m = some id)
    (atJ : c.post? j n = some id) : i = j ∧ m = n := by
  obtain ⟨a, chipA, pinA⟩ := post?_eq_some_iff.mp atI
  obtain ⟨b, chipB, pinB⟩ := post?_eq_some_iff.mp atJ
  have same : i = j := by
    obtain ⟨belowI, rfl⟩ := List.getElem?_eq_some_iff.mp chipA
    obtain ⟨belowJ, rfl⟩ := List.getElem?_eq_some_iff.mp chipB
    have apart := List.pairwise_iff_getElem.mp wellFormed.apart
    have inA := List.mem_of_getElem? pinA
    have inB := List.mem_of_getElem? pinB
    rcases Nat.lt_trichotomy i j with before | same | after
    · exact (apart i j belowI belowJ before id inA inB).elim
    · exact same
    · exact (apart j i belowJ belowI after id inB inA).elim
  subst same
  rw [chipA] at chipB
  cases chipB
  have distinct := wellFormed.distinct (List.mem_of_getElem? chipA)
  exact ⟨rfl, (List.getElem?_inj (List.getElem?_eq_some_iff.mp pinA).1 distinct).mp (pinA.trans pinB.symm)⟩

theorem step_result (wellFormed : c.WellFormed) :
    c.step.result = if Word.fits64 (c.ticks + 1) then .ok c.ticked else .error (.overflow .add) := by
  have executed := executeAll_result wellFormed.placed wellFormed.apart c.pins
  have counted := count_result c.ticks 1
  rw [step, Logged.result_bind_of_ok executed]
  by_cases fits : Word.fits64 (c.ticks + 1)
  · rw [if_pos fits] at counted ⊢
    exact Logged.result_bind_of_ok counted
  · rw [if_neg fits] at counted ⊢
    exact Logged.result_bind_of_error counted

theorem eq_ticked (wellFormed : c.WellFormed) (run : c.step.result = .ok next) : next = c.ticked := by
  rw [wellFormed.step_result] at run
  split at run
  · cases run
    rfl
  · cases run

theorem new (name : String) : WellFormed { name } where
  placed := by simp
  owned := List.Perm.refl []
  wired := by simp

theorem withChip (wellFormed : c.WellFormed) (chip : Chip) : (c.withChip chip).WellFormed := by
  obtain ⟨pins, table, handles⟩ := chip.setup_fresh c.pins
  have size : (c.withChip chip).pins.size = c.pins.size + pins.length := by
    rw [Circuit.withChip, Chip.size_bindSources, table, PinTable.size_allocateAll]
  refine ⟨?_, ?_, ?_⟩
  · intro other member
    rcases List.mem_append.mp member with old | new
    · exact wellFormed.placed other old
    · rw [List.mem_singleton.mp new]
      exact chip.setup_placed c.pins
  · have used : (c.withChip chip).chips.flatMap Chip.handles =
        c.chips.flatMap Chip.handles ++ c.pins.freshHandles pins := by
      rw [Circuit.withChip, List.flatMap_append, List.flatMap_singleton, handles]
    have range : List.range (c.pins.size + pins.length) = List.range c.pins.size ++ c.pins.freshHandles pins := by
      have joined := List.range'_append_1 (s := 0) (m := c.pins.size) (n := pins.length)
      rw [Nat.zero_add] at joined
      rw [PinTable.freshHandles, List.range_eq_range', List.range_eq_range', joined]
    have moved : (c.chips.flatMap Chip.handles ++ c.pins.freshHandles pins ++ c.inputs).Perm
        (c.chips.flatMap Chip.handles ++ c.inputs ++ c.pins.freshHandles pins) := by
      rw [List.append_assoc, List.append_assoc]
      exact List.perm_append_comm.append_left _
    rw [size, used, range]
    exact moved.trans (wellFormed.owned.append_right _)
  · intro wire member
    obtain ⟨source, target⟩ := wellFormed.wired wire member
    rw [size]
    exact ⟨Nat.lt_add_right _ source, Nat.lt_add_right _ target⟩

theorem addInput (wellFormed : c.WellFormed) (label : String) : (c.addInput label).WellFormed := by
  have size : (c.addInput label).pins.size = c.pins.size + 1 := c.pins.size_allocate _
  refine ⟨wellFormed.placed, ?_, ?_⟩
  · rw [size, List.range_succ]
    change (c.chips.flatMap Chip.handles ++ (c.inputs ++ [c.pins.size])).Perm _
    rw [← List.append_assoc]
    exact wellFormed.owned.append_right _
  · intro wire member
    obtain ⟨source, target⟩ := wellFormed.wired wire member
    rw [size]
    exact ⟨Nat.lt_succ_of_lt source, Nat.lt_succ_of_lt target⟩

theorem withWire (wellFormed : c.WellFormed) {wire : Wire} (source : wire.source < c.pins.size)
    (target : wire.target < c.pins.size) : (c.withWire wire).WellFormed := by
  have size : (c.withWire wire).pins.size = c.pins.size := c.pins.size_carry wire
  refine ⟨wellFormed.placed, by rw [size]; exact wellFormed.owned, ?_⟩
  intro other member
  rw [size]
  rcases List.mem_append.mp member with old | new
  · exact wellFormed.wired other old
  · rw [List.mem_singleton.mp new]
    exact ⟨source, target⟩

theorem setInput (wellFormed : c.WellFormed) (id : PinId) (level : Level) : (c.setInput id level).WellFormed := by
  have size : (c.setInput id level).pins.size = c.pins.size :=
    (PinTable.size_settle _ _).trans (c.pins.size_setLevel id level)
  exact ⟨wellFormed.placed, by rw [size]; exact wellFormed.owned, by rw [size]; exact wellFormed.wired⟩

theorem ticked (wellFormed : c.WellFormed) : c.ticked.WellFormed := by
  have size : c.ticked.pins.size = c.pins.size :=
    (PinTable.size_settle _ _).trans (c.pins.size_modifyAll _)
  have handles : c.ticked.chips.flatMap Chip.handles = c.chips.flatMap Chip.handles := by
    rw [Circuit.ticked, List.flatMap_map]
    simp only [Chip.next_handles]
  refine ⟨?_, ?_, ?_⟩
  · intro chip member
    obtain ⟨old, inChips, rfl⟩ := List.mem_map.mp member
    exact (wellFormed.placed old inChips).next c.pins
  · rw [size, handles]
    exact wellFormed.owned
  · rw [size]
    exact wellFormed.wired

end WellFormed

section
variable {admitted : Chip → Prop} {settable : PinId → Prop} {c next : Circuit} {starts : List Circuit}

theorem Reach.wellFormed (reach : Reach admitted settable c starts) : c.WellFormed := by
  induction reach with
  | new name => exact .new name
  | @addChip c next _ chip _ _ run ih =>
    obtain rfl := eq_withChip run
    exact ih.withChip chip
  | addInput label _ ih => exact ih.addInput label
  | connect _ run ih =>
    obtain ⟨source, target, rfl⟩ := eq_withWire run
    exact ih.withWire source target
  | setInput level _ _ ih => exact ih.setInput _ level
  | step _ run ih =>
    obtain rfl := ih.eq_ticked run
    exact ih.ticked

theorem Reach.ticks_eq (reach : Reach admitted settable c starts) : c.ticks = starts.length := by
  induction reach with
  | new name => rfl
  | addChip _ _ run ih =>
    obtain rfl := eq_withChip run
    exact ih
  | addInput label _ ih => exact ih
  | connect _ run ih =>
    obtain ⟨_, _, rfl⟩ := eq_withWire run
    exact ih
  | setInput level _ _ ih => exact ih
  | step reach run ih =>
    obtain rfl := reach.wellFormed.eq_ticked run
    exact congrArg (· + 1) ih

end

end Circuit

end LogicBoard
