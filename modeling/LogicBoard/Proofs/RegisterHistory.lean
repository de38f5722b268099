import LogicBoard.Proofs.CircuitLayout
import LogicBoard.Proofs.RegisterRuns

namespace LogicBoard

/-- Registers come out of a constructor. Other chips may be in any state. -/
def Chip.Fresh : Chip → Prop
  | register r => r.Constructed
  | device _ => True

theorem Chip.setup_eq_register {chip : Chip} {table : PinTable} {r : ShiftRegister}
    (placed : (chip.setup table).1 = .register r) :
    ∃ old, chip = .register old ∧ r = (old.setup table).1 ∧ (chip.setup table).2 = (old.setup table).2 := by
  cases chip with
  | register old =>
    cases placed
    exact ⟨old, rfl, rfl, rfl⟩
  | device d => cases placed

theorem Chip.next_eq_register {chip : Chip} {table : PinTable} {r : ShiftRegister}
    (ticked : chip.next table = .register r) :
    ∃ old, chip = .register old ∧ r = old.next (old.sample table) := by
  cases chip with
  | register old =>
    cases ticked
    exact ⟨old, rfl, rfl⟩
  | device d => cases ticked

namespace Circuit

def register? (c : Circuit) (i : Nat) : Option ShiftRegister :=
  match c.chips[i]? with
  | some (.register r) => some r
  | _ => none

/-- What the register at a place among the chips reads at its inputs. -/
def sample? (c : Circuit) (i : Nat) : Option Sample := (c.register? i).map fun r => r.sample c.pins

/-- What it has read in past circuits, as far as it was there. -/
def samplesOf (i : Nat) (past : List Circuit) : List Sample := past.filterMap fun start => start.sample? i

section
variable {admitted : Chip → Prop} {settable : PinId → Prop} {c : Circuit} {past : List Circuit} {r : ShiftRegister}

theorem register?_eq_some_iff {i : Nat} : c.register? i = some r ↔ c.chips[i]? = some (.register r) := by
  unfold register?
  split
  · rename_i same
    rw [same]
    simp
  · rename_i other
    exact ⟨nofun, fun same => (other r same).elim⟩

theorem samplesOf_cons {i : Nat} (atChip : c.chips[i]? = some (.register r)) :
    samplesOf i (c :: past) = r.sample c.pins :: samplesOf i past := by
  rw [samplesOf, List.filterMap_cons, sample?, register?_eq_some_iff.mpr atChip]
  rfl

theorem samplesOf_eq_nil {i : Nat} (before : ∀ start ∈ past, start.chips.length ≤ i) : samplesOf i past = [] := by
  refine List.filterMap_eq_nil_iff.mpr fun start member => ?_
  rw [sample?, register?, List.getElem?_eq_none (before start member)]
  rfl

/-- Every register has recorded what it has read since it was placed. -/
structure Recorded (c : Circuit) (past : List Circuit) : Prop where
  before : ∀ start ∈ past, start.chips.length ≤ c.chips.length
  records : ∀ i (r : ShiftRegister), c.chips[i]? = some (.register r) → r.Records (samplesOf i past)

theorem Recorded.withChip {chip : Chip} (recorded : c.Recorded past) (fresh : chip.Fresh) :
    (c.withChip chip).Recorded past := by
  have length : (c.withChip chip).chips.length = c.chips.length + 1 := List.length_append
  refine ⟨?_, ?_⟩
  · intro start member
    have := recorded.before start member
    omega
  · intro i r atChip
    by_cases old : i < c.chips.length
    · have same : (c.withChip chip).chips[i]? = c.chips[i]? := List.getElem?_append_left old
      exact recorded.records i r (same ▸ atChip)
    · have within := (List.getElem?_eq_some_iff.mp atChip).1
      have last : i = c.chips.length := by omega
      subst last
      have placed : (chip.setup c.pins).1 = .register r := by
        rw [Circuit.withChip, List.getElem?_concat_length] at atChip
        exact Option.some.inj atChip
      obtain ⟨constructed, rfl, rfl, _⟩ := Chip.setup_eq_register placed
      have records := ShiftRegister.Constructed.records fresh
      rw [samplesOf_eq_nil recorded.before]
      exact ⟨records.register, records.phase⟩

theorem Recorded.ticked (recorded : c.Recorded past) : c.ticked.Recorded (c :: past) := by
  have length : c.ticked.chips.length = c.chips.length := List.length_map _
  refine ⟨?_, ?_⟩
  · intro start member
    rcases List.mem_cons.mp member with rfl | earlier
    · exact Nat.le_of_eq length.symm
    · rw [length]
      exact recorded.before start earlier
  · intro i r atChip
    rw [Circuit.ticked, List.getElem?_map, Option.map_eq_some_iff] at atChip
    obtain ⟨chip, atOld, ticked⟩ := atChip
    obtain ⟨old, rfl, rfl⟩ := Chip.next_eq_register ticked
    rw [samplesOf_cons atOld]
    exact (recorded.records i old atOld).next _

theorem Reach.recorded (reach : Reach Chip.Fresh settable c past) : c.Recorded past := by
  induction reach with
  | new name => exact ⟨by simp, by simp⟩
  | addChip _ fresh run ih =>
    obtain rfl := eq_withChip run
    exact ih.withChip fresh
  | addInput label _ ih => exact ⟨ih.before, ih.records⟩
  | connect _ run ih =>
    obtain ⟨_, _, rfl⟩ := eq_withWire run
    exact ⟨ih.before, ih.records⟩
  | setInput level _ _ ih => exact ⟨ih.before, ih.records⟩
  | step reach run ih =>
    obtain rfl := reach.wellFormed.eq_ticked run
    exact ih.ticked

theorem get?_setInput_of_ne {set id : PinId} {level : Level} (other : set ≠ id)
    (undriven : ∀ wire ∈ c.wires, wire.target ≠ id) : (c.setInput set level).pins.get? id = c.pins.get? id := by
  refine (PinTable.get?_settle_of_forall_ne _ undriven).trans ?_
  rw [PinTable.get?_setLevel, if_neg other]

theorem WellFormed.level_ticked_output (wellFormed : c.WellFormed) (member : .register r ∈ c.chips) {k : Nat}
    {id : PinId} (within : k < 8) (atPin : r.outline.handles[2 + k]? = some id)
    (undriven : ∀ wire ∈ c.wires, wire.target ≠ id) (shows : c.pins.level id = .ofBool (r.register.getMsbD k)) :
    c.ticked.pins.level id = .ofBool ((r.next (r.sample c.pins)).register.getMsbD k) := by
  have own := List.mem_of_getElem? atPin
  have written : c.ticked.pins.get? id = (c.pins.modifyAll (r.writes (r.sample c.pins))).get? id := by
    refine (PinTable.get?_settle_of_forall_ne _ undriven).trans ?_
    exact get?_modifyAll_own wellFormed.apart c.pins member own
  rw [PinTable.level_eq_of_get? written]
  exact ShiftRegister.level_writes_output _ (wellFormed.distinct member) within atPin
    (wellFormed.allocated member own) shows

/-- An output that nothing else drives shows its bit. -/
theorem Reach.level_output (reach : Reach admitted settable c past) (member : .register r ∈ c.chips) {k : Nat}
    {id : PinId} (within : k < 8) (atPin : r.outline.handles[2 + k]? = some id)
    (undriven : ∀ wire ∈ c.wires, wire.target ≠ id) (unset : ¬settable id) :
    c.pins.level id = .ofBool (r.register.getMsbD k) := by
  induction reach generalizing r with
  | new name => simp at member
  | @addChip c next _ chip reach _ run ih =>
    obtain rfl := eq_withChip run
    have unbound : (c.withChip chip).pins.level id = (chip.setup c.pins).2.level id := Chip.level_bindSources _ _ _ _
    rw [unbound]
    rcases List.mem_append.mp member with old | new
    · have allocated := reach.wellFormed.allocated old (List.mem_of_getElem? atPin)
      obtain ⟨pins, table, _⟩ := chip.setup_fresh c.pins
      rw [table, PinTable.level_eq_of_get? (PinTable.get?_allocateAll_of_lt pins allocated)]
      exact ih old atPin undriven
    · obtain ⟨placed, rfl, rfl, table⟩ := Chip.setup_eq_register (List.mem_singleton.mp new).symm
      rw [table]
      exact placed.level_setup_output within atPin
  | @addInput c _ label reach ih =>
    have allocated := reach.wellFormed.allocated member (List.mem_of_getElem? atPin)
    exact (PinTable.level_allocate_of_lt _ allocated).trans (ih member atPin undriven)
  | @connect c next _ source target reach run ih =>
    obtain ⟨_, _, rfl⟩ := eq_withWire run
    have other : target ≠ id := undriven ⟨source, target⟩ (List.mem_append_right _ (List.mem_singleton.mpr rfl))
    have kept := ih member atPin fun wire inWires => undriven wire (List.mem_append_left _ inWires)
    exact (PinTable.level_eq_of_get? (PinTable.get?_carry_of_ne other)).trans kept
  | @setInput c _ set level reach settable ih =>
    have other : set ≠ id := fun same => unset (same ▸ settable)
    have kept : (c.setInput set level).pins.get? id = c.pins.get? id := get?_setInput_of_ne other undriven
    exact (PinTable.level_eq_of_get? kept).trans (ih member atPin undriven)
  | @step c next _ reach run ih =>
    obtain rfl := reach.wellFormed.eq_ticked run
    obtain ⟨chip, inChips, ticked⟩ := List.mem_map.mp member
    obtain ⟨old, rfl, rfl⟩ := Chip.next_eq_register ticked
    rw [ShiftRegister.next_outline] at atPin
    exact reach.wellFormed.level_ticked_output inChips within atPin undriven (ih inChips atPin undriven)

end

/-- Whatever has been done to a circuit, each of its registers holds the levels that its data pin had at the starts of
the steps at which its clock rose, and an output shows its bit unless a wire leads there or it was driven by hand. -/
theorem performAll_register_history {name : String} {operations : List Operation} {c : Circuit}
    (fresh : ∀ chip, .addChip chip ∈ operations → chip.Fresh)
    (run : (performAll operations { name }).result = .ok c) {i : Nat} {r : ShiftRegister}
    (atChip : c.chips[i]? = some (.register r)) :
    r.register = packing 8 (risingData (samplesOf i (starts operations { name }))) ∧
    ∀ k < 8, ∃ id, r.outline.handles[2 + k]? = some id ∧
      ((∀ wire ∈ c.wires, wire.target ≠ id) → (∀ operation ∈ operations, id ∉ operation.driven) →
        c.pins.level id = .ofBool (r.register.getLsbD (7 - k))) := by
  have reach : Reach Chip.Fresh (fun _ => True) c (starts operations { name } ++ []) :=
    (Reach.new name).performAll fresh (fun _ _ _ _ => trivial) run
  have member := List.mem_of_getElem? atChip
  rw [List.append_nil] at reach
  refine ⟨(reach.recorded.records i r atChip).register, ?_⟩
  intro k within
  have placed : r.Placed := reach.wellFormed.placed _ member
  obtain ⟨id, atPin⟩ := placed.handle (by omega : 2 + k < 10)
  refine ⟨id, atPin, fun undriven unset => ?_⟩
  have apart : Reach (fun _ => True) (· ≠ id) c (starts operations { name } ++ []) := by
    refine (Reach.new name).performAll (fun _ _ => trivial) (fun operation member other driven same => ?_) run
    exact unset operation member (same ▸ driven)
  have shows := apart.level_output member within atPin undriven (fun other => other rfl)
  rw [shows, getMsbD_eq_getLsbD_of_lt _ within]

/-- Two clock cycles of one register. A second one joins in between. -/
def clockedTwice : List Operation :=
  [.addChip (.register { outline := .atPoint 0 0 }), .addInput "DATA", .addInput "CLK", .connect 10 0, .connect 11 1,
    .clockIn 10 11 .high, .addChip (.register { outline := .atPoint 0 4 }), .connect 2 12, .clockIn 10 11 .low]

theorem clockedTwice_register_history : ∃ c r, (performAll clockedTwice { name := "twice" }).result = .ok c ∧
    c.chips[0]? = some (.register r) ∧ r.register = 64 ∧ c.pins.level 3 = .high := by
  have fresh : ∀ chip, .addChip chip ∈ clockedTwice → chip.Fresh := by
    intro chip member
    simp only [clockedTwice, List.mem_cons, Operation.addChip.injEq, reduceCtorEq, List.not_mem_nil, or_false,
      false_or] at member
    rcases member with rfl | rfl
    · exact .place (ShiftRegister.place_result 0 0)
    · exact .place (ShiftRegister.place_result 0 4)
  have passed : (performAll clockedTwice { name := "twice" }).passes (fun c =>
      (c.register? 0).any fun r => decide (r.outline.handles[3]? = some 3 ∧ ∀ wire ∈ c.wires, wire.target ≠ 3)) := by
    decide +kernel
  obtain ⟨c, run, found⟩ := Logged.passes_iff.mp passed
  obtain ⟨r, atChip, checked⟩ := Option.any_eq_true _ _ |>.mp found
  obtain ⟨atThree, undriven⟩ := of_decide_eq_true checked
  obtain ⟨register, outputs⟩ := performAll_register_history fresh run (register?_eq_some_iff.mp atChip)
  have packed : r.register = 64 := register.trans (by decide +kernel)
  obtain ⟨id, atPin, shows⟩ := outputs 1 (by omega)
  rw [atThree] at atPin
  cases atPin
  refine ⟨c, r, run, register?_eq_some_iff.mp atChip, packed, (shows undriven (by decide)).trans ?_⟩
  rw [packed]
  rfl

end Circuit

end LogicBoard
