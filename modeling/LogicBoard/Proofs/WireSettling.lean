import LogicBoard.Proofs.CircuitGrowth

namespace LogicBoard

/-- No two wires lead to the same pin, and no wire starts at its own end or at the end of a later one. So every chain of
wires comes in the order in which the levels travel. -/
structure InOrder (wires : List Wire) : Prop where
  targets : wires.Pairwise fun wire later => wire.target ≠ later.target
  sources : wires.Pairwise fun wire later => wire.source ≠ later.target
  loops : ∀ wire ∈ wires, wire.source ≠ wire.target

namespace InOrder
variable {wires more : List Wire} {wire : Wire}

theorem of_append (inOrder : InOrder (wires ++ more)) : InOrder wires where
  targets := (List.pairwise_append.mp inOrder.targets).1
  sources := (List.pairwise_append.mp inOrder.sources).1
  loops := fun wire member => inOrder.loops wire (List.mem_append_left _ member)

theorem of_cons (inOrder : InOrder (wire :: wires)) : InOrder wires where
  targets := (List.pairwise_cons.mp inOrder.targets).2
  sources := (List.pairwise_cons.mp inOrder.sources).2
  loops := fun later member => inOrder.loops later (List.mem_cons_of_mem _ member)

end InOrder

namespace PinTable

/-- Both ends of every wire are at the same level. -/
def Settled (table : PinTable) (wires : List Wire) : Prop :=
  ∀ wire ∈ wires, table.level wire.target = table.level wire.source

variable {table : PinTable} {wires : List Wire} {wire : Wire}

/-- Where the wires have settled, another pass over them changes nothing. -/
theorem Settled.settle_eq (settled : table.Settled wires) : table.settle wires = table := by
  induction wires with
  | nil => rfl
  | cons wire wires ih =>
    have still : table.carry wire = table := by
      rw [carry, ← settled wire List.mem_cons_self, setLevel_level]
    rw [settle_cons, still]
    exact ih fun later member => settled later (List.mem_cons_of_mem _ member)

theorem Settled.of_levels {other : PinTable} (settled : table.Settled wires)
    (same : ∀ wire ∈ wires, other.level wire.source = table.level wire.source ∧
      other.level wire.target = table.level wire.target) : other.Settled wires := by
  intro wire member
  rw [(same wire member).1, (same wire member).2]
  exact settled wire member

theorem level_carry_target (allocated : wire.target < table.size) :
    (table.carry wire).level wire.target = table.level wire.source := by
  rw [carry, level_setLevel, if_pos ⟨rfl, allocated⟩]

theorem level_carry_of_ne {id : PinId} (other : wire.target ≠ id) : (table.carry wire).level id = table.level id :=
  level_eq_of_get? (get?_carry_of_ne other)

/-- One pass settles wires that are in order, whatever the levels were. -/
theorem settled_settle (inOrder : InOrder wires) (allocated : ∀ wire ∈ wires, wire.target < table.size) :
    (table.settle wires).Settled wires := by
  induction wires generalizing table with
  | nil => simp [Settled]
  | cons first wires ih =>
    have later : ∀ wire ∈ wires, wire.target < (table.carry first).size := by
      intro wire member
      rw [size_carry]
      exact allocated wire (List.mem_cons_of_mem _ member)
    intro wire member
    rw [settle_cons]
    rcases List.mem_cons.mp member with rfl | behind
    · -- No later wire leads to either end, so both keep the level that the first copy gave the target.
      have target := (table.carry wire).get?_settle_of_forall_ne fun other inWires =>
        ((List.pairwise_cons.mp inOrder.targets).1 other inWires).symm
      have source := (table.carry wire).get?_settle_of_forall_ne fun other inWires =>
        ((List.pairwise_cons.mp inOrder.sources).1 other inWires).symm
      rw [level_eq_of_get? target, level_eq_of_get? source, level_carry_target (allocated wire List.mem_cons_self),
        level_carry_of_ne (inOrder.loops wire List.mem_cons_self).symm]
    · exact ih inOrder.of_cons later wire behind

/-- A wire at the end of the order settles by its first copy, and the wires before it stay settled. -/
theorem Settled.carry (settled : table.Settled wires) (inOrder : InOrder (wires ++ [wire]))
    (allocated : wire.target < table.size) : (table.carry wire).Settled (wires ++ [wire]) := by
  intro other member
  rcases List.mem_append.mp member with old | new
  · have last := List.mem_singleton.mpr (rfl : wire = wire)
    have targets := (List.pairwise_append.mp inOrder.targets).2.2 other old wire last
    have sources := (List.pairwise_append.mp inOrder.sources).2.2 other old wire last
    rw [level_carry_of_ne targets.symm, level_carry_of_ne sources.symm]
    exact settled other old
  · obtain rfl := List.mem_singleton.mp new
    rw [level_carry_target allocated, level_carry_of_ne (inOrder.loops other (List.mem_append_right _ new)).symm]

end PinTable

namespace Circuit

section
variable {admitted : Chip → Prop} {settable : PinId → Prop} {c : Circuit} {past : List Circuit}

/-- Whatever is done to a circuit, its wires stay settled as long as they are in order. -/
theorem Reach.settled (reach : Reach admitted settable c past) (inOrder : InOrder c.wires) :
    c.pins.Settled c.wires := by
  induction reach with
  | new name => simp [PinTable.Settled]
  | @addChip c next _ chip reach _ run ih =>
    obtain rfl := eq_withChip run
    refine (ih inOrder).of_levels fun wire member => ?_
    obtain ⟨source, target⟩ := reach.wellFormed.wired wire member
    exact ⟨PinTable.level_eq_of_get? (get?_withChip_of_lt chip source),
      PinTable.level_eq_of_get? (get?_withChip_of_lt chip target)⟩
  | addInput label reach ih =>
    refine (ih inOrder).of_levels fun wire member => ?_
    obtain ⟨source, target⟩ := reach.wellFormed.wired wire member
    exact ⟨PinTable.level_allocate_of_lt _ source, PinTable.level_allocate_of_lt _ target⟩
  | connect reach run ih =>
    obtain ⟨_, target, rfl⟩ := eq_withWire run
    exact (ih inOrder.of_append).carry inOrder target
  | @setInput c _ id level reach _ ih =>
    refine PinTable.settled_settle inOrder fun wire member => ?_
    rw [PinTable.size_setLevel]
    exact (reach.wellFormed.wired wire member).2
  | @step c _ _ reach run ih =>
    obtain rfl := reach.wellFormed.eq_ticked run
    refine PinTable.settled_settle inOrder fun wire member => ?_
    rw [PinTable.size_modifyAll]
    exact (reach.wellFormed.wired wire member).2

end

/-- Let the connections that a run makes be in order. Then at each point of the run both ends of every wire are at the
same level, so that another pass over the wires would change nothing, and what a register reads at its inputs in the
next tick is the level at the other end of the wire. -/
theorem performAll_wires_settled {name : String} {operations more : List Operation} {c d : Circuit}
    (early : (performAll operations { name }).result = .ok c) (late : (performAll more c).result = .ok d)
    (inOrder : InOrder d.wires) :
    (∀ wire ∈ c.wires, c.pins.level wire.target = c.pins.level wire.source) ∧ c.pins.settle c.wires = c.pins ∧
      ∀ r, .register r ∈ c.chips → ∀ wire ∈ c.wires,
        (r.dataPin? = some wire.target → (r.sample c.pins).data = c.pins.level wire.source) ∧
        (r.clockPin? = some wire.target → (r.sample c.pins).clock = c.pins.level wire.source) := by
  have reach : Reach (fun _ => True) (fun _ => True) c (starts operations { name } ++ []) :=
    (Reach.new name).performAll (fun _ _ => trivial) (fun _ _ _ _ => trivial) early
  obtain ⟨rfl, counted⟩ := (WellFormed.new name).eq_foldl_after rfl early
  obtain ⟨rfl, _⟩ := reach.wellFormed.eq_foldl_after counted late
  have grown : Extends Pin.face (operations.foldl after { name }) _ := Extends.foldl_after (fun _ _ => rfl) _ more
  obtain ⟨others, wires⟩ := grown.wires
  rw [← wires] at inOrder
  have settled := reach.settled inOrder.of_append
  refine ⟨settled, settled.settle_eq, fun r _ wire member => ⟨fun atData => ?_, fun atClock => ?_⟩⟩
  · rw [ShiftRegister.sample, atData]
    exact settled wire member
  · rw [ShiftRegister.sample, atClock]
    exact settled wire member

/-- An input behind an input in front of a register, driven at both before and after the wires are drawn. -/
def relayed : List Operation :=
  [.addChip (.register { outline := .atPoint 0 0 }), .addInput "FAR", .addInput "NEAR", .addInput "CLK", .connect 10 11,
    .setInput 10 .high, .setInput 11 .low, .step, .connect 11 0, .connect 12 1, .clockIn 10 12 .high]

/-- A second register takes the newest bit of the first one. -/
def relayedOn : List Operation :=
  [.addChip (.register { outline := .atPoint 0 4 }), .connect 2 13, .setInput 0 .low, .run 2]

theorem relayed_wires_settled : ∃ c d, (performAll relayed { name := "relay" }).result = .ok c ∧
    (performAll relayedOn c).result = .ok d ∧ d.wires = [⟨10, 11⟩, ⟨11, 0⟩, ⟨12, 1⟩, ⟨2, 13⟩] ∧
    c.pins.level 11 = c.pins.level 10 ∧ c.pins.level 0 = c.pins.level 11 ∧ c.pins.level 10 = .high := by
  have passed : (performAll relayed { name := "relay" }).passes fun c =>
      decide (c.wires = [⟨10, 11⟩, ⟨11, 0⟩, ⟨12, 1⟩] ∧ c.pins.level 10 = .high) &&
        (performAll relayedOn c).passes fun d =>
          decide (d.wires = [⟨10, 11⟩, ⟨11, 0⟩, ⟨12, 1⟩, ⟨2, 13⟩]) := by
    decide +kernel
  obtain ⟨c, early, atC⟩ := Logged.passes_iff.mp passed
  obtain ⟨here, after⟩ := Bool.and_eq_true_iff.mp atC
  obtain ⟨d, late, atD⟩ := Logged.passes_iff.mp after
  obtain ⟨before, far⟩ := of_decide_eq_true here
  have wires := of_decide_eq_true atD
  have inOrder : InOrder d.wires := by
    rw [wires]
    exact ⟨by decide, by decide, by decide⟩
  obtain ⟨settled, _⟩ := performAll_wires_settled early late inOrder
  rw [before] at settled
  exact ⟨c, d, early, late, wires, settled ⟨10, 11⟩ (by decide), settled ⟨11, 0⟩ (by decide), far⟩

end Circuit

end LogicBoard
