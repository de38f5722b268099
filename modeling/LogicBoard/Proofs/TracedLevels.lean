import LogicBoard.Proofs.CircuitGrowth
import LogicBoard.Proofs.RegisterPosts

namespace LogicBoard

/-- A trace ends at a source that is no target, so tracing on from there leads nowhere else. -/
theorem trace_trace {wires : List Wire} (apart : ∀ a ∈ wires, ∀ b ∈ wires, a.source ≠ b.target) (id : PinId) :
    trace wires (trace wires id) = trace wires id := by
  by_cases driven : ∃ wire ∈ wires, wire.target = id
  · obtain ⟨last, member, _, origin⟩ := trace_target apart driven
    rw [origin]
    exact trace_eq_self fun wire inWires same => apart last member wire inWires same.symm
  · have origin : trace wires id = id := trace_eq_self fun wire member same => driven ⟨wire, member, same⟩
    rw [origin, origin]

theorem trace_append_singleton (wires : List Wire) (wire : Wire) (id : PinId) :
    trace (wires ++ [wire]) id = trace wires (if id = wire.target then wire.source else id) := by
  rw [trace, trace, List.foldr_append, List.foldr_cons, List.foldr_nil]

/-- What a trace starts at or leads to is below a bound if all sources are. -/
theorem trace_lt {wires : List Wire} {size : Nat} (sources : ∀ wire ∈ wires, wire.source < size) {id : PinId}
    (below : id < size) : trace wires id < size := by
  induction wires with
  | nil => exact below
  | cons wire wires ih =>
    rw [trace_cons]
    split
    · exact sources wire List.mem_cons_self
    · exact ih fun later member => sources later (List.mem_cons_of_mem _ member)

/-- A pass over the wires gives every pin the level of its origin and leaves the rest of the pin as it is. -/
theorem PinTable.get?_settle {table : PinTable} {wires : List Wire}
    (allocated : ∀ wire ∈ wires, wire.target < table.size) (id : PinId) :
    (table.settle wires).get? id = (table.get? id).map (Pin.withLevel (table.level (trace wires id))) := by
  have level := level_settle allocated id
  have rest : ((table.settle wires).get? id).map (Pin.withLevel .low) = (table.get? id).map (Pin.withLevel .low) :=
    table.view_settle (fun _ _ => rfl) wires id
  cases settled : (table.settle wires).get? id with
  | none =>
    rw [settled] at rest
    rw [Option.map_eq_none_iff.mp rest.symm]
    rfl
  | some after =>
    rw [settled] at rest
    obtain ⟨before, found, same⟩ := Option.map_eq_some_iff.mp rest.symm
    rw [level_of_get? settled] at level
    have restored : (after.withLevel .low).withLevel after.level = after := rfl
    rw [found, ← restored, ← same, level]
    rfl

/-- Where every pin shows the level of its origin, another pass over the wires changes nothing. -/
theorem PinTable.settle_eq_self {table : PinTable} {wires : List Wire}
    (allocated : ∀ wire ∈ wires, wire.target < table.size)
    (traced : ∀ id, table.level (trace wires id) = table.level id) : table.settle wires = table := by
  refine ext_get? fun id => ?_
  rw [get?_settle allocated, traced]
  cases found : table.get? id with
  | none => rfl
  | some pin =>
    rw [level_of_get? found]
    rfl

namespace Circuit
variable {c : Circuit}

/-- Wires lead from outputs of chips and from inputs of the circuit to data and clock pins. -/
structure Direct (c : Circuit) : Prop where
  sources : ∀ wire ∈ c.wires, wire.source ∈ c.inputs ∨ ∃ i k, c.post? i (2 + k) = some wire.source
  targets : ∀ wire ∈ c.wires, ∃ i k, k < 2 ∧ c.post? i k = some wire.target

/-- No wire starts where one ends. -/
theorem Direct.apart (direct : c.Direct) (wellFormed : c.WellFormed) :
    ∀ a ∈ c.wires, ∀ b ∈ c.wires, a.source ≠ b.target := by
  intro a inA b inB same
  obtain ⟨j, n, below, atTarget⟩ := direct.targets b inB
  rcases direct.sources a inA with input | ⟨i, k, atSource⟩
  · exact wellFormed.not_post_input input (same ▸ atTarget)
  · rw [same] at atSource
    obtain ⟨_, posts⟩ := wellFormed.post_unique atSource atTarget
    omega

section
variable {admitted : Chip → Prop} {settable : PinId → Prop} {past : List Circuit}

/-- Fresh pins have no wires, so a circuit with more pins and the same wires still shows at every pin the level of
its origin. -/
theorem WellFormed.traced_of_more (wellFormed : c.WellFormed) {table : PinTable}
    (same : ∀ id < c.pins.size, table.level id = c.pins.level id)
    (traced : ∀ id, c.pins.level (trace c.wires id) = c.pins.level id) (id : PinId) :
    table.level (trace c.wires id) = table.level id := by
  by_cases allocated : id < c.pins.size
  · rw [same id allocated, same _ (trace_lt (fun wire member => (wellFormed.wired wire member).1) allocated)]
    exact traced id
  · rw [trace_eq_self]
    intro wire member target
    exact allocated (target ▸ (wellFormed.wired wire member).2)

/-- While no wire starts where one ends, every pin shows the level of its origin after each operation. -/
theorem Reach.traced (reach : Reach admitted settable c past)
    (apart : ∀ a ∈ c.wires, ∀ b ∈ c.wires, a.source ≠ b.target) (id : PinId) :
    c.pins.level (trace c.wires id) = c.pins.level id := by
  induction reach generalizing id with
  | new name => rfl
  | @addChip c next _ chip reach _ run ih =>
    obtain rfl := eq_withChip run
    exact reach.wellFormed.traced_of_more
      (fun id allocated => PinTable.level_eq_of_get? (get?_withChip_of_lt chip allocated)) (ih apart) id
  | addInput label reach ih =>
    exact reach.wellFormed.traced_of_more (fun id allocated => PinTable.level_allocate_of_lt _ allocated) (ih apart) id
  | @connect c next _ source target reach run ih =>
    obtain ⟨_, allocated, rfl⟩ := eq_withWire run
    have here := List.mem_append_right c.wires (List.mem_singleton.mpr (rfl : (⟨source, target⟩ : Wire) = _))
    have older : ∀ a ∈ c.wires, ∀ b ∈ c.wires, a.source ≠ b.target := fun a inA b inB =>
      apart a (List.mem_append_left _ inA) b (List.mem_append_left _ inB)
    have kept : ∀ other, target ≠ other → (c.pins.carry ⟨source, target⟩).level other = c.pins.level other :=
      fun other apart => PinTable.level_eq_of_get? (PinTable.get?_carry_of_ne apart)
    change (c.pins.carry ⟨source, target⟩).level (trace (c.wires ++ [⟨source, target⟩]) id) =
      (c.pins.carry ⟨source, target⟩).level id
    rw [trace_append_singleton]
    by_cases hit : id = target
    · have start : trace c.wires source = source := trace_eq_self fun wire member same =>
        apart _ here wire (List.mem_append_left _ member) same.symm
      rw [if_pos hit, start, hit, kept source (apart _ here _ here).symm, PinTable.carry, PinTable.level_setLevel,
        if_pos ⟨rfl, allocated⟩]
    · have origin : target ≠ trace c.wires id := by
        by_cases driven : ∃ wire ∈ c.wires, wire.target = id
        · obtain ⟨last, member, _, origin⟩ := trace_target older driven
          rw [origin]
          exact (apart last (List.mem_append_left _ member) _ here).symm
        · rw [trace_eq_self fun wire member same => driven ⟨wire, member, same⟩]
          exact fun same => hit same.symm
      rw [if_neg hit, kept _ origin, kept id fun same => hit same.symm]
      exact ih older id
  | setInput level reach _ _ =>
    rw [reach.wellFormed.level_setInput, reach.wellFormed.level_setInput]
    exact congrArg _ (trace_trace apart id)
  | step reach run _ =>
    obtain rfl := reach.wellFormed.eq_ticked run
    rw [reach.wellFormed.level_ticked, reach.wellFormed.level_ticked]
    exact congrArg _ (trace_trace apart id)

end

end Circuit

end LogicBoard
