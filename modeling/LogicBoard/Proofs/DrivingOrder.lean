import Mathlib.Logic.Function.Basic
import LogicBoard.Proofs.WirePass

namespace LogicBoard

/-- A trace along wires in order ends where none of them leads. -/
theorem InOrder.trace_undriven {wires : List Wire} (inOrder : InOrder wires) (id : PinId) :
    ∀ wire ∈ wires, wire.target ≠ trace wires id := by
  induction wires with
  | nil => simp
  | cons first wires ih =>
    have later := ih inOrder.of_cons
    rw [trace_cons, List.forall_mem_cons]
    by_cases hit : trace wires id = first.target
    · rw [if_pos hit]
      exact ⟨(inOrder.loops first List.mem_cons_self).symm, fun wire member =>
        ((List.pairwise_cons.mp inOrder.sources).1 wire member).symm⟩
    · rw [if_neg hit]
      exact ⟨fun same => hit same.symm, later⟩

namespace Circuit
variable {c : Circuit}

/-- An input is set among the given levels, which then go on along the wires. -/
theorem WellFormed.setInput_withLevels (wellFormed : c.WellFormed) (levels : PinId → Level) (id : PinId)
    (level : Level) :
    Circuit.setInput { c with pins := c.pins.withLevels levels } id level =
      { c with pins := c.pins.withLevels (Function.update levels id level ∘ trace c.wires) } := by
  rw [Circuit.setInput, PinTable.setLevel_withLevels]
  exact congrArg (fun pins => { c with pins }) (PinTable.settle_withLevels wellFormed.wired _)

theorem WellFormed.setInput_eq (wellFormed : c.WellFormed) (id : PinId) (level : Level) :
    c.setInput id level =
      { c with pins := c.pins.withLevels (Function.update c.pins.level id level ∘ trace c.wires) } := by
  have still := wellFormed.setInput_withLevels c.pins.level id level
  rwa [PinTable.withLevels_level] at still

/-- Where the wires are in order, two inputs set one after the other are the same as both set at once, the later one on
top. No level in between is left anywhere. -/
theorem WellFormed.setInput_setInput (wellFormed : c.WellFormed) (inOrder : InOrder c.wires) (p q : PinId)
    (u v : Level) :
    (c.setInput p u).setInput q v =
      { c with
        pins := c.pins.withLevels
          (Function.update (Function.update c.pins.level p u) q v ∘ trace c.wires) } := by
  rw [wellFormed.setInput_eq, wellFormed.setInput_withLevels]
  -- The first pass has moved no level at the origins, where the second one takes them from.
  have merged : Function.update (Function.update c.pins.level p u ∘ trace c.wires) q v ∘ trace c.wires =
      Function.update (Function.update c.pins.level p u) q v ∘ trace c.wires := by
    funext id
    have origin := trace_eq_self (inOrder.trace_undriven id)
    simp only [Function.comp_apply, Function.update_apply, origin]
  rw [merged]

/-- A pin at the end of a wire is the origin of no level, so to set it is in vain where the wires have settled. -/
theorem WellFormed.setInput_target (wellFormed : c.WellFormed) (inOrder : InOrder c.wires)
    (settled : c.pins.Settled c.wires) {wire : Wire} (member : wire ∈ c.wires) (level : Level) :
    c.setInput wire.target level = c := by
  have missed : Function.update c.pins.level wire.target level ∘ trace c.wires = c.pins.level ∘ trace c.wires := by
    funext id
    exact Function.update_of_ne (inOrder.trace_undriven id wire member).symm level c.pins.level
  have still := PinTable.settle_withLevels wellFormed.wired c.pins.level
  rw [PinTable.withLevels_level, settled.settle_eq] at still
  rw [wellFormed.setInput_eq, missed]
  exact congrArg (fun pins => { c with pins }) still.symm

/-- Whatever was done to a circuit whose wires are in order, two pins can be set in either order, the second of two
settings of one pin makes up for the first, and to set a pin to which a wire leads changes nothing at all. -/
theorem performAll_driving_order {name : String} {operations : List Operation} {c : Circuit}
    (built : (performAll operations { name }).result = .ok c) (inOrder : InOrder c.wires) :
    (∀ p q u v, p ≠ q → (c.setInput p u).setInput q v = (c.setInput q v).setInput p u) ∧
    (∀ p u v, (c.setInput p u).setInput p v = c.setInput p v) ∧
    ∀ wire ∈ c.wires, ∀ level, c.setInput wire.target level = c := by
  have reach : Reach (fun _ => True) (fun _ => True) c (starts operations { name } ++ []) :=
    (Reach.new name).performAll (fun _ _ => trivial) (fun _ _ _ _ => trivial) built
  have wellFormed := reach.wellFormed
  refine ⟨fun p q u v apart => ?_, fun p u v => ?_, fun wire member level => ?_⟩
  · rw [wellFormed.setInput_setInput inOrder, wellFormed.setInput_setInput inOrder, Function.update_comm apart]
  · rw [wellFormed.setInput_setInput inOrder, Function.update_idem, wellFormed.setInput_eq]
  · exact wellFormed.setInput_target inOrder (reach.settled inOrder) member level

theorem relayed_driving_order : ∃ c, (performAll relayed { name := "relay" }).result = .ok c ∧
    c.wires = [⟨10, 11⟩, ⟨11, 0⟩, ⟨12, 1⟩] ∧ c.pins.level 10 = .high ∧
    (c.setInput 10 .low).setInput 12 .high = (c.setInput 12 .high).setInput 10 .low ∧
    (c.setInput 10 .low).setInput 10 .high = c.setInput 10 .high ∧ c.setInput 0 .low = c := by
  have passed : (performAll relayed { name := "relay" }).passes fun c =>
      decide (c.wires = [⟨10, 11⟩, ⟨11, 0⟩, ⟨12, 1⟩] ∧ c.pins.level 10 = .high) := by
    decide +kernel
  obtain ⟨c, built, checked⟩ := Logged.passes_iff.mp passed
  obtain ⟨wires, level⟩ := of_decide_eq_true checked
  have inOrder : InOrder c.wires := by
    rw [wires]
    exact ⟨by decide, by decide, by decide⟩
  obtain ⟨comm, again, targets⟩ := performAll_driving_order built inOrder
  have last : ⟨11, 0⟩ ∈ c.wires := by
    rw [wires]
    decide
  exact ⟨c, built, wires, level, comm 10 12 .low .high (by decide), again 10 .low .high, targets ⟨11, 0⟩ last .low⟩

/-- With the wires of a chain the other way round, a level that was set before can come through later. -/
example :
    let c : Circuit := { name := "late", pins := .looseInputs, inputs := [0, 1, 2], wires := [⟨1, 2⟩, ⟨0, 1⟩] }
    ((c.setInput 0 .high).setInput 0 .low).pins.level 2 = .high ∧ (c.setInput 0 .low).pins.level 2 = .low := by
  decide

end Circuit

end LogicBoard
