import LogicBoard.Circuit
import LogicBoard.Proofs.TableWrites

namespace LogicBoard

/-- The pin whose level one pass over the wires brings to a pin. The wires are followed back, the last one first. -/
def trace (wires : List Wire) (id : PinId) : PinId :=
  wires.foldr (fun wire id => if id = wire.target then wire.source else id) id

theorem trace_cons (wire : Wire) (wires : List Wire) (id : PinId) :
    trace (wire :: wires) id = if trace wires id = wire.target then wire.source else trace wires id := rfl

/-- A pin to which no wire leads is its own origin. -/
theorem trace_eq_self {wires : List Wire} {id : PinId} (undriven : ∀ wire ∈ wires, wire.target ≠ id) :
    trace wires id = id := by
  induction wires with
  | nil => rfl
  | cons wire wires ih =>
    rw [trace_cons, ih fun later member => undriven later (List.mem_cons_of_mem _ member),
      if_neg (Ne.symm (undriven wire List.mem_cons_self))]

/-- When no wire starts where another one ends, the origin of a target is the source of a wire that leads to it. -/
theorem trace_target {wires : List Wire} (apart : ∀ a ∈ wires, ∀ b ∈ wires, a.source ≠ b.target) {id : PinId}
    (driven : ∃ wire ∈ wires, wire.target = id) :
    ∃ wire ∈ wires, wire.target = id ∧ trace wires id = wire.source := by
  induction wires with
  | nil => simp at driven
  | cons first wires ih =>
    by_cases again : ∃ wire ∈ wires, wire.target = id
    · obtain ⟨last, member, target, origin⟩ := ih (fun a inA b inB =>
        apart a (List.mem_cons_of_mem _ inA) b (List.mem_cons_of_mem _ inB)) again
      refine ⟨last, List.mem_cons_of_mem _ member, target, ?_⟩
      rw [trace_cons, origin, if_neg (apart last (List.mem_cons_of_mem _ member) first List.mem_cons_self)]
    · have only : first.target = id := by
        obtain ⟨wire, member, target⟩ := driven
        rcases List.mem_cons.mp member with rfl | later
        · exact target
        · exact absurd ⟨wire, later, target⟩ again
      refine ⟨first, List.mem_cons_self, only, ?_⟩
      rw [trace_cons, trace_eq_self fun wire member same => again ⟨wire, member, same⟩, if_pos only.symm]

namespace PinTable

theorem settle_cons (table : PinTable) (wire : Wire) (wires : List Wire) :
    table.settle (wire :: wires) = (table.carry wire).settle wires := rfl

@[simp] theorem size_carry (table : PinTable) (wire : Wire) : (table.carry wire).size = table.size :=
  table.size_setLevel _ _

@[simp] theorem size_settle (table : PinTable) (wires : List Wire) : (table.settle wires).size = table.size := by
  induction wires generalizing table with
  | nil => rfl
  | cons wire wires ih => rw [settle_cons, ih, size_carry]

theorem get?_carry_of_ne {table : PinTable} {wire : Wire} {id : PinId} (other : wire.target ≠ id) :
    (table.carry wire).get? id = table.get? id := by
  rw [carry, get?_setLevel, if_neg other]

theorem get?_settle_of_forall_ne (table : PinTable) {wires : List Wire} {id : PinId}
    (undriven : ∀ wire ∈ wires, wire.target ≠ id) : (table.settle wires).get? id = table.get? id := by
  induction wires generalizing table with
  | nil => rfl
  | cons wire wires ih =>
    rw [settle_cons, ih _ fun later member => undriven later (List.mem_cons_of_mem _ member),
      get?_carry_of_ne (undriven wire List.mem_cons_self)]

/-- Whatever the wires are, a pass over them brings to every pin the level that its origin had before. -/
theorem level_settle {table : PinTable} {wires : List Wire} (allocated : ∀ wire ∈ wires, wire.target < table.size)
    (id : PinId) : (table.settle wires).level id = table.level (trace wires id) := by
  induction wires generalizing table with
  | nil => rfl
  | cons wire wires ih =>
    have later : ∀ other ∈ wires, other.target < (table.carry wire).size := by
      intro other member
      rw [size_carry]
      exact allocated other (List.mem_cons_of_mem _ member)
    rw [settle_cons, ih later, carry, level_setLevel, trace_cons]
    by_cases hit : trace wires id = wire.target
    · rw [if_pos hit, if_pos ⟨hit.symm, hit ▸ allocated wire List.mem_cons_self⟩]
    · rw [if_neg hit, if_neg fun both => hit both.1.symm]

end PinTable

end LogicBoard
