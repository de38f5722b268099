import Mathlib.Logic.Relation
import LogicBoard.Proofs.TracedLevels
import LogicBoard.Proofs.WireSettling

namespace LogicBoard

/-- A wire leads from one pin to the other. -/
def Leads (wires : List Wire) (source target : PinId) : Prop :=
  ∃ wire ∈ wires, wire.source = source ∧ wire.target = target

/-- No way along one wire or more leads back to where it starts. -/
def Acyclic (wires : List Wire) : Prop := ∀ id, ¬Relation.TransGen (Leads wires) id id

section
variable {wires : List Wire} {wire : Wire} {id : PinId}

theorem Leads.cons {source target : PinId} (leads : Leads wires source target) : Leads (wire :: wires) source target := by
  obtain ⟨other, member, ends⟩ := leads
  exact ⟨other, List.mem_cons_of_mem _ member, ends⟩

/-- A trace stays at a pin to which no wire leads, and from any other pin it goes back along one wire or more. -/
theorem trace_origin (wires : List Wire) (id : PinId) :
    (trace wires id = id ∧ ∀ wire ∈ wires, wire.target ≠ id) ∨
      Relation.TransGen (Leads wires) (trace wires id) id := by
  induction wires with
  | nil => exact .inl ⟨rfl, by simp⟩
  | cons wire wires ih =>
    have here : Leads (wire :: wires) wire.source wire.target := ⟨wire, List.mem_cons_self, rfl, rfl⟩
    rw [trace_cons]
    rcases ih with ⟨stays, undriven⟩ | back
    · rw [stays]
      by_cases hit : id = wire.target
      · rw [if_pos hit]
        exact .inr (.single (hit ▸ here))
      · rw [if_neg hit]
        exact .inl ⟨rfl, List.forall_mem_cons.mpr ⟨fun same => hit same.symm, undriven⟩⟩
    · have along : Relation.TransGen (Leads (wire :: wires)) (trace wires id) id :=
        Relation.TransGen.mono (fun _ _ => Leads.cons) _ _ back
      by_cases hit : trace wires id = wire.target
      · rw [if_pos hit]
        exact .inr (.head (hit ▸ here) along)
      · rw [if_neg hit]
        exact .inr along

theorem Acyclic.trace_ne (acyclic : Acyclic wires) (driven : ∃ wire ∈ wires, wire.target = id) :
    trace wires id ≠ id := by
  obtain ⟨wire, member, target⟩ := driven
  intro same
  rcases trace_origin wires id with ⟨_, undriven⟩ | back
  · exact undriven wire member target
  · rw [same] at back
    exact acyclic id back

theorem Acyclic.loops (acyclic : Acyclic wires) : ∀ wire ∈ wires, wire.source ≠ wire.target := by
  intro wire member same
  exact acyclic wire.target (.single ⟨wire, member, same, rfl⟩)

/-- Wires that all lead to pins with greater handles never lead back. -/
theorem acyclic_of_lt (upward : ∀ wire ∈ wires, wire.source < wire.target) : Acyclic wires := by
  intro id back
  have increases : ∀ other, Relation.TransGen (Leads wires) id other → id < other := by
    intro other way
    induction way with
    | single leads =>
      obtain ⟨wire, member, rfl, rfl⟩ := leads
      exact upward wire member
    | tail _ leads ih =>
      obtain ⟨wire, member, rfl, rfl⟩ := leads
      exact Nat.lt_trans ih (upward wire member)
  exact Nat.lt_irrefl id (increases id back)

/-- A wire is traced back to its start if no later wire leads to its end and no earlier one to its start. -/
theorem trace_append_cons {front rest : List Wire} (ends : ∀ later ∈ rest, later.target ≠ wire.target)
    (starts : ∀ earlier ∈ front, earlier.target ≠ wire.source) :
    trace (front ++ wire :: rest) wire.target = wire.source := by
  have first : trace (wire :: rest) wire.target = wire.source := by
    rw [trace_cons, trace_eq_self ends, if_pos rfl]
  have split : trace (front ++ wire :: rest) wire.target = trace front (trace (wire :: rest) wire.target) :=
    List.foldr_append
  rw [split, first, trace_eq_self starts]

end

namespace PinTable
variable {table : PinTable} {wires : List Wire} {id : PinId} {levels : PinId → Level}

/-- The pins at the given levels, and otherwise as they are. -/
def withLevels (table : PinTable) (levels : PinId → Level) : PinTable :=
  ⟨table.pins.mapIdx fun id pin => pin.withLevel (levels id)⟩

/-- Every pin at the level of its origin, and otherwise as it is. -/
def traced (table : PinTable) (wires : List Wire) : PinTable :=
  table.withLevels fun id => table.level (trace wires id)

@[simp] theorem size_withLevels : (table.withLevels levels).size = table.size := by
  simp [size, withLevels]

theorem get?_withLevels : (table.withLevels levels).get? id = (table.get? id).map (Pin.withLevel (levels id)) := by
  simp [get?, withLevels]

theorem level_withLevels (allocated : id < table.size) : (table.withLevels levels).level id = levels id := by
  obtain ⟨pin, found⟩ := Option.isSome_iff_exists.mp ((table.get?_isSome_iff id).mpr allocated)
  rw [level, get?_withLevels, found]
  rfl

theorem withLevels_level (table : PinTable) : table.withLevels table.level = table := by
  refine ext_get? fun id => ?_
  rw [get?_withLevels]
  cases found : table.get? id with
  | none => rfl
  | some pin =>
    rw [level_of_get? found]
    rfl

/-- To set a level is to give that level to its pin and all others their own. -/
theorem setLevel_withLevels (table : PinTable) (levels : PinId → Level) (id : PinId) (level : Level) :
    (table.withLevels levels).setLevel id level = table.withLevels (Function.update levels id level) := by
  refine ext_get? fun other => ?_
  rw [get?_setLevel, get?_withLevels, get?_withLevels]
  by_cases same : id = other
  · rw [if_pos same, same, Function.update_self, Option.map_map]
    rfl
  · rw [if_neg same, Function.update_of_ne (Ne.symm same)]

/-- Given levels take the place of those before, and they matter at the pins of the table only. -/
theorem withLevels_withLevels {before after : PinId → Level} (same : ∀ id < table.size, after id = levels id) :
    (table.withLevels before).withLevels after = table.withLevels levels := by
  refine ext_get? fun id => ?_
  rw [get?_withLevels, get?_withLevels, get?_withLevels, Option.map_map]
  cases found : table.get? id with
  | none => rfl
  | some pin =>
    have allocated := (table.get?_isSome_iff id).mp (Option.isSome_of_eq_some found)
    rw [same id allocated]
    rfl

theorem settle_eq_traced (allocated : ∀ wire ∈ wires, wire.target < table.size) :
    table.settle wires = table.traced wires := by
  refine ext_get? fun id => ?_
  rw [traced, get?_withLevels, get?_settle allocated]

/-- One pass over the wires brings to every pin the level that was given to its origin. -/
theorem settle_withLevels (allocated : ∀ wire ∈ wires, wire.source < table.size ∧ wire.target < table.size)
    (levels : PinId → Level) :
    (table.withLevels levels).settle wires = table.withLevels fun id => levels (trace wires id) := by
  have targets : ∀ wire ∈ wires, wire.target < (table.withLevels levels).size := by
    intro wire member
    rw [size_withLevels]
    exact (allocated wire member).2
  rw [settle_eq_traced targets, traced]
  refine withLevels_withLevels fun id below => level_withLevels ?_
  exact trace_lt (fun wire member => (allocated wire member).1) below

/-- A later wire that leads to the start of an earlier one keeps both ends apart for some levels: high at the start
alone comes to the end, and the start loses it. -/
theorem not_settled_of_late (allocated : ∀ wire ∈ wires, wire.source < table.size ∧ wire.target < table.size)
    (acyclic : Acyclic wires) {wire late : Wire} (member : wire ∈ wires) (behind : late ∈ wires)
    (leads : wire.source = late.target) (origin : trace wires wire.target = wire.source) :
    ∃ levels, ¬((table.withLevels levels).settle wires).Settled wires := by
  refine ⟨fun id => if id = wire.source then .high else .low, fun settled => ?_⟩
  obtain ⟨source, target⟩ := allocated wire member
  have lost : trace wires wire.source ≠ wire.source := acyclic.trace_ne ⟨late, behind, leads.symm⟩
  have same := settled wire member
  rw [settle_withLevels allocated, level_withLevels target, level_withLevels source, origin, if_pos rfl,
    if_neg lost] at same
  cases same

/-- Let no two wires lead to the same pin and no way along the wires lead back to its start. Then one pass settles all
wires whatever the levels were, exactly if no wire starts where a later one ends. -/
theorem settles_always_iff (allocated : ∀ wire ∈ wires, wire.source < table.size ∧ wire.target < table.size)
    (targets : wires.Pairwise fun wire later => wire.target ≠ later.target) (acyclic : Acyclic wires) :
    (∀ levels, ((table.withLevels levels).settle wires).Settled wires) ↔
      wires.Pairwise fun wire later => wire.source ≠ later.target := by
  constructor
  · intro settles
    refine List.pairwise_iff_forall_sublist.mpr fun {wire late} listed leads => ?_
    obtain ⟨front, rest, rfl, behind⟩ : ∃ front rest, wires = front ++ wire :: rest ∧ late ∈ rest := by
      obtain ⟨before, after, rfl, earlier, later⟩ := List.cons_sublist_iff.mp listed
      obtain ⟨front, between, rfl⟩ := List.append_of_mem earlier
      exact ⟨front, between ++ after, by simp, List.mem_append_right _ (List.singleton_sublist.mp later)⟩
    obtain ⟨_, back, across⟩ := List.pairwise_append.mp targets
    have ends : ∀ later ∈ rest, later.target ≠ wire.target := fun later member =>
      ((List.pairwise_cons.mp back).1 later member).symm
    have starts : ∀ earlier ∈ front, earlier.target ≠ wire.source := fun earlier member =>
      leads ▸ across earlier member late (List.mem_cons_of_mem _ behind)
    have inWires : wire ∈ front ++ wire :: rest := List.mem_append_right _ List.mem_cons_self
    have lateInWires := List.mem_append_right front (List.mem_cons_of_mem wire behind)
    obtain ⟨levels, apart⟩ :=
      not_settled_of_late allocated acyclic inWires lateInWires leads (trace_append_cons ends starts)
    exact apart (settles levels)
  · intro sources levels
    refine settled_settle ⟨targets, sources, acyclic.loops⟩ fun wire member => ?_
    rw [size_withLevels]
    exact (allocated wire member).2

/-- Three pins that belong to no chip. -/
def looseInputs : PinTable :=
  PinTable.empty.allocateAll (["A", "B", "C"].zipIdx.map fun (label, position) => { label, position, side := .west })

/-- A chain of two wires settles if it comes in the order in which the level travels, and not the other way round. -/
theorem looseInputs_settles :
    (∀ levels, ((looseInputs.withLevels levels).settle [⟨0, 1⟩, ⟨1, 2⟩]).Settled [⟨0, 1⟩, ⟨1, 2⟩]) ∧
      ¬∀ levels, ((looseInputs.withLevels levels).settle [⟨1, 2⟩, ⟨0, 1⟩]).Settled [⟨1, 2⟩, ⟨0, 1⟩] := by
  refine ⟨(settles_always_iff (by decide) (by decide) (acyclic_of_lt (by decide))).mpr (by decide), fun settles => ?_⟩
  have ordered := (settles_always_iff (by decide) (by decide) (acyclic_of_lt (by decide))).mp settles
  exact absurd ordered (by decide)

end PinTable

theorem ShiftRegister.size_drive {register : BitVec 8} {k : Nat} {outputs : List PinId} {table result : PinTable}
    (driven : (drive register k outputs table).result = .ok result) : result.size = table.size := by
  induction outputs generalizing k table with
  | nil =>
    cases driven
    rfl
  | cons output outputs ih =>
    rw [drive] at driven
    split at driven
    · rw [ih driven, PinTable.size_setLevel]
    · cases driven

theorem ShiftRegister.size_execute {r next : ShiftRegister} {table result : PinTable}
    (executed : (r.execute table).result = .ok (next, result)) : result.size = table.size := by
  unfold execute at executed
  split at executed
  · split at executed
    · cases executed
      rfl
    · dsimp only at executed
      split at executed
      · obtain ⟨_, _, executed⟩ := Logged.result_bind_eq_ok_iff.mp executed
        obtain ⟨driven, run, executed⟩ := Logged.result_bind_eq_ok_iff.mp executed
        cases executed
        exact size_drive run
      · cases executed
        rfl
      · cases executed
        rfl
  · cases executed
    rfl

theorem Chip.size_execute {chip next : Chip} {table result : PinTable}
    (executed : (chip.execute table).result = .ok (next, result)) : result.size = table.size := by
  cases chip with
  | register r =>
    obtain ⟨⟨_, after⟩, run, same⟩ := Logged.result_bind_eq_ok_iff.mp executed
    cases same
    exact r.size_execute run
  | device d =>
    cases executed
    exact table.size_modifyAll _

namespace Circuit
variable {c : Circuit}

theorem size_executeAll {chips nexts : List Chip} {table result : PinTable}
    (executed : (executeAll chips table).result = .ok (nexts, result)) : result.size = table.size := by
  induction chips generalizing table nexts with
  | nil =>
    cases executed
    rfl
  | cons chip chips ih =>
    obtain ⟨⟨_, first⟩, here, executed⟩ := Logged.result_bind_eq_ok_iff.mp executed
    obtain ⟨⟨_, last⟩, later, executed⟩ := Logged.result_bind_eq_ok_iff.mp executed
    cases executed
    rw [ih later, Chip.size_execute here]

/-- A step is the chips one after the other, then one pass over the wires. -/
theorem step_result_eq_ok_iff {d : Circuit} : c.step.result = .ok d ↔
    ∃ chips table, (executeAll c.chips c.pins).result = .ok (chips, table) ∧ Word.fits64 (c.ticks + 1) = true ∧
      d = { c with chips, pins := table.settle c.wires, ticks := c.ticks + 1 } := by
  rw [step, Logged.result_bind_eq_ok_iff]
  constructor
  · rintro ⟨⟨chips, table⟩, executed, rest⟩
    obtain ⟨ticks, counted, rest⟩ := Logged.result_bind_eq_ok_iff.mp rest
    rw [count_result] at counted
    split at counted
    · rename_i room
      cases counted
      cases rest
      exact ⟨chips, table, executed, room, rfl⟩
    · cases counted
  · rintro ⟨chips, table, executed, room, rfl⟩
    have counted := (count_result c.ticks 1).trans (if_pos room)
    exact ⟨(chips, table), executed, Logged.result_bind_of_ok counted⟩

/-- Let the wires be between pins of the circuit, in any order, with cycles and with several wires to one pin. Then one
pass over them is the same as to trace every pin back along the list, last wire first: whatever levels the pins have,
after an input is set and after the chips of a step. So each level after the pass was there before it at some pin, and a
pin at the end of no wire is left alone. -/
theorem pass_eq_trace (wired : ∀ wire ∈ c.wires, wire.source < c.pins.size ∧ wire.target < c.pins.size) :
    (∀ levels, (c.pins.withLevels levels).settle c.wires = c.pins.withLevels fun id => levels (trace c.wires id)) ∧
    (∀ id level, c.setInput id level = { c with pins := (c.pins.setLevel id level).traced c.wires }) ∧
    (∀ d, c.step.result = .ok d ↔
      ∃ chips table, (executeAll c.chips c.pins).result = .ok (chips, table) ∧ Word.fits64 (c.ticks + 1) = true ∧
        d = { c with chips, pins := table.traced c.wires, ticks := c.ticks + 1 }) ∧
    ∀ table : PinTable, table.size = c.pins.size → ∀ id < c.pins.size,
      trace c.wires id < c.pins.size ∧ (table.settle c.wires).level id = table.level (trace c.wires id) ∧
      ((∀ wire ∈ c.wires, wire.target ≠ id) → (table.settle c.wires).get? id = table.get? id) := by
  have targets : ∀ {table : PinTable}, table.size = c.pins.size → ∀ wire ∈ c.wires, wire.target < table.size := by
    intro table size wire member
    rw [size]
    exact (wired wire member).2
  refine ⟨PinTable.settle_withLevels wired, fun id level => ?_, fun d => ?_, fun table size id below => ⟨?_, ?_, ?_⟩⟩
  · rw [setInput, PinTable.settle_eq_traced (targets (c.pins.size_setLevel id level))]
  · rw [step_result_eq_ok_iff]
    refine exists_congr fun chips => exists_congr fun table => and_congr_right fun executed => ?_
    rw [PinTable.settle_eq_traced (targets (size_executeAll executed))]
  · exact trace_lt (fun wire member => (wired wire member).1) below
  · exact PinTable.level_settle (targets size) id
  · exact PinTable.get?_settle_of_forall_ne table

/-- Three inputs with wires to and fro, one from a pin to itself and two pins that are the ends of several wires. -/
def tangle : Circuit where
  name := "tangle"
  pins := PinTable.looseInputs
  inputs := [0, 1, 2]
  wires := [⟨0, 1⟩, ⟨1, 0⟩, ⟨1, 1⟩, ⟨2, 1⟩, ⟨1, 2⟩]

theorem tangle_pass_eq_trace :
    (∀ wire ∈ tangle.wires, wire.source < tangle.pins.size ∧ wire.target < tangle.pins.size) ∧
      [0, 1, 2].map (trace tangle.wires) = [0, 2, 2] ∧
      [0, 1, 2].map (tangle.setInput 2 .high).pins.level = [.low, .high, .high] ∧
      ∃ d, tangle.step.result = .ok d ∧ d.ticks = 1 := by
  have wired : ∀ wire ∈ tangle.wires, wire.source < tangle.pins.size ∧ wire.target < tangle.pins.size := by decide
  obtain ⟨_, driven, stepped, _⟩ := pass_eq_trace wired
  refine ⟨wired, by decide, ?_, _, (stepped _).mpr ⟨[], tangle.pins, rfl, rfl, rfl⟩, rfl⟩
  rw [driven]
  decide

end Circuit

end LogicBoard
