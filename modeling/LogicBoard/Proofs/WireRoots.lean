import Mathlib.Data.List.Perm.Subperm
import LogicBoard.Proofs.WirePass

namespace LogicBoard

/-- Where the way back along the wires from a pin ends: the wires lead from there to the pin, and none leads there. -/
structure Root (wires : List Wire) (root id : PinId) : Prop where
  undriven : ∀ wire ∈ wires, wire.target ≠ root
  leads : Relation.ReflTransGen (Leads wires) root id

section
variable {wires : List Wire} {a b id : PinId}

/-- Where no two wires lead to the same pin, at most one pin leads to it. -/
theorem Leads.source_unique (targets : wires.Pairwise fun wire later => wire.target ≠ later.target)
    (first : Leads wires a id) (second : Leads wires b id) : a = b := by
  obtain ⟨wire, member, rfl, atId⟩ := first
  obtain ⟨other, among, rfl, again⟩ := second
  have distinct : (wires.map Wire.target).Nodup := List.pairwise_map.mpr targets
  exact congrArg Wire.source (List.inj_on_of_nodup_map distinct member among (atId.trans again.symm))

theorem Leads.driven (leads : Leads wires a id) : ¬∀ wire ∈ wires, wire.target ≠ id := by
  obtain ⟨wire, member, _, target⟩ := leads
  exact fun undriven => undriven wire member target

theorem Root.of_leads (root : Root wires a b) (leads : Leads wires b id) : Root wires a id :=
  ⟨root.undriven, root.leads.tail leads⟩

theorem Root.unique (targets : wires.Pairwise fun wire later => wire.target ≠ later.target)
    (first : Root wires a id) (second : Root wires b id) : a = b := by
  obtain ⟨undriven, way⟩ := first
  induction way with
  | refl =>
    rcases second.leads.cases_tail with same | ⟨_, _, last⟩
    · exact same
    · exact absurd undriven last.driven
  | tail _ last ih =>
    rcases second.leads.cases_tail with rfl | ⟨_, way, again⟩
    · exact absurd second.undriven last.driven
    · -- Both ways end with the same wire, so they are compared up to its source.
      obtain rfl := Leads.source_unique targets last again
      exact ih ⟨second.undriven, way⟩

theorem reflTransGen_trace (wires : List Wire) (id : PinId) :
    Relation.ReflTransGen (Leads wires) (trace wires id) id := by
  rcases trace_origin wires id with ⟨stays, _⟩ | back
  · rw [stays]
  · exact back.to_reflTransGen

theorem reflTransGen_iterate_trace (wires : List Wire) (count : Nat) (id : PinId) :
    Relation.ReflTransGen (Leads wires) ((trace wires)^[count] id) id := by
  induction count with
  | zero => exact .refl
  | succ count ih =>
    rw [Function.iterate_succ_apply']
    exact (reflTransGen_trace wires _).trans ih

namespace Acyclic

/-- However often a pin at the end of a wire is traced back, the way does not come round to it again. -/
theorem iterate_trace_ne (acyclic : Acyclic wires) (driven : ∃ wire ∈ wires, wire.target = id) (count : Nat) :
    (trace wires)^[count + 1] id ≠ id := by
  intro same
  rw [Function.iterate_succ_apply] at same
  have back := reflTransGen_iterate_trace wires count (trace wires id)
  rw [same] at back
  rcases trace_origin wires id with ⟨_, undriven⟩ | leads
  · obtain ⟨wire, member, target⟩ := driven
    exact undriven wire member target
  · exact acyclic id (.trans_right back leads)

/-- On the way back every pin but the last is the end of a wire of its own, so there are no more of them than wires. -/
theorem undriven_iterate_trace (acyclic : Acyclic wires) {count : Nat} (many : wires.length ≤ count) (id : PinId) :
    ∀ wire ∈ wires, wire.target ≠ (trace wires)^[count] id := by
  intro wire member target
  have driven : ∀ k ≤ count, ∃ wire ∈ wires, wire.target = (trace wires)^[k] id := by
    intro k within
    by_contra undriven
    push Not at undriven
    have stays : (trace wires)^[count] id = (trace wires)^[k] id := by
      rw [← Nat.sub_add_cancel within, Function.iterate_add_apply, Function.iterate_fixed (trace_eq_self undriven)]
    exact undriven wire member (target.trans stays)
  -- If a pin came up twice, the later steps would lead from it back to itself.
  have distinct : ((List.range (count + 1)).map fun k => (trace wires)^[k] id).Nodup := by
    refine List.pairwise_map.mpr (List.pairwise_lt_range.imp_of_mem ?_)
    intro k later inRange _ before same
    have within : k ≤ count := Nat.lt_succ_iff.mp (List.mem_range.mp inRange)
    have again : (trace wires)^[later - k - 1 + 1] ((trace wires)^[k] id) = (trace wires)^[k] id := by
      rw [← Function.iterate_add_apply, show later - k - 1 + 1 + k = later by omega, same]
    exact acyclic.iterate_trace_ne (driven k within) _ again
  have ends : ((List.range (count + 1)).map fun k => (trace wires)^[k] id) ⊆ wires.map Wire.target := by
    intro passed among
    obtain ⟨k, inRange, rfl⟩ := List.mem_map.mp among
    obtain ⟨wire, member, target⟩ := driven k (Nat.lt_succ_iff.mp (List.mem_range.mp inRange))
    exact target ▸ List.mem_map_of_mem member
  have length := (distinct.subperm ends).length_le
  rw [List.length_map, List.length_map, List.length_range] at length
  omega

theorem root_iterate_trace (acyclic : Acyclic wires) {count : Nat} (many : wires.length ≤ count) (id : PinId) :
    Root wires ((trace wires)^[count] id) id :=
  ⟨acyclic.undriven_iterate_trace many id, reflTransGen_iterate_trace wires count id⟩

end Acyclic

end

namespace Circuit
variable {c : Circuit}

/-- Without chips a tick is one pass over the wires, so a number of ticks traces every pin back as often. -/
theorem WellFormed.iterate_ticked_eq (wellFormed : c.WellFormed) (bare : c.chips = []) (count : Nat) :
    Circuit.ticked^[count] c =
      { c with
        pins := c.pins.withLevels fun id => c.pins.level ((trace c.wires)^[count] id)
        ticks := c.ticks + count } := by
  induction count with
  | zero =>
    have still : (c.pins.withLevels fun id => c.pins.level id) = c.pins := c.pins.withLevels_level
    simp only [Function.iterate_zero, id_eq, still, Nat.add_zero]
  | succ count ih =>
    rw [Function.iterate_succ_apply', ih, Circuit.ticked]
    simp only [bare, List.map_nil, List.flatMap_nil, Function.iterate_succ_apply]
    exact congrArg (fun pins => { c with pins, chips := [], ticks := c.ticks + count + 1 })
      (PinTable.settle_withLevels wellFormed.wired _)

/-- Let there be no chips, no two wires to the same pin and no way along the wires back to its start, in whatever order
the wires were drawn. Then every pin has one root, and as many steps as there are wires bring it to the level that its
root had before them. All wires have settled then, and more steps change nothing but the count of ticks. -/
theorem performAll_levels_from_roots {name : String} {operations : List Operation} {c : Circuit}
    (built : (performAll operations { name }).result = .ok c) (bare : c.chips = [])
    (targets : c.wires.Pairwise fun wire later => wire.target ≠ later.target) (acyclic : Acyclic c.wires) :
    (∀ id, ∃! root, Root c.wires root id) ∧
    ∃ rest : PinTable, rest.Settled c.wires ∧
      (∀ id < c.pins.size, ∀ root, Root c.wires root id → rest.level id = c.pins.level root) ∧
      ∀ count, c.wires.length ≤ count → (Circuit.run count c).result =
        if Word.fits64 (c.ticks + count) then .ok { c with pins := rest, ticks := c.ticks + count }
        else .error (.overflow .add) := by
  obtain ⟨wellFormed, counted⟩ := WellFormed.of_performAll built
  have rooted : ∀ {count}, c.wires.length ≤ count → ∀ {id root}, Root c.wires root id →
      (trace c.wires)^[count] id = root := fun many _ _ root =>
    (acyclic.root_iterate_trace many _).unique targets root
  have levels : ∀ id < c.pins.size, ∀ root, Root c.wires root id →
      (c.pins.withLevels fun id => c.pins.level ((trace c.wires)^[c.wires.length] id)).level id =
        c.pins.level root := by
    intro id allocated root atRoot
    rw [PinTable.level_withLevels allocated, rooted (Nat.le_refl _) atRoot]
  refine ⟨fun id => ?_, _, fun wire member => ?_, levels, fun count many => ?_⟩
  · exact ⟨_, acyclic.root_iterate_trace (Nat.le_refl _) id, fun _ root => (rooted (Nat.le_refl _) root).symm⟩
  · obtain ⟨source, target⟩ := wellFormed.wired wire member
    have root := acyclic.root_iterate_trace (Nat.le_refl c.wires.length) wire.source
    rw [levels _ source _ root, levels _ target _ (root.of_leads ⟨wire, member, rfl, rfl⟩)]
  · have same : (trace c.wires)^[count] = (trace c.wires)^[c.wires.length] := by
      funext id
      exact rooted many (acyclic.root_iterate_trace (Nat.le_refl _) id)
    rw [wellFormed.run_result count (hasRoom_iff.mp counted).1, wellFormed.iterate_ticked_eq bare, same]

/-- Four inputs in a row, the last two wired first. -/
def backwards : List Operation :=
  [.addInput "A", .addInput "B", .addInput "C", .addInput "D", .connect 2 3, .connect 1 2, .connect 0 1,
    .setInput 0 .high]

/-- When it is set, the first input reaches the second one only, and after three steps all of them. -/
theorem backwards_levels_from_roots : ∃ c d, (performAll backwards { name := "backwards" }).result = .ok c ∧
    [0, 1, 2, 3].map c.pins.level = [.high, .high, .low, .low] ∧ (Circuit.run 3 c).result = .ok d ∧
    d.pins.level 3 = .high ∧ ∃ e, (Circuit.run 8 c).result = .ok e ∧ e.pins = d.pins := by
  obtain ⟨c, built, bare, wires, size, ticks, levels⟩ : ∃ c,
      (performAll backwards { name := "backwards" }).result = .ok c ∧ c.chips = [] ∧
      c.wires = [⟨2, 3⟩, ⟨1, 2⟩, ⟨0, 1⟩] ∧ c.pins.size = 4 ∧ c.ticks = 0 ∧
      [0, 1, 2, 3].map c.pins.level = [.high, .high, .low, .low] :=
    ⟨_, rfl, rfl, rfl, rfl, rfl, rfl⟩
  have targets : c.wires.Pairwise fun wire later => wire.target ≠ later.target := by
    rw [wires]
    decide
  have acyclic : Acyclic c.wires := by
    rw [wires]
    exact acyclic_of_lt (by decide)
  obtain ⟨_, rest, _, atRoots, ran⟩ := performAll_levels_from_roots built bare targets acyclic
  rw [ticks, wires] at ran
  have root : Root c.wires 0 3 := by
    rw [wires]
    have first : Root [⟨2, 3⟩, ⟨1, 2⟩, ⟨0, 1⟩] 0 0 := ⟨by decide, .refl⟩
    exact ((first.of_leads ⟨⟨0, 1⟩, by decide, rfl, rfl⟩).of_leads ⟨⟨1, 2⟩, by decide, rfl, rfl⟩).of_leads
      ⟨⟨2, 3⟩, by decide, rfl, rfl⟩
  have driven : c.pins.level 0 = .high := (List.cons.inj levels).1
  exact ⟨c, _, built, levels, ran 3 (by decide), (atRoots 3 (by omega) 0 root).trans driven, _, ran 8 (by decide), rfl⟩

end Circuit

end LogicBoard
