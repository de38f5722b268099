import LogicBoard.Proofs.CircuitLayout

namespace LogicBoard.Circuit

/-- The wires of a chain: the data input leads to the first stage, the clock input to all of them, and the last output
of every stage to the data pin of the next one. Stages are places among the chips, and `post?` gives their pins. -/
inductive ChainWire (post? : Nat → Nat → Option PinId) (data clock : PinId) (order : List Nat) : Wire → Prop
  | data {i : Nat} {target : PinId} :
      order[0]? = some i → post? i 0 = some target → ChainWire post? data clock order ⟨data, target⟩
  | clock {i : Nat} {target : PinId} :
      i ∈ order → post? i 1 = some target → ChainWire post? data clock order ⟨clock, target⟩
  | link {k i j : Nat} {source target : PinId} :
      order[k]? = some i → order[k + 1]? = some j → post? i 9 = some source → post? j 0 = some target →
      ChainWire post? data clock order ⟨source, target⟩

/-- The pin from which the data pin of a stage is wired. -/
def feed? (post? : Nat → Nat → Option PinId) (data : PinId) (order : List Nat) : Nat → Option PinId
  | 0 => some data
  | k + 1 => order[k]?.bind fun i => post? i 9

/-- A circuit of registers, all of them stages of one chain, with two inputs and no wires but those of the chain. -/
structure Chain (c : Circuit) (data clock : PinId) (order : List Nat) : Prop where
  registers : ∀ chip ∈ c.chips, ∃ r, chip = .register r
  places : order.Perm (List.range c.chips.length)
  inputs : c.inputs.Perm [data, clock]
  wires : ∀ wire, wire ∈ c.wires ↔ ChainWire c.post? data clock order wire

section
variable {post? : Nat → Nat → Option PinId} {data clock : PinId} {order : List Nat} {wire : Wire}

/-- Every wire leads to the data pin of a stage from what feeds it, or from the clock input to a clock pin. -/
theorem ChainWire.feed_or_clock (chainWire : ChainWire post? data clock order wire) :
    (∃ k i, order[k]? = some i ∧ post? i 0 = some wire.target ∧ feed? post? data order k = some wire.source) ∨
    (∃ i, post? i 1 = some wire.target) ∧ wire.source = clock := by
  cases chainWire with
  | data first atPin => exact .inl ⟨0, _, first, atPin, rfl⟩
  | clock _ atPin => exact .inr ⟨⟨_, atPin⟩, rfl⟩
  | @link k _ _ _ _ stage later atSource atTarget =>
    refine .inl ⟨k + 1, _, later, atTarget, ?_⟩
    rw [feed?, stage, Option.bind_some, atSource]

theorem ChainWire.target_post (chainWire : ChainWire post? data clock order wire) :
    ∃ i n, n < 2 ∧ post? i n = some wire.target := by
  rcases chainWire.feed_or_clock with ⟨_, i, _, atPin, _⟩ | ⟨⟨i, atPin⟩, _⟩
  · exact ⟨i, 0, by omega, atPin⟩
  · exact ⟨i, 1, by omega, atPin⟩

theorem ChainWire.source_cases (chainWire : ChainWire post? data clock order wire) :
    wire.source ∈ [data, clock] ∨ ∃ i, post? i 9 = some wire.source := by
  cases chainWire with
  | data => exact .inl (by simp)
  | clock => exact .inl (by simp)
  | link _ _ atPin _ => exact .inr ⟨_, atPin⟩

end

namespace Chain
variable {c : Circuit} {data clock : PinId} {order : List Nat}

theorem nodup (chain : Chain c data clock order) : order.Nodup := chain.places.nodup_iff.mpr List.nodup_range

theorem register_at (chain : Chain c data clock order) {i : Nat} (member : i ∈ order) :
    ∃ r, c.chips[i]? = some (.register r) := by
  have within : i < c.chips.length := List.mem_range.mp (chain.places.mem_iff.mp member)
  obtain ⟨r, register⟩ := chain.registers c.chips[i] (List.getElem_mem within)
  exact ⟨r, (List.getElem?_eq_getElem within).trans (congrArg some register)⟩

theorem data_mem (chain : Chain c data clock order) : data ∈ c.inputs := chain.inputs.mem_iff.mpr (by simp)

theorem clock_mem (chain : Chain c data clock order) : clock ∈ c.inputs := chain.inputs.mem_iff.mpr (by simp)

theorem data_ne_clock (chain : Chain c data clock order) (wellFormed : c.WellFormed) : data ≠ clock := by
  have distinct := chain.inputs.nodup_iff.mp (List.nodup_append.mp wellFormed.nodup).2.1
  simpa using distinct

theorem post_undriven (chain : Chain c data clock order) (wellFormed : c.WellFormed) {i n : Nat} {id : PinId}
    (above : 2 ≤ n) (atPin : c.post? i n = some id) : ∀ wire ∈ c.wires, wire.target ≠ id := by
  intro wire inWires same
  obtain ⟨j, m, below, atTarget⟩ := ((chain.wires wire).mp inWires).target_post
  rw [same] at atTarget
  obtain ⟨_, rfl⟩ := wellFormed.post_unique atPin atTarget
  omega

theorem output_undriven (chain : Chain c data clock order) (wellFormed : c.WellFormed) {i k : Nat} {id : PinId}
    {r : ShiftRegister} (atChip : c.chips[i]? = some (.register r)) (atPin : r.outline.handles[2 + k]? = some id) :
    ∀ wire ∈ c.wires, wire.target ≠ id :=
  chain.post_undriven wellFormed (by omega) (post?_eq_some_iff.mpr ⟨_, atChip, atPin⟩)

theorem input_undriven (chain : Chain c data clock order) (wellFormed : c.WellFormed) {id : PinId}
    (member : id ∈ c.inputs) : ∀ wire ∈ c.wires, wire.target ≠ id := by
  intro wire inWires same
  obtain ⟨i, n, _, atTarget⟩ := ((chain.wires wire).mp inWires).target_post
  obtain ⟨chip, atChip, atPin⟩ := post?_eq_some_iff.mp atTarget
  rw [same] at atPin
  exact wellFormed.input_foreign member (List.mem_of_getElem? atChip) (List.mem_of_getElem? atPin)

theorem source_undriven (chain : Chain c data clock order) (wellFormed : c.WellFormed) {wire : Wire}
    (inWires : wire ∈ c.wires) : ∀ other ∈ c.wires, other.target ≠ wire.source := by
  rcases ((chain.wires wire).mp inWires).source_cases with input | ⟨i, atPin⟩
  · exact chain.input_undriven wellFormed (chain.inputs.mem_iff.mpr input)
  · exact chain.post_undriven wellFormed (by omega) atPin

/-- The stages follow each other in one way only, so a pin is the target of one wire at most. -/
theorem source_unique (chain : Chain c data clock order) (wellFormed : c.WellFormed) {a b : Wire} (inA : a ∈ c.wires)
    (inB : b ∈ c.wires) (same : a.target = b.target) : a.source = b.source := by
  rcases ((chain.wires a).mp inA).feed_or_clock with ⟨k, i, stageA, postA, feedA⟩ | ⟨⟨i, postA⟩, clockA⟩
  · rcases ((chain.wires b).mp inB).feed_or_clock with ⟨m, j, stageB, postB, feedB⟩ | ⟨⟨j, postB⟩, _⟩
    · rw [← same] at postB
      obtain ⟨rfl, _⟩ := wellFormed.post_unique postA postB
      have within : k < order.length := (List.getElem?_eq_some_iff.mp stageA).1
      obtain rfl := (List.getElem?_inj within chain.nodup).mp (stageA.trans stageB.symm)
      exact Option.some.inj (feedA.symm.trans feedB)
    · rw [← same] at postB
      have posts := (wellFormed.post_unique postA postB).2
      omega
  · rcases ((chain.wires b).mp inB).feed_or_clock with ⟨m, j, _, postB, _⟩ | ⟨_, clockB⟩
    · rw [← same] at postB
      have posts := (wellFormed.post_unique postA postB).2
      omega
    · rw [clockA, clockB]

/-- One pass over the wires settles all of them, whatever their order is. -/
theorem level_settle (chain : Chain c data clock order) (wellFormed : c.WellFormed) {table : PinTable}
    (size : table.size = c.pins.size) {wire : Wire} (inWires : wire ∈ c.wires) :
    (table.settle c.wires).level wire.target = (table.settle c.wires).level wire.source := by
  have allocated : ∀ other ∈ c.wires, other.target < table.size := fun other member => by
    rw [size]
    exact (wellFormed.wired other member).2
  have apart : ∀ a ∈ c.wires, ∀ b ∈ c.wires, a.source ≠ b.target := fun a inA b inB same =>
    chain.source_undriven wellFormed inA b inB same.symm
  obtain ⟨last, inLast, target, origin⟩ := trace_target apart ⟨wire, inWires, rfl⟩
  have source := chain.source_unique wellFormed inLast inWires target
  have still := table.get?_settle_of_forall_ne (chain.source_undriven wellFormed inWires)
  rw [PinTable.level_settle allocated, origin, source, PinTable.level_eq_of_get? still]

theorem setInput (chain : Chain c data clock order) (id : PinId) (level : Level) :
    Chain (c.setInput id level) data clock order :=
  ⟨chain.registers, chain.places, chain.inputs, chain.wires⟩

theorem ticked (chain : Chain c data clock order) : Chain c.ticked data clock order := by
  refine ⟨?_, ?_, chain.inputs, ?_⟩
  · intro chip member
    obtain ⟨old, inChips, rfl⟩ := List.mem_map.mp member
    obtain ⟨r, rfl⟩ := chain.registers old inChips
    exact ⟨_, rfl⟩
  · have length : c.ticked.chips.length = c.chips.length := List.length_map _
    rw [length]
    exact chain.places
  · rw [ticked_post?]
    exact chain.wires

end Chain

end LogicBoard.Circuit
