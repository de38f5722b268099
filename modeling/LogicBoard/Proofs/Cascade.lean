import LogicBoard.Proofs.ChainWiring
import LogicBoard.Proofs.RegisterHistory

namespace LogicBoard

/-- One drive of the two inputs of a chain: both levels and a tick, or a bit and a whole clock cycle. -/
inductive Pulse
  | tick (data clock : Level)
  | cycle (bit : Level)

def Pulse.operations (data clock : PinId) : Pulse → List Operation
  | tick atData atClock => [.setInput data atData, .setInput clock atClock, .step]
  | cycle bit => [.clockIn data clock bit]

/-- The levels of the inputs in its ticks, latest first. -/
def Pulse.samples : Pulse → List Sample
  | tick atData atClock => [⟨atData, atClock⟩]
  | cycle bit => [⟨bit, .low⟩, ⟨bit, .high⟩]

def pulseSamples : List Pulse → List Sample
  | [] => []
  | pulse :: pulses => pulseSamples pulses ++ pulse.samples

def Operation.Builds : Operation → Prop
  | addChip chip => chip.Fresh
  | addInput _ => True
  | connect _ _ => True
  | _ => False

/-- The register is the stage with number `k` of one long register: it holds its share of the history, and its outputs
show it. -/
structure ShiftRegister.Stage (r : ShiftRegister) (table : PinTable) (k : Nat) (samples : List Sample) : Prop where
  register : r.register = packing 8 ((risingData samples).drop (8 * k))
  phase : r.phase = phaseAfter samples
  shows : ∀ j id, j < 8 → r.outline.handles[2 + j]? = some id → table.level id = .ofBool (r.register.getMsbD j)

namespace ShiftRegister.Stage
variable {r : ShiftRegister} {table : PinTable} {k : Nat} {samples : List Sample}

theorem getMsbD_register (stage : r.Stage table k samples) {j : Nat} (within : j < 8) :
    r.register.getMsbD j = ((risingData samples).getD (8 * k + j) .low).isHigh := by
  rw [stage.register, getMsbD_packing _ within]
  simp only [List.getD_eq_getElem?_getD, List.getElem?_drop]

theorem level_output (stage : r.Stage table k samples) {j : Nat} {id : PinId} (within : j < 8)
    (atPin : r.outline.handles[2 + j]? = some id) :
    table.level id = (risingData samples).getD (8 * k + j) .low := by
  rw [stage.shows j id within atPin, stage.getMsbD_register within, Level.ofBool_isHigh]

/-- A tick that reads what has dropped out of the stages before shifts the stage along with them. -/
theorem register_next (stage : r.Stage table k samples) (sample : Sample) {dropped : Level}
    (reads : (sample.data :: risingData samples).getD (8 * k) .low = dropped) :
    (r.next ⟨dropped, sample.clock⟩).register = packing 8 ((risingData (sample :: samples)).drop (8 * k)) := by
  have same : Sample.IsEdge ⟨dropped, sample.clock⟩ samples ↔ sample.IsEdge samples := Iff.rfl
  rw [ShiftRegister.next_register stage.phase, risingData, stage.register]
  by_cases edge : sample.IsEdge samples
  · rw [if_pos (same.mpr edge), if_pos edge, shiftIn_packing, ← reads, ← List.drop_succ_cons (a := sample.data),
      packing_getD_cons_drop]
  · rw [if_neg (same.not.mpr edge), if_neg edge]

end ShiftRegister.Stage

namespace Circuit

/-- The inputs stand at the levels of the sample, and these have passed along the wires. -/
structure Poised (c : Circuit) (data clock : PinId) (sample : Sample) : Prop where
  settled : ∀ wire ∈ c.wires, c.pins.level wire.target = c.pins.level wire.source
  data : c.pins.level data = sample.data
  clock : c.pins.level clock = sample.clock

/-- A chain whose registers are the stages of one long register. -/
structure Shifted (c : Circuit) (data clock : PinId) (order : List Nat) (samples : List Sample) : Prop where
  wellFormed : c.WellFormed
  chain : c.Chain data clock order
  stages : ∀ k i, order[k]? = some i →
    ∃ r : ShiftRegister, c.chips[i]? = some (.register r) ∧ r.Stage c.pins k samples

variable {c : Circuit} {data clock : PinId} {order : List Nat} {samples : List Sample}

theorem Chain.level_setInput (chain : c.Chain data clock order) (wellFormed : c.WellFormed) {input : PinId}
    (member : input ∈ c.inputs) (set : PinId) (level : Level) :
    (c.setInput set level).pins.level input = if set = input then level else c.pins.level input := by
  have still := (c.pins.setLevel set level).get?_settle_of_forall_ne (chain.input_undriven wellFormed member)
  have allocated := wellFormed.input_allocated member
  refine (PinTable.level_eq_of_get? still).trans ?_
  rw [PinTable.level_setLevel]
  simp only [allocated, and_true]

theorem Chain.poised (chain : c.Chain data clock order) (wellFormed : c.WellFormed) (atClock : Level) :
    (c.setInput clock atClock).Poised data clock ⟨c.pins.level data, atClock⟩ where
  settled := fun _ inWires => chain.level_settle wellFormed (c.pins.size_setLevel clock atClock) inWires
  data := by
    rw [chain.level_setInput wellFormed chain.data_mem, if_neg (chain.data_ne_clock wellFormed).symm]
  clock := by rw [chain.level_setInput wellFormed chain.clock_mem, if_pos rfl]

theorem Chain.level_ticked_data (chain : c.Chain data clock order) (wellFormed : c.WellFormed) :
    c.ticked.pins.level data = c.pins.level data := by
  have still := (c.pins.modifyAll (c.chips.flatMap fun chip => chip.writes c.pins)).get?_settle_of_forall_ne
    (chain.input_undriven wellFormed chain.data_mem)
  have foreign : ∀ chip ∈ c.chips, data ∉ chip.handles :=
    fun _ member => wellFormed.input_foreign chain.data_mem member
  exact PinTable.level_eq_of_get? (still.trans (get?_modifyAll_other c.pins foreign))

namespace Shifted

theorem setInput (shifted : c.Shifted data clock order samples) {id : PinId} (member : id ∈ c.inputs)
    (level : Level) : (c.setInput id level).Shifted data clock order samples := by
  refine ⟨shifted.wellFormed.setInput id level, shifted.chain.setInput id level, ?_⟩
  intro k i stage
  obtain ⟨r, atChip, register, phase, shows⟩ := shifted.stages k i stage
  refine ⟨r, atChip, register, phase, ?_⟩
  intro j output within atPin
  have own := List.mem_of_getElem? atPin
  have other : id ≠ output := by
    rintro rfl
    exact shifted.wellFormed.input_foreign member (List.mem_of_getElem? atChip) own
  have undriven := shifted.chain.output_undriven shifted.wellFormed atChip atPin
  rw [PinTable.level_eq_of_get? (get?_setInput_of_ne other undriven)]
  exact shows j output within atPin

/-- Every stage reads what has just dropped out of the stage before, and the first one reads the data input. -/
theorem sample_eq (shifted : c.Shifted data clock order samples) {sample : Sample}
    (poised : c.Poised data clock sample) {k i : Nat} {r : ShiftRegister} (stage : order[k]? = some i)
    (atChip : c.chips[i]? = some (.register r)) :
    r.sample c.pins = ⟨(sample.data :: risingData samples).getD (8 * k) .low, sample.clock⟩ := by
  have placed : r.Placed := shifted.wellFormed.placed _ (List.mem_of_getElem? atChip)
  obtain ⟨dataPin, atData⟩ := placed.handle (by omega : 0 < 10)
  obtain ⟨clockPin, atClock⟩ := placed.handle (by omega : 1 < 10)
  have dataPost : c.post? i 0 = some dataPin := post?_eq_some_iff.mpr ⟨_, atChip, atData⟩
  have clockPost : c.post? i 1 = some clockPin := post?_eq_some_iff.mpr ⟨_, atChip, atClock⟩
  have clockLevel : c.pins.level clockPin = sample.clock := by
    have wired := (shifted.chain.wires _).mpr (.clock (List.mem_of_getElem? stage) clockPost)
    exact (poised.settled _ wired).trans poised.clock
  have dataLevel : c.pins.level dataPin = (sample.data :: risingData samples).getD (8 * k) .low := by
    cases k with
    | zero =>
      have wired := (shifted.chain.wires _).mpr (.data stage dataPost)
      exact (poised.settled _ wired).trans poised.data
    | succ k =>
      have before : k < order.length := Nat.lt_of_succ_lt (List.getElem?_eq_some_iff.mp stage).1
      have atBefore : order[k]? = some order[k] := List.getElem?_eq_getElem before
      obtain ⟨previous, atPrevious, inChain⟩ := shifted.stages k _ atBefore
      have placed : previous.Placed := shifted.wellFormed.placed _ (List.mem_of_getElem? atPrevious)
      obtain ⟨last, atLast⟩ := placed.handle (by omega : 9 < 10)
      have lastPost : c.post? order[k] 9 = some last := post?_eq_some_iff.mpr ⟨_, atPrevious, atLast⟩
      have wired := (shifted.chain.wires _).mpr (.link atBefore stage lastPost dataPost)
      have place : 8 * (k + 1) = 8 * k + 7 + 1 := by omega
      rw [place, List.getD_cons_succ]
      exact (poised.settled _ wired).trans (inChain.level_output (by omega) atLast)
  rw [ShiftRegister.sample, ShiftRegister.dataPin?, ShiftRegister.clockPin?, atData, atClock]
  simp only [Option.map_some, Option.getD_some, dataLevel, clockLevel]

/-- A tick shifts the long register by one when it is a rising edge, and keeps it otherwise. -/
theorem ticked (shifted : c.Shifted data clock order samples) {sample : Sample}
    (poised : c.Poised data clock sample) : c.ticked.Shifted data clock order (sample :: samples) := by
  refine ⟨shifted.wellFormed.ticked, shifted.chain.ticked, ?_⟩
  intro k i stage
  obtain ⟨r, atChip, inChain⟩ := shifted.stages k i stage
  have reads := shifted.sample_eq poised stage atChip
  have atNext : c.ticked.chips[i]? = some (.register (r.next (r.sample c.pins))) := by
    rw [Circuit.ticked, List.getElem?_map, atChip]
    rfl
  refine ⟨_, atNext, ?_, ?_, ?_⟩
  · rw [reads]
    exact inChain.register_next sample rfl
  · rw [ShiftRegister.next_phase _ _ samples, reads]
    rfl
  · intro j output within atPin
    rw [ShiftRegister.next_outline] at atPin
    have undriven := shifted.chain.output_undriven shifted.wellFormed atChip atPin
    exact shifted.wellFormed.level_ticked_output (List.mem_of_getElem? atChip) within atPin undriven
      (inChain.shows j output within atPin)

theorem poised (shifted : c.Shifted data clock order samples) (atData atClock : Level) :
    ((c.setInput data atData).setInput clock atClock).Poised data clock ⟨atData, atClock⟩ := by
  have driven := shifted.setInput shifted.chain.data_mem atData
  have poised := driven.chain.poised driven.wellFormed atClock
  rwa [shifted.chain.level_setInput shifted.wellFormed shifted.chain.data_mem, if_pos rfl] at poised

/-- A drive takes its ticks, unless they come to more than the counter can hold. -/
theorem pulse (shifted : c.Shifted data clock order samples) (pulse : Pulse) :
    ∃ after : Circuit, after.Shifted data clock order (pulse.samples ++ samples) ∧
      after.ticks = c.ticks + pulse.samples.length ∧
      (performAll (pulse.operations data clock) c).result =
        if Word.fits64 after.ticks then .ok after else .error (.overflow .add) := by
  cases pulse with
  | tick atData atClock =>
    have driven := (shifted.setInput shifted.chain.data_mem atData).setInput shifted.chain.clock_mem atClock
    refine ⟨_, driven.ticked (shifted.poised atData atClock), rfl, ?_⟩
    have same : performAll (Pulse.operations data clock (.tick atData atClock)) c =
        ((c.setInput data atData).setInput clock atClock).step := by
      simp only [Pulse.operations, performAll, perform, pure_bind, bind_pure]
    rw [same]
    exact driven.wellFormed.step_result
  | cycle bit =>
    have high := (shifted.setInput shifted.chain.data_mem bit).setInput shifted.chain.clock_mem .high
    have poised := shifted.poised bit .high
    have between := high.ticked poised
    have low := between.setInput between.chain.clock_mem .low
    have again := between.chain.poised between.wellFormed .low
    rw [high.chain.level_ticked_data high.wellFormed, poised.data] at again
    refine ⟨_, low.ticked again, rfl, ?_⟩
    have same : performAll (Pulse.operations data clock (.cycle bit)) c = c.clockIn data clock bit := by
      simp only [Pulse.operations, performAll, perform, bind_pure]
    have first := high.wellFormed.step_result
    have second := low.wellFormed.step_result
    rw [same, clockIn]
    by_cases fits : Word.fits64 (c.ticks + 1)
    · rw [Logged.result_bind_of_ok (first.trans (if_pos fits))]
      exact second
    · have exceeded : ¬Word.fits64 (c.ticks + 1 + 1) := fun both => fits (Word.fits64_of_le (Nat.le_succ _) both)
      rw [Logged.result_bind_of_error (first.trans (if_neg fits))]
      exact (if_neg exceeded).symm

theorem pulses (shifted : c.Shifted data clock order samples) (pulses : List Pulse) :
    ∃ after : Circuit, after.Shifted data clock order (pulseSamples pulses ++ samples) ∧
      after.ticks = c.ticks + (pulseSamples pulses).length ∧
      (Word.fits64 c.ticks → (performAll (pulses.flatMap fun pulse => pulse.operations data clock) c).result =
        if Word.fits64 after.ticks then .ok after else .error (.overflow .add)) := by
  induction pulses generalizing c samples with
  | nil => exact ⟨c, shifted, rfl, fun fits => (if_pos fits).symm⟩
  | cons pulse pulses ih =>
    obtain ⟨middle, shiftedOnce, count, once⟩ := shifted.pulse pulse
    obtain ⟨after, shiftedAll, total, rest⟩ := ih shiftedOnce
    rw [← List.append_assoc] at shiftedAll
    have length : after.ticks = c.ticks + (pulseSamples (pulse :: pulses)).length := by
      rw [total, count, pulseSamples, List.length_append]
      omega
    refine ⟨after, shiftedAll, length, fun _ => ?_⟩
    rw [List.flatMap_cons, performAll_append]
    by_cases fits : Word.fits64 middle.ticks
    · rw [Logged.result_bind_of_ok (once.trans (if_pos fits))]
      exact rest fits
    · have exceeded : ¬Word.fits64 after.ticks := fun all => fits (Word.fits64_of_le (by omega) all)
      rw [Logged.result_bind_of_error (once.trans (if_neg fits)), if_neg exceeded]

end Shifted

theorem starts_of_builds {operations : List Operation} (builds : ∀ operation ∈ operations, operation.Builds)
    (c : Circuit) : starts operations c = [] := by
  induction operations generalizing c with
  | nil => rfl
  | cons operation operations ih =>
    have quiet : c.startsOf operation = [] := by
      have kind := builds operation List.mem_cons_self
      cases operation with
      | addChip | addInput | connect => rfl
      | setInput | step | run | clockIn => exact kind.elim
    rw [starts]
    split
    · rw [ih fun later member => builds later (List.mem_cons_of_mem _ member), quiet, List.append_nil]
    · exact quiet

theorem Chain.shifted {name : String} {building : List Operation} (chain : c.Chain data clock order)
    (builds : ∀ operation ∈ building, operation.Builds) (built : (performAll building { name }).result = .ok c) :
    c.Shifted data clock order [] ∧ c.ticks = 0 := by
  have reach : Reach Chip.Fresh (fun _ => False) c (starts building { name } ++ []) := by
    refine (Reach.new name).performAll (fun chip member => builds _ member) ?_ built
    intro operation member id driven
    have kind := builds operation member
    cases operation with
    | addChip | addInput | connect | step | run => simp [Operation.driven] at driven
    | setInput | clockIn => exact kind
  rw [starts_of_builds builds, List.append_nil] at reach
  have wellFormed := reach.wellFormed
  refine ⟨⟨wellFormed, chain, ?_⟩, reach.ticks_eq⟩
  intro k i stage
  obtain ⟨r, atChip⟩ := chain.register_at (List.mem_of_getElem? stage)
  obtain ⟨register, phase⟩ := reach.recorded.records i r atChip
  refine ⟨r, atChip, ?_, phase, ?_⟩
  · rw [register, risingData, List.drop_nil]
    rfl
  · intro j id within atPin
    have undriven := chain.output_undriven wellFormed atChip atPin
    exact reach.level_output (List.mem_of_getElem? atChip) within atPin undriven not_false

/-- However a chain of registers has been put together, and however its two inputs are then driven, the registers hold
the data levels at the rising edges in a row, the newest in the highest bit of the first stage. Their outputs show them.
The drives succeed as long as their ticks can be counted. -/
theorem Chain.performAll_pulses {name : String} {building : List Operation} (chain : c.Chain data clock order)
    (builds : ∀ operation ∈ building, operation.Builds) (built : (performAll building { name }).result = .ok c)
    (pulses : List Pulse) :
    if Word.fits64 (pulseSamples pulses).length then
      ∃ after, (performAll (pulses.flatMap fun pulse => pulse.operations data clock) c).result = .ok after ∧
        ∀ k i, order[k]? = some i → ∃ r, after.chips[i]? = some (.register r) ∧ ∀ bit < 8,
          r.register.getLsbD bit = ((risingData (pulseSamples pulses)).getD (8 * k + (7 - bit)) .low).isHigh ∧
          ∃ id, r.outputPin? bit = some id ∧
            after.pins.level id = (risingData (pulseSamples pulses)).getD (8 * k + (7 - bit)) .low
    else
      (performAll (pulses.flatMap fun pulse => pulse.operations data clock) c).result = .error (.overflow .add) := by
  obtain ⟨shifted, unticked⟩ := chain.shifted builds built
  obtain ⟨after, shiftedAll, ticks, performed⟩ := shifted.pulses pulses
  rw [List.append_nil] at shiftedAll
  rw [unticked, Nat.zero_add] at ticks
  have outcome := performed (by rw [unticked]; decide)
  rw [ticks] at outcome
  by_cases fits : Word.fits64 (pulseSamples pulses).length
  · rw [if_pos fits] at outcome ⊢
    refine ⟨after, outcome, ?_⟩
    intro k i stage
    obtain ⟨r, atChip, inChain⟩ := shiftedAll.stages k i stage
    refine ⟨r, atChip, ?_⟩
    intro bit within
    have placed : r.Placed := shiftedAll.wellFormed.placed _ (List.mem_of_getElem? atChip)
    obtain ⟨id, atPin⟩ := placed.handle (by omega : 2 + (7 - bit) < 10)
    have shown := inChain.getMsbD_register (by omega : 7 - bit < 8)
    have place : 7 - (7 - bit) = bit := by omega
    rw [getMsbD_eq_getLsbD_of_lt _ (by omega), place] at shown
    exact ⟨shown, id, (r.outputPin?_eq within).trans atPin, inChain.level_output (by omega) atPin⟩
  · rw [if_neg fits] at outcome ⊢
    exact outcome

/-- Two stages, the second one placed first and wired before the first one. -/
def twoStages : List Operation :=
  [.addChip (.register { outline := .atPoint 0 0 }), .addInput "CLK",
    .addChip (.register { outline := .atPoint 0 4 }), .addInput "DATA",
    .connect 20 0, .connect 10 1, .connect 10 12, .connect 21 11]

theorem twoStages_chain : ∃ c, (performAll twoStages { name := "stages" }).result = .ok c ∧ c.Chain 21 10 [1, 0] := by
  obtain ⟨c, run, registers, posts, inputs, wires⟩ : ∃ c, (performAll twoStages { name := "stages" }).result = .ok c ∧
      (∀ chip ∈ c.chips, ∃ r, chip = .register r) ∧ c.chips.map Chip.handles = [List.range' 0 10, List.range' 11 10] ∧
      c.inputs = [10, 21] ∧ c.wires = [⟨20, 0⟩, ⟨10, 1⟩, ⟨10, 12⟩, ⟨21, 11⟩] := by
    refine ⟨_, rfl, ?_, rfl, rfl, rfl⟩
    intro chip member
    rcases List.mem_cons.mp member with rfl | later
    · exact ⟨_, rfl⟩
    · exact ⟨_, List.mem_singleton.mp later⟩
  have post (i n : Nat) : c.post? i n = ([List.range' 0 10, List.range' 11 10][i]?).bind (·[n]?) := by
    rw [← posts, List.getElem?_map, post?]
    cases c.chips[i]? <;> rfl
  refine ⟨c, run, registers, ?_, ?_, ?_⟩
  · have length := congrArg List.length posts
    rw [List.length_map] at length
    rw [length]
    decide
  · rw [inputs]
    decide
  · intro wire
    rw [wires]
    constructor
    · intro member
      simp only [List.mem_cons, List.not_mem_nil, or_false] at member
      rcases member with rfl | rfl | rfl | rfl
      · exact .link (k := 0) rfl rfl (post 1 9) (post 0 0)
      · exact .clock (by simp) (post 0 1)
      · exact .clock (by simp) (post 1 1)
      · exact .data rfl (post 1 0)
    · intro chainWire
      cases chainWire with
      | data first atPin =>
        cases first
        rw [post] at atPin
        cases atPin
        decide
      | clock member atPin =>
        simp only [List.mem_cons, List.not_mem_nil, or_false] at member
        rw [post] at atPin
        rcases member with rfl | rfl
        · cases atPin
          decide
        · cases atPin
          decide
      | @link k _ _ _ _ stage later atSource atTarget =>
        rw [post] at atSource atTarget
        cases k with
        | zero =>
          cases stage
          cases later
          cases atSource
          cases atTarget
          decide
        | succ k => cases later

/-- A high bit leaves the first stage and enters the second one at the ninth rising edge. -/
theorem twoStages_carry_bit : ∃ c after r, (performAll twoStages { name := "stages" }).result = .ok c ∧
    (performAll ((.cycle .high :: .tick .low .high :: List.replicate 8 (.cycle .low)).flatMap
      fun pulse : Pulse => pulse.operations 21 10) c).result = .ok after ∧
    after.chips[0]? = some (.register r) ∧ r.register.getLsbD 7 = true ∧
    ∃ id, r.outputPin? 7 = some id ∧ after.pins.level id = .high := by
  obtain ⟨c, built, chain⟩ := twoStages_chain
  have builds : ∀ operation ∈ twoStages, operation.Builds := by
    intro operation member
    simp only [twoStages, List.mem_cons, List.not_mem_nil, or_false] at member
    rcases member with rfl | rfl | rfl | rfl | rfl | rfl | rfl | rfl
    · exact .place (ShiftRegister.place_result 0 0)
    · trivial
    · exact .place (ShiftRegister.place_result 0 4)
    all_goals trivial
  have outcome := chain.performAll_pulses builds built
    (.cycle .high :: .tick .low .high :: List.replicate 8 (.cycle .low))
  rw [if_pos (by decide)] at outcome
  obtain ⟨after, performed, stages⟩ := outcome
  obtain ⟨r, atChip, bits⟩ := stages 1 0 rfl
  obtain ⟨bit, id, atPin, level⟩ := bits 7 (by omega)
  exact ⟨c, after, r, built, performed, atChip, bit.trans (by decide), id, atPin, level.trans (by decide)⟩

end Circuit

end LogicBoard
