import LogicBoard.Proofs.DrivenRuns
import LogicBoard.Proofs.TracedLevels

namespace LogicBoard

/-- There are wires to the target, and all of them come from the source. -/
structure FedBy (wires : List Wire) (source target : PinId) : Prop where
  wired : ∃ wire ∈ wires, wire.target = target
  only : ∀ wire ∈ wires, wire.target = target → wire.source = source

/-- Wherever the wires to a pin stand among the others, its level comes from their source if no wire leads there. -/
theorem FedBy.trace_eq {wires : List Wire} {source target : PinId} (fed : FedBy wires source target)
    (undriven : ∀ wire ∈ wires, wire.target ≠ source) : trace wires target = source := by
  obtain ⟨wired, only⟩ := fed
  induction wires with
  | nil => simp at wired
  | cons first wires ih =>
    obtain ⟨here, later⟩ := List.forall_mem_cons.mp undriven
    rw [trace_cons]
    by_cases again : ∃ wire ∈ wires, wire.target = target
    · rw [ih later again fun wire member => only wire (List.mem_cons_of_mem _ member), if_neg here.symm]
    · have last : first.target = target := by
        obtain ⟨wire, member, atTarget⟩ := wired
        rcases List.mem_cons.mp member with rfl | behind
        · exact atTarget
        · exact absurd ⟨wire, behind, atTarget⟩ again
      rw [trace_eq_self fun wire member same => again ⟨wire, member, same⟩, if_pos last.symm]
      exact only first List.mem_cons_self last

namespace ShiftRegister
variable {r : ShiftRegister}

/-- What a clock cycle makes of a register. If the edge detector has seen a high level already, it takes the high half
of the cycle for the rest of that one, and the bit is lost. -/
def cycled (r : ShiftRegister) (bit : Level) : ShiftRegister :=
  { r with register := if r.phase = .armed then shiftIn r.register bit else r.register, phase := .armed }

theorem next_next_eq_cycled (r : ShiftRegister) (bit data : Level) :
    (r.next ⟨bit, .high⟩).next ⟨data, .low⟩ = r.cycled bit := by
  cases phase : r.phase <;> simp [next, cycled, phase]

/-- All bits move down by one place, and the new one takes the highest. -/
theorem shiftIn_eq_cons (register : BitVec 8) (data : Level) :
    shiftIn register data = .cons data.isHigh ((register >>> 1).setWidth 7) := by
  revert register
  cases data <;> decide

theorem packing_shown (register : BitVec 8) : packing 8 (shown register) = register := by
  refine BitVec.eq_of_getMsbD_eq fun k within => ?_
  rw [getMsbD_packing _ within, List.getD_eq_getElem?_getD, getElem?_shown within, Option.getD_some,
    Level.isHigh_ofBool]

theorem foldl_shiftIn_packing (bits history : List Level) :
    bits.foldl shiftIn (packing 8 history) = packing 8 (bits.reverse ++ history) := by
  induction bits generalizing history with
  | nil => rfl
  | cons bit bits ih =>
    rw [List.foldl_cons, shiftIn_packing, ih, List.reverse_cons, List.append_assoc]
    rfl

/-- An armed register stays armed from cycle to cycle and takes every bit. -/
theorem foldl_cycled_of_armed (armed : r.phase = .armed) (bits : List Level) :
    bits.foldl cycled r = { r with register := bits.foldl shiftIn r.register } := by
  induction bits generalizing r with
  | nil => rfl
  | cons bit bits ih =>
    have once : r.cycled bit = { r with register := shiftIn r.register bit } := by
      rw [cycled, if_pos armed, ← armed]
    rw [List.foldl_cons, once]
    exact ih armed

/-- A register that is not armed misses the first of the bits. -/
theorem foldl_cycled (r : ShiftRegister) (bits : List Level) :
    (bits.foldl cycled r).phase = (if bits = [] then r.phase else .armed) ∧
    (bits.foldl cycled r).register =
      packing 8 ((if r.phase = .armed then bits else bits.tail).reverse ++ shown r.register) := by
  rw [← foldl_shiftIn_packing, packing_shown]
  cases bits with
  | nil => simp
  | cons bit bits =>
    rw [List.foldl_cons, foldl_cycled_of_armed rfl]
    refine ⟨rfl, ?_⟩
    cases phase : r.phase <;> simp [cycled, phase]

end ShiftRegister

namespace Circuit

/-- The register takes its data from one input of the circuit and its clock from another one. No wire leads to these
inputs, and whatever else is wired, no other wires lead to the data and clock pins of the register. -/
structure Attached (c : Circuit) (data clock : PinId) (r : ShiftRegister) : Prop where
  inputs : data ∈ c.inputs ∧ clock ∈ c.inputs
  distinct : data ≠ clock
  undriven : ∀ wire ∈ c.wires, wire.target ≠ data ∧ wire.target ≠ clock
  data : ∃ id, r.dataPin? = some id ∧ FedBy c.wires data id
  clock : ∃ id, r.clockPin? = some id ∧ FedBy c.wires clock id

variable {c : Circuit} {data clock : PinId} {r : ShiftRegister}

namespace Attached

theorem of_same {d : Circuit} {s : ShiftRegister} (attached : c.Attached data clock r) (inputs : d.inputs = c.inputs)
    (wires : d.wires = c.wires) (outline : s.outline = r.outline) : d.Attached data clock s := by
  obtain ⟨atInputs, distinct, undriven, ⟨dataPin, atData, fedData⟩, clockPin, atClock, fedClock⟩ := attached
  rw [← inputs] at atInputs
  rw [← wires] at undriven fedData fedClock
  refine ⟨atInputs, distinct, undriven, ⟨dataPin, ?_, fedData⟩, clockPin, ?_, fedClock⟩
  · rw [ShiftRegister.dataPin?, outline]
    exact atData
  · rw [ShiftRegister.clockPin?, outline]
    exact atClock

/-- Whichever pin is set, the register reads the levels of its two inputs then. -/
theorem sample_setInput (attached : c.Attached data clock r) (wellFormed : c.WellFormed) (id : PinId) (level : Level) :
    r.sample (c.setInput id level).pins =
      ⟨(c.pins.setLevel id level).level data, (c.pins.setLevel id level).level clock⟩ := by
  obtain ⟨dataPin, atData, fedData⟩ := attached.data
  obtain ⟨clockPin, atClock, fedClock⟩ := attached.clock
  rw [ShiftRegister.sample, atData, atClock]
  simp only [Option.map_some, Option.getD_some, wellFormed.level_setInput,
    fedData.trace_eq fun wire member => (attached.undriven wire member).1,
    fedClock.trace_eq fun wire member => (attached.undriven wire member).2]

theorem level_setInput_data (attached : c.Attached data clock r) (wellFormed : c.WellFormed) (level : Level) :
    (c.setInput data level).pins.level data = level := by
  rw [wellFormed.level_setInput, trace_eq_self fun wire member => (attached.undriven wire member).1,
    PinTable.level_setLevel, if_pos ⟨rfl, wellFormed.input_allocated attached.inputs.1⟩]

/-- With the clock set, the register reads that level there, and at its data pin what the data input had before. -/
theorem sample_setInput_clock (attached : c.Attached data clock r) (wellFormed : c.WellFormed) (level : Level) :
    r.sample (c.setInput clock level).pins = ⟨c.pins.level data, level⟩ := by
  have allocated := wellFormed.input_allocated attached.inputs.2
  rw [attached.sample_setInput wellFormed, PinTable.level_setLevel, PinTable.level_setLevel,
    if_neg fun both => attached.distinct both.1.symm, if_pos ⟨rfl, allocated⟩]

/-- A clock cycle takes one bit to the register, whatever other chips and wires there are. -/
theorem after_clockIn (attached : c.Attached data clock r) (wellFormed : c.WellFormed) {i : Nat}
    (atChip : c.chips[i]? = some (.register r)) (bit : Level) :
    (c.after (.clockIn data clock bit)).chips[i]? = some (.register (r.cycled bit)) := by
  have early := attached.of_same (d := c.setInput data bit) (s := r) rfl rfl rfl
  have wellFormedEarly := wellFormed.setInput data bit
  have first := early.sample_setInput_clock wellFormedEarly .high
  rw [attached.level_setInput_data wellFormed] at first
  -- The data that the low half reads is of no account.
  have wellFormedLate := (wellFormedEarly.setInput clock .high).ticked
  have late := early.of_same (d := ((c.setInput data bit).setInput clock .high).ticked) rfl rfl
    (r.next_outline ⟨bit, .high⟩)
  have second := late.sample_setInput_clock wellFormedLate .low
  have atHalf : ((c.setInput data bit).setInput clock .high).ticked.chips[i]? =
      some (.register (r.next ⟨bit, .high⟩)) := by
    rw [ticked_register (c := (c.setInput data bit).setInput clock .high) atChip, first]
  rw [after, ticked_register (c := ((c.setInput data bit).setInput clock .high).ticked.setInput clock .low) atHalf,
    second, ShiftRegister.next_next_eq_cycled]

/-- So does a series of cycles with all of its bits, one after the other. -/
theorem foldl_after_clockIn (attached : c.Attached data clock r) (wellFormed : c.WellFormed) {i : Nat}
    (atChip : c.chips[i]? = some (.register r)) (bits : List Level) :
    ((bits.map fun bit => .clockIn data clock bit).foldl Circuit.after c).chips[i]? =
      some (.register (bits.foldl ShiftRegister.cycled r)) ∧
    ((bits.map fun bit => .clockIn data clock bit).foldl Circuit.after c).ticks = c.ticks + 2 * bits.length := by
  induction bits generalizing c r with
  | nil => exact ⟨atChip, rfl⟩
  | cons bit bits ih =>
    have later := attached.of_same (d := c.after (.clockIn data clock bit)) (s := r.cycled bit) rfl rfl rfl
    obtain ⟨chips, ticks⟩ := ih later (wellFormed.after _) (attached.after_clockIn wellFormed atChip bit)
    refine ⟨chips, ticks.trans ?_⟩
    rw [c.after_ticks, Operation.ticks, List.length_cons]
    omega

end Attached

/-- Let two inputs feed the data and the clock pin of a register, in a circuit that may hold any other chips and wires.
Then a clock cycle takes two ticks and leaves the register armed. The bit becomes the highest one if the register was
armed before, whatever the level of the clock was, and is lost if it was not. A series of cycles shifts in all of its
bits in their order, and all but the first if the register was not armed. -/
theorem performAll_clock_cycles {name : String} {operations : List Operation} {i : Nat}
    (built : (performAll operations { name }).result = .ok c) (atChip : c.chips[i]? = some (.register r))
    (attached : c.Attached data clock r) :
    (∀ bit, if Word.fits64 (c.ticks + 2) then
      ∃ d after, (c.clockIn data clock bit).result = .ok d ∧ d.ticks = c.ticks + 2 ∧
        d.chips[i]? = some (.register after) ∧ after.phase = .armed ∧
        after.register =
          if r.phase = .armed then .cons bit.isHigh ((r.register >>> 1).setWidth 7) else r.register
      else (c.clockIn data clock bit).result = .error (.overflow .add)) ∧
    ∀ bits : List Level, if Word.fits64 (c.ticks + 2 * bits.length) then
      ∃ d after, (performAll (bits.map fun bit => .clockIn data clock bit) c).result = .ok d ∧
        d.ticks = c.ticks + 2 * bits.length ∧ d.chips[i]? = some (.register after) ∧
        after.phase = (if bits = [] then r.phase else .armed) ∧
        after.register =
          packing 8 ((if r.phase = .armed then bits else bits.tail).reverse ++ ShiftRegister.shown r.register)
      else (performAll (bits.map fun bit => .clockIn data clock bit) c).result = .error (.overflow .add) := by
  obtain ⟨wellFormed, counted⟩ := WellFormed.of_performAll built
  refine ⟨fun bit => ?_, fun bits => ?_⟩
  · rw [wellFormed.clockIn_result]
    split
    · refine ⟨_, _, rfl, c.after_ticks _, attached.after_clockIn wellFormed atChip bit, rfl, ?_⟩
      rw [ShiftRegister.cycled, ShiftRegister.shiftIn_eq_cons]
    · rfl
  · have drives : ∀ operation ∈ bits.map fun bit => Operation.clockIn data clock bit, operation.Drives := by
      intro operation member
      obtain ⟨bit, _, rfl⟩ := List.mem_map.mp member
      trivial
    have count : ((bits.map fun bit => Operation.clockIn data clock bit).map Operation.ticks).sum = 2 * bits.length := by
      simp [Function.comp_def, Operation.ticks, Nat.mul_comm]
    rw [wellFormed.performAll_driven counted drives, count]
    split
    · obtain ⟨chips, ticks⟩ := attached.foldl_after_clockIn wellFormed atChip bits
      obtain ⟨phase, register⟩ := r.foldl_cycled bits
      exact ⟨_, _, rfl, ticks, chips, phase, register⟩
    · rfl

/-- An inverter hangs on the first output of a register and feeds back to its second one. The clock is left high. -/
def clockLeftHigh : List Operation :=
  [.addInput "CLK", .addChip (.register { outline := .atPoint 0 0 }), .addChip (.device (.inverter (.atPoint 7 0 0))),
    .addInput "DATA", .connect 3 11, .connect 13 4, .connect 14 1, .connect 0 2, .setInput 0 .high, .step]

/-- The first bit is lost, the second and the third one come in. -/
theorem clockLeftHigh_clock_cycles : ∃ c r d after, (performAll clockLeftHigh { name := "left" }).result = .ok c ∧
    c.chips[0]? = some (.register r) ∧ r.phase = .latched ∧
    (performAll ([.low, .high, .high].map fun bit => .clockIn 14 0 bit) c).result = .ok d ∧ d.ticks = 7 ∧
    d.chips[0]? = some (.register after) ∧ after.phase = .armed ∧ after.register = 192 := by
  have passed : (performAll clockLeftHigh { name := "left" }).passes fun c =>
      decide (c.ticks = 1 ∧ c.inputs = [0, 14] ∧ c.wires = [⟨3, 11⟩, ⟨13, 4⟩, ⟨14, 1⟩, ⟨0, 2⟩]) &&
        (c.register? 0).any fun r => decide (r.phase = .latched ∧ r.register = 0 ∧ r.dataPin? = some 1 ∧
          r.clockPin? = some 2) := by
    decide +kernel
  obtain ⟨c, built, checked⟩ := Logged.passes_iff.mp passed
  obtain ⟨atC, found⟩ := Bool.and_eq_true_iff.mp checked
  obtain ⟨ticks, inputs, wires⟩ := of_decide_eq_true atC
  obtain ⟨r, atChip, atR⟩ := Option.any_eq_true _ _ |>.mp found
  obtain ⟨latched, cleared, dataPin, clockPin⟩ := of_decide_eq_true atR
  have attached : c.Attached 14 0 r := by
    refine ⟨?_, by decide, ?_, ⟨1, dataPin, ?_⟩, 2, clockPin, ?_⟩
    · rw [inputs]
      decide
    all_goals rw [wires]
    · decide
    · exact ⟨by decide, by decide⟩
    · exact ⟨by decide, by decide⟩
  have series := (performAll_clock_cycles built (register?_eq_some_iff.mp atChip) attached).2 [.low, .high, .high]
  rw [ticks, if_pos (by decide), latched, cleared] at series
  obtain ⟨d, after, ran, total, atAfter, phase, register⟩ := series
  exact ⟨c, r, d, after, built, register?_eq_some_iff.mp atChip, latched, ran, total, atAfter, phase,
    register.trans (by decide)⟩

end Circuit

end LogicBoard
