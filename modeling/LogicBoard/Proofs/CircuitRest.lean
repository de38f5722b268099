import Mathlib.Data.Fintype.Pigeonhole
import LogicBoard.Proofs.TracedLevels

namespace LogicBoard.Circuit
variable {c : Circuit}

/-- Registers alone, wired from outputs and inputs to data and clock pins, with nothing left to pass on. -/
structure Autonomous (c : Circuit) : Prop where
  wellFormed : c.WellFormed
  registers : c.AllRegisters
  direct : c.Direct
  traced : ∀ id, c.pins.level (trace c.wires id) = c.pins.level id

/-- Another tick changes nothing but the count of ticks. -/
structure Still (c : Circuit) : Prop where
  settled : c.pins.settle c.wires = c.pins
  resting : ∀ chip ∈ c.chips, chip.next c.pins = chip ∧ chip.writes c.pins = []

theorem Still.ticked_eq (still : c.Still) : c.ticked = { c with ticks := c.ticks + 1 } := by
  have chips : (c.chips.map fun chip => chip.next c.pins) = c.chips :=
    (List.map_congr_left fun chip member => (still.resting chip member).1).trans (List.map_id' c.chips)
  have writes : (c.chips.flatMap fun chip => chip.writes c.pins) = [] :=
    List.flatMap_eq_nil_iff.mpr fun chip member => (still.resting chip member).2
  rw [ticked, chips, writes]
  exact congrArg (fun pins => { c with pins, ticks := c.ticks + 1 }) still.settled

theorem Still.iterate_ticked (still : c.Still) (count : Nat) :
    ticked^[count] c = { c with ticks := c.ticks + count } := by
  induction count with
  | zero => rfl
  | succ count ih =>
    have later : Still { c with ticks := c.ticks + count } := ⟨still.settled, still.resting⟩
    rw [Function.iterate_succ_apply', ih, later.ticked_eq]
    rfl

theorem iterate_ticked_wires (c : Circuit) (count : Nat) : (ticked^[count] c).wires = c.wires := by
  induction count with
  | zero => rfl
  | succ count ih =>
    rw [Function.iterate_succ_apply']
    exact ih

theorem iterate_ticked_length (c : Circuit) (count : Nat) : (ticked^[count] c).chips.length = c.chips.length := by
  induction count with
  | zero => rfl
  | succ count ih => rw [Function.iterate_succ_apply', ticked, List.length_map, ih]

namespace Autonomous

theorem ticked (autonomous : c.Autonomous) : c.ticked.Autonomous where
  wellFormed := autonomous.wellFormed.ticked
  registers := autonomous.registers.ticked
  direct := by
    refine ⟨?_, ?_⟩
    · rw [ticked_post?]
      exact autonomous.direct.sources
    · rw [ticked_post?]
      exact autonomous.direct.targets
  traced := by
    intro id
    have apart := autonomous.direct.apart autonomous.wellFormed
    rw [autonomous.wellFormed.level_ticked, autonomous.wellFormed.level_ticked]
    exact congrArg _ (trace_trace apart id)

theorem iterate_ticked (autonomous : c.Autonomous) (count : Nat) : (Circuit.ticked^[count] c).Autonomous := by
  induction count with
  | zero => exact autonomous
  | succ count ih =>
    rw [Function.iterate_succ_apply']
    exact ih.ticked

/-- A pin keeps its level in a tick unless its origin is an output of a chip whose clock rises. -/
theorem level_ticked_eq (autonomous : c.Autonomous) {id : PinId}
    (quiet : ∀ j k, c.post? j (2 + k) = some (trace c.wires id) → ¬c.Rises j) :
    c.ticked.pins.level id = c.pins.level id := by
  rw [autonomous.wellFormed.level_ticked, ← autonomous.traced id]
  by_cases owned : ∃ j n, c.post? j n = some (trace c.wires id)
  · obtain ⟨j, n, atPost⟩ := owned
    obtain ⟨r, atChip, atPin⟩ := autonomous.registers.register_at atPost
    rw [autonomous.wellFormed.level_worked_post atChip atPin, if_neg]
    rintro ⟨rises, output⟩
    exact quiet j (n - 2) (by rw [Nat.add_sub_cancel' output]; exact atPost) ((rises_iff atChip).mpr rises)
  · exact level_worked_foreign fun j n atPost => owned ⟨j, n, atPost⟩

/-- There is one chip that alone can change the level of a pin, at a rising edge of its own clock. -/
theorem exists_driver (autonomous : c.Autonomous) (id : PinId) :
    ∃ j, ∀ t, ¬(Circuit.ticked^[t] c).Rises j →
      (Circuit.ticked^[t + 1] c).pins.level id = (Circuit.ticked^[t] c).pins.level id := by
  obtain ⟨j, only⟩ : ∃ j, ∀ i k, c.post? i (2 + k) = some (trace c.wires id) → i = j := by
    by_cases owned : ∃ j k, c.post? j (2 + k) = some (trace c.wires id)
    · obtain ⟨j, k, atPost⟩ := owned
      exact ⟨j, fun i n atOther => (autonomous.wellFormed.post_unique atOther atPost).1⟩
    · exact ⟨0, fun i k atPost => absurd ⟨i, k, atPost⟩ owned⟩
  refine ⟨j, fun t quiet => ?_⟩
  rw [Function.iterate_succ_apply']
  refine (autonomous.iterate_ticked t).level_ticked_eq fun i k atPost => ?_
  rw [iterate_ticked_post?, iterate_ticked_wires] at atPost
  rw [only i k atPost]
  exact quiet

/-- The clock pin of a register shows, from tick to tick, the level that its edge detector reads. -/
theorem clock_at (autonomous : c.Autonomous) {i : Nat} {id : PinId} (atClock : c.post? i 1 = some id) (t : Nat) :
    ∃ r, (Circuit.ticked^[t] c).chips[i]? = some (.register r) ∧
      (r.sample (Circuit.ticked^[t] c).pins).clock = (Circuit.ticked^[t] c).pins.level id := by
  have atPost : (Circuit.ticked^[t] c).post? i 1 = some id := by rw [iterate_ticked_post?, atClock]
  obtain ⟨r, atChip, atPin⟩ := (autonomous.iterate_ticked t).registers.register_at atPost
  refine ⟨r, atChip, ?_⟩
  rw [ShiftRegister.sample, ShiftRegister.clockPin?, atPin]
  rfl

theorem clock_of_rises (autonomous : c.Autonomous) {i : Nat} {id : PinId} (atClock : c.post? i 1 = some id) {t : Nat}
    (rises : (Circuit.ticked^[t] c).Rises i) : (Circuit.ticked^[t] c).pins.level id = .high := by
  obtain ⟨r, atChip, clock⟩ := autonomous.clock_at atClock t
  exact clock ▸ ((rises_iff atChip).mp rises).1

/-- A clock that rises was low in the tick before. -/
theorem clock_before_rises (autonomous : c.Autonomous) {i : Nat} {id : PinId} (atClock : c.post? i 1 = some id)
    {t : Nat} (rises : (Circuit.ticked^[t + 1] c).Rises i) : (Circuit.ticked^[t] c).pins.level id = .low := by
  obtain ⟨r, atChip, clock⟩ := autonomous.clock_at atClock t
  rw [Function.iterate_succ_apply', rises_iff (ticked_register atChip)] at rises
  have phase := rises.2
  rw [r.next_phase _ [], phaseAfter] at phase
  cases level : (Circuit.ticked^[t] c).pins.level id with
  | low => rfl
  | high =>
    rw [clock, level, if_pos rfl] at phase
    cases phase

theorem clock_post (autonomous : c.Autonomous) {i : Nat} (rises : c.Rises i) : ∃ id, c.post? i 1 = some id := by
  obtain ⟨r, atRegister, _⟩ := rises
  have atChip := register?_eq_some_iff.mp atRegister
  obtain ⟨id, atPin⟩ := (show r.Placed from autonomous.wellFormed.placed _ (List.mem_of_getElem? atChip)).handle
    (by omega : 1 < 10)
  exact ⟨id, post?_eq_some_iff.mpr ⟨_, atChip, atPin⟩⟩

/-- No clock rises twice. Between two rising edges the clock would have to fall and to rise again, so the one chip that
drives it would have had two edges before the second of them. -/
theorem not_rises_again (autonomous : c.Autonomous) {t u : Nat} (before : t < u) {i : Nat}
    (rises : (Circuit.ticked^[t] c).Rises i) : ¬(Circuit.ticked^[u] c).Rises i := by
  induction u using Nat.strong_induction_on generalizing t i with
  | _ u ih =>
    intro again
    obtain ⟨id, atClock⟩ := (autonomous.iterate_ticked t).clock_post rises
    rw [iterate_ticked_post?] at atClock
    obtain ⟨last, rfl⟩ := Nat.exists_eq_succ_of_ne_zero (Nat.ne_zero_of_lt before)
    have first := autonomous.clock_of_rises atClock rises
    have low := autonomous.clock_before_rises atClock again
    have high := autonomous.clock_of_rises atClock again
    obtain ⟨j, drives⟩ := autonomous.exists_driver id
    have earlier : t < last := by
      rcases Nat.lt_or_eq_of_le (Nat.lt_succ_iff.mp before) with earlier | same
      · exact earlier
      · rw [same, low] at first
        cases first
    have second : (Circuit.ticked^[last] c).Rises j := by
      by_contra quiet
      rw [drives last quiet, low] at high
      cases high
    obtain ⟨fall, after, until_, falls⟩ : ∃ fall, t ≤ fall ∧ fall < last ∧ (Circuit.ticked^[fall] c).Rises j := by
      by_contra none
      have kept : ∀ count, t + count ≤ last →
          (Circuit.ticked^[t + count] c).pins.level id = (Circuit.ticked^[t] c).pins.level id := by
        intro count
        induction count with
        | zero => exact fun _ => rfl
        | succ count same =>
          intro within
          have quiet : ¬(Circuit.ticked^[t + count] c).Rises j := fun rises =>
            none ⟨t + count, Nat.le_add_right _ _, by omega, rises⟩
          exact (drives (t + count) quiet).trans (same (by omega))
      have still := kept (last - t) (by omega)
      rw [Nat.add_sub_cancel' (Nat.le_of_lt earlier), low, first] at still
      cases still
    exact ih last (Nat.lt_succ_self last) until_ falls second

/-- A tick without any rising edge leaves the circuit at rest. -/
theorem still_ticked (autonomous : c.Autonomous) (quiet : ∀ i, ¬c.Rises i) : c.ticked.Still := by
  have calm : ∀ r, .register r ∈ c.chips → ¬r.Rises (r.sample c.pins) := by
    intro r member
    obtain ⟨i, atChip⟩ := List.mem_iff_getElem?.mp member
    exact fun rises => quiet i ((rises_iff atChip).mpr rises)
  have writes : (c.chips.flatMap fun chip => chip.writes c.pins) = [] := by
    refine List.flatMap_eq_nil_iff.mpr fun chip member => ?_
    obtain ⟨r, rfl⟩ := autonomous.registers chip member
    exact ShiftRegister.writes_of_not_rises (calm r member)
  have settled : c.pins.settle c.wires = c.pins :=
    PinTable.settle_eq_self (fun wire member => (autonomous.wellFormed.wired wire member).2) autonomous.traced
  have pins : c.ticked.pins = c.pins := by
    rw [Circuit.ticked, writes]
    exact settled
  refine ⟨?_, fun chip member => ?_⟩
  · rw [pins]
    exact settled
  · obtain ⟨old, inChips, rfl⟩ := List.mem_map.mp member
    obtain ⟨r, rfl⟩ := autonomous.registers old inChips
    have sample : (r.next (r.sample c.pins)).sample c.pins = r.sample c.pins := by
      rw [ShiftRegister.sample, ShiftRegister.dataPin?, ShiftRegister.clockPin?, ShiftRegister.next_outline]
      rfl
    rw [pins, Chip.next, Chip.next, Chip.writes, sample, ShiftRegister.next_next]
    exact ⟨rfl, ShiftRegister.writes_of_not_rises (r.not_rises_next _)⟩

/-- With as many chips as steps before it, one of the steps has to be quiet. -/
theorem exists_quiet (autonomous : c.Autonomous) :
    ∃ t ≤ c.chips.length, ∀ i, ¬(Circuit.ticked^[t] c).Rises i := by
  by_contra busy
  push Not at busy
  choose! riser rises using busy
  have place : ∀ t ≤ c.chips.length, riser t < c.chips.length := by
    intro t within
    obtain ⟨r, atRegister, _⟩ := rises t within
    have below := (List.getElem?_eq_some_iff.mp (register?_eq_some_iff.mp atRegister)).1
    rwa [iterate_ticked_length] at below
  obtain ⟨s, inS, t, inT, other, same⟩ := Finset.exists_ne_map_eq_of_card_lt_of_maps_to
    (s := Finset.range (c.chips.length + 1)) (t := Finset.range c.chips.length) (f := riser) (by simp)
    (fun t member => Finset.mem_range.mpr (place t (by simpa [Nat.lt_succ_iff] using member)))
  have beforeS : s ≤ c.chips.length := Nat.lt_succ_iff.mp (Finset.mem_range.mp inS)
  have beforeT : t ≤ c.chips.length := Nat.lt_succ_iff.mp (Finset.mem_range.mp inT)
  rcases Nat.lt_or_gt_of_ne other with first | second
  · exact autonomous.not_rises_again first (rises s beforeS) (same ▸ rises t beforeT)
  · exact autonomous.not_rises_again second (rises t beforeT) (same ▸ rises s beforeS)

/-- After one step more than there are chips nothing but the count of ticks changes any more. -/
theorem iterate_ticked_eq (autonomous : c.Autonomous) {count : Nat} (many : c.chips.length + 1 ≤ count) :
    Circuit.ticked^[count] c =
      { Circuit.ticked^[c.chips.length + 1] c with ticks := c.ticks + count } := by
  obtain ⟨t, within, quiet⟩ := autonomous.exists_quiet
  have still := (autonomous.iterate_ticked t).still_ticked quiet
  rw [← Function.iterate_succ_apply' Circuit.ticked] at still
  have later (more : Nat) : Circuit.ticked^[t + 1 + more] c =
      { Circuit.ticked^[t + 1] c with ticks := c.ticks + (t + 1 + more) } := by
    rw [Nat.add_comm (t + 1) more, Function.iterate_add_apply, still.iterate_ticked, Circuit.iterate_ticked_ticks,
      Nat.add_assoc, Nat.add_comm more]
  have atCount := later (count - (t + 1))
  have atFirst := later (c.chips.length - t)
  rw [show t + 1 + (count - (t + 1)) = count by omega] at atCount
  rw [show t + 1 + (c.chips.length - t) = c.chips.length + 1 by omega] at atFirst
  rw [atCount, atFirst]

end Autonomous

/-- The starts of the steps of a run are the circuits after the steps before, as far as the count of ticks lasts. -/
theorem startsOfRun_eq (wellFormed : c.WellFormed) (count : Nat) :
    ∃ steps, startsOfRun count c = ((List.range steps).map fun t => ticked^[t] c).reverse := by
  induction count generalizing c with
  | zero => exact ⟨0, rfl⟩
  | succ count ih =>
    rw [startsOfRun, wellFormed.step_result]
    by_cases fits : Word.fits64 (c.ticks + 1)
    · obtain ⟨steps, starts⟩ := ih wellFormed.ticked
      refine ⟨steps + 1, ?_⟩
      rw [if_pos fits, List.range_succ_eq_map, List.map_cons, List.reverse_cons, List.map_map]
      exact congrArg (· ++ [c]) starts
    · exact ⟨1, by rw [if_neg fits]; rfl⟩

/-- Among the starts of the steps of a run there is at most one at which a given chip's clock rises. -/
theorem Autonomous.countP_rises_le_one (autonomous : c.Autonomous) (count i : Nat) :
    (startsOfRun count c).countP (fun start => start.Rises i) ≤ 1 := by
  obtain ⟨steps, starts⟩ := startsOfRun_eq autonomous.wellFormed count
  rw [starts, List.countP_reverse, List.countP_map, List.countP_eq_length_filter]
  have ordered := (List.pairwise_lt_range (n := steps)).filter
    ((fun start : Circuit => decide (start.Rises i)) ∘ fun t => Circuit.ticked^[t] c)
  match rising : (List.range steps).filter
    ((fun start : Circuit => decide (start.Rises i)) ∘ fun t => Circuit.ticked^[t] c) with
  | [] => exact Nat.zero_le 1
  | [_] => exact Nat.le_refl 1
  | s :: t :: others =>
    have member (u : Nat) (among : u ∈ s :: t :: others) : (Circuit.ticked^[u] c).Rises i := by
      rw [← rising] at among
      exact of_decide_eq_true (List.mem_filter.mp among).2
    rw [rising] at ordered
    have before : s < t := (List.pairwise_cons.mp ordered).1 t List.mem_cons_self
    exact absurd (member t (by simp)) (autonomous.not_rises_again before (member s (by simp)))

/-- Let registers alone be wired from outputs and inputs to data and clock pins, in whatever way. Then in a run of steps
no clock rises more than twice, and there is one circuit, up to its count of ticks, at which every run of enough steps
ends. -/
theorem performAll_comes_to_rest {name : String} {operations : List Operation} {c : Circuit}
    (built : (performAll operations { name }).result = .ok c) (registers : c.AllRegisters) (direct : c.Direct) :
    (∀ count i, (startsOfRun count c).countP (fun start => start.Rises i) ≤ 2) ∧
    ∃ rest : Circuit, ∀ count, 2 * c.chips.length + 1 ≤ count → (Circuit.run count c).result =
      if Word.fits64 (c.ticks + count) then .ok { rest with ticks := c.ticks + count }
      else .error (.overflow .add) := by
  have reach : Reach (fun _ => True) (fun _ => True) c (starts operations { name } ++ []) :=
    (Reach.new name).performAll (fun _ _ => trivial) (fun _ _ _ _ => trivial) built
  have wellFormed := reach.wellFormed
  have autonomous : c.Autonomous := ⟨wellFormed, registers, direct, reach.traced (direct.apart wellFormed)⟩
  obtain ⟨_, counted⟩ := (WellFormed.new name).eq_foldl_after rfl built
  have fits : Word.fits64 c.ticks := (hasRoom_iff.mp counted).1
  refine ⟨fun count i => Nat.le_succ_of_le (autonomous.countP_rises_le_one count i), ticked^[c.chips.length + 1] c,
    fun count many => ?_⟩
  rw [wellFormed.run_result count fits, autonomous.iterate_ticked_eq (by omega : c.chips.length + 1 ≤ count)]

/-- Two registers that feed each other, the second one clocked by the first. Two wires lead to the first data pin. -/
def ring : List Operation :=
  [.addChip (.register { outline := .atPoint 0 0 }), .addChip (.register { outline := .atPoint 0 4 }), .addInput "DATA",
    .addInput "CLK", .connect 12 0, .connect 20 0, .connect 2 10, .connect 21 1, .connect 2 11, .setInput 20 .high,
    .setInput 21 .high]

theorem ring_comes_to_rest : ∃ c rest : Circuit, (performAll ring { name := "ring" }).result = .ok c ∧ c.Rises 0 ∧
    (startsOfRun 9 c).countP (fun start => start.Rises 1) ≤ 2 ∧
    (Circuit.run 5 c).result = .ok { rest with ticks := 5 } ∧
    (Circuit.run 9 c).result = .ok { rest with ticks := 9 } := by
  have passed : (performAll ring { name := "ring" }).passes fun c =>
      decide (c.Rises 0 ∧ c.ticks = 0 ∧ c.chips.length = 2 ∧ c.inputs = [20, 21] ∧
        c.wires = [⟨12, 0⟩, ⟨20, 0⟩, ⟨2, 10⟩, ⟨21, 1⟩, ⟨2, 11⟩] ∧ c.post? 0 0 = some 0 ∧ c.post? 0 1 = some 1 ∧
        c.post? 0 2 = some 2 ∧ c.post? 1 0 = some 10 ∧ c.post? 1 1 = some 11 ∧ c.post? 1 2 = some 12 ∧
        ∀ i < c.chips.length, (c.register? i).isSome) := by
    decide +kernel
  obtain ⟨c, built, checked⟩ := Logged.passes_iff.mp passed
  obtain ⟨rises, ticks, two, inputs, wires, dataA, clockA, firstA, dataB, clockB, firstB, kinds⟩ :=
    of_decide_eq_true checked
  have registers : c.AllRegisters := by
    intro chip member
    obtain ⟨i, atChip⟩ := List.mem_iff_getElem?.mp member
    obtain ⟨r, found⟩ := Option.isSome_iff_exists.mp (kinds i (List.getElem?_eq_some_iff.mp atChip).1)
    exact ⟨r, Option.some.inj (atChip.symm.trans (register?_eq_some_iff.mp found))⟩
  have direct : c.Direct := by
    refine ⟨?_, ?_⟩
    · simp only [wires, inputs, List.forall_mem_cons]
      exact ⟨.inr ⟨1, 0, firstB⟩, .inl (by decide), .inr ⟨0, 0, firstA⟩, .inl (by decide), .inr ⟨0, 0, firstA⟩,
        by simp⟩
    · simp only [wires, List.forall_mem_cons]
      exact ⟨⟨0, 0, by omega, dataA⟩, ⟨0, 0, by omega, dataA⟩, ⟨1, 0, by omega, dataB⟩, ⟨0, 1, by omega, clockA⟩,
        ⟨1, 1, by omega, clockB⟩, by simp⟩
  obtain ⟨edges, rest, still⟩ := performAll_comes_to_rest built registers direct
  have atFive := still 5 (by omega)
  have atNine := still 9 (by omega)
  rw [ticks] at atFive atNine
  exact ⟨c, rest, built, rises, edges 9 1, atFive, atNine⟩

end LogicBoard.Circuit
