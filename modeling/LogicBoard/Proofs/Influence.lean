import Mathlib.Logic.Relation
import LogicBoard.Proofs.DrivenRuns

namespace LogicBoard

namespace Operation

/-- The same operation, or one that differs in the level that it gives to the pin. -/
inductive AlikeBut (p : PinId) : Operation → Operation → Prop
  | same {operation : Operation} (drives : operation.Drives) : AlikeBut p operation operation
  | setInput (a b : Level) : AlikeBut p (.setInput p a) (.setInput p b)
  | clockIn (clock : PinId) (a b : Level) : AlikeBut p (.clockIn p clock a) (.clockIn p clock b)

theorem AlikeBut.drives {p : PinId} {first second : Operation} (alike : AlikeBut p first second) : first.Drives := by
  cases alike with
  | same drives => exact drives
  | setInput | clockIn => trivial

theorem AlikeBut.counts {p : PinId} {first second : Operation} (alike : AlikeBut p first second) :
    first.ticks = second.ticks ∧ first.sources = second.sources := by
  cases alike <;> exact ⟨rfl, rfl⟩

theorem AlikeBut.drives_all {p : PinId} {first second : List Operation}
    (alike : List.Forall₂ (AlikeBut p) first second) :
    ∀ operation ∈ first, operation.Drives := by
  induction alike with
  | nil => simp
  | cons here _ ih => exact List.forall_mem_cons.mpr ⟨here.drives, ih⟩

theorem AlikeBut.counts_all {p : PinId} {first second : List Operation}
    (alike : List.Forall₂ (AlikeBut p) first second) :
    first.map ticks = second.map ticks ∧ first.map sources = second.map sources := by
  induction alike with
  | nil => exact ⟨rfl, rfl⟩
  | cons here _ ih =>
    obtain ⟨ticks, sources⟩ := here.counts
    exact ⟨List.cons_eq_cons.mpr ⟨ticks, ih.1⟩, List.cons_eq_cons.mpr ⟨sources, ih.2⟩⟩

end Operation

namespace Circuit
variable {c d : Circuit} {tainted : PinId → Prop}

/-- The level of the first pin can pass on to the second one: over a wire, or from the data or clock pin of a chip to
one of its outputs. -/
def Feeds (c : Circuit) (a b : PinId) : Prop :=
  (∃ wire ∈ c.wires, wire.source = a ∧ wire.target = b) ∨
    ∃ i m k, m < 2 ∧ c.post? i m = some a ∧ c.post? i (2 + k) = some b

/-- There is a path along which the level of the first pin can pass on to the second one. -/
def Influences (c : Circuit) : PinId → PinId → Prop := Relation.TransGen c.Feeds

/-- Two circuits of registers with the same pins and wires that differ at tainted pins only, and in chips with a tainted
data or clock pin. Taint goes on wherever levels can. -/
structure Agree (tainted : PinId → Prop) (c d : Circuit) : Prop where
  wellFormed : c.WellFormed ∧ d.WellFormed
  registers : c.AllRegisters ∧ d.AllRegisters
  size : d.pins.size = c.pins.size
  posts : d.post? = c.post?
  wires : d.wires = c.wires
  spreads : ∀ a b, c.Feeds a b → tainted a → tainted b
  levels : ∀ id, ¬tainted id → d.pins.level id = c.pins.level id
  chips : ∀ i, (∀ m id, m < 2 → c.post? i m = some id → ¬tainted id) → d.chips[i]? = c.chips[i]?

theorem Agree.refl (wellFormed : c.WellFormed) (registers : c.AllRegisters)
    (spreads : ∀ a b, c.Feeds a b → tainted a → tainted b) : Agree tainted c c :=
  ⟨⟨wellFormed, wellFormed⟩, ⟨registers, registers⟩, rfl, rfl, rfl, spreads, fun _ _ => rfl, fun _ _ => rfl⟩

/-- A pin without taint takes its level from a pin without taint. -/
theorem not_tainted_trace {wires : List Wire} (spreads : ∀ wire ∈ wires, tainted wire.source → tainted wire.target)
    {id : PinId} (clean : ¬tainted id) : ¬tainted (trace wires id) := by
  induction wires with
  | nil => exact clean
  | cons wire wires ih =>
    have later := ih fun other member => spreads other (List.mem_cons_of_mem _ member)
    rw [trace_cons]
    split
    · rename_i hit
      exact fun source => later (hit ▸ spreads wire List.mem_cons_self source)
    · exact later

theorem sample_eq_of_levels {r : ShiftRegister} {a b : PinTable}
    (same : ∀ m id, m < 2 → r.outline.handles[m]? = some id → b.level id = a.level id) :
    r.sample b = r.sample a := by
  have input (m : Nat) (below : m < 2) : (r.outline.handles[m]?).map b.level = (r.outline.handles[m]?).map a.level := by
    cases atPin : r.outline.handles[m]? with
    | none => rfl
    | some id => exact congrArg some (same m id below atPin)
  rw [ShiftRegister.sample, ShiftRegister.dataPin?, ShiftRegister.clockPin?, input 0 (by omega), input 1 (by omega)]
  rfl

namespace Agree

theorem trace_clean (agree : Agree tainted c d) {id : PinId} (clean : ¬tainted id) : ¬tainted (trace c.wires id) :=
  not_tainted_trace (fun wire member => agree.spreads _ _ (.inl ⟨wire, member, rfl, rfl⟩)) clean

/-- A chip whose data and clock pins are not tainted is the same register in both circuits and reads the same there. -/
theorem register_at (agree : Agree tainted c d) {i n : Nat} {id : PinId} (atPost : c.post? i n = some id)
    (clean : ∀ m id, m < 2 → c.post? i m = some id → ¬tainted id) :
    ∃ r, c.chips[i]? = some (.register r) ∧ d.chips[i]? = some (.register r) ∧ r.outline.handles[n]? = some id ∧
      r.sample d.pins = r.sample c.pins := by
  obtain ⟨r, atChip, atPin⟩ := agree.registers.1.register_at atPost
  refine ⟨r, atChip, (agree.chips i clean).trans atChip, atPin, sample_eq_of_levels fun m other below atInput => ?_⟩
  exact agree.levels other (clean m other below (post?_eq_some_iff.mpr ⟨_, atChip, atInput⟩))

/-- The chips leave the same levels at pins without taint. -/
theorem level_worked (agree : Agree tainted c d) {id : PinId} (clean : ¬tainted id) :
    d.worked.level id = c.worked.level id := by
  by_cases owned : ∃ i n, c.post? i n = some id
  · obtain ⟨i, n, atC⟩ := owned
    have atD : d.post? i n = some id := by rw [agree.posts, atC]
    by_cases output : 2 ≤ n
    · have untainted : ∀ m other, m < 2 → c.post? i m = some other → ¬tainted other := by
        intro m other below atInput taint
        have fed : c.post? i (2 + (n - 2)) = some id := by rw [Nat.add_sub_cancel' output, atC]
        exact clean (agree.spreads other id (.inr ⟨i, m, n - 2, below, atInput, fed⟩) taint)
      obtain ⟨r, chipC, chipD, atPin, sample⟩ := agree.register_at atC untainted
      rw [agree.wellFormed.1.level_worked_post chipC atPin, agree.wellFormed.2.level_worked_post chipD atPin,
        sample, agree.levels id clean]
    · obtain ⟨r, chipC, pinC⟩ := agree.registers.1.register_at atC
      obtain ⟨s, chipD, pinD⟩ := agree.registers.2.register_at atD
      rw [agree.wellFormed.1.level_worked_post chipC pinC, agree.wellFormed.2.level_worked_post chipD pinD,
        if_neg fun both => output both.2, if_neg fun both => output both.2]
      exact agree.levels id clean
  · have none : ∀ i n, c.post? i n ≠ some id := fun i n atPost => owned ⟨i, n, atPost⟩
    rw [level_worked_foreign none, level_worked_foreign (agree.posts ▸ none)]
    exact agree.levels id clean

theorem ticked (agree : Agree tainted c d) : Agree tainted c.ticked d.ticked where
  wellFormed := ⟨agree.wellFormed.1.ticked, agree.wellFormed.2.ticked⟩
  registers := ⟨agree.registers.1.ticked, agree.registers.2.ticked⟩
  size := by
    rw [Circuit.ticked, Circuit.ticked, PinTable.size_settle, PinTable.size_settle, PinTable.size_modifyAll,
      PinTable.size_modifyAll]
    exact agree.size
  posts := by rw [ticked_post?, ticked_post?, agree.posts]
  wires := agree.wires
  spreads := by
    rw [show c.ticked.Feeds = c.Feeds from funext₂ fun a b => by rw [Feeds, Feeds, ticked_post?]; rfl]
    exact agree.spreads
  levels := by
    intro id clean
    rw [agree.wellFormed.1.level_ticked, agree.wellFormed.2.level_ticked, agree.wires]
    exact agree.level_worked (agree.trace_clean clean)
  chips := by
    intro i clean
    rw [ticked_post?] at clean
    cases atC : c.chips[i]? with
    | none =>
      have atD := (agree.chips i clean).trans atC
      rw [Circuit.ticked, Circuit.ticked, List.getElem?_map, List.getElem?_map, atC, atD]
      rfl
    | some chip =>
      obtain ⟨r, rfl⟩ := agree.registers.1 chip (List.mem_of_getElem? atC)
      have sample : r.sample d.pins = r.sample c.pins := sample_eq_of_levels fun m id below atPin =>
        agree.levels id (clean m id below (post?_eq_some_iff.mpr ⟨_, atC, atPin⟩))
      rw [ticked_register atC, ticked_register ((agree.chips i clean).trans atC), sample]

theorem iterate_ticked (agree : Agree tainted c d) (count : Nat) :
    Agree tainted (Circuit.ticked^[count] c) (Circuit.ticked^[count] d) := by
  induction count with
  | zero => exact agree
  | succ count ih =>
    rw [Function.iterate_succ_apply', Function.iterate_succ_apply']
    exact ih.ticked

/-- Only at a tainted pin may the levels differ that are given to it. -/
theorem setInput (agree : Agree tainted c d) {set : PinId} {a b : Level} (alike : a = b ∨ tainted set) :
    Agree tainted (c.setInput set a) (d.setInput set b) where
  wellFormed := ⟨agree.wellFormed.1.setInput set a, agree.wellFormed.2.setInput set b⟩
  registers := agree.registers
  size := by
    rw [Circuit.setInput, Circuit.setInput, PinTable.size_settle, PinTable.size_settle, PinTable.size_setLevel,
      PinTable.size_setLevel]
    exact agree.size
  posts := agree.posts
  wires := agree.wires
  spreads := agree.spreads
  levels := by
    intro id clean
    have origin := agree.trace_clean clean
    rw [agree.wellFormed.1.level_setInput, agree.wellFormed.2.level_setInput, agree.wires, PinTable.level_setLevel,
      PinTable.level_setLevel, agree.size, agree.levels _ origin]
    rcases alike with rfl | taint
    · rfl
    · have other : set ≠ trace c.wires id := fun same => origin (same ▸ taint)
      rw [if_neg fun both => other both.1, if_neg fun both => other both.1]
  chips := agree.chips

theorem after (agree : Agree tainted c d) {p : PinId} (taint : tainted p) {first second : Operation}
    (alike : first.AlikeBut p second) : Agree tainted (c.after first) (d.after second) := by
  have cycle (data clock : PinId) {a b : Level} (same : a = b ∨ tainted data) :
      Agree tainted (c.after (.clockIn data clock a)) (d.after (.clockIn data clock b)) :=
    (((agree.setInput same).setInput (.inl rfl)).ticked.setInput (.inl rfl)).ticked
  cases alike with
  | same drives =>
    cases first with
    | addChip | addInput | connect => exact drives.elim
    | setInput id level => exact agree.setInput (.inl rfl)
    | step => exact agree.ticked
    | run ticks => exact agree.iterate_ticked ticks
    | clockIn data clock bit => exact cycle data clock (.inl rfl)
  | setInput a b => exact agree.setInput (.inr taint)
  | clockIn clock a b => exact cycle p clock (.inr taint)

theorem foldl_after (agree : Agree tainted c d) {p : PinId} (taint : tainted p) {first second : List Operation}
    (alike : List.Forall₂ (Operation.AlikeBut p) first second) :
    Agree tainted (first.foldl Circuit.after c) (second.foldl Circuit.after d) := by
  induction alike generalizing c d with
  | nil => exact agree
  | cons here _ ih => exact ih (agree.after taint here)

end Agree

/-- Two runs from one circuit of registers that differ only in the levels given to one pin come to a result both or
neither. Afterwards all other pins that the pin does not influence are at the same levels, and so are the chips the same
whose data and clock pins the pin is not and does not influence. -/
theorem performAll_noninterference {name : String} {operations first second : List Operation} {c : Circuit} {p : PinId}
    (built : (performAll operations { name }).result = .ok c) (registers : c.AllRegisters)
    (alike : List.Forall₂ (Operation.AlikeBut p) first second) :
    ((performAll first c).result = .error (.overflow .add) ∧ (performAll second c).result = .error (.overflow .add)) ∨
    ∃ d e, (performAll first c).result = .ok d ∧ (performAll second c).result = .ok e ∧
      (∀ q, q ≠ p → ¬c.Influences p q → d.pins.level q = e.pins.level q) ∧
      ∀ i, (∀ m id, m < 2 → c.post? i m = some id → id ≠ p ∧ ¬c.Influences p id) → d.chips[i]? = e.chips[i]? := by
  obtain ⟨rfl, counted⟩ := (WellFormed.new name).eq_foldl_after rfl built
  have wellFormed := (WellFormed.new name).foldl_after operations
  have runFirst := wellFormed.performAll_result counted first
  have runSecond := wellFormed.performAll_result counted second
  obtain ⟨ticks, sources⟩ := Operation.AlikeBut.counts_all alike
  rw [ticks, sources] at runFirst
  generalize operations.foldl Circuit.after { name } = c at *
  split at runFirst
  · rename_i room
    rw [if_pos room] at runSecond
    have spreads : ∀ a b, c.Feeds a b → a = p ∨ c.Influences p a → b = p ∨ c.Influences p b := by
      rintro a b fed (rfl | path)
      · exact .inr (.single fed)
      · exact .inr (path.tail fed)
    have drives := Operation.AlikeBut.drives_all alike
    have agree := (Agree.refl wellFormed registers spreads).foldl_after (.inl rfl) alike
    refine .inr ⟨_, _, runFirst, runSecond, fun q other free => ?_, fun i apart => ?_⟩
    · exact (agree.levels q (not_or.mpr ⟨other, free⟩)).symm
    · refine (agree.chips i fun m id below atPost => ?_).symm
      rw [foldl_after_post? drives] at atPost
      exact not_or.mpr (apart m id below atPost)
  · rename_i full
    rw [if_neg full] at runSecond
    exact .inl ⟨runFirst, runSecond⟩

/-- Two registers with one clock and a data input each. -/
def sharedClock : List Operation :=
  [.addChip (.register { outline := .atPoint 0 0 }), .addChip (.register { outline := .atPoint 0 4 }), .addInput "A",
    .addInput "B", .addInput "CLK", .connect 20 0, .connect 21 10, .connect 22 1, .connect 22 11]

/-- Both registers take a bit, the first one the given level. -/
def sharedClockOn (level : Level) : List Operation :=
  [.setInput 21 .high, .clockIn 20 22 level, .setInput 20 level, .run 2]

theorem sharedClock_noninterference : ∃ c d e, (performAll sharedClock { name := "shared" }).result = .ok c ∧
    (performAll (sharedClockOn .low) c).result = .ok d ∧ (performAll (sharedClockOn .high) c).result = .ok e ∧
    d.pins.level 2 ≠ e.pins.level 2 ∧ d.pins.level 12 = e.pins.level 12 ∧ d.chips[1]? = e.chips[1]? := by
  obtain ⟨c, r, s, built, chips, first, second, wires⟩ : ∃ c r s,
      (performAll sharedClock { name := "shared" }).result = .ok c ∧ c.chips = [.register r, .register s] ∧
      r.outline.handles = List.range' 0 10 ∧ s.outline.handles = List.range' 10 10 ∧
      c.wires = [⟨20, 0⟩, ⟨21, 10⟩, ⟨22, 1⟩, ⟨22, 11⟩] := ⟨_, _, _, rfl, rfl, rfl, rfl, rfl⟩
  obtain ⟨d, runLow, atLow⟩ : ∃ d, (performAll (sharedClockOn .low) c).result = .ok d ∧ d.pins.level 2 = .low := by
    cases built
    exact ⟨_, rfl, rfl⟩
  obtain ⟨e, runHigh, atHigh⟩ : ∃ e, (performAll (sharedClockOn .high) c).result = .ok e ∧ e.pins.level 2 = .high := by
    cases built
    exact ⟨_, rfl, rfl⟩
  have registers : c.AllRegisters := by simp [AllRegisters, chips]
  have alike : List.Forall₂ (Operation.AlikeBut 20) (sharedClockOn .low) (sharedClockOn .high) :=
    .cons (.same trivial) (.cons (.clockIn 22 .low .high) (.cons (.setInput .low .high) (.cons (.same trivial) .nil)))
  -- Whatever the first data input influences lies in the first register.
  have fed : ∀ a b : Nat, a = 20 ∨ a < 10 → c.Feeds a b → b < 10 := by
    rintro a b near (⟨wire, member, rfl, rfl⟩ | ⟨i, m, k, below, atInput, atOutput⟩)
    · simp only [wires, List.mem_cons, List.not_mem_nil, or_false] at member
      rcases member with rfl | rfl | rfl | rfl <;> dsimp only at near ⊢ <;> omega
    · simp only [post?, chips] at atInput atOutput
      rcases i with _ | _ | i
      · have output := List.mem_of_getElem? (show (List.range' 0 10)[2 + k]? = some b from first ▸ atOutput)
        exact (List.mem_range'_1.mp output).2
      · have input : (List.range' 10 10)[m]? = some a := second ▸ atInput
        rw [List.getElem?_range' (by omega), Option.some.injEq] at input
        omega
      · simp at atInput
  have reach : ∀ q, c.Influences 20 q → q < 10 := by
    intro q path
    induction path with
    | single step => exact fed _ _ (.inl rfl) step
    | tail _ step ih => exact fed _ _ (.inr ih) step
  rcases performAll_noninterference built registers alike with ⟨failed, _⟩ | ⟨_, _, ranLow, ranHigh, levels, same⟩
  · rw [runLow] at failed
    cases failed
  · rw [runLow] at ranLow
    rw [runHigh] at ranHigh
    cases ranLow
    cases ranHigh
    refine ⟨c, d, e, built, runLow, runHigh, ?_, levels 12 (by decide) ?_, same 1 fun m (id : Nat) below atInput => ?_⟩
    · rw [atLow, atHigh]
      decide
    · exact fun path => absurd (reach 12 path) (by decide)
    · have input : (List.range' 10 10)[m]? = some id := by
        simp only [post?, chips] at atInput
        exact second ▸ atInput
      rw [List.getElem?_range' (by omega), Option.some.injEq] at input
      exact ⟨Nat.ne_of_lt (by omega : id < 20), fun path => Nat.not_lt.mpr (by omega : 10 ≤ id) (reach id path)⟩

end Circuit

end LogicBoard
