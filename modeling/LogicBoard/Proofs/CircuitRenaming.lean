import Mathlib.Logic.Relator
import LogicBoard.Proofs.DrivenRuns

namespace LogicBoard

namespace ShiftRegister

/-- The registers hold the same byte and wait for the same clock level. -/
def SameState (r s : ShiftRegister) : Prop := r.register = s.register ∧ r.phase = s.phase

variable {r s : ShiftRegister}

theorem SameState.next (same : r.SameState s) (sample : Sample) : (r.next sample).SameState (s.next sample) := by
  obtain ⟨register, phase⟩ := same
  cases clock : sample.clock with
  | low => simp only [SameState, ShiftRegister.next, clock, register, and_self]
  | high =>
    cases waiting : s.phase with
    | armed => simp only [SameState, ShiftRegister.next, clock, phase.trans waiting, waiting, register, and_self]
    | latched => simp only [SameState, ShiftRegister.next, clock, phase.trans waiting, waiting, register, and_self]

theorem SameState.rises_iff (same : r.SameState s) (sample : Sample) : r.Rises sample ↔ s.Rises sample := by
  rw [Rises, Rises, same.2]

end ShiftRegister

/-- The operations do the same, the one to pins of one circuit and the other to the corresponding pins of another. -/
inductive Operation.Renamed (twins : PinId → PinId → Prop) : Operation → Operation → Prop
  | setInput {p q : PinId} (level : Level) : twins p q → Renamed twins (.setInput p level) (.setInput q level)
  | clockIn {data clock p q : PinId} (bit : Level) : twins data p → twins clock q →
      Renamed twins (.clockIn data clock bit) (.clockIn p q bit)
  | step : Renamed twins .step .step
  | run (ticks : Nat) : Renamed twins (.run ticks) (.run ticks)

namespace Circuit

/-- Two circuits of registers that are alike up to the numbers of pins and chips. The relations say which pins and which
chips correspond; pins and chips without a counterpart are left out of account. -/
structure Renamed (twins : PinId → PinId → Prop) (mates : Nat → Nat → Prop) (c d : Circuit) : Prop where
  wellFormed : c.WellFormed ∧ d.WellFormed
  unique : Relator.BiUnique twins
  allocated : ∀ p q, twins p q → p < c.pins.size ∧ q < d.pins.size
  chips : ∀ i j, mates i j →
    ∃ r s, c.chips[i]? = some (.register r) ∧ d.chips[j]? = some (.register s) ∧ r.SameState s
  posts : ∀ i j n p q, mates i j → c.post? i n = some p → d.post? j n = some q → twins p q
  places : ∀ p q, twins p q → (∃ i j n, mates i j ∧ c.post? i n = some p ∧ d.post? j n = some q) ∨
    (∀ i n, c.post? i n ≠ some p) ∧ ∀ j n, d.post? j n ≠ some q
  wires : List.Forall₂ (fun u v : Wire => twins u.source v.source ∧ twins u.target v.target) c.wires d.wires
  levels : ∀ p q, twins p q → c.pins.level p = d.pins.level q
  counters : c.ticks = d.ticks ∧ c.sources = d.sources

/-- Corresponding pins have corresponding origins. -/
theorem twins_trace {twins : PinId → PinId → Prop} (unique : Relator.BiUnique twins) {left right : List Wire}
    (wires : List.Forall₂ (fun u v : Wire => twins u.source v.source ∧ twins u.target v.target) left right)
    {p q : PinId} (twin : twins p q) : twins (trace left p) (trace right q) := by
  induction wires with
  | nil => exact twin
  | @cons u v left right ends _ ih =>
    rw [trace_cons, trace_cons]
    have same : trace left p = u.target ↔ trace right q = v.target := by
      constructor
      · exact fun hit => unique.2 ih (hit ▸ ends.2)
      · exact fun hit => unique.1 ih (hit ▸ ends.2)
    by_cases hit : trace left p = u.target
    · rw [if_pos hit, if_pos (same.mp hit)]
      exact ends.1
    · rw [if_neg hit, if_neg (mt same.mpr hit)]
      exact ih

namespace Renamed
variable {twins : PinId → PinId → Prop} {mates : Nat → Nat → Prop} {c d : Circuit}

/-- Corresponding registers see the same levels at their pins. -/
theorem levels_eq (renamed : Renamed twins mates c d) {i j : Nat} (mated : mates i j) {r s : ShiftRegister}
    (atC : c.chips[i]? = some (.register r)) (atD : d.chips[j]? = some (.register s)) :
    r.outline.handles.map c.pins.level = s.outline.handles.map d.pins.level := by
  have placedC : r.outline.handles.length = 10 := renamed.wellFormed.1.placed _ (List.mem_of_getElem? atC)
  have placedD : s.outline.handles.length = 10 := renamed.wellFormed.2.placed _ (List.mem_of_getElem? atD)
  refine List.ext_getElem (by rw [List.length_map, List.length_map, placedC, placedD]) fun n inC inD => ?_
  rw [List.length_map] at inC inD
  rw [List.getElem_map, List.getElem_map]
  have postC : c.post? i n = some r.outline.handles[n] :=
    post?_eq_some_iff.mpr ⟨_, atC, List.getElem?_eq_getElem inC⟩
  have postD : d.post? j n = some s.outline.handles[n] :=
    post?_eq_some_iff.mpr ⟨_, atD, List.getElem?_eq_getElem inD⟩
  exact renamed.levels _ _ (renamed.posts i j n _ _ mated postC postD)

theorem sample_eq (renamed : Renamed twins mates c d) {i j : Nat} (mated : mates i j) {r s : ShiftRegister}
    (atC : c.chips[i]? = some (.register r)) (atD : d.chips[j]? = some (.register s)) :
    r.sample c.pins = s.sample d.pins := by
  have levels := renamed.levels_eq mated atC atD
  simp only [ShiftRegister.sample, ShiftRegister.dataPin?, ShiftRegister.clockPin?, ← List.getElem?_map, levels]

/-- The chips leave the same levels at corresponding pins. -/
theorem level_worked (renamed : Renamed twins mates c d) {p q : PinId} (twin : twins p q) :
    c.worked.level p = d.worked.level q := by
  rcases renamed.places p q twin with ⟨i, j, n, mated, postC, postD⟩ | ⟨noneC, noneD⟩
  · obtain ⟨r, s, atC, atD, same⟩ := renamed.chips i j mated
    have pinC : r.outline.handles[n]? = some p := by rwa [post?, atC] at postC
    have pinD : s.outline.handles[n]? = some q := by rwa [post?, atD] at postD
    rw [renamed.wellFormed.1.level_worked_post atC pinC, renamed.wellFormed.2.level_worked_post atD pinD,
      renamed.sample_eq mated atC atD, (same.next _).1, renamed.levels p q twin]
    simp only [same.rises_iff]
  · rw [level_worked_foreign noneC, level_worked_foreign noneD]
    exact renamed.levels p q twin

theorem ticked (renamed : Renamed twins mates c d) : Renamed twins mates c.ticked d.ticked where
  wellFormed := ⟨renamed.wellFormed.1.ticked, renamed.wellFormed.2.ticked⟩
  unique := renamed.unique
  allocated := by
    rw [size_ticked, size_ticked]
    exact renamed.allocated
  chips := by
    intro i j mated
    obtain ⟨r, s, atC, atD, same⟩ := renamed.chips i j mated
    refine ⟨_, _, ticked_register atC, ticked_register atD, ?_⟩
    rw [renamed.sample_eq mated atC atD]
    exact same.next _
  posts := by
    rw [ticked_post?, ticked_post?]
    exact renamed.posts
  places := by
    rw [ticked_post?, ticked_post?]
    exact renamed.places
  wires := renamed.wires
  levels := by
    intro p q twin
    rw [renamed.wellFormed.1.level_ticked, renamed.wellFormed.2.level_ticked]
    exact renamed.level_worked (twins_trace renamed.unique renamed.wires twin)
  counters := ⟨congrArg (· + 1) renamed.counters.1, renamed.counters.2⟩

theorem iterate_ticked (renamed : Renamed twins mates c d) (count : Nat) :
    Renamed twins mates (Circuit.ticked^[count] c) (Circuit.ticked^[count] d) := by
  induction count with
  | zero => exact renamed
  | succ count ih =>
    rw [Function.iterate_succ_apply', Function.iterate_succ_apply']
    exact ih.ticked

theorem setInput (renamed : Renamed twins mates c d) {p q : PinId} (twin : twins p q) (level : Level) :
    Renamed twins mates (c.setInput p level) (d.setInput q level) where
  wellFormed := ⟨renamed.wellFormed.1.setInput p level, renamed.wellFormed.2.setInput q level⟩
  unique := renamed.unique
  allocated := by
    rw [size_setInput, size_setInput]
    exact renamed.allocated
  chips := renamed.chips
  posts := renamed.posts
  places := renamed.places
  wires := renamed.wires
  levels := by
    intro other counterpart pair
    have origins := twins_trace renamed.unique renamed.wires pair
    obtain ⟨atC, atD⟩ := renamed.allocated _ _ origins
    have same : p = trace c.wires other ↔ q = trace d.wires counterpart := by
      constructor
      · rintro rfl
        exact renamed.unique.2 twin origins
      · rintro rfl
        exact renamed.unique.1 twin origins
    rw [renamed.wellFormed.1.level_setInput, renamed.wellFormed.2.level_setInput, PinTable.level_setLevel,
      PinTable.level_setLevel, renamed.levels _ _ origins]
    simp only [same, atC, atD, and_true]
  counters := renamed.counters

theorem after (renamed : Renamed twins mates c d) {operation other : Operation} (same : operation.Renamed twins other) :
    Renamed twins mates (c.after operation) (d.after other) := by
  cases same with
  | setInput level twin => exact renamed.setInput twin level
  | clockIn bit atData atClock =>
    exact (((renamed.setInput atData bit).setInput atClock .high).ticked.setInput atClock .low).ticked
  | step => exact renamed.ticked
  | run ticks => exact renamed.iterate_ticked ticks

/-- The counters of both circuits run out at the same time. -/
theorem hasRoom_eq (renamed : Renamed twins mates c d) {operation other : Operation}
    (same : operation.Renamed twins other) :
    c.hasRoom operation.ticks operation.sources = d.hasRoom other.ticks other.sources := by
  rw [hasRoom, hasRoom, renamed.counters.1, renamed.counters.2]
  cases same <;> rfl

end Renamed

end Circuit

end LogicBoard
