import LogicBoard.Proofs.ClockCycles
import LogicBoard.Proofs.StepLog

namespace LogicBoard

/-- The data level and the register that a message of a shift tells. -/
def Event.shift? : Event → Option (Level × BitVec 8)
  | shiftIn data register => some (data, register)
  | _ => none

namespace Circuit
variable {c d : Circuit} {past : List Circuit}

/-- What the step from a circuit shifts into the chip at a place, and what the register is then. It shifts when its
clock is high after a low level in the step before, or for the first time. -/
def shiftAt? (start : Circuit) (earlier : List Circuit) (i : Nat) : Option (Level × BitVec 8) :=
  match start.sample? i, start.ticked.register? i with
  | some sample, some after =>
    if sample.IsEdge (samplesOf i earlier) then some (sample.data, after.register) else none
  | _, _ => none

/-- The shifts of the step from a circuit, in the order of the chips. -/
def shifts (start : Circuit) (earlier : List Circuit) : List (Level × BitVec 8) :=
  (List.range start.chips.length).filterMap (start.shiftAt? earlier)

def stepEvents (start : Circuit) (earlier : List Circuit) : List Event :=
  (start.shifts earlier).map Event.ofShift ++
    match start.step.result with
    | .ok next => [.ticked next.name next.ticks]
    | .error _ => []

/-- The line for a shift: the data level, and the eight digits of the register after it. -/
def shiftLine (shift : Level × BitVec 8) : String :=
  "TRACE shift in " ++ (if shift.1 = .high then "1" else "0") ++ " -> " ++
    String.ofList ((List.range 8).map fun k => if shift.2.getMsbD k then '1' else '0')

/-- The lines of a step: one for each shift, then one with the count of ticks unless the step has failed. -/
def stepLines (start : Circuit) (earlier : List Circuit) : List String :=
  (start.shifts earlier).map shiftLine ++
    match start.step.result with
    | .ok next => ["TRACE " ++ next.name ++ ": tick " ++ toString next.ticks]
    | .error _ => []

/-- What the steps of a run tell one after another, each with the starts of all steps before it, latest first. -/
def stepwise {α : Type} (tell : Circuit → List Circuit → List α) (past : List Circuit) : List Circuit → List α
  | [] => []
  | start :: earlier => stepwise tell past earlier ++ tell start (earlier ++ past)

section
variable {α β : Type} {tell other : Circuit → List Circuit → List α}

theorem stepwise_append (tell : Circuit → List Circuit → List α) (past later earlier : List Circuit) :
    stepwise tell past (later ++ earlier) = stepwise tell past earlier ++ stepwise tell (earlier ++ past) later := by
  induction later with
  | nil => exact (List.append_nil _).symm
  | cons start later ih => rw [List.cons_append, stepwise, stepwise, ih, List.append_assoc, List.append_assoc]

theorem filterMap_stepwise (f : α → Option β) (starts : List Circuit) :
    (stepwise tell past starts).filterMap f =
      stepwise (fun start earlier => (tell start earlier).filterMap f) past starts := by
  induction starts with
  | nil => rfl
  | cons start earlier ih => rw [stepwise, stepwise, List.filterMap_append, ih]

theorem stepwise_congr {starts : List Circuit} (same : ∀ start ∈ starts, tell start = other start) :
    stepwise tell past starts = stepwise other past starts := by
  induction starts with
  | nil => rfl
  | cons start earlier ih =>
    obtain ⟨here, before⟩ := List.forall_mem_cons.mp same
    rw [stepwise, stepwise, ih before, here]

end

theorem line_ofShift (shift : Level × BitVec 8) : (Event.ofShift shift).line = shiftLine shift := by
  obtain ⟨data, register⟩ := shift
  have written : (Event.ofShift (data, register)).line = "TRACE shift in " ++ (if data = .high then "1" else "0") ++
      " -> " ++ String.ofList (Text.binary 8 register.toNat) := by
    cases data <;> rfl
  exact written.trans (congrArg (fun digits => _ ++ String.ofList digits) (Text.binary_toNat register))

theorem map_line_stepEvents (start : Circuit) (earlier : List Circuit) :
    (start.stepEvents earlier).map Event.line = start.stepLines earlier := by
  have shifts : (start.shifts earlier).map (Event.line ∘ Event.ofShift) = (start.shifts earlier).map shiftLine :=
    List.map_congr_left fun shift _ => line_ofShift shift
  rw [stepEvents, stepLines, List.map_append, List.map_map, shifts]
  cases start.step.result <;> rfl

theorem shifts_of_stepEvents (start : Circuit) (earlier : List Circuit) :
    (start.stepEvents earlier).filterMap Event.shift? = start.shifts earlier := by
  have shifts : ((start.shifts earlier).map Event.ofShift).filterMap Event.shift? = start.shifts earlier := by
    rw [List.filterMap_map]
    exact List.filterMap_some
  rw [stepEvents, List.filterMap_append, shifts]
  cases start.step.result <;> exact List.append_nil _

section
variable {i : Nat} {r : ShiftRegister}

theorem shiftAt?_of_register (atChip : c.chips[i]? = some (.register r)) (past : List Circuit) :
    c.shiftAt? past i =
      if (r.sample c.pins).IsEdge (samplesOf i past) then
        some ((r.sample c.pins).data, (r.next (r.sample c.pins)).register)
      else none := by
  have found : c.register? i = some r := register?_eq_some_iff.mpr atChip
  have after : c.ticked.register? i = some (r.next (r.sample c.pins)) :=
    register?_eq_some_iff.mpr (ticked_register atChip)
  simp only [shiftAt?, sample?, found, after, Option.map_some]

theorem shiftAt?_of_none (none : c.register? i = none) (past : List Circuit) : c.shiftAt? past i = .none := by
  simp only [shiftAt?, sample?, none, Option.map_none]

/-- The hidden edge detector agrees with the samples of the past. -/
theorem Recorded.shiftAt?_eq (recorded : c.Recorded past) (i : Nat) :
    c.shiftAt? past i = c.chips[i]?.bind (Chip.shift? c.pins) := by
  cases found : c.register? i with
  | some r =>
    have atChip := register?_eq_some_iff.mp found
    have edge : (r.sample c.pins).IsEdge (samplesOf i past) ↔ r.Rises (r.sample c.pins) := by
      rw [Sample.isEdge_iff_phaseAfter, ← (recorded.records i r atChip).phase]
      rfl
    rw [shiftAt?_of_register atChip, atChip]
    exact if_congr edge rfl rfl
  | none =>
    rw [shiftAt?_of_none found]
    match atChip : c.chips[i]? with
    | none => rfl
    | some (.device d) => rfl
    | some (.register r) => exact absurd (register?_eq_some_iff.mpr atChip) (by simp [found])

theorem Recorded.filterMap_shift? (recorded : c.Recorded past) :
    c.chips.filterMap (Chip.shift? c.pins) = c.shifts past := by
  have places : c.chips.map some = (List.range c.chips.length).map fun i => c.chips[i]? :=
    List.ext_getElem? fun i => by grind
  calc c.chips.filterMap (Chip.shift? c.pins)
      = (c.chips.map some).filterMap fun chip? => chip?.bind (Chip.shift? c.pins) := by
        rw [List.filterMap_map]
        rfl
    _ = (List.range c.chips.length).filterMap fun i => c.chips[i]?.bind (Chip.shift? c.pins) := by
        rw [places, List.filterMap_map]
        rfl
    _ = c.shifts past := List.filterMap_congr fun i _ => (recorded.shiftAt?_eq i).symm

/-- A step adds its shift to the data levels that have been shifted in. -/
theorem risingData_samplesOf_cons (start : Circuit) (earlier : List Circuit) (i : Nat) :
    risingData (samplesOf i (start :: earlier)) =
      ((start.shiftAt? earlier i).map Prod.fst).toList ++ risingData (samplesOf i earlier) := by
  cases found : start.register? i with
  | some r =>
    have atChip := register?_eq_some_iff.mp found
    rw [samplesOf_cons atChip, risingData, shiftAt?_of_register atChip]
    split <;> rfl
  | none =>
    have unread : samplesOf i (start :: earlier) = samplesOf i earlier := by
      rw [samplesOf, List.filterMap_cons, sample?, found]
      rfl
    rw [unread, shiftAt?_of_none found]
    rfl

theorem Recorded.register_of_shiftAt? (recorded : c.Recorded past) {shift : Level × BitVec 8}
    (told : c.shiftAt? past i = some shift) : shift.2 = packing 8 (risingData (samplesOf i (c :: past))) := by
  cases found : c.register? i with
  | some r =>
    have atChip := register?_eq_some_iff.mp found
    rw [shiftAt?_of_register atChip] at told
    split at told
    · cases told
      exact (recorded.ticked.records i _ (ticked_register atChip)).register
    · cases told
  | none =>
    rw [shiftAt?_of_none found] at told
    cases told

end

/-- The shifts of the chip at a place in the steps of a run. -/
def shiftsAt (i : Nat) (past starts : List Circuit) : List (Level × BitVec 8) :=
  stepwise (fun start earlier => (start.shiftAt? earlier i).toList) past starts

theorem shiftsAt_cons (i : Nat) (past : List Circuit) (start : Circuit) (earlier : List Circuit) :
    shiftsAt i past (start :: earlier) =
      shiftsAt i past earlier ++ (start.shiftAt? (earlier ++ past) i).toList := rfl

/-- In the course of a run the data levels of the shifts come in front of those of the past. -/
theorem risingData_append (i : Nat) (past starts : List Circuit) :
    risingData (samplesOf i (starts ++ past)) =
      ((shiftsAt i past starts).map Prod.fst).reverse ++ risingData (samplesOf i past) := by
  induction starts with
  | nil => rfl
  | cons start earlier ih =>
    rw [List.cons_append, risingData_samplesOf_cons, ih, shiftsAt_cons]
    cases start.shiftAt? (earlier ++ past) i <;> simp

/-- The register of the last shift is the one after the run. -/
theorem getLast?_shiftsAt (i : Nat) {starts : List Circuit}
    (recorded : ∀ start earlier, start :: earlier <:+ starts ++ past → start.Recorded earlier) :
    ((shiftsAt i past starts).getLast?.map Prod.snd).getD (packing 8 (risingData (samplesOf i past))) =
      packing 8 (risingData (samplesOf i (starts ++ past))) := by
  induction starts with
  | nil => rfl
  | cons start earlier ih =>
    have before := ih fun other rest suffix => recorded other rest (suffix.trans (List.suffix_cons _ _))
    rw [shiftsAt_cons]
    cases told : start.shiftAt? (earlier ++ past) i with
    | none =>
      -- Without a shift the data levels are as they were, so the last shift is one of the earlier ones.
      rw [List.cons_append, risingData_samplesOf_cons, told, Option.toList_none, List.append_nil, before]
      rfl
    | some shift =>
      rw [Option.toList_some, List.getLast?_append, List.getLast?_singleton]
      exact (recorded start _ List.suffix_rfl).register_of_shiftAt? told

section
variable {admitted : Chip → Prop} {settable : PinId → Prop}

/-- Each step of the past has started from a circuit on the way, with the starts before it. -/
theorem Reach.start (reach : Reach admitted settable c past) {start : Circuit} {earlier : List Circuit}
    (suffix : start :: earlier <:+ past) : Reach admitted settable start earlier := by
  induction reach with
  | new name => simp at suffix
  | addChip _ _ _ ih => exact ih suffix
  | addInput label _ ih => exact ih suffix
  | connect _ _ ih => exact ih suffix
  | setInput level _ _ ih => exact ih suffix
  | step reach _ ih =>
    rcases List.suffix_cons_iff.mp suffix with same | earlier
    · cases same
      exact reach
    · exact ih earlier

end

section
variable {operation : Operation} {operations : List Operation} (reach : Reach Chip.Fresh (fun _ => True) c past)
include reach

theorem Reach.step_log : c.step.log = c.stepEvents past := by
  rw [reach.wellFormed.step_log, reach.recorded.filterMap_shift?]
  rfl

theorem Reach.run_log (ticks : Nat) : (Circuit.run ticks c).log = stepwise stepEvents past (startsOfRun ticks c) := by
  induction ticks generalizing c past with
  | zero => rfl
  | succ ticks ih =>
    rw [Circuit.run, startsOfRun]
    cases stepped : c.step.result with
    | ok next =>
      -- The first start stands last in the list, and is in the past of all the others.
      rw [Logged.log_bind_of_ok stepped, reach.step_log, ih (reach.step stepped), stepwise_append]
      rfl
    | error failure =>
      rw [Logged.log_bind_of_error stepped, reach.step_log]
      rfl

theorem Reach.clockIn_log (data clock : PinId) (bit : Level) :
    (c.clockIn data clock bit).log = stepwise stepEvents past (c.startsOf (.clockIn data clock bit)) := by
  have first : Reach Chip.Fresh (fun _ => True) ((c.setInput data bit).setInput clock .high) past :=
    (reach.setInput bit trivial).setInput .high trivial
  rw [Circuit.clockIn, startsOf]
  cases stepped : ((c.setInput data bit).setInput clock .high).step.result with
  | ok second =>
    have low : Reach Chip.Fresh (fun _ => True) (second.setInput clock .low) (_ :: past) :=
      (first.step stepped).setInput .low trivial
    rw [Logged.log_bind_of_ok stepped, first.step_log, low.step_log]
    rfl
  | error failure =>
    rw [Logged.log_bind_of_error stepped, first.step_log]
    rfl

theorem Reach.perform_log (drives : operation.Drives) :
    (c.perform operation).log = stepwise stepEvents past (c.startsOf operation) := by
  cases operation with
  | addChip | addInput | connect => exact drives.elim
  | setInput id level => rfl
  | step => exact reach.step_log
  | run ticks => exact reach.run_log ticks
  | clockIn data clock bit => exact reach.clockIn_log data clock bit

/-- Whether or not a run comes to a result, its messages are those of its steps, one after another. -/
theorem Reach.performAll_log (drives : ∀ operation ∈ operations, operation.Drives) :
    (Circuit.performAll operations c).log = stepwise stepEvents past (starts operations c) := by
  induction operations generalizing c past with
  | nil => rfl
  | cons operation operations ih =>
    obtain ⟨here, later⟩ := List.forall_mem_cons.mp drives
    rw [Circuit.performAll, starts]
    cases performed : (c.perform operation).result with
    | ok next =>
      have added : ∀ chip, operation = .addChip chip → chip.Fresh := by
        rintro chip rfl
        exact here.elim
      have now := reach.perform added (fun _ _ => trivial) performed
      rw [Logged.log_bind_of_ok performed, reach.perform_log here, ih now later, stepwise_append]
    | error failure => rw [Logged.log_bind_of_error performed, reach.perform_log here]

end

theorem foldl_after_single {operations : List Operation} (drives : ∀ operation ∈ operations, operation.Drives)
    {r : ShiftRegister} (single : c.chips = [.register r]) :
    ∃ r, (operations.foldl after c).chips = [.register r] := by
  refine foldl_after_of_drives (fun d => ∃ r, d.chips = [.register r]) drives ?_ ?_ ⟨r, single⟩
  · exact fun d id level kept => kept
  · rintro d ⟨r, single⟩
    exact ⟨_, congrArg (List.map _) single⟩

theorem shifts_of_length_le_one (single : c.chips.length ≤ 1) (past : List Circuit) :
    c.shifts past = (c.shiftAt? past 0).toList := by
  match chips : c.chips, single with
  | [], _ =>
    have unread : c.register? 0 = none := by rw [register?, chips]; rfl
    rw [shifts, chips, shiftAt?_of_none unread]
    rfl
  | [chip], _ =>
    rw [shifts, chips]
    cases told : c.shiftAt? past 0 <;> simp [told]

theorem Reach.shifts_of_performAll (reach : Reach Chip.Fresh (fun _ => True) c past) {operations : List Operation}
    (drives : ∀ operation ∈ operations, operation.Drives)
    (few : ∀ start ∈ starts operations c, start.chips.length ≤ 1) :
    (Circuit.performAll operations c).log.filterMap Event.shift? = shiftsAt 0 past (starts operations c) := by
  rw [reach.performAll_log drives, filterMap_stepwise]
  refine stepwise_congr fun start member => funext fun earlier => ?_
  rw [shifts_of_stepEvents, shifts_of_length_le_one (few start member)]

/-- The messages of a run that drives a circuit are, step by step, one for each chip whose clock rises, in the order of
the chips, and one with the count of ticks. For a circuit of one register they tell what has been shifted into it: the
register after the run comes of shifting the levels of the messages into the one before, and is that of the last one. -/
theorem performAll_run_log {name : String} {operations : List Operation}
    (fresh : ∀ chip, .addChip chip ∈ operations → chip.Fresh)
    (built : (performAll operations { name }).result = .ok c) {driving : List Operation}
    (drives : ∀ operation ∈ driving, operation.Drives) :
    (performAll driving c).log.map Event.line = stepwise stepLines (starts operations { name }) (starts driving c) ∧
    ∀ r d, c.chips = [.register r] → (performAll driving c).result = .ok d →
      ∃ after shifts, d.chips = [.register after] ∧ (performAll driving c).log.filterMap Event.shift? = shifts ∧
        risingData (samplesOf 0 (starts driving c ++ starts operations { name })) =
          (shifts.map Prod.fst).reverse ++ risingData (samplesOf 0 (starts operations { name })) ∧
        after.register = (shifts.map Prod.fst).foldl ShiftRegister.shiftIn r.register ∧
        after.register = (shifts.getLast?.map Prod.snd).getD r.register := by
  have reach := Reach.of_performAll fresh built
  generalize starts operations { name } = past at reach ⊢
  refine ⟨?_, fun r d single driven => ?_⟩
  · rw [reach.performAll_log drives, ← List.filterMap_eq_map, filterMap_stepwise]
    refine stepwise_congr fun start _ => funext fun earlier => ?_
    rw [List.filterMap_eq_map, map_line_stepEvents]
  · have ended := reach.performAll (fun chip member => (drives _ member).elim) (fun _ _ _ _ => trivial) driven
    obtain ⟨after, one⟩ : ∃ after, d.chips = [.register after] := by
      obtain ⟨wellFormed, counted⟩ := WellFormed.of_performAll built
      obtain ⟨rfl, _⟩ := wellFormed.eq_foldl_after counted driven
      exact foldl_after_single drives single
    -- No step has started with more chips than there are in the end.
    have few : ∀ start ∈ starts driving c, start.chips.length ≤ 1 := by
      intro start member
      have before := ended.recorded.before start (List.mem_append_left _ member)
      rwa [one] at before
    have told := reach.shifts_of_performAll drives few
    have held := (reach.recorded.records 0 r (by rw [single]; rfl)).register
    have holds := (ended.recorded.records 0 after (by rw [one]; rfl)).register
    have grown := risingData_append 0 past (starts driving c)
    refine ⟨after, _, one, told, grown, ?_, ?_⟩
    · rw [held, ShiftRegister.foldl_shiftIn_packing, ← grown, holds]
    · rw [held, getLast?_shiftsAt 0 fun start earlier suffix => (ended.start suffix).recorded, holds]

/-- One register that has had a clock cycle, and a run in which its clock stays high for three ticks. -/
def onceClocked : List Operation :=
  [.addChip (.register { outline := .atPoint 0 0 }), .addInput "DATA", .addInput "CLK", .connect 10 0, .connect 11 1,
    .clockIn 10 11 .high]

def clockHeld : List Operation :=
  [.setInput 10 .low, .setInput 11 .high, .run 2, .setInput 10 .high, .step, .clockIn 10 11 .high, .clockIn 10 11 .high]

def clockHeldLines : List String :=
  ["TRACE shift in 0 -> 01000000", "TRACE once: tick 3", "TRACE once: tick 4", "TRACE once: tick 5",
    "TRACE once: tick 6", "TRACE once: tick 7", "TRACE shift in 1 -> 10100000", "TRACE once: tick 8",
    "TRACE once: tick 9"]

theorem onceClocked_run_log : ∃ c d after, (performAll onceClocked { name := "once" }).result = .ok c ∧
    (performAll clockHeld c).result = .ok d ∧
    (performAll clockHeld c).log.map Event.line = clockHeldLines ∧ d.chips = [.register after] ∧
    after.register = 160 := by
  have fresh : ∀ chip, .addChip chip ∈ onceClocked → chip.Fresh := by
    intro chip member
    simp only [onceClocked, List.mem_cons, Operation.addChip.injEq, reduceCtorEq, List.not_mem_nil,
      or_false] at member
    subst member
    exact .place (ShiftRegister.place_result 0 0)
  have drives : ∀ operation ∈ clockHeld, operation.Drives := by simp [clockHeld, Operation.Drives]
  have passed : (performAll onceClocked { name := "once" }).passes fun c =>
      (performAll clockHeld c).passes (fun _ => true) &&
      decide (c.chips.length = 1) && ((c.register? 0).any fun r => decide (r.register = 128)) &&
      decide (stepwise stepLines (starts onceClocked { name := "once" }) (starts clockHeld c) = clockHeldLines) &&
      decide ((performAll clockHeld c).log.filterMap Event.shift? = [(.low, 64), (.high, 160)]) := by
    decide +kernel
  obtain ⟨c, built, checked⟩ := Logged.passes_iff.mp passed
  simp only [Bool.and_eq_true, decide_eq_true_eq] at checked
  obtain ⟨⟨⟨⟨atEnd, length⟩, atRegister⟩, lines⟩, shifts⟩ := checked
  obtain ⟨d, driven, _⟩ := Logged.passes_iff.mp atEnd
  obtain ⟨r, found, register⟩ := (Option.any_eq_true _ _).mp atRegister
  have single : c.chips = [.register r] := by
    have atChip := register?_eq_some_iff.mp found
    obtain ⟨chip, one⟩ := List.length_eq_one_iff.mp length
    rw [one] at atChip ⊢
    rw [Option.some.inj atChip]
  obtain ⟨logged, replayed⟩ := performAll_run_log fresh built drives
  obtain ⟨after, _, one, told, _, replay, _⟩ := replayed r d single driven
  refine ⟨c, d, after, built, driven, logged.trans lines, one, ?_⟩
  rw [replay, ← told, shifts, of_decide_eq_true register]
  decide

end Circuit

end LogicBoard
