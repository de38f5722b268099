import LogicBoard.Proofs.CircuitGrowth
import LogicBoard.Proofs.RegisterHistory

namespace LogicBoard

theorem Device.gate_keeps {α : Type} {view : Pin → α} (steady : ∀ level pin, view (pin.withLevel level) = view pin)
    (p : Placement) (columns rows sourceCount : Nat) (pinout : List Pin) :
    (gate p columns rows sourceCount pinout).Keeps view := by
  intro memory pins k before after atPin reacted
  cases pins with
  | nil => simp at atPin
  | cons first rest =>
    simp only [gate, List.getElem?_map, atPin, Option.map_some, Option.some.injEq] at reacted
    subst reacted
    split
    · exact steady _ before
    · rfl

theorem PinTable.face_setSource (table : PinTable) (id other : PinId) (source : Nat) :
    ((table.setSource id source).get? other).map Pin.face = (table.get? other).map Pin.face := by
  rw [setSource, get?_modify]
  split
  · rw [Option.map_map]
    rfl
  · rfl

theorem Chip.face_bindSources (chip : Chip) (first : Nat) (table : PinTable) (id : PinId) :
    ((chip.bindSources first table).get? id).map Pin.face = (table.get? id).map Pin.face := by
  unfold bindSources
  generalize ((chip.outline.outputs table).take chip.sourceCount).zipIdx first = bound
  induction bound generalizing table with
  | nil => rfl
  | cons entry bound ih => exact (ih (table.setSource entry.1 entry.2)).trans (table.face_setSource ..)

namespace ShiftRegister

/-- The handles of the register follow each other, and the pins behind them are those of its pinout. -/
structure Seated (r : ShiftRegister) (table : PinTable) : Prop where
  consecutive : ∃ first, r.outline.handles = List.range' first 10
  faces : (table.select r.outline.handles).map Pin.face = (pinout 0).map Pin.face

theorem pinout_face (register : BitVec 8) : (pinout register).map Pin.face = (pinout 0).map Pin.face := rfl

variable {r : ShiftRegister} {table : PinTable}

/-- Whatever does not depend on levels and voltage sources can be read off the pinout. -/
theorem Seated.map_select {α : Type} {view : Pin → α} (seated : r.Seated table)
    (faced : ∀ pin, view pin.face = view pin) :
    (table.select r.outline.handles).map view = (pinout 0).map view := by
  have faces := congrArg (List.map view) seated.faces
  simpa only [List.map_map, Function.comp_def, faced] using faces

/-- So can what stands behind each handle. -/
theorem Seated.map_get? {α : Type} {view : Pin → α} (seated : r.Seated table)
    (allocated : ∀ id ∈ r.outline.handles, id < table.size) (faced : ∀ pin, view pin.face = view pin) :
    (r.outline.handles.map fun id => (table.get? id).map view) = (pinout 0).map fun pin => some (view pin) := by
  have views := congrArg (List.map some) (seated.map_select faced)
  have pins := congrArg (List.map (Option.map view)) (PinTable.map_get? allocated)
  rw [List.map_map, List.map_map] at views pins
  exact pins.trans views

theorem Seated.of_faces {now : ShiftRegister} {other : PinTable} (seated : r.Seated table)
    (outline : now.outline = r.outline)
    (same : ∀ id ∈ r.outline.handles, (other.get? id).map Pin.face = (table.get? id).map Pin.face) :
    now.Seated other where
  consecutive := outline ▸ seated.consecutive
  faces := by
    rw [outline, PinTable.map_select_congr same]
    exact seated.faces

end ShiftRegister

namespace Circuit
variable {c d : Circuit}

/-- All registers have their pins as their pinout has them. -/
def Seats (c : Circuit) : Prop := ∀ r, .register r ∈ c.chips → r.Seated c.pins

theorem WellFormed.owner_unique (wellFormed : c.WellFormed) {a b : Chip} (inA : a ∈ c.chips) (inB : b ∈ c.chips)
    {id : PinId} (ownA : id ∈ a.handles) (ownB : id ∈ b.handles) : a = b := by
  obtain ⟨i, atA⟩ := List.mem_iff_getElem?.mp inA
  obtain ⟨j, atB⟩ := List.mem_iff_getElem?.mp inB
  obtain ⟨m, postA⟩ := List.mem_iff_getElem?.mp ownA
  obtain ⟨n, postB⟩ := List.mem_iff_getElem?.mp ownB
  have inPlace := post?_eq_some_iff.mpr ⟨a, atA, postA⟩
  obtain ⟨rfl, _⟩ := wellFormed.post_unique inPlace (post?_eq_some_iff.mpr ⟨b, atB, postB⟩)
  exact Option.some.inj (atA.symm.trans atB)

/-- No device can touch the pins of a register, so a register that was seated stays so. -/
theorem Seats.seated_of_extends (seats : c.Seats) (before : c.WellFormed) (wellFormed : d.WellFormed)
    (grown : c.Extends Pin.face d) {r : ShiftRegister} (member : .register r ∈ d.chips)
    (known : (Chip.register r).body ∈ c.chips.map Chip.body) : r.Seated d.pins := by
  obtain ⟨chip, inChips, same⟩ := List.mem_map.mp known
  obtain ⟨old, rfl, outline⟩ := Chip.body_eq_register same
  refine (seats old inChips).of_faces outline.symm fun id own => ?_
  refine grown.pins id (before.allocated inChips own) fun device inDevices shared => ?_
  have ours : id ∈ (Chip.register r).handles := by
    rw [Chip.handles, Chip.outline, ← outline]
    exact own
  cases wellFormed.owner_unique member inDevices ours shared

theorem Seats.withChip (seats : c.Seats) (wellFormed : c.WellFormed) (chip : Chip) : (c.withChip chip).Seats := by
  intro r member
  have grown := Extends.withChip Pin.face c chip
  rcases List.mem_append.mp member with old | new
  · exact seats.seated_of_extends wellFormed (wellFormed.withChip chip) grown member (List.mem_map_of_mem old)
  · obtain ⟨placed, rfl, rfl, table⟩ := Chip.setup_eq_register (List.mem_singleton.mp new).symm
    refine ⟨⟨c.pins.size, rfl⟩, ?_⟩
    have unbound := PinTable.map_select_congr fun id (_ : id ∈ (placed.setup c.pins).1.outline.handles) =>
      Chip.face_bindSources (.register (placed.setup c.pins).1) c.sources (placed.setup c.pins).2 id
    have faces := c.pins.select_freshHandles (ShiftRegister.pinout placed.register)
    exact (unbound.trans (congrArg (List.map Pin.face) faces)).trans (ShiftRegister.pinout_face _)

theorem after_body (c : Circuit) (operation : Operation) :
    (c.after operation).chips.map Chip.body = c.chips.map Chip.body ∨ ∃ chip, operation = .addChip chip := by
  cases operation with
  | addChip chip => exact .inr ⟨chip, rfl⟩
  | addInput | setInput => exact .inl rfl
  | connect source target =>
    rw [after_connect]
    split <;> exact .inl rfl
  | step => exact .inl c.ticked_bodies
  | run ticks =>
    refine .inl ?_
    rw [Circuit.after]
    induction ticks generalizing c with
    | zero => rfl
    | succ ticks ih => exact (ih c.ticked).trans c.ticked_bodies
  | clockIn data clock bit => exact .inl ((ticked_bodies _).trans (ticked_bodies _))

theorem Seats.after (seats : c.Seats) (wellFormed : c.WellFormed) (operation : Operation) :
    (c.after operation).Seats := by
  rcases c.after_body operation with same | ⟨chip, rfl⟩
  · intro r member
    have grown : c.Extends Pin.face (c.after operation) := Extends.after (fun _ _ => rfl) c operation
    refine seats.seated_of_extends wellFormed (wellFormed.after operation) grown member ?_
    exact same ▸ List.mem_map_of_mem member
  · exact seats.withChip wellFormed chip

theorem Seats.foldl_after (seats : c.Seats) (wellFormed : c.WellFormed) (operations : List Operation) :
    (operations.foldl Circuit.after c).Seats := by
  induction operations generalizing c with
  | nil => exact seats
  | cons operation operations ih => exact ih (seats.after wellFormed operation) (wellFormed.after operation)

theorem Seats.of_performAll {name : String} {operations : List Operation}
    (built : (performAll operations { name }).result = .ok c) : c.Seats := by
  obtain ⟨rfl, _⟩ := (WellFormed.new name).eq_foldl_after rfl built
  exact (show Seats { name } from fun r member => by simp at member).foldl_after (.new name) operations

theorem perform_connect_of_not_allocated {source target : PinId}
    (unallocated : ¬(source < c.pins.size ∧ target < c.pins.size)) :
    c.perform (.connect source target) = ⟨[], .ok c⟩ := by
  by_cases atSource : source < c.pins.size
  · have atTarget : ¬target < c.pins.size := fun both => unallocated ⟨atSource, both⟩
    simp only [perform, connect, PinTable.contains, atSource, atTarget]
    rfl
  · simp only [perform, connect, PinTable.contains, atSource]
    rfl

/-- Every pin belongs to one chip or is one input, registers have ten pins in a row as their pinout says, and wires
lead from allocated pins to allocated pins. -/
structure Consistent (c : Circuit) : Prop where
  owned : (c.chips.flatMap Chip.handles ++ c.inputs).Perm (List.range c.pins.size)
  registers : ∀ r, .register r ∈ c.chips → ∃ first, r.outline.handles = List.range' first 10 ∧
    (c.pins.select r.outline.handles).map Pin.label = ["D", "", "I7", "I6", "I5", "I4", "I3", "I2", "I1", "I0"] ∧
    (c.pins.select r.outline.handles).map Pin.output = [false, false] ++ List.replicate 8 true ∧
    (c.pins.select r.outline.handles).map Pin.clock = [false, true] ++ List.replicate 8 false
  wired : ∀ wire ∈ c.wires, wire.source < c.pins.size ∧ wire.target < c.pins.size

theorem WellFormed.consistent (wellFormed : c.WellFormed) (seats : c.Seats) : c.Consistent where
  owned := wellFormed.owned
  registers := by
    intro r member
    have seated := seats r member
    obtain ⟨first, consecutive⟩ := seated.consecutive
    exact ⟨first, consecutive, seated.map_select fun _ => rfl, seated.map_select fun _ => rfl,
      seated.map_select fun _ => rfl⟩
  wired := wellFormed.wired

/-- Whatever operations have led to a circuit and on from there, its pins, chips and wires are in order, pins and chips
handed out before are still the same ones, a wire is refused for an end that is not allocated and changes nothing then,
and no further operations fault while the counters last. -/
theorem performAll_consistent {name : String} {operations more : List Operation}
    (early : (performAll operations { name }).result = .ok c) (late : (performAll more c).result = .ok d) :
    d.Consistent ∧ c.Extends Pin.face d ∧
      (∀ source target, (d.connect source target).result =
        if source < d.pins.size then
          if target < d.pins.size then .ok (d.withWire ⟨source, target⟩)
          else .error (.refused (.unknownPin target))
        else .error (.refused (.unknownPin source))) ∧
      (∀ source target, ¬(source < d.pins.size ∧ target < d.pins.size) →
        d.perform (.connect source target) = ⟨[], .ok d⟩) ∧
      ∀ further : List Operation, Word.fits64 (d.ticks + (further.map Operation.ticks).sum) →
        Word.fits64 (d.sources + (further.map Operation.sources).sum) →
        ∃ next, (performAll further d).result = .ok next := by
  have counted : ({ name } : Circuit).hasRoom 0 0 := rfl
  obtain ⟨rfl, middle⟩ := (WellFormed.new name).eq_foldl_after counted early
  have wellFormed := (WellFormed.new name).foldl_after operations
  obtain ⟨rfl, last⟩ := wellFormed.eq_foldl_after middle late
  have seats := (show Seats { name } from fun r member => by simp at member).foldl_after (.new name) operations
  have wellFormedLast := wellFormed.foldl_after more
  refine ⟨wellFormedLast.consistent (seats.foldl_after wellFormed more), ?_, fun source target => connect_result _ _ _,
    fun source target unallocated => ?_, fun further ticks sources => ?_⟩
  · exact Extends.foldl_after (fun _ _ => rfl) _ more
  · exact perform_connect_of_not_allocated unallocated
  · refine ⟨_, (wellFormedLast.performAll_result last further).trans (if_pos ?_)⟩
    exact hasRoom_iff.mpr ⟨ticks, sources⟩

/-- An inverter behind an input. -/
def inverterFirst : List Operation :=
  [.addChip (.device (.inverter (.atPoint 7 0 0))), .addInput "IN", .connect 3 0]

/-- A register joins that the inverter clocks. Two calls go to pins that are not allocated. -/
def registerLater : List Operation :=
  [.connect 99 0, .addChip (.register { outline := .atPoint 0 4 }), .connect 2 5, .setInput 77 .high,
    .clockIn 3 3 .low, .run 2]

theorem inverterFirst_consistent : ∃ c d, (performAll inverterFirst { name := "grown" }).result = .ok c ∧
    (performAll registerLater c).result = .ok d ∧ d.chips.length = 2 ∧ d.pins.size = 14 ∧ d.Consistent ∧
    c.chips.map Chip.body <+: d.chips.map Chip.body ∧
    (d.pins.get? 2).map Pin.face = (c.pins.get? 2).map Pin.face ∧ d.perform (.connect 2 14) = ⟨[], .ok d⟩ ∧
    ∃ next, (performAll [.run 5, .connect 99 2, .step] d).result = .ok next := by
  obtain ⟨c, d, device, r, early, late, chips, reacts, atC, atD, ticks, sources⟩ : ∃ c d device r,
      (performAll inverterFirst { name := "grown" }).result = .ok c ∧ (performAll registerLater c).result = .ok d ∧
      d.chips = [.device device, .register r] ∧ device.react = (Device.inverter (.atPoint 7 0 0)).react ∧
      c.pins.size = 4 ∧ d.pins.size = 14 ∧ d.ticks = 4 ∧ d.sources = 9 :=
    ⟨_, _, _, _, rfl, rfl, rfl, rfl, rfl, rfl, rfl, rfl⟩
  obtain ⟨consistent, grown, _, refused, room⟩ := performAll_consistent early late
  have steady : d.Steady Pin.face 2 := by
    intro other member own
    rw [chips] at member
    have same : other = device := by simpa using member
    rw [same, Device.Keeps, reacts]
    exact Device.gate_keeps (fun _ _ => rfl) _ _ _ _ _
  refine ⟨c, d, early, late, congrArg List.length chips, atD, consistent, grown.chips, grown.pins 2 ?_ steady,
    refused 2 14 ?_, room _ ?_ ?_⟩
  · omega
  · omega
  · rw [ticks]
    rfl
  · rw [sources]
    rfl

end Circuit

end LogicBoard
