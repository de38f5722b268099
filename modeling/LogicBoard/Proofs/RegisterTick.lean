import LogicBoard.Proofs.RisingEdges
import LogicBoard.Proofs.TableWrites

namespace LogicBoard.ShiftRegister

/-- The register has the ten pins of its pinout. -/
def Placed (r : ShiftRegister) : Prop := r.outline.handles.length = 10

def sample (r : ShiftRegister) (table : PinTable) : Sample where
  data := (r.dataPin?.map table.level).getD .low
  clock := (r.clockPin?.map table.level).getD .low

theorem Placed.handle {r : ShiftRegister} (placed : r.Placed) {n : Nat} (within : n < 10) :
    ∃ id, r.outline.handles[n]? = some id :=
  ⟨_, List.getElem?_eq_getElem (placed.symm ▸ within)⟩

def outputs (r : ShiftRegister) : List PinId := r.outline.handles.drop 2

/-- The levels of the outputs that show a register, in the order of the posts. -/
def shown (register : BitVec 8) : List Level := (List.range 8).map fun k => .ofBool (register.getMsbD k)

def next (r : ShiftRegister) (sample : Sample) : ShiftRegister :=
  match sample.clock, r.phase with
  | .high, .armed => { r with register := shiftIn r.register sample.data, phase := .latched }
  | .high, .latched => r
  | .low, _ => { r with phase := .armed }

def writes (r : ShiftRegister) (sample : Sample) : List (PinId × (Pin → Pin)) :=
  match sample.clock, r.phase with
  | .high, .armed => r.outputs.zip ((shown (shiftIn r.register sample.data)).map Pin.withLevel)
  | .high, .latched => []
  | .low, _ => []

/-- The register holds the eight newest data levels at rising edges, and its edge detector has seen the last clock. -/
structure Records (r : ShiftRegister) (samples : List Sample) : Prop where
  register : r.register = packing 8 (risingData samples)
  phase : r.phase = phaseAfter samples

theorem outputPin?_eq (r : ShiftRegister) {bit : Nat} (within : bit < 8) :
    r.outputPin? bit = r.outline.handles[2 + (7 - bit)]? := by
  have place : 9 - bit = 2 + (7 - bit) := by omega
  rw [outputPin?, if_pos (by omega : bit ≤ 7), place]

@[simp] theorem length_shown (register : BitVec 8) : (shown register).length = 8 := by simp [shown]

theorem getElem?_shown {register : BitVec 8} {k : Nat} (within : k < 8) :
    (shown register)[k]? = some (.ofBool (register.getMsbD k)) := by
  simp [shown, within]

/-- Eight outputs at most are driven without a fault, each with its own bit. -/
theorem drive_result (register : BitVec 8) {k : Nat} {outputs : List PinId} (table : PinTable)
    (count : k + outputs.length = 8) :
    (drive register k outputs table).result =
      .ok (table.modifyAll (outputs.zip (((shown register).drop k).map Pin.withLevel))) := by
  induction outputs generalizing k table with
  | nil => rfl
  | cons output outputs ih =>
    rw [List.length_cons] at count
    have within : k < (shown register).length := by rw [length_shown]; omega
    have level : (shown register)[k] = .ofBool (register.getMsbD k) := by simp [shown]
    rw [drive, if_pos (by omega : k < 8), ih _ (by omega), List.drop_eq_getElem_cons within, level]
    rfl

theorem execute_placed {r : ShiftRegister} (placed : r.Placed) (table : PinTable) :
    (r.execute table).result = .ok (r.next (r.sample table), table.modifyAll (r.writes (r.sample table))) := by
  obtain ⟨outline, register, phase⟩ := r
  obtain ⟨x, y, x2, y2, flags, columns, rows, handles⟩ := outline
  match handles, placed with
  | data :: clock :: outputs, placed =>
    have eight : outputs.length = 8 := by simpa [Placed] using placed
    simp only [execute, eight, Nat.lt_irrefl, if_false, sample, dataPin?, clockPin?, List.getElem?_cons_zero,
      List.getElem?_cons_succ, Option.map_some, Option.getD_some]
    cases level : table.level clock with
    | low => simp [next, writes, PinTable.modifyAll]
    | high =>
      cases phase with
      | latched => simp [next, writes, PinTable.modifyAll]
      | armed =>
        have count : 0 + outputs.length = 8 := by omega
        have driven := drive_result (shiftIn register (table.level data)) table count
        rw [Logged.result_bind_eq_ok_iff]
        refine ⟨(), rfl, ?_⟩
        rw [Logged.result_bind_eq_ok_iff]
        exact ⟨_, driven, rfl⟩

@[simp] theorem next_outline (r : ShiftRegister) (sample : Sample) : (r.next sample).outline = r.outline := by
  unfold next
  split <;> rfl

theorem mem_outputs_of_writes {r : ShiftRegister} {sample : Sample} {edit : PinId × (Pin → Pin)}
    (member : edit ∈ r.writes sample) : edit.1 ∈ r.outputs := by
  unfold writes at member
  split at member
  · exact (List.of_mem_zip member).1
  · simp at member
  · simp at member

theorem next_phase (r : ShiftRegister) (sample : Sample) (samples : List Sample) :
    (r.next sample).phase = phaseAfter (sample :: samples) := by
  cases clock : sample.clock with
  | low => simp [next, phaseAfter, clock]
  | high => cases waiting : r.phase <;> simp [next, phaseAfter, clock, waiting]

theorem next_register {r : ShiftRegister} {samples : List Sample} (phase : r.phase = phaseAfter samples)
    (sample : Sample) :
    (r.next sample).register = if sample.IsEdge samples then shiftIn r.register sample.data else r.register := by
  have edge := sample.isEdge_iff_phaseAfter samples
  rw [← phase] at edge
  cases clock : sample.clock with
  | low =>
    have quiet : ¬sample.IsEdge samples := by simp [edge, clock]
    simp [next, clock, quiet]
  | high =>
    cases waiting : r.phase with
    | latched =>
      have quiet : ¬sample.IsEdge samples := by simp [edge, waiting]
      simp [next, clock, waiting, quiet]
    | armed =>
      have rising : sample.IsEdge samples := edge.mpr ⟨clock, waiting⟩
      simp [next, clock, waiting, rising]

theorem Records.next {r : ShiftRegister} {samples : List Sample} (records : r.Records samples) (sample : Sample) :
    (r.next sample).Records (sample :: samples) := by
  refine ⟨?_, r.next_phase sample samples⟩
  rw [next_register records.phase, risingData]
  split
  · rw [records.register, shiftIn_packing]
  · exact records.register

/-- An output that shows its bit before a tick shows it afterwards as well, whether the register shifts or not. -/
theorem level_writes_output {r : ShiftRegister} {table : PinTable} {k : Nat} {id : PinId} (sample : Sample)
    (distinct : r.outline.handles.Nodup) (within : k < 8) (atPin : r.outline.handles[2 + k]? = some id)
    (allocated : id < table.size) (shows : table.level id = .ofBool (r.register.getMsbD k)) :
    (table.modifyAll (r.writes sample)).level id = .ofBool ((r.next sample).register.getMsbD k) := by
  have atOutput : r.outputs[k]? = some id := by rw [outputs, List.getElem?_drop, atPin]
  unfold writes ShiftRegister.next
  split
  · have atEdit : ((shown (shiftIn r.register sample.data)).map Pin.withLevel)[k]? =
        some (Pin.withLevel (.ofBool ((shiftIn r.register sample.data).getMsbD k))) := by
      rw [List.getElem?_map, getElem?_shown within, Option.map_some]
    obtain ⟨pin, found⟩ := Option.isSome_iff_exists.mp ((table.get?_isSome_iff id).mpr allocated)
    have written := table.get?_modifyAll_zip (distinct.sublist (List.drop_sublist 2 _)) atOutput atEdit
    rw [found] at written
    exact PinTable.level_of_get? written
  · exact shows
  · exact shows

theorem setup_handles (r : ShiftRegister) (table : PinTable) :
    (r.setup table).1.outline.handles = List.range' table.size 10 := rfl

theorem setup_placed (r : ShiftRegister) (table : PinTable) : (r.setup table).1.Placed := rfl

theorem getElem?_pinout_output {register : BitVec 8} {k : Nat} (within : k < 8) :
    ((pinout register)[2 + k]?).map Pin.level = some (.ofBool (register.getMsbD k)) := by
  have place : 2 + k = k + 1 + 1 := by omega
  have labelled : k < outputLabels.length := within
  simp [pinout, place, labelled]

theorem level_setup_output (r : ShiftRegister) {table : PinTable} {k : Nat} {id : PinId} (within : k < 8)
    (atPin : (r.setup table).1.outline.handles[2 + k]? = some id) :
    (r.setup table).2.level id = .ofBool (r.register.getMsbD k) := by
  rw [setup_handles, List.getElem?_range' (by omega), Nat.one_mul, Option.some.injEq] at atPin
  subst atPin
  have pin : (r.setup table).2.get? (table.size + (2 + k)) = (pinout r.register)[2 + k]? :=
    table.get?_allocateAll_add _ _
  rw [PinTable.level, pin, getElem?_pinout_output within, Option.getD_some]

end LogicBoard.ShiftRegister
