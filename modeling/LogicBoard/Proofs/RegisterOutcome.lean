import LogicBoard.Proofs.RegisterPosts

namespace LogicBoard.ShiftRegister
variable {r : ShiftRegister}

/-- The ninth output is a fault. -/
theorem drive_fault (register : BitVec 8) {k : Nat} {outputs : List PinId} (table : PinTable) (within : k ≤ 8)
    (many : 8 < k + outputs.length) :
    (drive register k outputs table).result = .error (.overflow .shiftRight) := by
  induction outputs generalizing k table with
  | nil =>
    rw [List.length_nil] at many
    omega
  | cons output outputs ih =>
    rw [List.length_cons] at many
    rw [drive]
    split
    · exact ih _ (by omega) (by omega)
    · rfl

theorem execute_few (few : r.outline.handles.length < 10) (table : PinTable) : r.execute table = pure (r, table) := by
  unfold execute
  split
  · rename_i handles
    rw [handles, List.length_cons, List.length_cons] at few
    rw [if_pos (by omega)]
  · rfl

/-- With ten handles or more a tick depends on what it reads before it writes anything. -/
theorem execute_many (many : 10 ≤ r.outline.handles.length) (table : PinTable) :
    r.execute table =
      if r.Rises (r.sample table) then do
        let register := shiftIn r.register (r.sample table).data
        Logged.report (.shiftIn (r.sample table).data register)
        let driven ← drive register 0 r.outputs table
        return ({ r with register, phase := .latched }, driven)
      else return ({ r with phase := if (r.sample table).clock = .high then .latched else .armed }, table) := by
  obtain ⟨⟨x, y, x2, y2, flags, columns, rows, handles⟩, register, phase⟩ := r
  match handles, many with
  | data :: clock :: outputs, many =>
    have enough : ¬outputs.length < 8 := by simpa using many
    cases level : table.level clock with
    | low => simp [execute, enough, Rises, sample, dataPin?, clockPin?, level]
    | high => cases phase <;> simp [execute, enough, Rises, sample, dataPin?, clockPin?, ShiftRegister.outputs, level]

theorem execute_fault (many : 11 ≤ r.outline.handles.length) {table : PinTable} (rises : r.Rises (r.sample table)) :
    (r.execute table).result = .error (.overflow .shiftRight) := by
  have ninth : 8 < 0 + r.outputs.length := by
    rw [outputs, List.length_drop]
    omega
  have driven := drive_fault (shiftIn r.register (r.sample table).data) table (Nat.zero_le 8) ninth
  rw [execute_many (Nat.le_of_succ_le many), if_pos rises]
  exact (Logged.result_bind_of_ok rfl).trans (Logged.result_bind_of_error driven)

/-- Every output of a register with ten handles ends at the level of the bit of its last place among them, be it an
input as well. -/
theorem get?_writes_last (placed : r.Placed) (table : PinTable) {sample : Sample} (rises : r.Rises sample) {i : Nat}
    {id : PinId} (output : 2 ≤ i) (atPin : r.outline.handles[i]? = some id)
    (last : ∀ later, i < later → r.outline.handles[later]? ≠ some id) :
    (table.modifyAll (r.writes sample)).get? id =
      (table.get? id).map (Pin.withLevel (.ofBool ((r.next sample).register.getLsbD (9 - i)))) := by
  have ten : r.outline.handles.length = 10 := placed
  have below := (List.getElem?_eq_some_iff.mp atPin).1
  have within : i - 2 < 8 := by omega
  have place (k : Nat) : r.outputs[k]? = r.outline.handles[2 + k]? := by rw [outputs, List.getElem?_drop]
  have bit : 7 - (i - 2) = 9 - i := by omega
  rw [writes_of_rises rises, table.get?_modifyAll_levels (k := i - 2) _ (getElem?_shown within) fun later after => ?_,
    getMsbD_eq_getLsbD_of_lt _ within, bit]
  · rw [place, Nat.add_sub_cancel' output, atPin]
  · rw [place]
    exact last (2 + later) (by omega)

/-- What a tick comes to, whatever the handles of the register are: too few or too many, dangling or repeated, or
inputs among the outputs. With less than ten nothing happens, and a rising edge with more than ten is a fault. Else the
edge detector takes the level of the clock, and a rising edge shifts the register and shows it at the outputs, where the
last place of a pin counts. No other pin changes. -/
theorem execute_any_handles (r : ShiftRegister) (table : PinTable) :
    (r.outline.handles.length < 10 → (r.execute table).result = .ok (r, table)) ∧
    ((r.execute table).result = .error (.overflow .shiftRight) ↔
      11 ≤ r.outline.handles.length ∧ (r.sample table).clock = .high ∧ r.phase = .armed) ∧
    (10 ≤ r.outline.handles.length → ¬((r.sample table).clock = .high ∧ r.phase = .armed) →
      (r.execute table).result =
        .ok ({ r with phase := if (r.sample table).clock = .high then .latched else .armed }, table)) ∧
    (r.outline.handles.length = 10 → (r.sample table).clock = .high → r.phase = .armed →
      ∃ register after, (r.execute table).result = .ok ({ r with register, phase := .latched }, after) ∧
        register.toNat = r.register.toNat / 2 + (if (r.sample table).data = .high then 128 else 0) ∧
        (∀ i id, 2 ≤ i → r.outline.handles[i]? = some id →
          (∀ later, i < later → r.outline.handles[later]? ≠ some id) →
          after.get? id = (table.get? id).map (Pin.withLevel (.ofBool (register.getLsbD (9 - i))))) ∧
        ∀ id, id ∉ r.outline.handles.drop 2 → after.get? id = table.get? id) := by
  have short (few : r.outline.handles.length < 10) : (r.execute table).result = .ok (r, table) := by
    rw [execute_few few]
    rfl
  have quiet (many : 10 ≤ r.outline.handles.length) (still : ¬r.Rises (r.sample table)) : (r.execute table).result =
      .ok ({ r with phase := if (r.sample table).clock = .high then .latched else .armed }, table) := by
    rw [execute_many many, if_neg still]
    rfl
  refine ⟨short, ⟨fun fault => ?_, fun ⟨many, rises⟩ => execute_fault many rises⟩, quiet, fun ten clock phase => ?_⟩
  · by_cases few : r.outline.handles.length < 10
    · rw [short few] at fault
      cases fault
    · by_cases rises : r.Rises (r.sample table)
      · -- With ten handles a rising edge comes to a result, so there are more.
        refine ⟨Nat.lt_of_le_of_ne (Nat.not_lt.mp few) fun ten => ?_, rises⟩
        rw [execute_placed ten.symm] at fault
        cases fault
      · rw [quiet (Nat.not_lt.mp few) rises] at fault
        cases fault
  · have rises : r.Rises (r.sample table) := ⟨clock, phase⟩
    have next : r.next (r.sample table) =
        { r with register := shiftIn r.register (r.sample table).data, phase := .latched } := by
      simp only [ShiftRegister.next, clock, phase]
    have executed := execute_placed ten table
    rw [next] at executed
    refine ⟨_, _, executed, ?_, fun i id output atPin last => ?_, fun id absent => ?_⟩
    · rw [toNat_shiftIn]
      cases (r.sample table).data <;> rfl
    · have written := get?_writes_last ten table rises output atPin last
      rwa [next] at written
    · refine table.get?_modifyAll_of_forall_ne fun edit member same => absent ?_
      exact same ▸ mem_outputs_of_writes member

/-- A register whose outputs are its data and clock pins, a third pin and one that is missing, over and over. -/
def entangled (more : List PinId) : ShiftRegister where
  outline := { Outline.atPoint 0 0 with handles := [0, 1, 2, 1, 0, 2, 7, 7, 1, 2] ++ more }
  register := 11

def highInputs : PinTable :=
  PinTable.empty.allocateAll (["D", "CLK", "Q"].zipIdx.map fun (label, position) =>
    { label, position, level := .high, side := .west })

/-- Both inputs are read before they are written, and the third pin shows the lowest bit. One more handle is a fault. -/
theorem entangled_any_handles : ∃ register after,
    ((entangled []).execute highInputs).result =
      .ok ({ entangled [] with register, phase := .latched }, after) ∧
    register.toNat = 133 ∧ [0, 1, 2].map after.level = [.low, .low, .high] ∧
    ((entangled [2]).execute highInputs).result = .error (.overflow .shiftRight) := by
  obtain ⟨_, fault, _, _⟩ := execute_any_handles (entangled [2]) highInputs
  obtain ⟨_, _, _, shifts⟩ := execute_any_handles (entangled []) highInputs
  obtain ⟨register, after, executed, number, outputs, _⟩ := shifts rfl rfl rfl
  have total : register.toNat = 133 := number
  have word : register = 133 := BitVec.eq_of_toNat_eq total
  have missing {i : Nat} (beyond : 10 ≤ i) : (entangled []).outline.handles[i]? = none := List.getElem?_eq_none beyond
  have level {i : Nat} {id : PinId} (output : 2 ≤ i) (atPin : (entangled []).outline.handles[i]? = some id)
      (last : ∀ later < 10, i < later → (entangled []).outline.handles[later]? ≠ some id)
      (allocated : (highInputs.get? id).isSome) : after.level id = .ofBool (register.getLsbD (9 - i)) := by
    obtain ⟨pin, found⟩ := Option.isSome_iff_exists.mp allocated
    have written := outputs i id output atPin fun later behind => by
      by_cases within : later < 10
      · exact last later within behind
      · rw [missing (Nat.not_lt.mp within)]
        exact nofun
    rw [found] at written
    exact PinTable.level_of_get? written
  refine ⟨register, after, executed, total, ?_, fault.mpr ⟨by decide, rfl, rfl⟩⟩
  have data := level (i := 4) (by decide) rfl (by decide) rfl
  have clock := level (i := 8) (by decide) rfl (by decide) rfl
  have third := level (i := 9) (by decide) rfl (by decide) rfl
  rw [word] at data clock third
  simp only [List.map_cons, List.map_nil, data, clock, third]
  decide

end LogicBoard.ShiftRegister
