import LogicBoard.Proofs.CircuitOutcome
import LogicBoard.Proofs.RegisterHistory

namespace LogicBoard

namespace ShiftRegister

/-- The tick that reads the sample is a rising edge for the register, so the register shifts. -/
def Rises (r : ShiftRegister) (sample : Sample) : Prop := sample.clock = .high ∧ r.phase = .armed

instance (r : ShiftRegister) (sample : Sample) : Decidable (r.Rises sample) :=
  inferInstanceAs (Decidable (sample.clock = .high ∧ r.phase = .armed))

variable {r : ShiftRegister} {sample : Sample}

theorem writes_of_rises (rises : r.Rises sample) :
    r.writes sample = r.outputs.zip ((shown (r.next sample).register).map Pin.withLevel) := by
  obtain ⟨clock, phase⟩ := rises
  simp only [writes, ShiftRegister.next, clock, phase]

theorem writes_of_not_rises (quiet : ¬r.Rises sample) : r.writes sample = [] := by
  cases clock : sample.clock with
  | low => simp only [writes, clock]
  | high =>
    cases phase : r.phase with
    | armed => exact absurd ⟨clock, phase⟩ quiet
    | latched => simp only [writes, clock, phase]

/-- After a tick the register waits for the other clock level, so the same sample again is no edge. -/
theorem not_rises_next (r : ShiftRegister) (sample : Sample) : ¬(r.next sample).Rises sample := by
  rintro ⟨clock, phase⟩
  rw [r.next_phase sample [], phaseAfter, if_pos clock] at phase
  cases phase

theorem next_next (r : ShiftRegister) (sample : Sample) : (r.next sample).next sample = r.next sample := by
  cases clock : sample.clock with
  | low => simp only [ShiftRegister.next, clock]
  | high => cases phase : r.phase <;> simp only [ShiftRegister.next, clock, phase]

/-- In a tick the outputs take the bits of the register at a rising edge, and no other pin changes. -/
theorem level_writes_post {table : PinTable} {n : Nat} {id : PinId} (sample : Sample) (placed : r.Placed)
    (distinct : r.outline.handles.Nodup) (atPost : r.outline.handles[n]? = some id) (allocated : id < table.size) :
    (table.modifyAll (r.writes sample)).level id =
      if r.Rises sample ∧ 2 ≤ n then .ofBool ((r.next sample).register.getMsbD (n - 2)) else table.level id := by
  by_cases rises : r.Rises sample
  · rw [writes_of_rises rises]
    by_cases output : 2 ≤ n
    · have within : n - 2 < 8 := by
        have below := (List.getElem?_eq_some_iff.mp atPost).1
        have ten : r.outline.handles.length = 10 := placed
        omega
      have atOutput : r.outputs[n - 2]? = some id := by
        rw [outputs, List.getElem?_drop, Nat.add_sub_cancel' output, atPost]
      have atEdit : ((shown (r.next sample).register).map Pin.withLevel)[n - 2]? =
          some (Pin.withLevel (.ofBool ((r.next sample).register.getMsbD (n - 2)))) := by
        rw [List.getElem?_map, getElem?_shown within, Option.map_some]
      obtain ⟨pin, found⟩ := Option.isSome_iff_exists.mp ((table.get?_isSome_iff id).mpr allocated)
      have written := table.get?_modifyAll_zip (distinct.sublist (List.drop_sublist 2 _)) atOutput atEdit
      rw [found] at written
      rw [if_pos ⟨rises, output⟩]
      exact PinTable.level_of_get? written
    · rw [if_neg fun both => output both.2]
      refine PinTable.level_eq_of_get? (table.get?_modifyAll_of_forall_ne fun edit member same => ?_)
      obtain ⟨k, atEdit⟩ := List.mem_iff_getElem?.mp (same ▸ (List.of_mem_zip member).1)
      rw [outputs, List.getElem?_drop] at atEdit
      have again := (List.getElem?_inj (List.getElem?_eq_some_iff.mp atPost).1 distinct).mp (atPost.trans atEdit.symm)
      omega
  · rw [writes_of_not_rises rises, if_neg fun both => rises both.1]
    rfl

end ShiftRegister

namespace Circuit
variable {c : Circuit}

def AllRegisters (c : Circuit) : Prop := ∀ chip ∈ c.chips, ∃ r, chip = .register r

/-- The pins after all chips have had their tick, before the levels go on along the wires. -/
def worked (c : Circuit) : PinTable := c.pins.modifyAll (c.chips.flatMap fun chip => chip.writes c.pins)

/-- The chip at the place is a register, and its clock rises in the next tick. -/
def Rises (c : Circuit) (i : Nat) : Prop := ∃ r, c.register? i = some r ∧ r.Rises (r.sample c.pins)

instance (c : Circuit) (i : Nat) : Decidable (c.Rises i) :=
  match found : c.register? i with
  | some r => decidable_of_iff (r.Rises (r.sample c.pins)) (by simp [Rises, found])
  | none => isFalse (by simp [Rises, found])

theorem rises_iff {i : Nat} {r : ShiftRegister} (atChip : c.chips[i]? = some (.register r)) :
    c.Rises i ↔ r.Rises (r.sample c.pins) := by
  simp [Rises, register?_eq_some_iff.mpr atChip]

theorem AllRegisters.ticked (registers : c.AllRegisters) : c.ticked.AllRegisters := by
  intro chip member
  obtain ⟨old, inChips, rfl⟩ := List.mem_map.mp member
  obtain ⟨r, rfl⟩ := registers old inChips
  exact ⟨_, rfl⟩

theorem AllRegisters.register_at (registers : c.AllRegisters) {i n : Nat} {id : PinId}
    (atPost : c.post? i n = some id) :
    ∃ r, c.chips[i]? = some (.register r) ∧ r.outline.handles[n]? = some id := by
  obtain ⟨chip, atChip, atPin⟩ := post?_eq_some_iff.mp atPost
  obtain ⟨r, rfl⟩ := registers chip (List.mem_of_getElem? atChip)
  exact ⟨r, atChip, atPin⟩

theorem iterate_ticked_post? (c : Circuit) (count : Nat) : (ticked^[count] c).post? = c.post? := by
  induction count with
  | zero => rfl
  | succ count ih => rw [Function.iterate_succ_apply', ticked_post?, ih]

theorem ticked_register {i : Nat} {r : ShiftRegister} (atChip : c.chips[i]? = some (.register r)) :
    c.ticked.chips[i]? = some (.register (r.next (r.sample c.pins))) := by
  rw [ticked, List.getElem?_map, atChip]
  rfl

theorem foreign_of_post? {id : PinId} (none : ∀ i n, c.post? i n ≠ some id) : ∀ chip ∈ c.chips, id ∉ chip.handles := by
  intro chip inChips own
  obtain ⟨i, atChip⟩ := List.mem_iff_getElem?.mp inChips
  obtain ⟨n, atPin⟩ := List.mem_iff_getElem?.mp own
  exact none i n (post?_eq_some_iff.mpr ⟨chip, atChip, atPin⟩)

theorem level_worked_foreign {id : PinId} (none : ∀ i n, c.post? i n ≠ some id) :
    c.worked.level id = c.pins.level id :=
  PinTable.level_eq_of_get? (get?_modifyAll_other c.pins (foreign_of_post? none))

namespace WellFormed

theorem post_allocated (wellFormed : c.WellFormed) {i n : Nat} {id : PinId} (atPost : c.post? i n = some id) :
    id < c.pins.size := by
  obtain ⟨chip, atChip, atPin⟩ := post?_eq_some_iff.mp atPost
  exact wellFormed.allocated (List.mem_of_getElem? atChip) (List.mem_of_getElem? atPin)

theorem not_post_input (wellFormed : c.WellFormed) {i n : Nat} {id : PinId} (member : id ∈ c.inputs) :
    c.post? i n ≠ some id := by
  intro atPost
  obtain ⟨chip, atChip, atPin⟩ := post?_eq_some_iff.mp atPost
  exact wellFormed.input_foreign member (List.mem_of_getElem? atChip) (List.mem_of_getElem? atPin)

theorem level_worked_post (wellFormed : c.WellFormed) {i n : Nat} {r : ShiftRegister} {id : PinId}
    (atChip : c.chips[i]? = some (.register r)) (atPost : r.outline.handles[n]? = some id) :
    c.worked.level id =
      if r.Rises (r.sample c.pins) ∧ 2 ≤ n then .ofBool ((r.next (r.sample c.pins)).register.getMsbD (n - 2))
      else c.pins.level id := by
  have member := List.mem_of_getElem? atChip
  have own := List.mem_of_getElem? atPost
  have alone := PinTable.level_eq_of_get? (get?_modifyAll_own wellFormed.apart c.pins member own)
  exact alone.trans (ShiftRegister.level_writes_post _ (wellFormed.placed _ member) (wellFormed.distinct member) atPost
    (wellFormed.allocated member own))

/-- The wires carry on what the chips have left at the origin of a pin. -/
theorem level_ticked (wellFormed : c.WellFormed) (id : PinId) :
    c.ticked.pins.level id = c.worked.level (trace c.wires id) := by
  refine PinTable.level_settle (fun wire member => ?_) id
  rw [PinTable.size_modifyAll]
  exact (wellFormed.wired wire member).2

theorem level_setInput (wellFormed : c.WellFormed) (set id : PinId) (level : Level) :
    (c.setInput set level).pins.level id = (c.pins.setLevel set level).level (trace c.wires id) := by
  refine PinTable.level_settle (fun wire member => ?_) id
  rw [PinTable.size_setLevel]
  exact (wellFormed.wired wire member).2

end WellFormed

end Circuit

end LogicBoard
