import LogicBoard.Board
import LogicBoard.Proofs.RegisterRuns

namespace LogicBoard

/-- Every error of the result is an allowed one. -/
def ErrorsIn {ε α : Type} (allowed : ε → Prop) (result : Except ε α) : Prop :=
  ∀ error, result = .error error → allowed error

section
variable {ε α β : Type} {allowed : ε → Prop}

theorem errorsIn_ok (value : α) : ErrorsIn allowed (.ok value) := nofun

theorem errorsIn_error {error : ε} (among : allowed error) : ErrorsIn allowed (.error error : Except ε α) := by
  rintro _ ⟨⟩
  exact among

theorem ErrorsIn.bind {first : Except ε α} {second : α → Except ε β} (atFirst : ErrorsIn allowed first)
    (atSecond : ∀ value, ErrorsIn allowed (second value)) : ErrorsIn allowed (first >>= second) := by
  cases first with
  | error error => exact errorsIn_error (atFirst error rfl)
  | ok value => exact atSecond value

theorem Logged.errorsIn_bind {allowed : Failure → Prop} {first : Logged α} {second : α → Logged β}
    (atFirst : ErrorsIn allowed first.result)
    (atSecond : ∀ value, first.result = .ok value → ErrorsIn allowed (second value).result) :
    ErrorsIn allowed (first >>= second).result := by
  cases ran : first.result with
  | error failure =>
    rw [Logged.result_bind_of_error ran]
    exact errorsIn_error (atFirst failure ran)
  | ok value =>
    rw [Logged.result_bind_of_ok ran]
    exact atSecond value ran

theorem Logged.result_ofExcept_of_ok {value : α} {result : Except BoardError α} (ok : result = .ok value) :
    (ofExcept result).result = .ok value := by
  rw [ok]
  rfl

theorem Logged.result_ofExcept_of_error {error : BoardError} {result : Except BoardError α}
    (failed : result = .error error) : (ofExcept result).result = .error (.refused error) := by
  rw [failed]
  rfl

end

/-- The error does not blame the handle of a pin. -/
def BoardError.SparesPins : BoardError → Prop
  | unknownPin _ => False
  | _ => True

def Failure.SparesPins : Failure → Prop
  | refused error => error.SparesPins
  | overflow _ => True

theorem Logged.errorsIn_ofExcept {α : Type} {result : Except BoardError α}
    (spares : ErrorsIn BoardError.SparesPins result) : ErrorsIn Failure.SparesPins (ofExcept result).result := by
  cases result with
  | error error =>
    refine errorsIn_error ?_
    exact spares error rfl
  | ok value => exact errorsIn_ok value

theorem Logged.refuse_sparesPins {α : Type} {error : BoardError} (spares : error.SparesPins) :
    ErrorsIn Failure.SparesPins (refuse error : Logged α).result := by
  refine errorsIn_error ?_
  exact spares

namespace Placement

theorem number_sparesPins {α : Type} (literal? : List Char → Option α) (field : Field) (line : List (List Char)) :
    ErrorsIn BoardError.SparesPins (number literal? field line) := by
  unfold number
  split
  · exact errorsIn_error trivial
  · split
    · exact errorsIn_ok _
    · exact errorsIn_error trivial

theorem levelsOf_sparesPins (line : List (List Char)) : ErrorsIn BoardError.SparesPins (levelsOf line) := by
  induction line with
  | nil => exact errorsIn_ok _
  | cons token line ih =>
    rw [levelsOf]
    split
    · cases rest : levelsOf line with
      | error error => exact errorsIn_error (ih error rest)
      | ok levels => exact errorsIn_ok _
    · exact errorsIn_error trivial

theorem parse_sparesPins (line : String) : ErrorsIn BoardError.SparesPins (parse line) := by
  unfold parse ofTokens
  refine (number_sparesPins _ _ _).bind fun _ => ?_
  refine (number_sparesPins _ _ _).bind fun _ => ?_
  refine (number_sparesPins _ _ _).bind fun _ => ?_
  refine (number_sparesPins _ _ _).bind fun _ => ?_
  refine (number_sparesPins _ _ _).bind fun _ => ?_
  refine (number_sparesPins _ _ _).bind fun _ => ?_
  exact (levelsOf_sparesPins _).bind fun _ => errorsIn_ok _

end Placement

/-- All pins of the chip are low once it has been placed. -/
def Chip.StartsLow : Chip → Prop
  | register r => r.register = 0
  | device d => ∀ pin ∈ d.pinout, pin.level = .low

namespace Catalog

/-- The chips that the builder makes start low, and when it refuses to make one it does not blame a pin. -/
structure Proper (builder : Builder) : Prop where
  low : ∀ p chip, (builder p).result = .ok chip → chip.StartsLow
  spares : ∀ p, ErrorsIn Failure.SparesPins (builder p).result

/-- The standard catalog with any number of further registrations of proper builders, also under keys that are in use
already. -/
inductive Stocked : Catalog → Prop
  | standard : Stocked standard
  | register {catalog : Catalog} {builder : Builder} (typeName : String) (dumpType : UInt32) :
      Stocked catalog → Proper builder → Stocked (catalog.register typeName dumpType builder)

theorem proper_shiftRegister : Proper shiftRegister where
  low := by
    intro p chip made
    obtain ⟨r, restored, same⟩ := Logged.result_bind_eq_ok_iff.mp made
    cases same
    exact (ShiftRegister.Constructed.restore restored).cleared.1
  spares := by
    intro p
    refine Logged.errorsIn_bind ?_ fun _ _ => errorsIn_ok _
    unfold ShiftRegister.restore
    split
    · exact Logged.refuse_sparesPins trivial
    · exact errorsIn_ok _

/-- A builder of one kind of device is proper when the device is allocated low. -/
theorem proper_device (make : Placement → Device) (low : ∀ p, ∀ pin ∈ (make p).pinout, pin.level = .low) :
    Proper fun p => return .device (make p) where
  low := by
    intro p chip made
    cases made
    exact low p
  spares := fun _ => errorsIn_ok _

theorem proper_inverter : Proper inverter :=
  proper_device Device.inverter (by simp [Device.inverter, Device.gate])

theorem Stocked.proper {catalog : Catalog} (stocked : catalog.Stocked) :
    ∀ entry ∈ catalog.builders, Proper entry.2 := by
  induction stocked with
  | standard =>
    intro entry member
    rw [List.mem_singleton.mp member]
    exact proper_shiftRegister
  | register typeName dumpType _ proper ih =>
    intro entry member
    rcases List.mem_cons.mp member with rfl | old
    · exact proper
    · exact ih entry old

variable {catalog : Catalog}

theorem Stocked.ofPlacement (stocked : catalog.Stocked) : Proper catalog.ofPlacement := by
  have known (p : Placement) : catalog.ofPlacement p = Logged.refuse (.unknownDumpType p.dumpType) ∨
      ∃ builder, Proper builder ∧ catalog.ofPlacement p = builder p := by
    unfold Catalog.ofPlacement
    split
    · rename_i builder found
      obtain ⟨before, after, builders, _⟩ := List.lookup_eq_some_iff.mp found
      exact .inr ⟨builder, stocked.proper (p.dumpType, builder) (by simp [builders]), rfl⟩
    · exact .inl rfl
  constructor
  · intro p chip made
    rcases known p with unknown | ⟨builder, proper, same⟩
    · rw [unknown] at made
      cases made
    · exact proper.low p chip (same ▸ made)
  · intro p
    rcases known p with unknown | ⟨builder, proper, same⟩
    · rw [unknown]
      exact Logged.refuse_sparesPins trivial
    · exact same ▸ proper.spares p

theorem exists_placement_of_ofType {typeName : String} {x y : Int32} {chip : Chip}
    (made : (catalog.ofType typeName x y).result = .ok chip) : ∃ p, (catalog.ofPlacement p).result = .ok chip := by
  unfold ofType at made
  split at made
  · exact ⟨_, made⟩
  · cases made

theorem Stocked.ofType_sparesPins (stocked : catalog.Stocked) (typeName : String) (x y : Int32) :
    ErrorsIn Failure.SparesPins (catalog.ofType typeName x y).result := by
  unfold ofType
  split
  · exact stocked.ofPlacement.spares _
  · exact Logged.refuse_sparesPins trivial

end Catalog

namespace Board
variable {catalog : Catalog}

/-- Whatever an entry asks with, its chip is made for a placement. -/
theorem exists_placement_of_makeChip {entry : ChipEntry} {chip : Chip}
    (made : (makeChip catalog entry).result = .ok chip) : ∃ p, (catalog.ofPlacement p).result = .ok chip := by
  obtain ⟨_, _, made⟩ := Logged.result_bind_eq_ok_iff.mp made
  split at made
  · obtain ⟨p, _, made⟩ := Logged.result_bind_eq_ok_iff.mp made
    exact ⟨p, made⟩
  · exact Catalog.exists_placement_of_ofType made
  · cases made

theorem makeChip_startsLow (stocked : catalog.Stocked) {entry : ChipEntry} {chip : Chip}
    (made : (makeChip catalog entry).result = .ok chip) : chip.StartsLow := by
  obtain ⟨p, made⟩ := exists_placement_of_makeChip made
  exact stocked.ofPlacement.low p chip made

theorem makeChip_sparesPins (stocked : catalog.Stocked) (entry : ChipEntry) :
    ErrorsIn Failure.SparesPins (makeChip catalog entry).result := by
  refine Logged.errorsIn_bind (errorsIn_ok _) fun _ _ => ?_
  split
  · refine Logged.errorsIn_bind (Logged.errorsIn_ofExcept (Placement.parse_sparesPins _)) fun p _ => ?_
    exact stocked.ofPlacement.spares p
  · exact stocked.ofType_sparesPins _ _ _
  · exact Logged.refuse_sparesPins trivial

end Board

end LogicBoard
