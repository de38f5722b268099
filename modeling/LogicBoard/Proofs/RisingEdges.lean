import LogicBoard.ShiftRegister

namespace LogicBoard

/-- What one tick reads at the two inputs of a register. -/
structure Sample where
  data : Level
  clock : Level
  deriving DecidableEq

/-- A high clock is a rising edge when the sample is the first one or the clock was low in the one before.
Earlier samples are listed with the latest first, as they are everywhere below. -/
def Sample.IsEdge (sample : Sample) (earlier : List Sample) : Prop :=
  sample.clock = .high ∧ ∀ previous ∈ earlier.head?, previous.clock = .low

instance (sample : Sample) (earlier : List Sample) : Decidable (sample.IsEdge earlier) :=
  inferInstanceAs (Decidable (sample.clock = .high ∧ ∀ previous ∈ earlier.head?, previous.clock = .low))

/-- The data levels at the rising edges, latest first. -/
def risingData : List Sample → List Level
  | [] => []
  | sample :: earlier =>
    if sample.IsEdge earlier then sample.data :: risingData earlier else risingData earlier

/-- What an edge detector waits for once it has seen the samples. -/
def phaseAfter : List Sample → ClockPhase
  | [] => .armed
  | sample :: _ => if sample.clock = .high then .latched else .armed

/-- The newest levels of a history as a word, the newest one in the highest bit. Missing levels are low. -/
def packing : (width : Nat) → List Level → BitVec width
  | 0, _ => 0#0
  | width + 1, history => BitVec.cons (history.headD .low).isHigh (packing width history.tail)

theorem Sample.isEdge_iff_phaseAfter (sample : Sample) (earlier : List Sample) :
    sample.IsEdge earlier ↔ sample.clock = .high ∧ phaseAfter earlier = .armed := by
  refine and_congr_right fun _ => ?_
  cases earlier with
  | nil => simp [phaseAfter]
  | cons previous earlier =>
    cases level : previous.clock <;> simp [phaseAfter, level]

theorem phaseAfter_eq_latched_iff {samples : List Sample} :
    phaseAfter samples = .latched ↔ ∃ sample earlier, samples = sample :: earlier ∧ sample.clock = .high := by
  cases samples with
  | nil => simp [phaseAfter]
  | cons sample earlier =>
    constructor
    · intro latched
      refine ⟨sample, earlier, rfl, ?_⟩
      by_cases high : sample.clock = .high
      · exact high
      · simp [phaseAfter, high] at latched
    · rintro ⟨_, _, same, high⟩
      cases same
      simp [phaseAfter, high]

theorem getMsbD_packing {width k : Nat} (history : List Level) (within : k < width) :
    (packing width history).getMsbD k = (history.getD k .low).isHigh := by
  induction width generalizing history k with
  | zero => omega
  | succ width ih =>
    rw [packing]
    cases k with
    | zero =>
      rw [BitVec.getMsbD_cons_zero]
      cases history <;> rfl
    | succ k =>
      rw [BitVec.getMsbD_cons_succ, ih history.tail (by omega)]
      cases history <;> rfl

theorem getMsbD_eq_getLsbD_of_lt (register : BitVec 8) {k : Nat} (within : k < 8) :
    register.getMsbD k = register.getLsbD (7 - k) := by
  rw [BitVec.getMsbD_eq_getLsbD, decide_eq_true within, Bool.true_and]

@[simp] theorem packing_nil (width : Nat) : packing width [] = 0 := by
  refine BitVec.eq_of_getMsbD_eq fun k within => ?_
  rw [getMsbD_packing [] within, BitVec.ofNat_eq_ofNat, BitVec.getMsbD_zero]
  rfl

/-- Shifting one more level in makes it the newest of the history. -/
theorem shiftIn_packing (history : List Level) (data : Level) :
    ShiftRegister.shiftIn (packing 8 history) data = packing 8 (data :: history) := by
  refine BitVec.eq_of_getMsbD_eq fun k within => ?_
  rw [getMsbD_packing _ within]
  cases k with
  | zero => exact ShiftRegister.getMsbD_shiftIn_zero _ data
  | succ k =>
    rw [ShiftRegister.getMsbD_shiftIn_succ _ data k (by omega), getMsbD_packing history (by omega)]
    rfl

/-- What has dropped out of the newest levels is the newest of the rest. -/
theorem packing_getD_cons_drop (width n : Nat) (history : List Level) :
    packing width (history.getD n .low :: history.drop (n + 1)) = packing width (history.drop n) := by
  refine BitVec.eq_of_getMsbD_eq fun k within => ?_
  rw [getMsbD_packing _ within, getMsbD_packing _ within]
  cases k with
  | zero => simp [List.getD_eq_getElem?_getD]
  | succ k =>
    have place : n + 1 + k = n + (k + 1) := by omega
    simp [List.getD_eq_getElem?_getD, place]

end LogicBoard
