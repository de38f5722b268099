import LogicBoard.Placement
import LogicBoard.Proofs.IntegerLiterals
import LogicBoard.Proofs.TokenSplit

namespace LogicBoard
open Text

namespace Field

/-- The fields in the order of the line. -/
def order : List Field := [type, x, y, x2, y2, flags]

/-- The token is a number of the kind that the field takes: without a sign or with a plus for the type and the flags, and
with any sign for the coordinates, of 32 bits in both cases. -/
def Denotes (field : Field) (token : List Char) (n : Int) : Prop :=
  match field with
  | type | flags => ∃ m : Nat, NatLiteral token m ∧ m ≤ 4294967295 ∧ n = m
  | x | y | x2 | y2 => IntLiteral token n ∧ -2147483648 ≤ n ∧ n ≤ 2147483647

theorem unsigned_iff {token : List Char} {n : Int} :
    (∃ m : Nat, NatLiteral token m ∧ m ≤ 4294967295 ∧ n = m) ↔
      ∃ w, uint32Literal? token = some w ∧ (w.toNat : Int) = n := by
  simp only [uint32Literal?_eq_some_iff]
  constructor
  · rintro ⟨m, literal, below, rfl⟩
    have same : (UInt32.ofNat m).toNat = m := UInt32.toNat_ofNat_of_lt' (by simp only [UInt32.size]; omega)
    exact ⟨.ofNat m, same.symm ▸ literal, congrArg _ same⟩
  · rintro ⟨w, literal, rfl⟩
    have upper := w.toNat_lt
    exact ⟨w.toNat, literal, by omega, rfl⟩

theorem signed_iff {token : List Char} {n : Int} :
    (IntLiteral token n ∧ -2147483648 ≤ n ∧ n ≤ 2147483647) ↔ ∃ w, int32Literal? token = some w ∧ w.toInt = n := by
  simp only [int32Literal?_eq_some_iff]
  constructor
  · rintro ⟨literal, lower, upper⟩
    have same : (Int32.ofInt n).toInt = n := by
      rw [Int32.toInt_ofInt]
      exact Int.bmod_eq_of_le (by simp only [Int32.size]; omega) (by simp only [Int32.size]; omega)
    exact ⟨.ofInt n, same.symm ▸ literal, same⟩
  · rintro ⟨w, literal, rfl⟩
    have lower := w.le_toInt
    have upper := w.toInt_lt
    exact ⟨literal, by omega, by omega⟩

end Field

namespace Placement

/-- The number that the placement has for a field. -/
def value (p : Placement) : Field → Int
  | .type => p.dumpType.toNat
  | .x => p.x.toInt
  | .y => p.y.toInt
  | .x2 => p.x2.toInt
  | .y2 => p.y2.toInt
  | .flags => p.flags.toNat

/-- The words are the numbers of a placement for the fields and then its levels, each in order. -/
structure Spells (fields : List Field) (words : List (List Char)) (p : Placement) : Prop where
  numbers : List.Forall₂ (fun field token => field.Denotes token (p.value field)) fields (words.take fields.length)
  levels : List.Forall₂ (fun token level => Level.ofToken? token = some level) (words.drop fields.length) p.levels

/-- There are six numbers of the right kinds, and all that follows is levels. -/
structure Grammatical (words : List (List Char)) : Prop where
  length : 6 ≤ words.length
  numbers : ∀ (i : Nat) (field : Field) (token : List Char),
    Field.order[i]? = some field → words[i]? = some token → ∃ n, field.Denotes token n
  levels : ∀ (i : Nat) (token : List Char), 6 ≤ i → words[i]? = some token → ∃ level, Level.ofToken? token = some level

/-- What is at fault at one place of a line that has numbers for the fields and then levels. -/
inductive FaultAt (fields : List Field) (words : List (List Char)) : Nat → BoardError → Prop
  | missing {i : Nat} {field : Field} : fields[i]? = some field → words[i]? = none →
      FaultAt fields words i (.missingField field)
  | number {i : Nat} {field : Field} {token : List Char} : fields[i]? = some field → words[i]? = some token →
      (∀ n, ¬field.Denotes token n) → FaultAt fields words i (.invalidNumber field (String.ofList token))
  | level {i : Nat} {token : List Char} : fields[i]? = none → words[i]? = some token →
      Level.ofToken? token = none → FaultAt fields words i (.invalidLevel (String.ofList token))

/-- The error is a fault that no other one comes before. -/
def FirstFault (fields : List Field) (words : List (List Char)) (error : BoardError) : Prop :=
  ∃ i, FaultAt fields words i error ∧ ∀ j < i, ∀ earlier, ¬FaultAt fields words j earlier

section
variable {fields : List Field} {field : Field} {token : List Char} {words : List (List Char)} {error : BoardError}
  {p : Placement}

theorem spells_cons : Spells (field :: fields) words p ↔
    ∃ token rest, words = token :: rest ∧ field.Denotes token (p.value field) ∧ Spells fields rest p := by
  constructor
  · rintro ⟨numbers, levels⟩
    cases words with
    | nil => cases numbers
    | cons token rest =>
      obtain ⟨first, later⟩ := List.forall₂_cons.mp numbers
      exact ⟨token, rest, rfl, first, later, levels⟩
  · rintro ⟨token, rest, rfl, first, later, levels⟩
    exact ⟨.cons first later, levels⟩

theorem spells_nil : Spells [] words p ↔
    List.Forall₂ (fun token level => Level.ofToken? token = some level) words p.levels :=
  ⟨Spells.levels, fun levels => ⟨.nil, levels⟩⟩

/-- Behind its first word a line is at fault where the rest of it is. -/
theorem faultAt_succ {before : List Field} {i : Nat} (same : before[i + 1]? = fields[i]?) :
    FaultAt before (token :: words) (i + 1) error ↔ FaultAt fields words i error := by
  constructor
  · intro fault
    cases fault with
    | missing atField none => exact .missing (same ▸ atField) none
    | number atField atToken wrong => exact .number (same ▸ atField) atToken wrong
    | level behind atToken wrong => exact .level (same ▸ behind) atToken wrong
  · intro fault
    cases fault with
    | missing atField none => exact .missing (same ▸ atField) none
    | number atField atToken wrong => exact .number (same ▸ atField) atToken wrong
    | level behind atToken wrong => exact .level (same ▸ behind) atToken wrong

/-- The first fault stands in front, or there is none in front and it is the first one behind. -/
theorem firstFault_cons {before : List Field} (same : ∀ i : Nat, before[i + 1]? = fields[i]?) :
    FirstFault before (token :: words) error ↔ FaultAt before (token :: words) 0 error ∨
      (∀ other, ¬FaultAt before (token :: words) 0 other) ∧ FirstFault fields words error := by
  constructor
  · rintro ⟨i, fault, first⟩
    cases i with
    | zero => exact .inl fault
    | succ i =>
      exact .inr ⟨first 0 (Nat.succ_pos i), i, (faultAt_succ (same i)).mp fault, fun j before earlier earlierFault =>
        first (j + 1) (Nat.succ_lt_succ before) earlier ((faultAt_succ (same j)).mpr earlierFault)⟩
  · rintro (fault | ⟨clean, i, fault, first⟩)
    · exact ⟨0, fault, fun j before => absurd before (Nat.not_lt_zero j)⟩
    · refine ⟨i + 1, (faultAt_succ (same i)).mpr fault, fun j before earlier earlierFault => ?_⟩
      cases j with
      | zero => exact clean earlier earlierFault
      | succ j => exact first j (Nat.lt_of_succ_lt_succ before) earlier ((faultAt_succ (same j)).mp earlierFault)

theorem firstFault_missing : FirstFault (field :: fields) [] error ↔ error = .missingField field := by
  have front : FaultAt (field :: fields) [] 0 (.missingField field) := .missing rfl rfl
  constructor
  · rintro ⟨i, fault, first⟩
    cases i with
    | zero =>
      cases fault with
      | missing atField =>
        cases atField
        rfl
      | number _ atToken => cases atToken
      | level _ atToken => cases atToken
    | succ i => exact absurd front (first 0 (Nat.succ_pos i) _)
  · rintro rfl
    exact ⟨0, front, fun j before => absurd before (Nat.not_lt_zero j)⟩

theorem firstFault_number : FirstFault (field :: fields) (token :: words) error ↔
    (∀ n, ¬field.Denotes token n) ∧ error = .invalidNumber field (String.ofList token) ∨
      (∃ n, field.Denotes token n) ∧ FirstFault fields words error := by
  have front (other : BoardError) : FaultAt (field :: fields) (token :: words) 0 other ↔
      (∀ n, ¬field.Denotes token n) ∧ other = .invalidNumber field (String.ofList token) := by
    constructor
    · intro fault
      cases fault with
      | missing _ none => cases none
      | number atField atToken wrong =>
        cases atField
        cases atToken
        exact ⟨wrong, rfl⟩
      | level behind => cases behind
    · rintro ⟨wrong, rfl⟩
      exact .number rfl rfl wrong
  rw [firstFault_cons fun _ => rfl]
  simp [front]

theorem firstFault_level : FirstFault [] (token :: words) error ↔
    Level.ofToken? token = none ∧ error = .invalidLevel (String.ofList token) ∨
      Level.ofToken? token ≠ none ∧ FirstFault [] words error := by
  have front (other : BoardError) : FaultAt [] (token :: words) 0 other ↔
      Level.ofToken? token = none ∧ other = .invalidLevel (String.ofList token) := by
    constructor
    · intro fault
      cases fault with
      | missing atField => cases atField
      | number atField => cases atField
      | level _ atToken wrong =>
        cases atToken
        exact ⟨wrong, rfl⟩
    · rintro ⟨wrong, rfl⟩
      exact .level rfl rfl wrong
  have same (i : Nat) : ([] : List Field)[i + 1]? = ([] : List Field)[i]? := rfl
  rw [firstFault_cons same]
  simp [front]

theorem not_firstFault_nil : ¬FirstFault [] [] error := by
  rintro ⟨i, fault, _⟩
  cases fault with
  | missing atField => cases atField
  | number atField => cases atField
  | level _ atToken => cases atToken

/-- A line with a fault has a first one. -/
theorem exists_firstFault {i : Nat} (fault : FaultAt fields words i error) :
    ∃ first, FirstFault fields words first := by
  induction i using Nat.strongRecOn generalizing error with
  | ind i ih =>
    by_cases earlier : ∃ j < i, ∃ other, FaultAt fields words j other
    · obtain ⟨j, before, other, fault⟩ := earlier
      exact ih j before fault
    · exact ⟨error, i, fault, fun j before other at_j => earlier ⟨j, before, other, at_j⟩⟩

theorem grammatical_iff : Grammatical words ↔ ∀ i error, ¬FaultAt Field.order words i error := by
  constructor
  · intro grammatical i error fault
    cases fault with
    | missing atField none =>
      have within : i < 6 := (List.getElem?_eq_some_iff.mp atField).1
      have outside := List.getElem?_eq_none_iff.mp none
      have length := grammatical.length
      omega
    | number atField atToken wrong =>
      obtain ⟨n, denotes⟩ := grammatical.numbers i _ _ atField atToken
      exact wrong n denotes
    | level behind atToken wrong =>
      obtain ⟨level, reads⟩ := grammatical.levels i _ (List.getElem?_eq_none_iff.mp behind) atToken
      rw [wrong] at reads
      cases reads
  · intro clean
    refine ⟨?_, fun i field token atField atToken => ?_, fun i token behind atToken => ?_⟩
    · by_contra short
      have within : words.length < Field.order.length := Nat.lt_of_not_le short
      exact clean words.length _ (.missing (List.getElem?_eq_getElem within) (List.getElem?_eq_none (Nat.le_refl _)))
    · by_contra wrong
      exact clean i _ (.number atField atToken (not_exists.mp wrong))
    · by_contra wrong
      exact clean i _ (.level (List.getElem?_eq_none behind) atToken
        (Option.eq_none_iff_forall_ne_some.mpr (not_exists.mp wrong)))

end

section
variable {α : Type} {literal? : List Char → Option α} {words : List (List Char)}

theorem bind_number_eq_ok_iff {field : Field} {more : α × List (List Char) → Except BoardError Placement}
    {p : Placement} : (number literal? field words >>= more) = .ok p ↔
      ∃ token rest, words = token :: rest ∧ ∃ a, literal? token = some a ∧ more (a, rest) = .ok p := by
  cases words with
  | nil => simp [number, bind, Except.bind]
  | cons token rest => cases reads : literal? token <;> simp [number, reads, bind, Except.bind]

/-- A number that is missing or at fault stops the line, and otherwise the rest of the line decides. -/
theorem bind_number_eq_error_iff {field : Field} {fields : List Field}
    {more : α × List (List Char) → Except BoardError Placement} {error : BoardError} {value : α → Int}
    (denotes : ∀ {token n}, field.Denotes token n ↔ ∃ a, literal? token = some a ∧ value a = n)
    (later : ∀ a rest, more (a, rest) = .error error ↔ FirstFault fields rest error) :
    (number literal? field words >>= more) = .error error ↔ FirstFault (field :: fields) words error := by
  cases words with
  | nil => simp [number, bind, Except.bind, firstFault_missing, eq_comm]
  | cons token rest =>
    rw [firstFault_number]
    cases reads : literal? token with
    | none => simp [number, reads, bind, Except.bind, denotes, eq_comm]
    | some a => simp [number, reads, bind, Except.bind, denotes, later]

theorem levelsOf_eq_ok_iff {levels : List Level} : levelsOf words = .ok levels ↔
    List.Forall₂ (fun token level => Level.ofToken? token = some level) words levels := by
  induction words generalizing levels with
  | nil => simp [levelsOf, eq_comm]
  | cons token words ih =>
    cases reads : Level.ofToken? token with
    | none => cases levels <;> simp [levelsOf, reads]
    | some level => 
      cases levels with
      | nil => cases rest : levelsOf words <;> simp [levelsOf, reads, rest, Except.map]
      | cons other levels => cases rest : levelsOf words <;> simp [levelsOf, reads, rest, Except.map, ← ih]

theorem levelsOf_eq_error_iff {error : BoardError} : levelsOf words = .error error ↔ FirstFault [] words error := by
  induction words with
  | nil => simp [levelsOf, not_firstFault_nil]
  | cons token words ih =>
    rw [firstFault_level, ← ih]
    cases reads : Level.ofToken? token with
    | none => simp [levelsOf, reads, eq_comm]
    | some level => cases rest : levelsOf words <;> simp [levelsOf, reads, rest, Except.map]

/-- The six numbers and then the levels, as the placement has them. -/
theorem ofTokens_eq_ok_iff {p : Placement} : ofTokens words = .ok p ↔ Spells Field.order words p := by
  have levels_then {more : List (List Char)} {build : List Level → Placement} :
      (levelsOf more >>= fun levels => pure (build levels)) = .ok p ↔ ∃ levels, levelsOf more = .ok levels ∧
        build levels = p := by
    cases levelsOf more <;> simp [bind, Except.bind, pure, Except.pure]
  simp only [Field.order, spells_cons, spells_nil, Field.Denotes, Field.unsigned_iff, Field.signed_iff, value]
  simp only [Int.natCast_inj, UInt32.toNat_inj, Int32.toInt_inj, exists_eq_right, ofTokens, bind_number_eq_ok_iff,
    levels_then, levelsOf_eq_ok_iff]
  constructor
  · rintro ⟨t1, r1, rfl, dumpType, h1, t2, r2, rfl, x, h2, t3, r3, rfl, y, h3, t4, r4, rfl, x2, h4, t5, r5, rfl, y2, h5,
      t6, r6, rfl, flags, h6, levels, h7, rfl⟩
    exact ⟨t1, _, rfl, h1, t2, _, rfl, h2, t3, _, rfl, h3, t4, _, rfl, h4, t5, _, rfl, h5, t6, _, rfl, h6, h7⟩
  · rintro ⟨t1, r1, rfl, h1, t2, r2, rfl, h2, t3, r3, rfl, h3, t4, r4, rfl, h4, t5, r5, rfl, h5, t6, r6, rfl, h6, h7⟩
    exact ⟨t1, _, rfl, _, h1, t2, _, rfl, _, h2, t3, _, rfl, _, h3, t4, _, rfl, _, h4, t5, _, rfl, _, h5, t6, _, rfl, _, h6,
      _, h7, rfl⟩

theorem ofTokens_eq_error_iff {error : BoardError} :
    ofTokens words = .error error ↔ FirstFault Field.order words error := by
  refine bind_number_eq_error_iff Field.unsigned_iff fun dumpType words => ?_
  refine bind_number_eq_error_iff Field.signed_iff fun x words => ?_
  refine bind_number_eq_error_iff Field.signed_iff fun y words => ?_
  refine bind_number_eq_error_iff Field.signed_iff fun x2 words => ?_
  refine bind_number_eq_error_iff Field.signed_iff fun y2 words => ?_
  refine bind_number_eq_error_iff Field.unsigned_iff fun flags words => ?_
  rw [← levelsOf_eq_error_iff]
  cases read : levelsOf words <;> simp [read, bind, Except.bind, pure, Except.pure]

end

/-- Each line has one way to be set apart into words by white space. It is read as a placement exactly when the words are
six numbers of the right kinds and then levels, and the placement has what they denote, in order. Of any other line the
first word that is missing or at fault decides the error, which names the field and the word. -/
theorem parse_outcome (line : String) : ∃ words, (∀ other, Separated isBlank line.toList other ↔ other = words) ∧
    ((∃ p, parse line = .ok p) ↔ Grammatical words) ∧
    (∀ p, parse line = .ok p ↔ Spells Field.order words p) ∧
    (∀ error, parse line = .error error ↔ FirstFault Field.order words error) ∧
    Field.order.map Field.name = ["type", "x", "y", "x2", "y2", "flags"] := by
  refine ⟨tokens line.toList, fun other => separated_iff, ?_, fun p => ofTokens_eq_ok_iff,
    fun error => ofTokens_eq_error_iff, rfl⟩
  rw [grammatical_iff]
  constructor
  · rintro ⟨p, read⟩ i error fault
    obtain ⟨first, atFault⟩ := exists_firstFault fault
    have failed := ofTokens_eq_error_iff.mpr atFault
    rw [← parse, read] at failed
    cases failed
  · intro clean
    cases read : parse line with
    | ok p => exact ⟨p, rfl⟩
    | error error =>
      obtain ⟨i, fault, _⟩ := ofTokens_eq_error_iff.mp read
      exact absurd fault (clean i error)

/-- A coordinate may have a minus sign and a type may not, and the first word at fault is the one that is reported. -/
example : parse "+189 -0 007 2147483648 -0 no" = .error (.invalidNumber .x2 "2147483648") := by
  rfl

end Placement

end LogicBoard
