import LogicBoard.BoardError
import LogicBoard.Text.Blank
import LogicBoard.Voltage

namespace LogicBoard

/-- Where and how a chip is placed, as one line of text gives it. -/
structure Placement where
  dumpType : UInt32
  x : Int32
  y : Int32
  x2 : Int32
  y2 : Int32
  flags : UInt32
  /-- Saved levels of the outputs. A chip makes its outputs from its own state, so they are never restored. -/
  levels : List Level

namespace Placement
open Text

def atPoint (dumpType : UInt32) (x y : Int32) : Placement := ⟨dumpType, x, y, x, y, 0, []⟩

/-- The next token as the number that the field asks for. -/
def number {α : Type} (literal? : List Char → Option α) (field : Field) :
    List (List Char) → Except BoardError (α × List (List Char))
  | [] => .error (.missingField field)
  | token :: rest =>
    match literal? token with
    | some value => .ok (value, rest)
    | none => .error (.invalidNumber field (String.ofList token))

def levelsOf : List (List Char) → Except BoardError (List Level)
  | [] => .ok []
  | token :: rest =>
    match Level.ofToken? token with
    | some level => (levelsOf rest).map (level :: ·)
    | none => .error (.invalidLevel (String.ofList token))

/-- Six numbers and then any number of levels. The first token that is at fault or missing decides the error. -/
def ofTokens (line : List (List Char)) : Except BoardError Placement := do
  let (dumpType, line) ← number uint32Literal? .type line
  let (x, line) ← number int32Literal? .x line
  let (y, line) ← number int32Literal? .y line
  let (x2, line) ← number int32Literal? .x2 line
  let (y2, line) ← number int32Literal? .y2 line
  let (flags, line) ← number uint32Literal? .flags line
  let levels ← levelsOf line
  return { dumpType, x, y, x2, y2, flags, levels }

def parse (line : String) : Except BoardError Placement := ofTokens (tokens line.toList)

def levelToken : Level → List Char
  | .low => "false".toList
  | .high => "true".toList

/-- The tokens of the line that `parse` reads back. -/
def toTokens (p : Placement) : List (List Char) :=
  [decimal p.dumpType.toNat, signed p.x.toInt, signed p.y.toInt, signed p.x2.toInt, signed p.y2.toInt,
    decimal p.flags.toNat] ++ p.levels.map levelToken

def line (p : Placement) : String := String.ofList (spaced p.toTokens)

theorem number_cons {α : Type} {literal? : List Char → Option α} {token : List Char} {value : α} (field : Field)
    (reads : literal? token = some value) (rest : List (List Char)) :
    number literal? field (token :: rest) = .ok (value, rest) := by
  simp [number, reads]

theorem levelsOf_levelToken (levels : List Level) : levelsOf (levels.map levelToken) = .ok levels := by
  induction levels with
  | nil => rfl
  | cons level levels ih =>
    have reads : Level.ofToken? (levelToken level) = some level := by cases level <;> rfl
    simp [levelsOf, reads, ih, Except.map]

theorem ofTokens_toTokens (p : Placement) : ofTokens p.toTokens = .ok p := by
  simp [ofTokens, toTokens, number_cons _ (uint32Literal?_decimal _), number_cons _ (int32Literal?_signed _),
    levelsOf_levelToken, bind, Except.bind, pure, Except.pure]

theorem decimal_solid (n : Nat) : decimal n ≠ [] ∧ ∀ c ∈ decimal n, isBlank c = false :=
  ⟨Nat.toDigits_ne_nil, fun _ member =>
    isBlank_of_isDigit (Nat.isDigit_of_mem_toDigits (by decide) (by decide) member)⟩

theorem signed_solid (n : Int) : signed n ≠ [] ∧ ∀ c ∈ signed n, isBlank c = false := by
  cases n with
  | ofNat n => exact decimal_solid n
  | negSucc n =>
    refine ⟨by simp [signed], fun c member => ?_⟩
    rcases List.mem_cons.mp member with sign | digit
    · subst sign
      decide
    · exact (decimal_solid _).2 c digit

theorem levelToken_solid (level : Level) : levelToken level ≠ [] ∧ ∀ c ∈ levelToken level, isBlank c = false := by
  have letters : (levelToken level).all (!isBlank ·) = true := by cases level <;> rfl
  refine ⟨by cases level <;> simp [levelToken], fun c member => ?_⟩
  simpa using List.all_eq_true.mp letters c member

theorem toTokens_solid (p : Placement) : ∀ word ∈ p.toTokens, word ≠ [] ∧ ∀ c ∈ word, isBlank c = false := by
  intro word member
  simp only [toTokens, List.cons_append, List.nil_append, List.mem_cons, List.mem_map] at member
  rcases member with rfl | rfl | rfl | rfl | rfl | rfl | ⟨level, _, rfl⟩
  · exact decimal_solid _
  · exact signed_solid _
  · exact signed_solid _
  · exact signed_solid _
  · exact signed_solid _
  · exact decimal_solid _
  · exact levelToken_solid level

theorem tokens_line (p : Placement) : tokens p.line.toList = p.toTokens := by
  rw [line, String.toList_ofList, tokens_spaced p.toTokens_solid]

/-- The tokens behind the six numbers, which are for the levels. -/
def levelTokens (line : String) : List (List Char) := (tokens line.toList).drop 6

theorem levelTokens_line (p : Placement) : levelTokens p.line = p.levels.map levelToken := by
  rw [levelTokens, tokens_line]
  rfl

/-- Each line that `line` writes is read back as the placement that it was written for. -/
theorem parse_line (p : Placement) : parse p.line = .ok p := by
  rw [parse, tokens_line, ofTokens_toTokens]

end Placement

end LogicBoard
