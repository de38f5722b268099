import LogicBoard.Text.Blank

namespace LogicBoard.Text

/-- The text consists of the words in their order and of separators around them. A word is not empty, holds no
separator, and goes on up to a separator or the end of the text. -/
inductive Separated (separates : Char → Bool) : List Char → List (List Char) → Prop
  | gap {gap : List Char} : (∀ c ∈ gap, separates c = true) → Separated separates gap []
  | word {gap word rest : List Char} {words : List (List Char)} :
      (∀ c ∈ gap, separates c = true) → word ≠ [] → (∀ c ∈ word, separates c = false) →
      (∀ c, rest.head? = some c → separates c = true) → Separated separates rest words →
      Separated separates (gap ++ (word ++ rest)) (word :: words)

section
variable {separates : Char → Bool} {text rest : List Char} {words : List (List Char)}

theorem tokensBy_gap {gap : List Char} (blank : ∀ c ∈ gap, separates c = true) (rest : List Char) :
    tokensBy separates (gap ++ rest) = tokensBy separates rest := by
  induction gap with
  | nil => rfl
  | cons c gap ih =>
    obtain ⟨first, later⟩ := List.forall_mem_cons.mp blank
    rw [List.cons_append, tokensBy, if_pos first, ih later]

/-- Words set apart by separators are read back, whatever stands around them. -/
theorem Separated.eq_tokensBy (split : Separated separates text words) : words = tokensBy separates text := by
  induction split with
  | gap blank => simpa [tokensBy] using (tokensBy_gap blank []).symm
  | word blank nonempty solid ends _ ih => rw [tokensBy_gap blank, tokensBy_append nonempty solid ends, ← ih]

/-- A text may start with its first word. -/
theorem Separated.cons {word : List Char} (split : Separated separates rest words) (nonempty : word ≠ [])
    (solid : ∀ c ∈ word, separates c = false) (ends : ∀ c, rest.head? = some c → separates c = true) :
    Separated separates (word ++ rest) (word :: words) :=
  @Separated.word separates [] word rest words (by simp) nonempty solid ends split

theorem Separated.cons_gap (split : Separated separates text words) {c : Char} (blank : separates c = true) :
    Separated separates (c :: text) words := by
  cases split with
  | gap gap => exact .gap (List.forall_mem_cons.mpr ⟨blank, gap⟩)
  | @word before word rest words gap nonempty solid ends split =>
    have longer : ∀ d ∈ c :: before, separates d = true := List.forall_mem_cons.mpr ⟨blank, gap⟩
    exact Separated.word longer nonempty solid ends split

/-- A text that starts with no separator starts with its first word. -/
theorem Separated.cases_head (split : Separated separates text words)
    {c : Char} (first : text.head? = some c) (letter : separates c = false) :
    ∃ word rest later, text = word ++ rest ∧ words = word :: later ∧ (∀ d ∈ word, separates d = false) ∧
      (∀ d, rest.head? = some d → separates d = true) ∧ Separated separates rest later := by
  cases split with
  | gap gap =>
    have blank := gap c (List.mem_of_mem_head? first)
    rw [letter] at blank
    cases blank
  | @word before word rest later gap nonempty solid ends split =>
    cases before with
    | nil => exact ⟨word, rest, later, rfl, rfl, solid, ends, split⟩
    | cons d before =>
      cases first
      have blank := gap c List.mem_cons_self
      rw [letter] at blank
      cases blank

/-- Every text is the tokens that are read from it, set apart by separators. -/
theorem separated_tokensBy (text : List Char) : Separated separates text (tokensBy separates text) := by
  induction text with
  | nil => exact .gap (by simp)
  | cons c rest ih =>
    rw [tokensBy]
    split
    · rename_i blank
      exact ih.cons_gap blank
    · rename_i solid
      have letter : separates c = false := by simpa using solid
      have alone : ∀ d ∈ [c], separates d = false := by simpa using letter
      have apart (other : rest.head?.map separates ≠ some false) :
          Separated separates ([c] ++ rest) ([c] :: tokensBy separates rest) :=
        ih.cons (List.cons_ne_nil c []) alone fun d first => by simpa [first] using other
      -- The character joins the first word of the rest exactly when that word starts at once.
      cases following : rest.head?.map separates with
      | none => exact apart (by simp [following])
      | some blank =>
        cases blank with
        | true => exact apart (by simp [following])
        | false =>
          obtain ⟨d, first, letterD⟩ := Option.map_eq_some_iff.mp following
          obtain ⟨word, after, later, shape, words, letters, ends, split⟩ := ih.cases_head first letterD
          rw [words, shape]
          exact split.cons (List.cons_ne_nil c word) (List.forall_mem_cons.mpr ⟨letter, letters⟩) ends

/-- A text is set apart into words in one way only, and that is how it is read. -/
theorem separated_iff : Separated separates text words ↔ words = tokensBy separates text :=
  ⟨Separated.eq_tokensBy, fun same => same ▸ separated_tokensBy text⟩

end

end LogicBoard.Text
