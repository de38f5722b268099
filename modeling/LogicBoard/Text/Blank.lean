namespace LogicBoard.Text

/-- The characters with the `White_Space` property. -/
def isBlank (c : Char) : Bool :=
  let n := c.toNat
  (9 ≤ n && n ≤ 13) || n == 32 || n == 0x85 || n == 0xA0 || n == 0x1680 || (0x2000 ≤ n && n ≤ 0x200A) ||
    n == 0x2028 || n == 0x2029 || n == 0x202F || n == 0x205F || n == 0x3000

/-- The longest runs of characters that are not separators, in order. -/
def tokensBy (separates : Char → Bool) : List Char → List (List Char)
  | [] => []
  | c :: rest =>
    if separates c then tokensBy separates rest
    else
      match rest.head?.map separates, tokensBy separates rest with
      | some false, word :: words => (c :: word) :: words
      | _, words => [c] :: words

def tokens (text : List Char) : List (List Char) := tokensBy isBlank text

/-- The texts one after the other, with a single space between two of them. -/
def spaced : List (List Char) → List Char
  | [] => []
  | [word] => word
  | word :: words => word ++ ' ' :: spaced words

theorem isBlank_of_isDigit {c : Char} (digit : c.isDigit) : isBlank c = false := by
  simp only [Char.isDigit, Bool.and_eq_true, decide_eq_true_eq, UInt32.le_iff_toNat_le] at digit
  have lower : 48 ≤ c.toNat := digit.1
  have upper : c.toNat ≤ 57 := digit.2
  simp only [isBlank, Bool.or_eq_false_iff, Bool.and_eq_false_iff, decide_eq_false_iff_not, beq_eq_false_iff_ne]
  omega

/-- A run without separators that is followed by a separator, or by nothing, is the first token. -/
theorem tokensBy_append {separates : Char → Bool} {word rest : List Char} (nonempty : word ≠ [])
    (solid : ∀ c ∈ word, separates c = false) (ends : ∀ c, rest.head? = some c → separates c = true) :
    tokensBy separates (word ++ rest) = word :: tokensBy separates rest := by
  induction word with
  | nil => exact absurd rfl nonempty
  | cons c word ih =>
    have first : separates c = false := solid c (List.mem_cons_self ..)
    cases word with
    | nil =>
      cases rest with
      | nil => simp [tokensBy, first]
      | cons next after => simp [tokensBy, first, ends next rfl]
    | cons next word =>
      have second : separates next = false := solid next (by simp)
      have later := ih (by simp) fun c member => solid c (List.mem_cons_of_mem _ member)
      rw [List.cons_append, tokensBy, later]
      simp [first, second]

theorem mem_intercalate {between : List Char} {words : List (List Char)} {c : Char}
    (member : c ∈ between.intercalate words) : c ∈ between ∨ ∃ word ∈ words, c ∈ word := by
  induction words with
  | nil => cases member
  | cons word words ih =>
    cases words with
    | nil =>
      rw [List.intercalate_singleton] at member
      exact .inr ⟨word, List.mem_cons_self, member⟩
    | cons next words =>
      rw [List.intercalate_cons_cons, List.mem_append, List.mem_append] at member
      obtain (here | inside) | there := member
      · exact .inr ⟨word, List.mem_cons_self, here⟩
      · exact .inl inside
      · exact (ih there).imp_right fun ⟨other, inWords, inOther⟩ => ⟨other, List.mem_cons_of_mem _ inWords, inOther⟩

/-- Tokens are read back from the text that sets them apart by single separators. -/
theorem tokensBy_intercalate {separates : Char → Bool} {separator : Char} (apart : separates separator = true)
    {words : List (List Char)} (solid : ∀ word ∈ words, word ≠ [] ∧ ∀ c ∈ word, separates c = false) :
    tokensBy separates ([separator].intercalate words) = words := by
  induction words with
  | nil => rfl
  | cons word words ih =>
    obtain ⟨nonempty, chars⟩ := solid word (List.mem_cons_self ..)
    have later := ih fun word member => solid word (List.mem_cons_of_mem _ member)
    cases words with
    | nil =>
      have alone : tokensBy separates (word ++ []) = word :: tokensBy separates [] :=
        tokensBy_append nonempty chars (by simp)
      simpa [tokensBy] using alone
    | cons next words =>
      rw [List.intercalate_cons_cons, List.append_assoc, tokensBy_append nonempty chars (by simp [apart]),
        List.singleton_append, tokensBy, if_pos apart, later]

theorem spaced_eq_intercalate (words : List (List Char)) : spaced words = [' '].intercalate words := by
  induction words with
  | nil => rfl
  | cons word words ih =>
    cases words with
    | nil => simp [spaced]
    | cons next words =>
      have apart : spaced (word :: next :: words) = word ++ ' ' :: spaced (next :: words) := rfl
      rw [apart, ih, List.intercalate_cons_cons, List.append_assoc, List.singleton_append]

theorem tokens_spaced {words : List (List Char)}
    (solid : ∀ word ∈ words, word ≠ [] ∧ ∀ c ∈ word, isBlank c = false) : tokens (spaced words) = words := by
  rw [spaced_eq_intercalate]
  exact tokensBy_intercalate (by decide) solid

end LogicBoard.Text
