namespace LogicBoard.Text

/-- A character is what it is in lower case, or the capital of that. -/
theorem eq_toLower_or_eq_toUpper (c : Char) : c = c.toLower ∨ c = c.toLower.toUpper := by
  by_cases capital : c.val ≥ 'A'.val ∧ c.val ≤ 'Z'.val
  · have range : 65 ≤ c.val.toNat ∧ c.val.toNat ≤ 90 := capital
    have lowered : c.toLower.val.toNat = c.val.toNat + 32 := by
      unfold Char.toLower
      rw [dif_pos capital, UInt32.toNat_add]
      exact Nat.mod_eq_of_lt (Nat.lt_of_le_of_lt (Nat.add_le_add_right range.2 32) (by decide))
    have small : 'a'.val ≤ c.toLower.val ∧ c.toLower.val ≤ 'z'.val := by
      rw [UInt32.le_iff_toNat_le, UInt32.le_iff_toNat_le, lowered]
      exact ⟨Nat.add_le_add_right range.1 32, Nat.add_le_add_right range.2 32⟩
    refine .inr (Char.ext (UInt32.toNat_inj.mp ?_))
    have offset : ('A'.val - 'a'.val).toNat = 2 ^ 32 - 32 := rfl
    unfold Char.toUpper
    rw [dif_pos small, UInt32.toNat_add, lowered, offset]
    omega
  · refine .inl ?_
    unfold Char.toLower
    rw [dif_neg capital]

/-- A word of lower case letters with any of them as a capital. -/
def spellings : List Char → List (List Char)
  | [] => [[]]
  | c :: word => (spellings word).flatMap fun letters => [c :: letters, c.toUpper :: letters]

/-- No other text has the word as its lower case. -/
theorem mem_spellings (text : List Char) : text ∈ spellings (text.map Char.toLower) := by
  induction text with
  | nil => exact List.mem_singleton_self []
  | cons c text ih =>
    refine List.mem_flatMap.mpr ⟨text, ih, ?_⟩
    rcases eq_toLower_or_eq_toUpper c with same | same
    · rw [← same]
      exact List.mem_cons_self
    · rw [← same]
      exact List.mem_cons_of_mem _ List.mem_cons_self

end LogicBoard.Text
