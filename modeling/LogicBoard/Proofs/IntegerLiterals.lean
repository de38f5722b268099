import LogicBoard.Proofs.JsonNumbers

namespace LogicBoard.Text
open Json (Digits)

/-- At least one ASCII digit after an optional plus sign, and the number that the digits denote. -/
inductive NatLiteral : List Char → Nat → Prop
  | plain {digits : List Char} : Digits digits → NatLiteral digits (ofDigits digits)
  | plus {digits : List Char} : Digits digits → NatLiteral ('+' :: digits) (ofDigits digits)

/-- At least one ASCII digit after an optional sign, and the number that sign and digits denote. -/
inductive IntLiteral : List Char → Int → Prop
  | ofNat {text : List Char} {n : Nat} : NatLiteral text n → IntLiteral text n
  | minus {digits : List Char} : Digits digits → IntLiteral ('-' :: digits) (-(ofDigits digits : Int))

section
variable {text : List Char}

theorem digits?_eq_some_iff {n : Nat} : digits? text = some n ↔ Digits text ∧ ofDigits text = n := by
  simp [digits?, Digits]

theorem not_digits_cons {c : Char} (other : c.isDigit = false) : ¬Digits (c :: text) := by
  rintro ⟨_, all⟩
  simpa [other] using all c List.mem_cons_self

theorem natLiteral?_eq_some_iff {n : Nat} : natLiteral? text = some n ↔ NatLiteral text n := by
  constructor
  · intro reads
    unfold natLiteral? at reads
    split at reads
    · obtain ⟨digits, rfl⟩ := digits?_eq_some_iff.mp reads
      exact .plus digits
    · obtain ⟨digits, rfl⟩ := digits?_eq_some_iff.mp reads
      exact .plain digits
  · intro literal
    cases literal with
    | plain digits =>
      unfold natLiteral?
      split
      · exact absurd digits (not_digits_cons rfl)
      · exact digits?_eq_some_iff.mpr ⟨digits, rfl⟩
    | plus digits => exact digits?_eq_some_iff.mpr ⟨digits, rfl⟩

theorem intLiteral?_eq_some_iff {n : Int} : intLiteral? text = some n ↔ IntLiteral text n := by
  constructor
  · intro reads
    unfold intLiteral? at reads
    split at reads
    · rename_i rest
      obtain ⟨m, found, rfl⟩ : ∃ m : Nat, digits? rest = some m ∧ -(m : Int) = n := by
        simpa [Option.bind_eq_some_iff] using reads
      obtain ⟨digits, rfl⟩ := digits?_eq_some_iff.mp found
      exact .minus digits
    · obtain ⟨m, found, rfl⟩ := Option.map_eq_some_iff.mp reads
      exact .ofNat (natLiteral?_eq_some_iff.mp found)
  · intro literal
    cases literal with
    | ofNat literal =>
      unfold intLiteral?
      split
      · -- A minus sign is no digit, so nothing that it starts is a literal without a sign.
        cases literal with
        | plain digits => exact absurd digits (not_digits_cons rfl)
      · rw [natLiteral?_eq_some_iff.mpr literal]
        rfl
    | minus digits => simp [intLiteral?, digits?_eq_some_iff.mpr ⟨digits, rfl⟩]

theorem uint32Literal?_eq_some_iff {w : UInt32} : uint32Literal? text = some w ↔ NatLiteral text w.toNat := by
  simp [uint32Literal?, Option.bind_eq_some_iff, natLiteral?_eq_some_iff, Word.uint32?_eq_some_iff]

theorem int32Literal?_eq_some_iff {w : Int32} : int32Literal? text = some w ↔ IntLiteral text w.toInt := by
  simp [int32Literal?, Option.bind_eq_some_iff, intLiteral?_eq_some_iff, Word.int32?_eq_some_iff]

end

end LogicBoard.Text
