namespace LogicBoard.Word

/-- The integer as a signed word of 32 bits, when it is one. -/
def int32? (n : Int) : Option Int32 :=
  if -2147483648 ≤ n ∧ n ≤ 2147483647 then some (Int32.ofInt n) else none

/-- The number as an unsigned word of 32 bits, when it is one. -/
def uint32? (n : Nat) : Option UInt32 := if n ≤ 4294967295 then some (UInt32.ofNat n) else none

/-- Whether the number fits an unsigned word of 64 bits. -/
def fits64 (n : Nat) : Bool := decide (n ≤ 18446744073709551615)

theorem fits64_of_le {m n : Nat} (le : m ≤ n) (fits : fits64 n) : fits64 m :=
  decide_eq_true (Nat.le_trans le (of_decide_eq_true fits))

theorem int32?_eq_some_iff {n : Int} {w : Int32} : int32? n = some w ↔ w.toInt = n := by
  have lower := w.le_toInt
  have upper := w.toInt_lt
  unfold int32?
  split
  · rename_i within
    have same : (Int32.ofInt n).toInt = n := by
      rw [Int32.toInt_ofInt]
      exact Int.bmod_eq_of_le (by simp only [Int32.size]; omega) (by simp only [Int32.size]; omega)
    constructor
    · intro found
      cases found
      exact same
    · intro value
      rw [Option.some.injEq, ← Int32.toInt_inj, same, value]
  · constructor
    · intro found
      cases found
    · intro value
      omega

theorem uint32?_eq_some_iff {n : Nat} {w : UInt32} : uint32? n = some w ↔ w.toNat = n := by
  have upper := w.toNat_lt
  unfold uint32?
  split
  · rename_i within
    have same : (UInt32.ofNat n).toNat = n := UInt32.toNat_ofNat_of_lt' (by simp only [UInt32.size]; omega)
    constructor
    · intro found
      cases found
      exact same
    · intro value
      rw [Option.some.injEq, ← UInt32.toNat_inj, same, value]
  · constructor
    · intro found
      cases found
    · intro value
      omega

end LogicBoard.Word
