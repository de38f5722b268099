import LogicBoard.Json.Skip
import LogicBoard.Proofs.JsonLayout

namespace LogicBoard.Json

/-- A hexadecimal digit in upper or lower case. -/
def hexChar (upper : Bool) (n : Nat) : Char := if upper then (Nat.digitChar n).toUpper else Nat.digitChar n

/-- Four hexadecimal digits for a number of 16 bits, each of them in either case. -/
inductive Quad : Nat → List Char → Prop
  | digits {n : Nat} (a b c d : Bool) : n < 0x10000 →
      Quad n [hexChar a (n / 0x1000), hexChar b (n / 0x100 % 16), hexChar c (n / 0x10 % 16), hexChar d (n % 16)]

/-- The letters of the short escapes, with the characters that they stand for. -/
def shortEscapes : List (Char × Char) :=
  [('"', '"'), ('\\', '\\'), ('/', '/'), ('b', '\x08'), ('f', '\x0c'), ('n', '\n'), ('r', '\r'), ('t', '\t')]

/-- A character that may stand for itself in a string. -/
def Plain (c : Char) : Prop := 0x20 ≤ c.toNat ∧ c ≠ '"' ∧ c ≠ '\\'

instance (c : Char) : Decidable (Plain c) := inferInstanceAs (Decidable (0x20 ≤ c.toNat ∧ c ≠ '"' ∧ c ≠ '\\'))

/-- The ways to write a character in a string. Those beyond 16 bits are escaped as a pair of surrogates. -/
inductive Spells : Char → List Char → Prop
  | plain {c : Char} : Plain c → Spells c [c]
  | short {letter c : Char} : (letter, c) ∈ shortEscapes → Spells c ['\\', letter]
  | unit {c : Char} {quad : List Char} : Quad c.toNat quad → Spells c ('\\' :: 'u' :: quad)
  | surrogates {c : Char} {high low : List Char} : 0x10000 ≤ c.toNat →
      Quad (0xD800 + (c.toNat - 0x10000) / 0x400) high → Quad (0xDC00 + (c.toNat - 0x10000) % 0x400) low →
      Spells c ('\\' :: 'u' :: high ++ '\\' :: 'u' :: low)

/-- The parts of a string of which nothing but the form matters. A surrogate may be escaped without its partner. -/
inductive SpellsAny : List Char → Prop
  | plain {c : Char} : Plain c → SpellsAny [c]
  | short {letter c : Char} : (letter, c) ∈ shortEscapes → SpellsAny ['\\', letter]
  | unit {n : Nat} {quad : List Char} : Quad n quad → SpellsAny ('\\' :: 'u' :: quad)

/-- A text in quotes, its characters written in any of the ways there are. -/
def WritesText (s : String) (text : List Char) : Prop :=
  ∃ parts, List.Forall₂ Spells s.toList parts ∧ text = '"' :: parts.flatten ++ ['"']

/-- Anything that has the form of a string. -/
def FormsText (text : List Char) : Prop :=
  ∃ parts : List (List Char), (∀ part ∈ parts, SpellsAny part) ∧ text = '"' :: parts.flatten ++ ['"']

theorem hexDigit?_hexChar (upper : Bool) {n : Nat} (within : n < 16) : hexDigit? (hexChar upper n) = some n := by
  have digits : ∀ upper : Bool, ∀ n : Fin 16, hexDigit? (hexChar upper n) = some n.val := by decide
  exact digits upper ⟨n, within⟩

theorem Quad.exists_digits {n : Nat} {quad : List Char} (digits : Quad n quad) :
    ∃ a b c d, quad = [a, b, c, d] ∧ hexQuad? a b c d = some n := by
  obtain ⟨a, b, c, d, within⟩ := digits
  refine ⟨_, _, _, _, rfl, ?_⟩
  rw [hexQuad?, hexDigit?_hexChar a (by omega), hexDigit?_hexChar b (by omega), hexDigit?_hexChar c (by omega),
    hexDigit?_hexChar d (by omega)]
  exact congrArg some (by omega)

theorem shortEscape?_of_mem {letter c : Char} (known : (letter, c) ∈ shortEscapes) :
    letter ≠ 'u' ∧ shortEscape? letter = some c := by
  have all : ∀ entry ∈ shortEscapes, entry.1 ≠ 'u' ∧ shortEscape? entry.1 = some entry.2 := by decide
  exact all _ known

theorem toNat_scalar (c : Char) : c.toNat < 0xD800 ∨ 0xDFFF < c.toNat ∧ c.toNat < 0x110000 := c.valid

/-- A character that is a code unit is no surrogate. -/
theorem not_surrogate (c : Char) : isHighSurrogate c.toNat = false ∧ isLowSurrogate c.toNat = false := by
  have scalar := toNat_scalar c
  constructor <;> simp only [isHighSurrogate, isLowSurrogate, Bool.and_eq_false_iff, decide_eq_false_iff_not] <;> omega

theorem ofSurrogates_of_char {c : Char} (beyond : 0x10000 ≤ c.toNat) :
    ofSurrogates (0xD800 + (c.toNat - 0x10000) / 0x400) (0xDC00 + (c.toNat - 0x10000) % 0x400) = c := by
  have together : 0x10000 + (0xD800 + (c.toNat - 0x10000) / 0x400 - 0xD800) * 0x400 +
      (0xDC00 + (c.toNat - 0x10000) % 0x400 - 0xDC00) = c.toNat := by
    omega
  rw [ofSurrogates, together, Char.ofNat_toNat]

theorem readText_spells {c : Char} {part : List Char} (spells : Spells c part) (done rest : List Char) :
    readText done (part ++ rest) = readText (c :: done) rest := by
  cases spells with
  | plain plain =>
    obtain ⟨printable, quote, backslash⟩ := plain
    rw [List.cons_append, List.nil_append, readText]
    · rw [if_neg (Nat.not_lt.mpr printable)]
    · exact quote
    all_goals simp [backslash]
  | short known =>
    obtain ⟨other, stands⟩ := shortEscape?_of_mem known
    rw [List.cons_append, List.cons_append, List.nil_append, readText]
    · rw [stands]
    all_goals simp [other]
  | unit quad =>
    obtain ⟨a, b, c', d, rfl, digits⟩ := quad.exists_digits
    obtain ⟨high, low⟩ := not_surrogate c
    simp only [List.cons_append, List.nil_append]
    rw [readText, digits]
    simp only [high, low, Char.ofNat_toNat]
    rfl
  | surrogates beyond high low =>
    have scalar := toNat_scalar c
    obtain ⟨a, b, c', d, rfl, first⟩ := high.exists_digits
    obtain ⟨e, f, g, h, rfl, second⟩ := low.exists_digits
    have isHigh : isHighSurrogate (0xD800 + (c.toNat - 0x10000) / 0x400) = true := by
      simp only [isHighSurrogate, Bool.and_eq_true, decide_eq_true_eq]
      omega
    have notLow : isLowSurrogate (0xD800 + (c.toNat - 0x10000) / 0x400) = false := by
      simp only [isLowSurrogate, Bool.and_eq_false_iff, decide_eq_false_iff_not]
      omega
    have isLow : isLowSurrogate (0xDC00 + (c.toNat - 0x10000) % 0x400) = true := by
      simp only [isLowSurrogate, Bool.and_eq_true, decide_eq_true_eq]
      omega
    simp only [List.cons_append, List.nil_append]
    rw [readText, first]
    simp only [notLow, isHigh, second, isLow]
    rw [ofSurrogates_of_char beyond]
    rfl

theorem readText_flatten {chars : List Char} {parts : List (List Char)} (spells : List.Forall₂ Spells chars parts)
    (done rest : List Char) :
    readText done (parts.flatten ++ '"' :: rest) = .ok (String.ofList (done.reverse ++ chars), rest) := by
  induction spells generalizing done with
  | nil =>
    rw [List.append_nil]
    rfl
  | cons first _ ih =>
    rw [List.flatten_cons, List.append_assoc, readText_spells first, ih, List.reverse_cons, List.append_assoc]
    rfl

theorem skipText_part {part : List Char} (spells : SpellsAny part) (rest : List Char) :
    skipText (part ++ rest) = skipText rest := by
  cases spells with
  | plain plain =>
    obtain ⟨printable, quote, backslash⟩ := plain
    rw [List.cons_append, List.nil_append, skipText]
    · rw [if_neg (Nat.not_lt.mpr printable)]
    · exact quote
    all_goals simp [backslash]
  | short known =>
    obtain ⟨other, stands⟩ := shortEscape?_of_mem known
    rw [List.cons_append, List.cons_append, List.nil_append, skipText]
    · rw [stands]
      rfl
    all_goals simp [other]
  | unit quad =>
    obtain ⟨a, b, c, d, rfl, digits⟩ := quad.exists_digits
    simp only [List.cons_append, List.nil_append]
    rw [skipText, digits]

theorem skipText_flatten {parts : List (List Char)} (forms : ∀ part ∈ parts, SpellsAny part) (rest : List Char) :
    skipText (parts.flatten ++ '"' :: rest) = .ok ((), rest) := by
  induction parts with
  | nil => rfl
  | cons part parts ih =>
    obtain ⟨here, later⟩ := List.forall_mem_cons.mp forms
    rw [List.flatten_cons, List.append_assoc, skipText_part here, ih later]

theorem WritesText.head {s : String} {text : List Char} (writes : WritesText s text) : text.head? = some '"' := by
  obtain ⟨_, _, rfl⟩ := writes
  rfl

theorem reads_text {s : String} {text : List Char} (writes : WritesText s text) : Reads Reader.text s text := by
  obtain ⟨parts, spells, rfl⟩ := writes
  refine ⟨⟨_, _, rfl, by decide, by decide, by decide⟩, fun blank rest spaces _ => ?_⟩
  rw [List.append_assoc, List.cons_append, List.cons_append, List.append_assoc, Reader.text,
    Reader.peek_bind spaces (by decide)]
  change readText [] (parts.flatten ++ '"' :: rest) = _
  rw [readText_flatten spells, List.reverse_nil, List.nil_append, String.ofList_toList]

theorem writesText_plain {s : String} (plain : ∀ c ∈ s.toList, Plain c) : WritesText s ('"' :: s.toList ++ ['"']) := by
  refine ⟨s.toList.map fun c => [c], ?_, ?_⟩
  · rw [List.forall₂_map_right_iff, List.forall₂_same]
    exact fun c member => .plain (plain c member)
  · rw [← List.flatMap_def, List.flatMap_singleton']

/-- Every character can be written in digits. -/
theorem exists_spells (c : Char) : ∃ part, Spells c part := by
  by_cases short : c.toNat < 0x10000
  · exact ⟨_, .unit (.digits false false false false short)⟩
  · have valid : c.toNat < 0xD800 ∨ 0xDFFF < c.toNat ∧ c.toNat < 0x110000 := c.valid
    exact ⟨_, .surrogates (Nat.le_of_not_lt short) (.digits false false false false (by omega))
      (.digits false false false false (by omega))⟩

theorem exists_writesText (s : String) : ∃ text, WritesText s text := by
  choose part spells using exists_spells
  refine ⟨_, s.toList.map part, ?_, rfl⟩
  rw [List.forall₂_map_right_iff, List.forall₂_same]
  exact fun c _ => spells c

end LogicBoard.Json
