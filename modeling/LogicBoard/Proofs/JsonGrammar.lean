import LogicBoard.Proofs.JsonNumbers
import LogicBoard.Proofs.JsonStrings

namespace LogicBoard.Json

/-- A member of an object as it stands in a text, with the white space on both sides of its colon. -/
structure Entry where
  key : List Char
  before : List Char
  after : List Char
  value : List Char

namespace Entry

def text (entry : Entry) : List Char := entry.key ++ (entry.before ++ ':' :: (entry.after ++ entry.value))

def Spaced (entry : Entry) : Prop := Spaces entry.before ∧ Spaces entry.after

end Entry

def words : List (List Char) := [['n', 'u', 'l', 'l'], ['t', 'r', 'u', 'e'], ['f', 'a', 'l', 's', 'e']]

/-- The texts that have the form of a value. Numbers may have any size and surrogates may stand alone. -/
inductive WellFormed : List Char → Prop
  | word {text : List Char} : text ∈ words → WellFormed text
  | number {text : List Char} : FormsNumber text → WellFormed text
  | text {text : List Char} : FormsText text → WellFormed text
  | list {parts : List (List Char)} {text : List Char} : Enclosed '[' ']' parts text →
      (∀ part ∈ parts, WellFormed part) → WellFormed text
  | object {entries : List Entry} {text : List Char} : Enclosed '\x7b' '\x7d' (entries.map Entry.text) text →
      (∀ entry ∈ entries, FormsText entry.key ∧ entry.Spaced) → (∀ entry ∈ entries, WellFormed entry.value) →
      WellFormed text

namespace Reader

/-- Some number of steps, no more than the text has characters, takes a value that is due. -/
def Skips (text : List Char) : Prop :=
  ∃ steps, steps ≤ text.length ∧ ∀ bound stack blank rest, Spaces blank → Follows rest →
    skipFrom (bound + steps) true stack (blank ++ (text ++ rest)) = skipFrom bound false stack rest

/-- The same for a part of a container, which may have to be led in by its key. -/
def SkipsIn (container : Enclosing) (part : List Char) : Prop :=
  ∃ steps, steps ≤ part.length ∧ ∀ bound stack blank rest, Spaces blank → Follows rest →
    (skipLead container >>= fun _ => skipFrom (bound + steps) true stack) (blank ++ (part ++ rest)) =
      skipFrom bound false stack rest

section
variable {bound : Nat} {outer : List Enclosing} {container : Enclosing} {blank rest : List Char}

theorem skipFrom_comma (spaces : Spaces blank) :
    skipFrom (bound + 1) false (container :: outer) (blank ++ ',' :: rest) =
      (skipLead container >>= fun _ => skipFrom bound true (container :: outer)) rest := by
  rw [skipFrom, peek_bind spaces (by decide)]
  rfl

theorem skipFrom_closing (spaces : Spaces blank) :
    skipFrom (bound + 1) false (container :: outer) (blank ++ container.closing :: rest) =
      skipFrom bound false outer rest := by
  rw [skipFrom, peek_bind spaces (by cases container <;> decide)]
  cases container <;> rfl

theorem closing_mem (container : Enclosing) : container.closing ∈ [',', ']', '\x7d'] := by
  cases container <;> decide

/-- The parts of a container, up to and with its closing bracket. -/
theorem skips_commas {parts : List (List Char)} {inner : List Char} (commas : Commas parts inner)
    (skips : ∀ part ∈ parts, SkipsIn container part) :
    ∃ steps, steps ≤ inner.length + 1 ∧ ∀ bound outer blank rest, Spaces blank →
      (skipLead container >>= fun _ => skipFrom (bound + steps) true (container :: outer))
        (blank ++ (inner ++ container.closing :: rest)) = skipFrom bound false outer rest := by
  induction commas with
  | @last before part after inFront behind =>
    obtain ⟨steps, few, here⟩ := skips part List.mem_cons_self
    refine ⟨steps + 1, ?_, fun bound outer blank rest spaces => ?_⟩
    · simp only [List.length_append]
      omega
    · have both : Spaces (blank ++ before) := List.forall_mem_append.mpr ⟨spaces, inFront⟩
      have follows : Follows (after ++ container.closing :: rest) :=
        behind.follows (follows_cons (closing_mem container) rest)
      have taken := here (bound + 1) (container :: outer) _ _ both follows
      have sum : bound + (steps + 1) = bound + 1 + steps := by omega
      rw [skipFrom_closing behind] at taken
      rw [sum]
      simpa only [List.append_assoc] using taken
  | @more before part after text parts inFront behind _ ih =>
    obtain ⟨here, others⟩ := List.forall_mem_cons.mp skips
    obtain ⟨steps, few, here⟩ := here
    obtain ⟨later, fewLater, there⟩ := ih others
    refine ⟨steps + 1 + later, ?_, fun bound outer blank rest spaces => ?_⟩
    · simp only [List.length_append, List.length_cons]
      omega
    · have both : Spaces (blank ++ before) := List.forall_mem_append.mpr ⟨spaces, inFront⟩
      have follows : Follows (after ++ ',' :: (text ++ container.closing :: rest)) :=
        behind.follows (follows_cons (by simp) _)
      have taken := here (bound + later + 1) (container :: outer) _ _ both follows
      have remaining := there bound outer [] rest spaces_nil
      rw [List.nil_append] at remaining
      rw [skipFrom_comma behind, remaining] at taken
      have sum : bound + (steps + 1 + later) = bound + later + 1 + steps := by omega
      rw [sum]
      simpa only [List.append_assoc, List.cons_append] using taken

end

end Reader

/-- The white space in front of the first part can be told apart. -/
theorem Commas.trimmed {parts : List (List Char)} {inner : List Char} (commas : Commas parts inner)
    (solid : ∀ part ∈ parts, Solid part) : ∃ blank rest, Spaces blank ∧ inner = blank ++ rest ∧ Solid rest ∧
      Commas parts rest := by
  cases commas with
  | @last before part after inFront behind =>
    obtain ⟨c, tail, rfl, starts⟩ := solid part List.mem_cons_self
    refine ⟨before, c :: tail ++ after, inFront, List.append_assoc .., ⟨c, _, rfl, starts⟩, ?_⟩
    exact .last spaces_nil behind
  | @more before part after text parts inFront behind others =>
    obtain ⟨c, tail, rfl, starts⟩ := solid part List.mem_cons_self
    have moved : before ++ (c :: tail) ++ after ++ ',' :: text = before ++ (c :: tail ++ after ++ ',' :: text) := by
      simp only [List.append_assoc]
    exact ⟨before, _, inFront, moved, ⟨c, _, rfl, starts⟩, .more spaces_nil behind others⟩

namespace Reader

section
variable {container : Enclosing} {blank rest : List Char}

def opening : Enclosing → Char
  | .list => '['
  | .object => '\x7b'

theorem closedAtOnce_closing (spaces : Spaces blank) :
    closedAtOnce container (blank ++ container.closing :: rest) = .ok (true, rest) := by
  rw [closedAtOnce, peek_bind spaces (by cases container <;> decide)]
  simp only [↓reduceIte]
  rfl

theorem closedAtOnce_solid {α : Type} (spaces : Spaces blank) {text : List Char} (solid : Solid text)
    (f : Bool → Reader α) :
    (closedAtOnce container >>= f) (blank ++ text) = (skipLead container >>= fun _ => f false) text := by
  obtain ⟨c, tail, rfl, visible, noBracket, noBrace⟩ := solid
  have other : c ≠ container.closing := by cases container <;> assumption
  rw [closedAtOnce, bind_assoc, peek_bind spaces visible]
  simp only [other, ↓reduceIte, bind_assoc, pure_bind]

theorem skipFrom_opening {bound : Nat} {stack : List Enclosing} (spaces : Spaces blank) :
    skipFrom (bound + 1) true stack (blank ++ opening container :: rest) =
      (closedAtOnce container >>= fun closed =>
        if closed then skipFrom bound false stack else skipFrom bound true (container :: stack)) rest := by
  cases container with
  | list =>
    rw [skipFrom, opening, peek_bind spaces (by decide)]
    rfl
  | object =>
    rw [skipFrom, opening, peek_bind spaces (by decide)]
    rfl

theorem skips_enclosed (container : Enclosing) {parts : List (List Char)} {text : List Char}
    (enclosed : Enclosed (opening container) container.closing parts text) (solid : ∀ part ∈ parts, Solid part)
    (skips : ∀ part ∈ parts, SkipsIn container part) : Skips text := by
  cases enclosed with
  | @none blank inside =>
    refine ⟨1, by simp, fun bound stack before rest spaces _ => ?_⟩
    have closed : closedAtOnce container (blank ++ container.closing :: rest) = .ok (true, rest) :=
      closedAtOnce_closing inside
    rw [List.cons_append, List.cons_append, List.append_assoc, List.singleton_append, skipFrom_opening spaces,
      bind_of_ok closed]
    rfl
  | @some parts inner commas =>
    obtain ⟨blank, left, inside, rfl, visible, trimmed⟩ := commas.trimmed solid
    obtain ⟨steps, few, taken⟩ := skips_commas trimmed skips
    refine ⟨steps + 1, ?_, fun bound stack before rest spaces _ => ?_⟩
    · simp only [List.length_append, List.length_cons]
      omega
    · have due := taken bound stack [] rest spaces_nil
      obtain ⟨c, tail, rfl, starts⟩ := visible
      have behind : Solid (c :: tail ++ container.closing :: rest) := ⟨c, _, rfl, starts⟩
      rw [List.cons_append, List.cons_append, List.append_assoc, List.singleton_append, ← Nat.add_assoc,
        skipFrom_opening spaces, List.append_assoc, closedAtOnce_solid inside behind]
      exact due

theorem skipsIn_list {part : List Char} (skips : Skips part) : SkipsIn .list part := by
  obtain ⟨steps, few, taken⟩ := skips
  refine ⟨steps, few, fun bound stack blank rest spaces follows => ?_⟩
  rw [skipLead, pure_bind]
  exact taken bound stack blank rest spaces follows

theorem skipsIn_object {entry : Entry} (key : FormsText entry.key) (spaced : entry.Spaced) (skips : Skips entry.value) :
    SkipsIn .object entry.text := by
  obtain ⟨parts, forms, quoted⟩ := key
  obtain ⟨steps, few, taken⟩ := skips
  refine ⟨steps, ?_, fun bound stack blank rest spaces follows => ?_⟩
  · rw [Entry.text, List.length_append, List.length_append, List.length_cons, List.length_append]
    omega
  · have led : skipLead .object (blank ++ (entry.text ++ rest)) = .ok ((), entry.after ++ (entry.value ++ rest)) := by
      rw [Entry.text, quoted]
      simp only [List.append_assoc, List.cons_append, List.nil_append]
      rw [skipLead, skipKey, peek_bind spaces (by decide)]
      change (advance >>= _) _ = _
      have key : lift skipText (parts.flatten ++ '"' ::
          (entry.before ++ ':' :: (entry.after ++ (entry.value ++ rest)))) =
          .ok ((), entry.before ++ ':' :: (entry.after ++ (entry.value ++ rest))) :=
        skipText_flatten forms _
      rw [advance_bind, bind_of_ok key]
      exact colon_cons spaced.1 _
    rw [bind_of_ok led]
    exact taken bound stack entry.after rest spaced.2 follows

theorem skips_scalar {c : Char} {tail : List Char} (visible : isSpace c = false) (other : c ≠ '[' ∧ c ≠ '\x7b')
    (taken : ∀ rest, Follows rest → skipScalar c (c :: (tail ++ rest)) = .ok ((), rest)) : Skips (c :: tail) := by
  refine ⟨1, by simp, fun bound stack blank rest spaces follows => ?_⟩
  rw [List.cons_append, skipFrom, peek_bind spaces visible]
  simp only [other.1, other.2, ↓reduceIte]
  exact bind_of_ok (taken rest follows)

theorem skips_word {text : List Char} (known : text ∈ words) : Skips text := by
  simp only [words, List.mem_cons, List.not_mem_nil, or_false] at known
  rcases known with rfl | rfl | rfl
  · exact skips_scalar (by decide) (by decide) fun _ _ => rfl
  · exact skips_scalar (by decide) (by decide) fun _ _ => rfl
  · exact skips_scalar (by decide) (by decide) fun _ _ => rfl

theorem skips_number {text : List Char} (forms : FormsNumber text) : Skips text := by
  obtain ⟨c, tail, rfl, starts⟩ := forms.head
  obtain ⟨visible, others⟩ := solid_of_number starts
  simp only [List.mem_cons, List.not_mem_nil, or_false, not_or] at others
  refine skips_scalar visible ⟨others.1, others.2.2.1⟩ fun rest follows => ?_
  rw [skipScalar, if_neg others.2.2.2.2.1, if_neg others.2.2.2.2.2.1, if_neg others.2.2.2.2.2.2, if_pos starts]
  exact skipNumber_append forms follows.endsNumber

theorem skips_text {text : List Char} (forms : FormsText text) : Skips text := by
  obtain ⟨parts, forms, rfl⟩ := forms
  refine skips_scalar (by decide) (by decide) fun rest _ => ?_
  change skipText (parts.flatten ++ ['"'] ++ rest) = _
  rw [List.append_assoc]
  exact skipText_flatten forms rest

end

end Reader

theorem FormsText.solid {text : List Char} (forms : FormsText text) (rest : List Char) : Solid (text ++ rest) := by
  obtain ⟨_, _, rfl⟩ := forms
  exact ⟨_, _, rfl, by decide, by decide, by decide⟩

theorem Enclosed.solid {parts : List (List Char)} {text : List Char} {opening closing : Char}
    (visible : isSpace opening = false ∧ opening ≠ ']' ∧ opening ≠ '\x7d')
    (enclosed : Enclosed opening closing parts text) : Solid text := by
  cases enclosed with
  | none => exact ⟨_, _, rfl, visible⟩
  | some => exact ⟨_, _, rfl, visible⟩

theorem WellFormed.solid {text : List Char} (wellFormed : WellFormed text) : Solid text := by
  cases wellFormed with
  | word known =>
    simp only [words, List.mem_cons, List.not_mem_nil, or_false] at known
    rcases known with rfl | rfl | rfl <;> exact ⟨_, _, rfl, by decide⟩
  | number forms =>
    obtain ⟨c, tail, rfl, starts⟩ := forms.head
    obtain ⟨visible, others⟩ := solid_of_number starts
    simp only [List.mem_cons, not_or] at others
    exact ⟨c, tail, rfl, visible, others.2.1, others.2.2.2.1⟩
  | text forms => exact List.append_nil text ▸ forms.solid []
  | list enclosed => exact enclosed.solid (by decide)
  | object enclosed => exact enclosed.solid (by decide)

theorem WellFormed.skips {text : List Char} (wellFormed : WellFormed text) : Reader.Skips text := by
  induction wellFormed with
  | word known => exact Reader.skips_word known
  | number forms => exact Reader.skips_number forms
  | text forms => exact Reader.skips_text forms
  | list enclosed parts ih =>
    exact Reader.skips_enclosed .list enclosed (fun part member => (parts part member).solid)
      fun part member => Reader.skipsIn_list (ih part member)
  | object enclosed keys values ih =>
    refine Reader.skips_enclosed .object enclosed ?_ ?_
    · intro part member
      obtain ⟨entry, among, rfl⟩ := List.mem_map.mp member
      exact (keys entry among).1.solid _
    · intro part member
      obtain ⟨entry, among, rfl⟩ := List.mem_map.mp member
      exact Reader.skipsIn_object (keys entry among).1 (keys entry among).2 (ih entry among)

/-- Whatever has the form of a value is skipped, however deep it is nested. -/
theorem reads_skip {text : List Char} (wellFormed : WellFormed text) : Reads Reader.skip () text where
  solid := wellFormed.solid
  reads := by
    intro blank rest spaces follows
    obtain ⟨steps, few, taken⟩ := wellFormed.skips
    have length : (blank ++ text ++ rest).length = blank.length + text.length + rest.length := by
      simp only [List.length_append]
    obtain ⟨bound, enough⟩ : ∃ bound, (blank ++ text ++ rest).length + 2 = bound + 1 + steps :=
      ⟨(blank ++ text ++ rest).length + 1 - steps, by omega⟩
    rw [Reader.skip, Reader.get_bind, enough, List.append_assoc, taken (bound + 1) [] blank rest spaces follows]
    rfl

end LogicBoard.Json
