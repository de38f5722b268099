import Mathlib.Data.List.Forall2
import LogicBoard.Json.Reader

namespace LogicBoard.Json

def Spaces (text : List Char) : Prop := ∀ c ∈ text, isSpace c = true

instance (text : List Char) : Decidable (Spaces text) := List.decidableBAll _ text

/-- What may come after a value: the end of the text, white space, a comma or a closing bracket or brace. -/
def Follows (rest : List Char) : Prop := ∀ c, rest.head? = some c → isSpace c = true ∨ c ∈ [',', ']', '\x7d']

/-- Texts with commas between them and any white space around them. -/
inductive Commas : List (List Char) → List Char → Prop
  | last {before part after : List Char} : Spaces before → Spaces after → Commas [part] (before ++ part ++ after)
  | more {before part after text : List Char} {parts : List (List Char)} : Spaces before → Spaces after →
      Commas parts text → Commas (part :: parts) (before ++ part ++ after ++ ',' :: text)

/-- Texts with commas between them, in brackets. -/
inductive Enclosed (opening closing : Char) : List (List Char) → List Char → Prop
  | none {blank : List Char} : Spaces blank → Enclosed opening closing [] (opening :: blank ++ [closing])
  | some {parts : List (List Char)} {inner : List Char} : Commas parts inner →
      Enclosed opening closing parts (opening :: inner ++ [closing])

/-- A text that starts like a value, neither with white space nor with the end of a list or an object. -/
def Solid (text : List Char) : Prop := ∃ c tail, text = c :: tail ∧ isSpace c = false ∧ c ≠ ']' ∧ c ≠ '\x7d'

theorem spaces_nil : Spaces [] := nofun

theorem follows_nil : Follows [] := nofun

theorem follows_cons {c : Char} (closes : c ∈ [',', ']', '\x7d']) (rest : List Char) : Follows (c :: rest) := by
  rintro _ ⟨⟩
  exact .inr closes

theorem Spaces.follows {blank rest : List Char} (spaces : Spaces blank) (follows : Follows rest) :
    Follows (blank ++ rest) := by
  cases blank with
  | nil => exact follows
  | cons c blank =>
    rintro _ ⟨⟩
    exact .inl (spaces c List.mem_cons_self)

theorem Spaces.dropWhile {blank rest : List Char} (spaces : Spaces blank) :
    (blank ++ rest).dropWhile isSpace = rest.dropWhile isSpace :=
  List.dropWhile_append_of_pos spaces

theorem Commas.length_le {parts : List (List Char)} {text : List Char} (commas : Commas parts text) :
    parts.length ≤ text.length + 1 := by
  induction commas with
  | last => exact Nat.le_add_left _ _
  | more _ _ _ ih =>
    simp only [List.length_append, List.length_cons]
    omega

theorem exists_enclosed (opening closing : Char) (parts : List (List Char)) :
    ∃ text, Enclosed opening closing parts text := by
  have commas (part : List Char) (parts : List (List Char)) : ∃ inner, Commas (part :: parts) inner := by
    induction parts generalizing part with
    | nil => exact ⟨_, .last spaces_nil spaces_nil⟩
    | cons next parts ih =>
      obtain ⟨inner, others⟩ := ih next
      exact ⟨_, .more spaces_nil spaces_nil others⟩
  cases parts with
  | nil => exact ⟨_, .none spaces_nil⟩
  | cons part parts =>
    obtain ⟨inner, commas⟩ := commas part parts
    exact ⟨_, .some commas⟩

namespace Reader
variable {α β : Type} {text rest blank : List Char}

theorem bind_of_ok {r : Reader α} {f : α → Reader β} {x : α} (ran : r text = .ok (x, rest)) :
    (r >>= f) text = f x rest := by
  change (r text).bind _ = _
  rw [ran]
  rfl

theorem map_of_ok {r : Reader α} {f : α → β} {x : α} (ran : r text = .ok (x, rest)) :
    (f <$> r) text = .ok (f x, rest) := by
  change (r text).bind _ = _
  rw [ran]
  rfl

theorem peek_cons (spaces : Spaces blank) {c : Char} (solid : isSpace c = false) (rest : List Char) :
    peek (blank ++ c :: rest) = .ok (some c, c :: rest) := by
  rw [peek, spaces.dropWhile, List.dropWhile_cons_of_neg (by simp [solid])]
  rfl

theorem peek_bind (spaces : Spaces blank) {c : Char} (solid : isSpace c = false) (rest : List Char)
    (f : Option Char → Reader α) : (peek >>= f) (blank ++ c :: rest) = f (some c) (c :: rest) :=
  bind_of_ok (peek_cons spaces solid rest)

theorem advance_bind (c : Char) (rest : List Char) (f : Unit → Reader α) : (advance >>= f) (c :: rest) = f () rest :=
  bind_of_ok rfl

theorem get_bind (text : List Char) (f : List Char → Reader α) :
    ((get : Reader (List Char)) >>= f) text = f text text := rfl

theorem colon_cons (spaces : Spaces blank) (rest : List Char) : colon (blank ++ ':' :: rest) = .ok ((), rest) := by
  rw [colon, peek_bind spaces (by decide)]
  rfl

end Reader

/-- The reader takes the text for the value, with white space before it and whatever may follow a value after it. -/
structure Reads {α : Type} (r : Reader α) (x : α) (text : List Char) : Prop where
  solid : Solid text
  reads : ∀ blank rest, Spaces blank → Follows rest → r (blank ++ text ++ rest) = .ok (x, rest)

namespace Reader
variable {α : Type} {item : Reader α} {rest blank : List Char}

/-- The comma that stands before every element but the first one. -/
def separator (first : Bool) : List Char := if first then [] else [',']

theorem nextElement_of_reads {x : α} {part before : List Char} (reads : Reads item x part) (first : Bool)
    (spaces : Spaces blank) (inner : Spaces before) (follows : Follows rest) :
    nextElement first item (blank ++ (separator first ++ (before ++ (part ++ rest)))) = .ok (some x, rest) := by
  obtain ⟨c, tail, rfl, solid, opens, _⟩ := reads.solid
  have taken : (some <$> item) (c :: (tail ++ rest)) = .ok (some x, rest) :=
    map_of_ok (reads.reads [] rest spaces_nil follows)
  cases first with
  | true =>
    have both : Spaces (blank ++ before) := List.forall_mem_append.mpr ⟨spaces, inner⟩
    rw [separator, if_pos rfl, List.nil_append, ← List.append_assoc, List.cons_append, nextElement,
      peek_bind both solid]
    simpa only [↓reduceIte, opens]
  | false =>
    rw [separator, if_neg Bool.false_ne_true, List.cons_append, List.nil_append, List.cons_append, nextElement,
      peek_bind spaces (by decide)]
    change (advance >>= _) (',' :: (before ++ c :: (tail ++ rest))) = _
    rw [advance_bind, peek_bind inner solid]
    simpa only [opens]

theorem nextElement_close (spaces : Spaces blank) (first : Bool) :
    nextElement first item (blank ++ ']' :: rest) = .ok (none, ']' :: rest) := by
  rw [nextElement, peek_bind spaces (by decide)]
  rfl

theorem closeList_close (spaces : Spaces blank) : closeList (blank ++ ']' :: rest) = .ok ((), rest) := by
  rw [closeList, peek_bind spaces (by decide)]
  rfl

/-- The elements of a list, up to its closing bracket. -/
theorem elements_of_commas {xs : List α} {parts : List (List Char)} {inner : List Char} (commas : Commas parts inner)
    (reads : List.Forall₂ (Reads item) xs parts) {bound : Nat} (enough : parts.length < bound) (first : Bool)
    (spaces : Spaces blank) :
    elements item bound first (blank ++ (separator first ++ (inner ++ ']' :: rest))) = .ok (xs, ']' :: rest) := by
  induction commas generalizing xs bound first blank with
  | @last before part after inFront behind =>
    obtain _ | ⟨here, _ | _⟩ := reads
    obtain ⟨bound, rfl⟩ : ∃ more, bound = more + 2 := ⟨bound - 2, by simp at enough; omega⟩
    have follows : Follows (after ++ ']' :: rest) := behind.follows (follows_cons (by simp) rest)
    rw [List.append_assoc, List.append_assoc, elements,
      bind_of_ok (nextElement_of_reads here first spaces inFront follows)]
    have ended : elements item (bound + 1) false (after ++ ']' :: rest) = .ok ([], ']' :: rest) := by
      rw [elements, bind_of_ok (nextElement_close behind false)]
      rfl
    exact bind_of_ok ended
  | @more before part after text parts inFront behind _ ih =>
    obtain _ | ⟨here, others⟩ := reads
    obtain ⟨bound, rfl⟩ : ∃ more, bound = more + 1 := ⟨bound - 1, by omega⟩
    have follows : Follows (after ++ ',' :: (text ++ ']' :: rest)) := behind.follows (follows_cons (by simp) _)
    rw [List.append_assoc, List.append_assoc, List.append_assoc, List.cons_append, elements,
      bind_of_ok (nextElement_of_reads here first spaces inFront follows)]
    exact bind_of_ok (ih others (by simpa using enough) false behind)

theorem reads_enclosed {xs : List α} {parts : List (List Char)} {text : List Char}
    (enclosed : Enclosed '[' ']' parts text) (reads : List.Forall₂ (Reads item) xs parts) :
    Reads (list item) xs text where
  solid := by
    cases enclosed with
    | none => exact ⟨_, _, rfl, by decide, by decide, by decide⟩
    | some => exact ⟨_, _, rfl, by decide, by decide, by decide⟩
  reads := by
    intro blank rest spaces _
    cases enclosed with
    | @none inner inside =>
      cases reads
      rw [List.append_assoc, List.cons_append, List.cons_append, List.append_assoc, list, peek_bind spaces (by decide)]
      change (advance >>= _) _ = _
      rw [advance_bind, get_bind]
      have ended : elements item ((inner ++ ([']'] ++ rest)).length + 1) true (inner ++ ([']'] ++ rest)) =
          .ok ([], ']' :: rest) := by
        rw [elements, List.cons_append, List.nil_append, bind_of_ok (nextElement_close inside true)]
        rfl
      rw [bind_of_ok ended]
      exact bind_of_ok (closeList_close spaces_nil)
    | @some parts inner commas =>
      have enough : parts.length < (inner ++ ([']'] ++ rest)).length + 1 := by
        have := commas.length_le
        simp only [List.length_append, List.length_cons]
        omega
      rw [List.append_assoc, List.cons_append, List.cons_append, List.append_assoc, list, peek_bind spaces (by decide)]
      change (advance >>= _) _ = _
      have taken : elements item ((inner ++ ([']'] ++ rest)).length + 1) true (inner ++ ([']'] ++ rest)) =
          .ok (xs, ']' :: rest) :=
        elements_of_commas commas reads enough true spaces_nil
      rw [advance_bind, get_bind, bind_of_ok taken]
      exact bind_of_ok (closeList_close spaces_nil)

theorem reads_enclosed_pair {x y : α} {first second text : List Char} (enclosed : Enclosed '[' ']' [first, second] text)
    (readsFirst : Reads item x first) (readsSecond : Reads item y second) : Reads (pair item) (x, y) text := by
  obtain _ | @⟨_, _, commas⟩ := enclosed
  obtain _ | @⟨before, _, after, inner, _, inFront, behind, others⟩ := commas
  obtain @⟨before', _, after', inFront', behind'⟩ | ⟨_, _, none⟩ := others
  · refine ⟨⟨_, _, rfl, by decide, by decide, by decide⟩, fun blank rest spaces _ => ?_⟩
    have follows : Follows (after ++ ',' :: (before' ++ (second ++ (after' ++ ']' :: rest)))) :=
      behind.follows (follows_cons (by simp) _)
    have follows' : Follows (after' ++ ']' :: rest) := behind'.follows (follows_cons (by simp) _)
    have head : element .pair 0 item
        (before ++ (first ++ (after ++ ',' :: (before' ++ (second ++ (after' ++ ']' :: rest)))))) =
        .ok (x, after ++ ',' :: (before' ++ (second ++ (after' ++ ']' :: rest)))) := by
      rw [element]
      exact bind_of_ok (nextElement_of_reads readsFirst true spaces_nil inFront follows)
    have last : element .pair 1 item (after ++ ',' :: (before' ++ (second ++ (after' ++ ']' :: rest)))) =
        .ok (y, after' ++ ']' :: rest) := by
      rw [element]
      exact bind_of_ok (nextElement_of_reads readsSecond false behind inFront' follows')
    simp only [List.append_assoc, List.cons_append, List.nil_append]
    rw [pair, peek_bind spaces (by decide)]
    change (advance >>= _) _ = _
    rw [advance_bind, bind_of_ok head, bind_of_ok last]
    exact bind_of_ok (closeList_close behind')
  · cases none

theorem reads_optional_none : Reads (optional item) none ['n', 'u', 'l', 'l'] where
  solid := ⟨_, _, rfl, by decide, by decide, by decide⟩
  reads := by
    intro blank rest spaces _
    rw [List.append_assoc, List.cons_append, optional, peek_bind spaces (by decide)]
    rfl

theorem reads_optional_some {x : α} {text : List Char} (reads : Reads item x text) (other : text.head? ≠ some 'n') :
    Reads (optional item) (some x) text where
  solid := reads.solid
  reads := by
    obtain ⟨c, tail, rfl, solid, _⟩ := reads.solid
    have differs : c ≠ 'n' := fun same => other (by rw [same]; rfl)
    intro blank rest spaces follows
    have taken : (some <$> item) (c :: (tail ++ rest)) = .ok (some x, rest) :=
      map_of_ok (reads.reads [] rest spaces_nil follows)
    rw [List.append_assoc, List.cons_append, optional, peek_bind spaces solid]
    generalize same : some c = next
    split
    · exact absurd (Option.some.inj same) differs
    · exact taken

end Reader

section
variable {α : Type} {writes : α → List Char → Prop} {item : Reader α} {text : List Char}

def WritesList (writes : α → List Char → Prop) (xs : List α) (text : List Char) : Prop :=
  ∃ parts, Enclosed '[' ']' parts text ∧ List.Forall₂ writes xs parts

def WritesPair (writes : α → List Char → Prop) (pair : α × α) (text : List Char) : Prop :=
  ∃ first second, Enclosed '[' ']' [first, second] text ∧ writes pair.1 first ∧ writes pair.2 second

/-- A value that is not there is written as a word. -/
def WritesOption (writes : α → List Char → Prop) : Option α → List Char → Prop
  | none, text => text = ['n', 'u', 'l', 'l']
  | some x, text => writes x text

theorem reads_list (reads : ∀ x text, writes x text → Reads item x text) {xs : List α}
    (written : WritesList writes xs text) : Reads (Reader.list item) xs text := by
  obtain ⟨parts, enclosed, written⟩ := written
  exact Reader.reads_enclosed enclosed (written.imp reads)

theorem reads_pair (reads : ∀ x text, writes x text → Reads item x text) {pair : α × α}
    (written : WritesPair writes pair text) : Reads (Reader.pair item) pair text := by
  obtain ⟨first, second, enclosed, writesFirst, writesSecond⟩ := written
  exact Reader.reads_enclosed_pair enclosed (reads _ _ writesFirst) (reads _ _ writesSecond)

theorem reads_option (reads : ∀ x text, writes x text → Reads item x text)
    (other : ∀ x text, writes x text → text.head? ≠ some 'n') {x? : Option α} (written : WritesOption writes x? text) :
    Reads (Reader.optional item) x? text := by
  cases x? with
  | none =>
    rw [show text = _ from written]
    exact Reader.reads_optional_none
  | some x => exact Reader.reads_optional_some (reads x text written) (other x text written)

theorem WritesPair.head {pair : α × α} (written : WritesPair writes pair text) : text.head? = some '[' := by
  obtain ⟨_, _, enclosed, _⟩ := written
  cases enclosed
  rfl

theorem exists_writesList (possible : ∀ x, ∃ text, writes x text) (xs : List α) :
    ∃ text, WritesList writes xs text := by
  choose part written using possible
  obtain ⟨text, enclosed⟩ := exists_enclosed '[' ']' (xs.map part)
  refine ⟨text, xs.map part, enclosed, ?_⟩
  rw [List.forall₂_map_right_iff, List.forall₂_same]
  exact fun x _ => written x

theorem exists_writesPair (possible : ∀ x, ∃ text, writes x text) (pair : α × α) :
    ∃ text, WritesPair writes pair text := by
  obtain ⟨first, writesFirst⟩ := possible pair.1
  obtain ⟨second, writesSecond⟩ := possible pair.2
  obtain ⟨text, enclosed⟩ := exists_enclosed '[' ']' [first, second]
  exact ⟨text, first, second, enclosed, writesFirst, writesSecond⟩

theorem exists_writesOption (possible : ∀ x, ∃ text, writes x text) (x? : Option α) :
    ∃ text, WritesOption writes x? text := by
  cases x? with
  | none => exact ⟨_, rfl⟩
  | some x => exact possible x

end

end LogicBoard.Json
