import LogicBoard.Proofs.JsonGrammar

namespace LogicBoard.Json

/-- The text writes an object with these keys and texts of values, in this order. -/
def WritesObject (members : List (String × List Char)) (text : List Char) : Prop :=
  ∃ entries : List Entry, Enclosed '\x7b' '\x7d' (entries.map Entry.text) text ∧
    List.Forall₂ (fun member entry => WritesText member.1 entry.key ∧ entry.Spaced ∧ entry.value = member.2)
      members entries

/-- A member that a record may have: what its value may be written as, and whether it may be left out. -/
structure RecordField where
  key : String
  omissible : Prop
  writes : List Char → Prop

/-- The texts of the values under a key. -/
def valuesOf (key : String) (members : List (String × List Char)) : List (List Char) :=
  (members.filter fun member => member.1 = key).map Prod.snd

/-- An object in which the fields of the record are found, each once at most, among members with other keys that have
any values. -/
def WritesRecord (fields : List RecordField) (text : List Char) : Prop :=
  ∃ members, WritesObject members text ∧
    (∀ field ∈ fields, (∃ value, valuesOf field.key members = [value] ∧ field.writes value) ∨
      valuesOf field.key members = [] ∧ field.omissible) ∧
    ∀ member ∈ members, member.1 ∉ fields.map RecordField.key → WellFormed member.2

section
variable {key : String} {value : List Char} {members done later : List (String × List Char)}

theorem valuesOf_split : valuesOf key (done ++ (key, value) :: later) =
    valuesOf key done ++ value :: valuesOf key later := by
  simp [valuesOf]

theorem valuesOf_eq_nil_iff : valuesOf key members = [] ↔ key ∉ members.map Prod.fst := by
  rw [valuesOf, List.map_eq_nil_iff, List.filter_eq_nil_iff]
  constructor
  · intro none member
    obtain ⟨pair, among, same⟩ := List.mem_map.mp member
    exact none pair among (decide_eq_true same)
  · intro absent pair among same
    exact absent (List.mem_map.mpr ⟨pair, among, of_decide_eq_true same⟩)

end

namespace Reader
variable {σ α : Type}

/-- The reader takes a colon and the value behind it, to come to the state. -/
def TakesMember (r : Reader σ) (s : σ) (value : List Char) : Prop :=
  ∀ before after rest, Spaces before → Spaces after → Follows rest →
    r (before ++ ':' :: (after ++ (value ++ rest))) = .ok (s, rest)

theorem takes_once {item : Reader α} {x : α} {value : List Char} (reads : Reads item x value) (key : String) :
    TakesMember (once key none item) (some x) value := by
  intro before after rest atColon spaces follows
  have taken := reads.reads after rest spaces follows
  rw [List.append_assoc] at taken
  rw [once]
  simp only [Option.isSome_none, Bool.false_eq_true, ↓reduceIte]
  exact (bind_of_ok (colon_cons atColon _)).trans (map_of_ok taken)

theorem takes_bind {r : Reader α} {x : α} {value : List Char} (takes : TakesMember r x value) (f : α → σ) :
    TakesMember (r >>= fun x => pure (f x)) (f x) value := by
  intro before after rest atColon spaces follows
  exact bind_of_ok (takes before after rest atColon spaces follows)

/-- The value of a member that the record does not know is passed over. -/
theorem takes_unknown {value : List Char} (wellFormed : WellFormed value) (s : σ) :
    TakesMember (colon >>= fun _ => skip >>= fun _ => pure s) s value := by
  intro before after rest atColon spaces follows
  have skipped := (reads_skip wellFormed).reads after rest spaces follows
  rw [List.append_assoc] at skipped
  exact (bind_of_ok (colon_cons atColon _)).trans (bind_of_ok skipped)

section
variable {blank rest : List Char}

theorem nextKey_of_writes {key : String} {text before : List Char} (writes : WritesText key text) (first : Bool)
    (spaces : Spaces blank) (inner : Spaces before) :
    nextKey first (blank ++ (separator first ++ (before ++ (text ++ rest)))) = .ok (some key, rest) := by
  obtain ⟨parts, spells, rfl⟩ := writes
  have taken : (some <$> quotedText) ('"' :: (parts.flatten ++ '"' :: rest)) = .ok (some key, rest) := by
    have read : quotedText ('"' :: (parts.flatten ++ '"' :: rest)) = readText [] (parts.flatten ++ '"' :: rest) := rfl
    rw [readText_flatten spells, List.reverse_nil, List.nil_append, String.ofList_toList] at read
    exact map_of_ok read
  cases first with
  | true =>
    have both : Spaces (blank ++ before) := List.forall_mem_append.mpr ⟨spaces, inner⟩
    rw [separator, if_pos rfl]
    simp only [List.cons_append, List.append_assoc, List.nil_append]
    rw [← List.append_assoc, nextKey, peek_bind both (by decide)]
    exact taken
  | false =>
    rw [separator, if_neg Bool.false_ne_true]
    simp only [List.cons_append, List.append_assoc, List.nil_append]
    rw [nextKey, peek_bind spaces (by decide)]
    change (advance >>= _) _ = _
    rw [advance_bind, peek_bind inner (by decide)]
    exact taken

theorem nextKey_close (spaces : Spaces blank) (first : Bool) :
    nextKey first (blank ++ '\x7d' :: rest) = .ok (none, '\x7d' :: rest) := by
  rw [nextKey, peek_bind spaces (by decide)]
  rfl

theorem members_succ {member : σ → String → Reader σ} {s next : σ} {key : String} {entry : Entry}
    {before left : List Char} (keyed : WritesText key entry.key) (spaced : entry.Spaced)
    (takes : TakesMember (member s key) next entry.value) (bound : Nat) (first : Bool) (spaces : Spaces blank)
    (inner : Spaces before) (follows : Follows left) :
    members member (bound + 1) first s (blank ++ (separator first ++ (before ++ (entry.text ++ left)))) =
      members member bound false next left := by
  have taken := takes entry.before entry.after left spaced.1 spaced.2 follows
  rw [members, Entry.text]
  simp only [List.append_assoc, List.cons_append]
  rw [bind_of_ok (nextKey_of_writes keyed first spaces inner)]
  exact bind_of_ok taken

theorem members_close {member : σ → String → Reader σ} {s : σ} (bound : Nat) (first : Bool) (spaces : Spaces blank) :
    members member (bound + 1) first s (blank ++ '\x7d' :: rest) = .ok (s, '\x7d' :: rest) := by
  rw [members, bind_of_ok (nextKey_close spaces first)]
  rfl

/-- The members of an object, up to its closing brace, bring a reader from draft to draft. -/
theorem members_of_commas {member : σ → String → Reader σ} {draft : List String → σ}
    {all : List (String × List Char)}
    (takes : ∀ done key value later, all = done ++ (key, value) :: later →
      TakesMember (member (draft (done.map Prod.fst)) key) (draft (done.map Prod.fst ++ [key])) value)
    {todo : List (String × List Char)} {entries : List Entry} {inner : List Char}
    (commas : Commas (entries.map Entry.text) inner)
    (writes : List.Forall₂ (fun member entry => WritesText member.1 entry.key ∧ entry.Spaced ∧ entry.value = member.2)
      todo entries)
    {done : List (String × List Char)} (split : all = done ++ todo) {bound : Nat} (enough : todo.length < bound)
    (first : Bool) (spaces : Spaces blank) :
    members member bound first (draft (done.map Prod.fst))
      (blank ++ (separator first ++ (inner ++ '\x7d' :: rest))) = .ok (draft (all.map Prod.fst), '\x7d' :: rest) := by
  induction writes generalizing inner done bound first blank with
  | nil => cases commas
  | @cons current entry todo entries here writes ih =>
    obtain ⟨key, value⟩ := current
    obtain ⟨keyed, spaced, rfl⟩ := here
    obtain ⟨bound, rfl⟩ : ∃ more, bound = more + 2 := ⟨bound - 2, by simp at enough; omega⟩
    have step := takes done key entry.value todo split
    have moved : all = (done ++ [(key, entry.value)]) ++ todo := by
      rw [split, List.append_assoc]
      rfl
    have keys : done.map Prod.fst ++ [key] = (done ++ [(key, entry.value)]).map Prod.fst := by
      rw [List.map_append]
      rfl
    rw [List.map_cons] at commas
    generalize shape : entries.map Entry.text = parts at commas
    cases commas with
    | @last before part after inFront behind =>
      have follows : Follows (after ++ '\x7d' :: rest) := behind.follows (follows_cons (by simp) rest)
      obtain rfl := List.map_eq_nil_iff.mp shape
      cases writes
      rw [List.append_assoc, List.append_assoc, members_succ keyed spaced step _ first spaces inFront follows,
        members_close bound false behind, keys, moved, List.append_nil]
    | @more before part after text parts inFront behind others =>
      have follows : Follows (after ++ ',' :: (text ++ '\x7d' :: rest)) := behind.follows (follows_cons (by simp) _)
      subst shape
      rw [List.append_assoc, List.append_assoc, List.append_assoc, List.cons_append,
        members_succ keyed spaced step _ first spaces inFront follows, keys]
      exact ih others moved (by simpa using enough) false behind

theorem reads_object {shape : Shape} {fields : Reader α} {member : σ → String → Reader σ} {finish : σ → Except Fault α}
    {draft : List String → σ} {all : List (String × List Char)} {text : List Char} {x : α}
    (writes : WritesObject all text)
    (takes : ∀ done key value later, all = done ++ (key, value) :: later →
      TakesMember (member (draft (done.map Prod.fst)) key) (draft (done.map Prod.fst ++ [key])) value)
    (finishes : finish (draft (all.map Prod.fst)) = .ok x) :
    Reads (record shape fields (draft []) member finish) x text := by
  obtain ⟨entries, enclosed, writes⟩ := writes
  refine ⟨enclosed.solid (by decide), fun blank rest spaces _ => ?_⟩
  have length := writes.length_eq
  obtain ⟨inner, shape, read⟩ : ∃ inner, text = '\x7b' :: inner ++ ['\x7d'] ∧
      members member ((inner ++ '\x7d' :: rest).length + 1) true (draft []) (inner ++ '\x7d' :: rest) =
        .ok (draft (all.map Prod.fst), '\x7d' :: rest) := by
    generalize shape : entries.map Entry.text = parts at enclosed
    cases enclosed with
    | @none inner inside =>
      obtain rfl := List.map_eq_nil_iff.mp shape
      cases writes
      exact ⟨inner, rfl, members_close _ true inside⟩
    | @some parts inner commas =>
      subst shape
      have enough : all.length < (inner ++ '\x7d' :: rest).length + 1 := by
        have few := commas.length_le
        rw [List.length_map] at few
        rw [List.length_append, List.length_cons]
        omega
      have start : all = [] ++ all := rfl
      exact ⟨inner, rfl, members_of_commas takes commas writes start enough true spaces_nil⟩
  subst shape
  rw [List.append_assoc, List.cons_append, List.cons_append, List.append_assoc, List.singleton_append, record,
    peek_bind spaces (by decide)]
  change (advance >>= _) _ = _
  rw [advance_bind, get_bind, bind_of_ok read, finishes]
  rfl

end

end Reader

/-- The value that has been read under a key, once the key is among the keys done. -/
def given {α : Type} (key : String) (done : List String) (x : α) : Option α := if key ∈ done then some x else none

section
variable {α : Type} {key other : String} {done : List String} {x : α}

theorem given_of_notMem (absent : key ∉ done) : given key done x = none := if_neg absent

theorem given_of_mem (present : key ∈ done) : given key done x = some x := if_pos present

theorem given_getD {default : α} (present : key ∈ done ∨ x = default) : (given key done x).getD default = x := by
  rcases present with here | rfl
  · rw [given_of_mem here, Option.getD_some]
  · unfold given
    split <;> rfl

@[simp] theorem given_append_self : given key (done ++ [key]) x = some x := if_pos (by simp)

@[simp] theorem given_append_of_ne (different : key ≠ other) : given key (done ++ [other]) x = given key done x := by
  simp only [given, List.mem_append, List.mem_singleton, different, or_false]

end

theorem Reader.takes_field {σ α : Type} {item : Reader α} {x : α} {key : String} {done : List String}
    {value : List Char} (reads : Reads item x value) (fresh : key ∉ done) (set : Option α → σ) {next : σ}
    (same : set (some x) = next) :
    TakesMember (once key (given key done x) item >>= fun field => pure (set field)) next value := by
  rw [given_of_notMem fresh, ← same]
  exact takes_bind (takes_once reads key) set

section
variable {fields : List RecordField} {members done later : List (String × List Char)} {key : String} {value : List Char}

/-- A member is a field that has not been met before, or its key is unknown. -/
theorem field_or_unknown
    (known : ∀ field ∈ fields, (∃ value, valuesOf field.key members = [value] ∧ field.writes value) ∨
      valuesOf field.key members = [] ∧ field.omissible)
    (unknown : ∀ member ∈ members, member.1 ∉ fields.map RecordField.key → WellFormed member.2)
    (split : members = done ++ (key, value) :: later) :
    (∃ field ∈ fields, field.key = key ∧ field.writes value ∧ key ∉ done.map Prod.fst) ∨
      key ∉ fields.map RecordField.key ∧ WellFormed value := by
  by_cases among : key ∈ fields.map RecordField.key
  · obtain ⟨field, member, rfl⟩ := List.mem_map.mp among
    have values : valuesOf field.key members = valuesOf field.key done ++ value :: valuesOf field.key later :=
      split ▸ valuesOf_split
    rcases known field member with ⟨written, alone, writes⟩ | ⟨none, _⟩
    · rw [alone] at values
      obtain ⟨first, rest⟩ : valuesOf field.key done = [] ∧ written = value := by
        cases earlier : valuesOf field.key done with
        | nil =>
          rw [earlier] at values
          exact ⟨rfl, (List.cons_eq_cons.mp values).1⟩
        | cons other others =>
          rw [earlier] at values
          cases (List.append_eq_nil_iff.mp (List.cons_eq_cons.mp values).2.symm).2
      exact .inl ⟨field, member, rfl, rest ▸ writes, valuesOf_eq_nil_iff.mp first⟩
    · rw [none] at values
      cases (List.append_eq_nil_iff.mp values.symm).2
  · exact .inr ⟨among, unknown (key, value) (split ▸ by simp) among⟩

end

/-- What the reader of a record has to do with its members, so that the record is read back from whatever way it is
written in: take each field into the draft, pass over what it does not know, and finish when no field is missing. -/
structure ReadsFields {σ α : Type} (fields : List RecordField) (member : σ → String → Reader σ)
    (draft : List String → σ) (finish : σ → Except Fault α) (x : α) : Prop where
  takes : ∀ field ∈ fields, ∀ done value, field.writes value → field.key ∉ done →
    Reader.TakesMember (member (draft done) field.key) (draft (done ++ [field.key])) value
  ignores : ∀ done key, key ∉ fields.map RecordField.key → draft (done ++ [key]) = draft done ∧
    ∀ s, member s key = (Reader.colon >>= fun _ => Reader.skip >>= fun _ => pure s)
  finishes : ∀ done, (∀ field ∈ fields, field.key ∈ done ∨ field.omissible) → finish (draft done) = .ok x

theorem reads_record {σ α : Type} {fields : List RecordField} {member : σ → String → Reader σ}
    {draft : List String → σ} {finish : σ → Except Fault α} {x : α} (reads : ReadsFields fields member draft finish x)
    {shape : Shape} {sequence : Reader α} {text : List Char} (writes : WritesRecord fields text) :
    Reads (Reader.record shape sequence (draft []) member finish) x text := by
  obtain ⟨members, object, known, unknown⟩ := writes
  refine Reader.reads_object object (fun done key value later split => ?_) (reads.finishes _ fun field member => ?_)
  · rcases field_or_unknown known unknown split with ⟨field, member, rfl, writes, fresh⟩ | ⟨other, wellFormed⟩
    · exact reads.takes field member _ value writes fresh
    · obtain ⟨same, skips⟩ := reads.ignores (done.map Prod.fst) key other
      rw [same, skips]
      exact Reader.takes_unknown wellFormed _
  · rcases known field member with ⟨value, alone, _⟩ | ⟨_, omissible⟩
    · refine .inl ?_
      by_contra absent
      rw [valuesOf_eq_nil_iff.mpr absent] at alone
      cases alone
    · exact .inr omissible

theorem valuesOf_fields {fields : List RecordField} (distinct : (fields.map RecordField.key).Nodup)
    (value : RecordField → List Char) {field : RecordField} (member : field ∈ fields) :
    valuesOf field.key (fields.map fun field => (field.key, value field)) = [value field] := by
  obtain ⟨before, after, rfl⟩ := List.append_of_mem member
  simp only [List.map_append, List.map_cons, List.nodup_append, List.nodup_cons] at distinct
  have earlier : valuesOf field.key (before.map fun field => (field.key, value field)) = [] := by
    rw [valuesOf_eq_nil_iff, List.map_map]
    exact fun among => distinct.2.2 _ among _ List.mem_cons_self rfl
  have later : valuesOf field.key (after.map fun field => (field.key, value field)) = [] := by
    rw [valuesOf_eq_nil_iff, List.map_map]
    exact distinct.2.1.1
  rw [List.map_append, List.map_cons, valuesOf_split, earlier, later]
  rfl

/-- A record whose fields can all be written can be written. -/
theorem exists_writesRecord {fields : List RecordField} (distinct : (fields.map RecordField.key).Nodup)
    (possible : ∀ field ∈ fields, ∃ value, field.writes value) : ∃ text, WritesRecord fields text := by
  choose! value written using possible
  choose keyText keyed using exists_writesText
  obtain ⟨text, enclosed⟩ := exists_enclosed '\x7b' '\x7d'
    ((fields.map fun field => (⟨keyText field.key, [], [], value field⟩ : Entry)).map Entry.text)
  refine ⟨text, fields.map fun field => (field.key, value field), ⟨_, enclosed, ?_⟩, fun field member => ?_,
    fun member among unknown => ?_⟩
  · rw [List.forall₂_map_left_iff, List.forall₂_map_right_iff, List.forall₂_same]
    exact fun field _ => ⟨keyed _, ⟨spaces_nil, spaces_nil⟩, rfl⟩
  · exact .inl ⟨value field, valuesOf_fields distinct value member, written field member⟩
  · obtain ⟨field, inFields, rfl⟩ := List.mem_map.mp among
    exact absurd (List.mem_map_of_mem inFields) unknown

end LogicBoard.Json
