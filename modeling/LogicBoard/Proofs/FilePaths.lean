import LogicBoard.FileTree
import Mathlib.Data.List.Basic
import Mathlib.Data.List.Induction

namespace LogicBoard

namespace FileTree

/-- A name that leads from a directory to something in it. -/
structure Plain (name : String) : Prop where
  nonempty : name ≠ ""
  solid : ∀ c ∈ name.toList, c ≠ '/' ∧ c ≠ '\x00'
  proper : name ≠ "." ∧ name ≠ ".."
  short : name.utf8ByteSize ≤ 255

theorem plain_iff {name : String} : Plain name ↔ name ≠ "" ∧ name.toList.all (fun c => c ≠ '/' && c ≠ '\x00') ∧
    (name ≠ "." ∧ name ≠ "..") ∧ name.utf8ByteSize ≤ 255 := by
  constructor
  · rintro ⟨nonempty, solid, proper, short⟩
    exact ⟨nonempty, List.all_eq_true.mpr (by simpa using solid), proper, short⟩
  · rintro ⟨nonempty, solid, proper, short⟩
    exact ⟨nonempty, by simpa using List.all_eq_true.mp solid, proper, short⟩

instance (name : String) : Decidable (Plain name) := decidable_of_iff' _ plain_iff

/-- The path goes down from the working directory by these names. -/
structure Leads (path : String) (names : List String) : Prop where
  spelled : path = "/".intercalate names
  nonempty : names ≠ []
  plain : ∀ name ∈ names, Plain name
  short : path.utf8ByteSize < 4096

/-- Nothing stands at a place twice, and files lie under directories alone. -/
structure Coherent (tree : FileTree) : Prop where
  single : ∀ a ∈ tree.files, ∀ b ∈ tree.files, a.1 = b.1 → a = b
  below : ∀ a ∈ tree.files, ∀ b ∈ tree.files, a.1 <+: b.1 → a.1 ≠ b.1 → a.2 = .directory
  rooted : ∀ a ∈ tree.files, a.1 ≠ []

/-- There is a directory at the end of the names: one of the tree, or any on the way to a file. -/
def HasDirectory (tree : FileTree) (names : List String) : Prop :=
  (names, .directory) ∈ tree.files ∨ ∃ file ∈ tree.files, names <+: file.1 ∧ names ≠ file.1

/-- What reading at the end of the names comes to. -/
structure Reads (tree : FileTree) (names : List String) (result : Except ReadFailure String) : Prop where
  ofText : ∀ text : String, (names, .bytes text.toUTF8) ∈ tree.files → result = .ok text
  ofBytes : ∀ content, (names, .bytes content) ∈ tree.files → (∀ text : String, text.toUTF8 ≠ content) →
    result = .error .notUtf8
  ofDirectory : tree.HasDirectory names → result = .error .isDirectory
  ofBlocked : ∀ before content, (before, .bytes content) ∈ tree.files → before <+: names → before ≠ names →
    result = .error .notDirectory
  ofMissing : (∀ file ∈ tree.files, ¬names <+: file.1) →
    (∀ before content, (before, .bytes content) ∈ tree.files → ¬before <+: names) → result = .error .notFound

variable {tree : FileTree} {names : List String} {name : String}

/-- Whatever the names lead to, this leaves one result. -/
theorem Reads.unique {result other : Except ReadFailure String} (reads : tree.Reads names result)
    (again : tree.Reads names other) : result = other := by
  by_cases file : ∃ content, (names, .bytes content) ∈ tree.files
  · obtain ⟨content, member⟩ := file
    by_cases encoded : ∃ text : String, text.toUTF8 = content
    · obtain ⟨text, rfl⟩ := encoded
      rw [reads.ofText text member, again.ofText text member]
    · have foreign : ∀ text : String, text.toUTF8 ≠ content := not_exists.mp encoded
      rw [reads.ofBytes content member foreign, again.ofBytes content member foreign]
  · by_cases directory : tree.HasDirectory names
    · rw [reads.ofDirectory directory, again.ofDirectory directory]
    · by_cases blocked : ∃ before content, (before, .bytes content) ∈ tree.files ∧ before <+: names ∧ before ≠ names
      · obtain ⟨before, content, member, inside, proper⟩ := blocked
        rw [reads.ofBlocked before content member inside proper, again.ofBlocked before content member inside proper]
      · have missing : ∀ leaf ∈ tree.files, ¬names <+: leaf.1 := by
          rintro ⟨leaf, content⟩ member before
          by_cases whole : names = leaf
          · subst whole
            cases content with
            | directory => exact directory (.inl member)
            | bytes content => exact file ⟨content, member⟩
          · exact directory (.inr ⟨_, member, before, whole⟩)
        have unblocked : ∀ before content, (before, .bytes content) ∈ tree.files → ¬before <+: names := by
          intro before content member inside
          by_cases whole : before = names
          · exact file ⟨content, whole ▸ member⟩
          · exact blocked ⟨before, content, member, inside, whole⟩
        rw [reads.ofMissing missing unblocked, again.ofMissing missing unblocked]

section
variable (coherent : tree.Coherent)
include coherent

theorem found_of_mem {content : FileContent} (member : (names, content) ∈ tree.files) :
    tree.entry? names = some content := by
  unfold entry?
  cases found : tree.files.find? fun file => file.1 = names with
  | none => exact absurd (decide_eq_true rfl) (List.find?_eq_none.mp found _ member)
  | some file =>
    have same : file.1 = names := by simpa using List.find?_some found
    rw [coherent.single file (List.mem_of_find?_eq_some found) _ member same]

theorem found_of_hasDirectory (there : tree.HasDirectory names) : tree.entry? names = some .directory := by
  obtain listed | ⟨file, member, before, other⟩ := there
  · exact found_of_mem coherent listed
  · unfold entry?
    cases found : tree.files.find? fun file => file.1 = names with
    | none => exact if_pos (List.any_eq_true.mpr ⟨file, member, List.isPrefixOf_iff_prefix.mpr before⟩)
    | some leaf =>
      have same : leaf.1 = names := by simpa using List.find?_some found
      subst same
      exact congrArg some (coherent.below leaf (List.mem_of_find?_eq_some found) file member before other)

end

theorem unfound_of_missing (missing : ∀ file ∈ tree.files, ¬names <+: file.1) : tree.entry? names = none := by
  have free : (tree.files.find? fun file => file.1 = names) = none := by
    refine List.find?_eq_none.mpr fun leaf inTree same => missing leaf inTree ?_
    have leafNames : leaf.1 = names := by simpa using same
    exact leafNames ▸ List.prefix_refl _
  have offTheWay : ¬(tree.files.any fun file => names.isPrefixOf file.1) = true := by
    intro any
    obtain ⟨file, member, before⟩ := List.any_eq_true.mp any
    exact missing file member (List.isPrefixOf_iff_prefix.mp before)
  unfold entry?
  rw [free]
  exact if_neg offTheWay

theorem HasDirectory.of_prefix {longer : List String} (there : tree.HasDirectory longer) (before : names <+: longer) :
    tree.HasDirectory names := by
  by_cases same : names = longer
  · exact same ▸ there
  · obtain empty | ⟨file, member, onTheWay, _⟩ := there
    · exact .inr ⟨_, empty, before, same⟩
    · refine .inr ⟨file, member, before.trans onTheWay, fun whole => same ?_⟩
      exact before.eq_of_length_le (whole ▸ onTheWay.length_le)

theorem walkAll_append (tree : FileTree) (place : Place) (first second : List String) :
    tree.walkAll place (first ++ second) = (tree.walkAll place first).bind fun place => tree.walkAll place second := by
  induction first generalizing place with
  | nil => rfl
  | cons name first ih =>
    rw [List.cons_append, walkAll, walkAll]
    cases tree.walk place name with
    | error failure => rfl
    | ok next => exact ih next

theorem walkAll_concat (tree : FileTree) (place : Place) (names : List String) (name : String) :
    tree.walkAll place (names ++ [name]) = (tree.walkAll place names).bind fun place => tree.walk place name := by
  rw [walkAll_append]
  refine congrArg (Except.bind _) (funext fun place => ?_)
  change (tree.walk place name).bind .ok = _
  cases tree.walk place name <;> rfl

/-- The place of an entry that stands under these names. -/
def Place.ofEntry (names : List String) : FileContent → Place
  | .directory => .inside names
  | .bytes content => .file content

section
variable (plain : Plain name)
include plain

theorem walk_of_found {content : FileContent} (found : tree.entry? (names ++ [name]) = some content) :
    tree.walk (.inside names) name = .ok (.ofEntry (names ++ [name]) content) := by
  have short : ¬nameLimit < name.utf8ByteSize := Nat.not_lt.mpr plain.short
  rw [walk, if_neg plain.proper.1, if_neg plain.proper.2, if_neg short, found]
  cases content <;> rfl

theorem walk_of_missing (missing : ∀ file ∈ tree.files, ¬names ++ [name] <+: file.1) :
    tree.walk (.inside names) name = .error .notFound := by
  have short : ¬nameLimit < name.utf8ByteSize := Nat.not_lt.mpr plain.short
  rw [walk, if_neg plain.proper.1, if_neg plain.proper.2, if_neg short, unfound_of_missing missing]

end

/-- A way of directories alone leads to a directory. -/
theorem walkAll_directories (coherent : tree.Coherent) (plain : ∀ name ∈ names, Plain name)
    (directories : ∀ before, before <+: names → before ≠ [] → tree.HasDirectory before) :
    tree.walkAll (.inside []) names = .ok (.inside names) := by
  induction names using List.reverseRecOn with
  | nil => rfl
  | append_singleton names name ih =>
    have earlier := ih (fun name member => plain name (List.mem_append_left _ member)) fun before inside =>
      directories before (inside.trans (List.prefix_append ..))
    have last := found_of_hasDirectory coherent (directories _ (List.prefix_refl _) (by simp))
    rw [walkAll_concat, earlier]
    exact walk_of_found (plain name (by simp)) last

theorem walkAll_of_hasDirectory (coherent : tree.Coherent) (plain : ∀ name ∈ names, Plain name)
    (there : tree.HasDirectory names) : tree.walkAll (.inside []) names = .ok (.inside names) :=
  walkAll_directories coherent plain fun _ before _ => there.of_prefix before

theorem walkAll_of_file (coherent : tree.Coherent) (plain : ∀ name ∈ names, Plain name) {content : ByteArray}
    (member : (names, .bytes content) ∈ tree.files) : tree.walkAll (.inside []) names = .ok (.file content) := by
  obtain rfl | ⟨way, name, rfl⟩ := List.eq_nil_or_concat' names
  · exact absurd rfl (coherent.rooted _ member)
  · have earlier : tree.walkAll (.inside []) way = .ok (.inside way) := by
      refine walkAll_directories coherent (fun name inWay => plain name (List.mem_append_left _ inWay)) ?_
      intro before inside _
      refine .inr ⟨_, member, inside.trans (List.prefix_append ..), fun same => ?_⟩
      have length := inside.length_le
      rw [same, List.length_append] at length
      exact absurd length (Nat.not_succ_le_self way.length)
    rw [walkAll_concat, earlier]
    exact walk_of_found (plain name (by simp)) (found_of_mem coherent member)

/-- The first name that is not there decides. -/
theorem walkAll_of_missing (coherent : tree.Coherent) (nonempty : names ≠ []) (plain : ∀ name ∈ names, Plain name)
    (missing : ∀ file ∈ tree.files, ¬names <+: file.1)
    (unblocked : ∀ before content, (before, .bytes content) ∈ tree.files → ¬before <+: names) :
    tree.walkAll (.inside []) names = .error .notFound := by
  induction names using List.reverseRecOn with
  | nil => exact absurd rfl nonempty
  | append_singleton way name ih =>
    have plainWay : ∀ name ∈ way, Plain name := fun name inWay => plain name (List.mem_append_left _ inWay)
    have inFront : way <+: way ++ [name] := List.prefix_append ..
    have ends (earlier : tree.walkAll (.inside []) way = .ok (.inside way)) :
        tree.walkAll (.inside []) (way ++ [name]) = .error .notFound := by
      rw [walkAll_concat, earlier]
      exact walk_of_missing (plain name (by simp)) missing
    by_cases start : way = []
    · subst start
      exact ends rfl
    · by_cases there : ∃ file ∈ tree.files, way <+: file.1
      · obtain ⟨⟨leaf, content⟩, member, before⟩ := there
        refine ends (walkAll_of_hasDirectory coherent plainWay ?_)
        by_cases whole : way = leaf
        · subst whole
          cases content with
          | directory => exact .inl member
          | bytes content => exact absurd inFront (unblocked _ content member)
        · exact .inr ⟨_, member, before, whole⟩
      · have stopped := ih start plainWay (fun file member before => there ⟨file, member, before⟩)
          fun before content member inside => unblocked before content member (inside.trans inFront)
        rw [walkAll_concat, stopped]
        rfl

theorem walkAll_of_blocked (coherent : tree.Coherent) (plain : ∀ name ∈ names, Plain name) {before : List String}
    {content : ByteArray} (member : (before, .bytes content) ∈ tree.files) (inside : before <+: names)
    (proper : before ≠ names) : tree.walkAll (.inside []) names = .error .notDirectory := by
  obtain ⟨after, rfl⟩ := inside
  have reached := walkAll_of_file coherent (fun name inBefore => plain name (List.mem_append_left _ inBefore)) member
  rw [walkAll_append, reached]
  cases after with
  | nil => exact absurd (List.append_nil before).symm proper
  | cons name after => rfl

/-- A path that goes through plain names ends in a character of the last one. -/
theorem getLast?_intercalate {words : List (List Char)} (nonempty : words ≠ [])
    (solid : ∀ word ∈ words, word ≠ [] ∧ ∀ c ∈ word, c ≠ '/') : (['/'].intercalate words).getLast? ≠ some '/' := by
  induction words with
  | nil => exact absurd rfl nonempty
  | cons word words ih =>
    obtain ⟨filled, letters⟩ := solid word List.mem_cons_self
    cases words with
    | nil =>
      rw [List.intercalate_singleton]
      exact fun last => letters '/' (List.mem_of_getLast? last) rfl
    | cons next words =>
      have later := fun other member => solid other (List.mem_cons_of_mem word member)
      have rest : ['/'].intercalate (next :: words) ≠ [] := by
        cases words with
        | nil => simpa using (later next List.mem_cons_self).1
        | cons => simp [List.intercalate_cons_cons]
      rw [List.intercalate_cons_cons, List.getLast?_append_of_ne_nil _ rest]
      exact ih (List.cons_ne_nil next words) later

theorem Plain.toList (plain : Plain name) : name.toList ≠ [] ∧ ∀ c ∈ name.toList, c ≠ '/' :=
  ⟨fun empty => plain.nonempty (String.toList_eq_nil_iff.mp empty), fun c member => (plain.solid c member).1⟩

/-- What reading comes to at a place. -/
def Place.read : Place → Except ReadFailure String
  | .inside _ => .error .isDirectory
  | .above => .error .isDirectory
  | .file content =>
    match String.fromUTF8? content with
    | some text => .ok text
    | none => .error .notUtf8

section
variable {path : String} (leads : Leads path names)
include leads

theorem Leads.toList : path.toList = ['/'].intercalate (names.map String.toList) := by
  rw [leads.spelled, String.toList_intercalate]
  rfl

theorem Leads.solid : ∀ word ∈ names.map String.toList, word ≠ [] ∧ ∀ c ∈ word, c ≠ '/' := by
  intro word member
  obtain ⟨name, inNames, rfl⟩ := List.mem_map.mp member
  exact (leads.plain name inNames).toList

theorem Leads.names_eq : FileTree.names path = names := by
  have split : Text.tokensBy (· = '/') (['/'].intercalate (names.map String.toList)) = names.map String.toList := by
    refine Text.tokensBy_intercalate rfl fun word member => ?_
    exact ⟨(leads.solid word member).1, fun c inWord => decide_eq_false ((leads.solid word member).2 c inWord)⟩
  have unended := getLast?_intercalate (by simpa using leads.nonempty) leads.solid
  rw [FileTree.names, leads.toList, if_neg unended, split, List.map_map]
  simp [Function.comp_def]

theorem Leads.nul_notMem : '\x00' ∉ path.toList := by
  intro member
  rw [leads.toList] at member
  obtain separator | ⟨word, inWords, inWord⟩ := Text.mem_intercalate member
  · cases List.mem_singleton.mp separator
  · obtain ⟨name, inNames, rfl⟩ := List.mem_map.mp inWords
    exact ((leads.plain name inNames).solid _ inWord).2 rfl

/-- The path begins with a letter of its first name. -/
theorem Leads.exists_head : ∃ c, path.toList.head? = some c ∧ c ≠ '/' := by
  obtain ⟨first, later, shape⟩ := List.exists_cons_of_ne_nil leads.nonempty
  obtain ⟨filled, letters⟩ := leads.solid first.toList (by simp [shape])
  obtain ⟨c, rest, spelled⟩ := List.exists_cons_of_ne_nil filled
  refine ⟨c, ?_, letters c (spelled ▸ List.mem_cons_self)⟩
  rw [leads.toList, shape, List.map_cons, spelled]
  cases later <;> simp [List.intercalate_cons_cons]

/-- The path is one that the system looks up. -/
theorem Leads.read_eq (tree : FileTree) : tree.read path = (tree.walkAll (.inside []) names).bind Place.read := by
  obtain ⟨c, first, solid⟩ := leads.exists_head
  have clean : ¬path.toList.contains '\x00' := fun found => leads.nul_notMem (List.contains_iff_mem.mp found)
  have filled : ¬path.isEmpty := by
    intro empty
    rw [String.isEmpty_iff.mp empty] at first
    cases first
  have short : ¬pathLimit ≤ path.utf8ByteSize := Nat.not_le.mpr leads.short
  have relative : path.toList.head? ≠ some '/' := by simpa [first] using solid
  rw [FileTree.read, if_neg clean, if_neg filled, if_neg short, if_neg relative, leads.names_eq]
  cases tree.walkAll (.inside []) names with
  | error failure => rfl
  | ok place => cases place <;> rfl

theorem Leads.reads (coherent : tree.Coherent) : tree.Reads names (tree.read path) where
  ofText := by
    intro text member
    have decoded : String.fromUTF8? text.toUTF8 = some text := dif_pos text.isValidUTF8
    rw [leads.read_eq, walkAll_of_file coherent leads.plain member, Except.bind, Place.read, decoded]
  ofBytes := by
    intro content member foreign
    have undecoded : String.fromUTF8? content = none := dif_neg fun valid => foreign ⟨content, valid⟩ rfl
    rw [leads.read_eq, walkAll_of_file coherent leads.plain member, Except.bind, Place.read, undecoded]
  ofDirectory := by
    intro there
    rw [leads.read_eq, walkAll_of_hasDirectory coherent leads.plain there]
    rfl
  ofBlocked := by
    intro before content member inside proper
    rw [leads.read_eq, walkAll_of_blocked coherent leads.plain member inside proper]
    rfl
  ofMissing := by
    intro missing unblocked
    rw [leads.read_eq, walkAll_of_missing coherent leads.nonempty leads.plain missing unblocked]
    rfl

end

end FileTree

end LogicBoard
