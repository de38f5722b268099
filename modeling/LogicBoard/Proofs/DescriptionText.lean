import LogicBoard.Description.Reader
import LogicBoard.Proofs.JsonRecords

namespace LogicBoard
open Json

namespace PinReference

def writtenFields (r : PinReference) : List RecordField :=
  [⟨"component", False, WritesText r.component⟩, ⟨"pin", False, WritesText r.pin⟩]

def Writes (r : PinReference) (text : List Char) : Prop := WritesRecord r.writtenFields text

/-- What has been read of a reference when some of its members are done. -/
def draft (r : PinReference) (done : List String) : Draft where
  component := given "component" done r.component
  pin := given "pin" done r.pin

theorem readsFields (r : PinReference) : ReadsFields r.writtenFields member r.draft finish r where
  takes := by
    intro field among done value writes fresh
    simp only [writtenFields, List.mem_cons, List.not_mem_nil, or_false] at among
    rcases among with rfl | rfl
    · rw [member]
      refine Reader.takes_field (reads_text writes) fresh (fun component => { r.draft done with component }) ?_
      simp [draft]
    · rw [member]
      refine Reader.takes_field (reads_text writes) fresh (fun pin => { r.draft done with pin }) ?_
      simp [draft]
  ignores := by
    intro done key unknown
    simp only [writtenFields, List.map_cons, List.map_nil, List.mem_cons, List.not_mem_nil, or_false, not_or] at unknown
    refine ⟨by simp [draft, Ne.symm unknown.1, Ne.symm unknown.2], fun s => ?_⟩
    unfold member
    split
    · exact absurd rfl unknown.1
    · exact absurd rfl unknown.2
    · rfl
  finishes := by
    intro done present
    simp only [writtenFields, List.forall_mem_cons, or_false] at present
    simp only [finish, draft, given_of_mem present.1, given_of_mem present.2.1, required]
    rfl

theorem reads {r : PinReference} {text : List Char} (writes : r.Writes text) : Reads read r text :=
  reads_record r.readsFields writes

theorem exists_writes (r : PinReference) : ∃ text, r.Writes text := by
  refine exists_writesRecord (by simp [writtenFields]) ?_
  simp only [writtenFields, List.forall_mem_cons]
  exact ⟨exists_writesText _, exists_writesText _, by simp⟩

end PinReference

namespace Connection

def writtenFields (c : Connection) : List RecordField :=
  [⟨"source", False, c.source.Writes⟩, ⟨"targets", False, WritesList PinReference.Writes c.targets⟩]

def Writes (c : Connection) (text : List Char) : Prop := WritesRecord c.writtenFields text

def draft (c : Connection) (done : List String) : Draft where
  source := given "source" done c.source
  targets := given "targets" done c.targets

theorem readsFields (c : Connection) : ReadsFields c.writtenFields member c.draft finish c where
  takes := by
    intro field among done value writes fresh
    simp only [writtenFields, List.mem_cons, List.not_mem_nil, or_false] at among
    rcases among with rfl | rfl
    · rw [member]
      refine Reader.takes_field (PinReference.reads writes) fresh (fun source => { c.draft done with source }) ?_
      simp [draft]
    · rw [member]
      refine Reader.takes_field (reads_list (fun _ _ => PinReference.reads) writes) fresh
        (fun targets => { c.draft done with targets }) ?_
      simp [draft]
  ignores := by
    intro done key unknown
    simp only [writtenFields, List.map_cons, List.map_nil, List.mem_cons, List.not_mem_nil, or_false, not_or] at unknown
    refine ⟨by simp [draft, Ne.symm unknown.1, Ne.symm unknown.2], fun s => ?_⟩
    unfold member
    split
    · exact absurd rfl unknown.1
    · exact absurd rfl unknown.2
    · rfl
  finishes := by
    intro done present
    simp only [writtenFields, List.forall_mem_cons, or_false] at present
    simp only [finish, draft, given_of_mem present.1, given_of_mem present.2.1, required]
    rfl

theorem reads {c : Connection} {text : List Char} (writes : c.Writes text) : Reads read c text :=
  reads_record c.readsFields writes

theorem exists_writes (c : Connection) : ∃ text, c.Writes text := by
  refine exists_writesRecord (by simp [writtenFields]) ?_
  simp only [writtenFields, List.forall_mem_cons]
  exact ⟨c.source.exists_writes, exists_writesList PinReference.exists_writes _, by simp⟩

end Connection

namespace ChipEntry

def writtenFields (e : ChipEntry) : List RecordField :=
  [⟨"name", False, WritesText e.name⟩,
    ⟨"component_type", e.componentType = none, WritesOption WritesText e.componentType⟩,
    ⟨"placement", e.placement = none, WritesOption WritesText e.placement⟩,
    ⟨"position", e.position = none, WritesOption (WritesPair WritesInt32) e.position⟩]

def Writes (e : ChipEntry) (text : List Char) : Prop := WritesRecord e.writtenFields text

def draft (e : ChipEntry) (done : List String) : Draft where
  name := given "name" done e.name
  componentType := given "component_type" done e.componentType
  placement := given "placement" done e.placement
  position := given "position" done e.position

theorem reads_readText {x? : Option String} {text : List Char} (written : WritesOption WritesText x? text) :
    Reads readText x? text :=
  reads_option (fun _ _ => reads_text) (fun _ _ writes => by simp [writes.head]) written

theorem reads_readPosition {x? : Option (Int32 × Int32)} {text : List Char}
    (written : WritesOption (WritesPair WritesInt32) x? text) : Reads readPosition x? text :=
  reads_option (fun _ _ => reads_pair fun _ _ => reads_int32) (fun _ _ writes => by simp [writes.head]) written

theorem readsFields (e : ChipEntry) : ReadsFields e.writtenFields member e.draft finish e where
  takes := by
    intro field among done value writes fresh
    simp only [writtenFields, List.mem_cons, List.not_mem_nil, or_false] at among
    rcases among with rfl | rfl | rfl | rfl
    · rw [member]
      refine Reader.takes_field (reads_text writes) fresh (fun name => { e.draft done with name }) ?_
      simp [draft]
    · rw [member]
      refine Reader.takes_field (reads_readText writes) fresh
        (fun componentType => { e.draft done with componentType }) ?_
      simp [draft]
    · rw [member]
      refine Reader.takes_field (reads_readText writes) fresh (fun placement => { e.draft done with placement }) ?_
      simp [draft]
    · rw [member]
      refine Reader.takes_field (reads_readPosition writes) fresh (fun position => { e.draft done with position }) ?_
      simp [draft]
  ignores := by
    intro done key unknown
    simp only [writtenFields, List.map_cons, List.map_nil, List.mem_cons, List.not_mem_nil, or_false, not_or] at unknown
    obtain ⟨name, componentType, placement, position⟩ := unknown
    refine ⟨by simp [draft, Ne.symm name, Ne.symm componentType, Ne.symm placement, Ne.symm position], fun s => ?_⟩
    unfold member
    split
    · exact absurd rfl name
    · exact absurd rfl componentType
    · exact absurd rfl placement
    · exact absurd rfl position
    · rfl
  finishes := by
    intro done present
    simp only [writtenFields, List.forall_mem_cons, or_false] at present
    obtain ⟨name, componentType, placement, position, _⟩ := present
    simp only [finish, draft, given_of_mem name, given_getD componentType, given_getD placement, given_getD position,
      required]
    rfl

theorem reads {e : ChipEntry} {text : List Char} (writes : e.Writes text) : Reads read e text :=
  reads_record e.readsFields writes

theorem exists_writes (e : ChipEntry) : ∃ text, e.Writes text := by
  have int32 (w : Int32) : ∃ text, WritesInt32 w text := ⟨_, rfl⟩
  refine exists_writesRecord (by simp [writtenFields]) ?_
  simp only [writtenFields, List.forall_mem_cons]
  exact ⟨exists_writesText _, exists_writesOption exists_writesText _, exists_writesOption exists_writesText _,
    exists_writesOption (exists_writesPair int32) _, by simp⟩

end ChipEntry

namespace Description

def writtenFields (d : Description) : List RecordField :=
  [⟨"name", False, WritesText d.name⟩,
    ⟨"description", d.description = "", WritesText d.description⟩,
    ⟨"inputs", d.inputs = [], WritesList WritesText d.inputs⟩,
    ⟨"chips", False, WritesList ChipEntry.Writes d.chips⟩,
    ⟨"connections", d.connections = [], WritesList Connection.Writes d.connections⟩]

/-- The text writes the description as an object, with its members and those of every object in it in any order, among
members with other keys, and with any white space. -/
def Writes (d : Description) (text : List Char) : Prop :=
  ∃ before object after, Spaces before ∧ Spaces after ∧ WritesRecord d.writtenFields object ∧
    text = before ++ object ++ after

def draft (d : Description) (done : List String) : Draft where
  name := given "name" done d.name
  description := given "description" done d.description
  inputs := given "inputs" done d.inputs
  chips := given "chips" done d.chips
  connections := given "connections" done d.connections

theorem readsFields (d : Description) : ReadsFields d.writtenFields member d.draft finish d where
  takes := by
    intro field among done value writes fresh
    simp only [writtenFields, List.mem_cons, List.not_mem_nil, or_false] at among
    rcases among with rfl | rfl | rfl | rfl | rfl
    · rw [member]
      refine Reader.takes_field (reads_text writes) fresh (fun name => { d.draft done with name }) ?_
      simp [draft]
    · rw [member]
      refine Reader.takes_field (reads_text writes) fresh (fun description => { d.draft done with description }) ?_
      simp [draft]
    · rw [member]
      refine Reader.takes_field (reads_list (fun _ _ => reads_text) writes) fresh
        (fun inputs => { d.draft done with inputs }) ?_
      simp [draft]
    · rw [member]
      refine Reader.takes_field (reads_list (fun _ _ => ChipEntry.reads) writes) fresh
        (fun chips => { d.draft done with chips }) ?_
      simp [draft]
    · rw [member]
      refine Reader.takes_field (reads_list (fun _ _ => Connection.reads) writes) fresh
        (fun connections => { d.draft done with connections }) ?_
      simp [draft]
  ignores := by
    intro done key unknown
    simp only [writtenFields, List.map_cons, List.map_nil, List.mem_cons, List.not_mem_nil, or_false, not_or] at unknown
    obtain ⟨name, description, inputs, chips, connections⟩ := unknown
    refine ⟨by simp [draft, Ne.symm name, Ne.symm description, Ne.symm inputs, Ne.symm chips, Ne.symm connections],
      fun s => ?_⟩
    unfold member
    split
    · exact absurd rfl name
    · exact absurd rfl description
    · exact absurd rfl inputs
    · exact absurd rfl chips
    · exact absurd rfl connections
    · rfl
  finishes := by
    intro done present
    simp only [writtenFields, List.forall_mem_cons, or_false] at present
    obtain ⟨name, description, inputs, chips, connections, _⟩ := present
    simp only [finish, draft, given_of_mem name, given_getD description, given_getD inputs, given_of_mem chips,
      given_getD connections, required]
    rfl

theorem exists_writes (d : Description) : ∃ text, d.Writes text := by
  obtain ⟨object, written⟩ : ∃ object, WritesRecord d.writtenFields object := by
    refine exists_writesRecord (by simp [writtenFields]) ?_
    simp only [writtenFields, List.forall_mem_cons]
    exact ⟨exists_writesText _, exists_writesText _, exists_writesList exists_writesText _,
      exists_writesList ChipEntry.exists_writes _, exists_writesList Connection.exists_writes _, by simp⟩
  exact ⟨_, [], object, [], spaces_nil, spaces_nil, written, rfl⟩

/-- Every description can be written, and whatever text writes it is read back as that description. -/
theorem ofText_writes (d : Description) :
    (∃ text : String, d.Writes text.toList) ∧ ∀ text : String, d.Writes text.toList → ofText text = .ok d := by
  constructor
  · obtain ⟨text, writes⟩ := d.exists_writes
    exact ⟨.ofList text, by rwa [String.toList_ofList]⟩
  · rintro text ⟨before, object, after, inFront, behind, written, shape⟩
    have ends : Follows after := by
      have follows := behind.follows follows_nil
      rwa [List.append_nil] at follows
    have taken : read text.toList = .ok (d, after) := by
      rw [shape]
      exact (reads_record d.readsFields written).reads before after inFront ends
    have blank : after.all isSpace = true := List.all_eq_true.mpr behind
    rw [ofText, Reader.readAll, taken]
    change (if after.all isSpace then _ else _ : Except Fault Description) = _
    rw [if_pos blank]
    rfl

/-- A board without chips, named by a single character beyond 16 bits. -/
def smiley : Description where
  name := .singleton (.ofNat 0x1F600)
  description := ""
  inputs := []
  chips := []
  connections := []

/-- The members stand in another order, one of them has an unknown key and holds half of a surrogate pair, and the name
is escaped. -/
def smileyText : String :=
  " \x7b\"~\":[1e5,\x7b\"\\ud800\":[]\x7d],\"chips\":[],\n\"name\" : \"\\uD83D\\uDE00\"\x7d "

theorem smileyText_read : smiley.Writes smileyText.toList ∧ ofText smileyText = .ok smiley := by
  have blank : Spaces [' '] := by decide
  have newline : Spaces ['\n'] := by decide
  have tight : Spaces [] ∧ Spaces [] := ⟨spaces_nil, spaces_nil⟩
  have plain (s : String) (all : s.toList.all (Plain ·) = true) : WritesText s ('"' :: s.toList ++ ['"']) :=
    writesText_plain fun c member => of_decide_eq_true (List.all_eq_true.mp all c member)
  obtain ⟨unknown, formed, shape⟩ : ∃ text, WellFormed text ∧ text = "[1e5,\x7b\"\\ud800\":[]\x7d]".toList := by
    have half : Quad 0xD800 ['d', '8', '0', '0'] := .digits false false false false (by decide)
    have key : FormsText ['"', '\\', 'u', 'd', '8', '0', '0', '"'] :=
      ⟨[['\\', 'u', 'd', '8', '0', '0']], List.forall_mem_singleton.mpr (.unit half), rfl⟩
    have number : WellFormed ['1', 'e', '5'] := by
      refine .number ⟨[], ['1'], [], ['e', '5'], by decide, by decide, .inl rfl, .inr ?_, rfl⟩
      exact ⟨'e', [], ['5'], by decide, by decide, by decide, rfl⟩
    have nested := @WellFormed.object [⟨_, [], [], ['[', ']']⟩] _ (.some (.last spaces_nil spaces_nil))
      (List.forall_mem_singleton.mpr ⟨key, tight⟩)
      (List.forall_mem_singleton.mpr (.list (.none spaces_nil) (by simp)))
    refine ⟨_, .list (.some (.more spaces_nil spaces_nil (.last spaces_nil spaces_nil)))
      (List.forall_mem_cons.mpr ⟨number, List.forall_mem_singleton.mpr nested⟩), ?_⟩
    decide +kernel
  have name : WritesText smiley.name "\"\\uD83D\\uDE00\"".toList := by
    have high : Quad 0xD83D ['D', '8', '3', 'D'] := .digits true true true true (by decide)
    have low : Quad 0xDE00 ['D', 'E', '0', '0'] := .digits true true true true (by decide)
    exact ⟨[_], .cons (.surrogates (by decide) high low) .nil, by decide⟩
  have object : WritesObject [("~", unknown), ("chips", ['[', ']']), ("name", "\"\\uD83D\\uDE00\"".toList)] _ :=
    ⟨[⟨_, [], [], _⟩, ⟨_, [], [], _⟩, ⟨_, [' '], [' '], _⟩],
      .some (.more spaces_nil spaces_nil (.more spaces_nil spaces_nil (.last newline spaces_nil))),
      .cons ⟨plain "~" (by decide), tight, rfl⟩ (.cons ⟨plain "chips" (by decide), tight, rfl⟩
        (.cons ⟨plain "name" (by decide), ⟨blank, blank⟩, rfl⟩ .nil))⟩
  have writes : smiley.Writes smileyText.toList := by
    refine ⟨[' '], _, [' '], blank, blank, ⟨_, object, ?_, ?_⟩, ?_⟩
    · simp only [writtenFields, List.forall_mem_cons]
      exact ⟨.inl ⟨_, rfl, name⟩, .inr ⟨rfl, rfl⟩, .inr ⟨rfl, rfl⟩, .inl ⟨_, rfl, [], .none spaces_nil, .nil⟩,
        .inr ⟨rfl, rfl⟩, nofun⟩
    · simp only [List.forall_mem_cons]
      exact ⟨fun _ => formed, fun absent => absurd (by decide) absent, fun absent => absurd (by decide) absent, nofun⟩
    · rw [shape]
      decide +kernel
  exact ⟨writes, smiley.ofText_writes.2 smileyText writes⟩

end Description

end LogicBoard
