import LogicBoard.Proofs.BuiltBoards

namespace LogicBoard

theorem Text.toList_toString_nat (n : Nat) : (toString n).toList = decimal n := by
  rw [Nat.toString_eq_repr, Nat.toList_repr, decimal]

theorem Text.toList_toString_int (n : Int) : (toString n).toList = signed n := by
  cases n with
  | ofNat n => exact toList_toString_nat n
  | negSucc n =>
    have minus : toString (Int.negSucc n) = "-" ++ toString (n + 1) := rfl
    rw [minus, String.toList_append, toList_toString_nat]
    rfl

/-- The line that asks for a chip of a dump type at a point. -/
def Placement.pointLine (dumpType : UInt32) (x y : Int32) : String :=
  toString dumpType.toNat ++ " " ++ toString x.toInt ++ " " ++ toString y.toInt ++ " " ++ toString x.toInt ++ " " ++
    toString y.toInt ++ " 0"

theorem Placement.pointLine_eq (dumpType : UInt32) (x y : Int32) :
    pointLine dumpType x y = (atPoint dumpType x y).line := by
  refine String.toList_inj.mp ?_
  simp only [pointLine, line, toTokens, atPoint, String.toList_append, Text.toList_toString_nat,
    Text.toList_toString_int, String.toList_ofList]
  simp [Text.spaced, Text.decimal]

namespace ShiftRegister
variable {p : Placement}

theorem restore_of_ne (other : p.dumpType ≠ dumpType) :
    restore p = Logged.refuse (.dumpTypeMismatch dumpType p.dumpType) := if_pos other

theorem restoreLine_of_parse {line : String} (parsed : Placement.parse line = .ok p) :
    restoreLine line = restore p := by
  rw [restoreLine, parsed]
  exact pure_bind p restore

end ShiftRegister

/-- One call to have a catalog know a builder. -/
structure Registration where
  typeName : String
  dumpType : UInt32
  builder : Builder

namespace Registration

/-- The last of the registrations with a key. -/
def LastWith {κ : Type} (key : Registration → κ) (entries : List Registration) (k : κ) (entry : Registration) : Prop :=
  ∃ before after, entries = before ++ entry :: after ∧ key entry = k ∧ ∀ later ∈ after, key later ≠ k

variable {κ α : Type} {key : Registration → κ} {entries : List Registration} {k : κ} {entry : Registration}

theorem LastWith.mem (last : LastWith key entries k entry) : entry ∈ entries := by
  obtain ⟨before, after, rfl, _⟩ := last
  simp

theorem exists_lastWith (member : k ∈ entries.map key) : ∃ entry, LastWith key entries k entry := by
  classical
  induction entries with
  | nil => cases member
  | cons first entries ih =>
    -- The first entry is the last one with the key only if no later entry has the key.
    by_cases later : k ∈ entries.map key
    · obtain ⟨entry, before, after, rfl, same, none⟩ := ih later
      exact ⟨entry, first :: before, after, rfl, same, none⟩
    · rcases List.mem_cons.mp member with same | again
      · refine ⟨first, [], entries, rfl, same.symm, fun other among equal => later ?_⟩
        exact equal ▸ List.mem_map_of_mem among
      · exact absurd again later

variable [BEq κ] [LawfulBEq κ]

/-- Where new entries stand first, a look-up finds the last registration with its key. -/
theorem lookup_of_lastWith (value : Registration → α) (last : LastWith key entries k entry) :
    (entries.map fun entry => (key entry, value entry)).reverse.lookup k = some (value entry) := by
  obtain ⟨before, after, rfl, rfl, later⟩ := last
  refine List.lookup_eq_some_iff.mpr ⟨(after.map fun entry => (key entry, value entry)).reverse,
    (before.map fun entry => (key entry, value entry)).reverse, by simp, ?_⟩
  intro pair member
  obtain ⟨other, among, rfl⟩ := List.mem_map.mp (List.mem_reverse.mp member)
  exact bne_iff_ne.mpr (later other among).symm

theorem lookup_of_notMem (value : Registration → α) (absent : k ∉ entries.map key) :
    (entries.map fun entry => (key entry, value entry)).reverse.lookup k = none := by
  refine List.lookup_eq_none_iff.mpr fun pair member => bne_iff_ne.mpr fun same => absent ?_
  obtain ⟨other, among, rfl⟩ := List.mem_map.mp (List.mem_reverse.mp member)
  exact same ▸ List.mem_map_of_mem among

end Registration

namespace Catalog
open Registration

def add (catalog : Catalog) (entry : Registration) : Catalog :=
  catalog.register entry.typeName entry.dumpType entry.builder

/-- The standard catalog after a series of registrations. -/
def registered (entries : List Registration) : Catalog := entries.foldl add standard

/-- All registrations that a catalog has seen, its own one for the shift register first. -/
def history (entries : List Registration) : List Registration :=
  ⟨"sipo_shift", ShiftRegister.dumpType, shiftRegister⟩ :: entries

theorem foldl_add (entries : List Registration) (catalog : Catalog) : entries.foldl add catalog =
    ⟨(entries.map fun entry => (entry.dumpType, entry.builder)).reverse ++ catalog.builders,
      (entries.map fun entry => (entry.typeName, entry.dumpType)).reverse ++ catalog.types⟩ := by
  induction entries generalizing catalog with
  | nil => rfl
  | cons entry entries ih =>
    rw [List.foldl_cons, ih]
    simp [add, register]

theorem builders_registered (entries : List Registration) : (registered entries).builders =
    ((history entries).map fun entry => (entry.dumpType, entry.builder)).reverse := by
  rw [registered, foldl_add, history, List.map_cons, List.reverse_cons]
  rfl

theorem types_registered (entries : List Registration) : (registered entries).types =
    ((history entries).map fun entry => (entry.typeName, entry.dumpType)).reverse := by
  rw [registered, foldl_add, history, List.map_cons, List.reverse_cons]
  rfl

variable {entries : List Registration} {entry : Registration} {p : Placement} {typeName : String}

theorem ofPlacement_of_lastWith (last : LastWith Registration.dumpType (history entries) p.dumpType entry) :
    (registered entries).ofPlacement p = entry.builder p := by
  rw [ofPlacement, builders_registered, lookup_of_lastWith Registration.builder last]

theorem ofPlacement_of_notMem (unknown : p.dumpType ∉ (history entries).map Registration.dumpType) :
    (registered entries).ofPlacement p = Logged.refuse (.unknownDumpType p.dumpType) := by
  rw [ofPlacement, builders_registered, lookup_of_notMem Registration.builder unknown]

theorem ofType_of_lastWith (last : LastWith Registration.typeName (history entries) typeName entry) (x y : Int32) :
    (registered entries).ofType typeName x y = (registered entries).ofPlacement (.atPoint entry.dumpType x y) := by
  rw [ofType, types_registered, lookup_of_lastWith Registration.dumpType last]

theorem ofType_of_notMem (unknown : typeName ∉ (history entries).map Registration.typeName) (x y : Int32) :
    (registered entries).ofType typeName x y = Logged.refuse (.unknownComponentType typeName) := by
  rw [ofType, types_registered, lookup_of_notMem Registration.dumpType unknown]

theorem ofLine_of_parse (catalog : Catalog) {line : String} (parsed : Placement.parse line = .ok p) :
    catalog.ofLine line = catalog.ofPlacement p := by
  rw [ofLine, parsed]
  exact pure_bind p catalog.ofPlacement

/-- On the line of a chip at a point, and on the name of a type, the catalog does the same. -/
theorem ofLine_pointLine (catalog : Catalog) (dumpType : UInt32) (x y : Int32) :
    catalog.ofLine (Placement.pointLine dumpType x y) = catalog.ofPlacement (.atPoint dumpType x y) := by
  rw [Placement.pointLine_eq]
  exact catalog.ofLine_of_parse (Placement.parse_line _)

/-- A line is refused as it is for a shift register alone, and a line of the right type makes the same register. -/
theorem ofLine_eq_restoreLine (own : ∀ entry ∈ entries, entry.dumpType ≠ ShiftRegister.dumpType) {line : String}
    (typed : ∀ p, Placement.parse line = .ok p → p.dumpType = ShiftRegister.dumpType) :
    (registered entries).ofLine line = Chip.register <$> ShiftRegister.restoreLine line := by
  cases parsed : Placement.parse line with
  | error error =>
    rw [ofLine, ShiftRegister.restoreLine, parsed]
    rfl
  | ok p =>
    have last : LastWith Registration.dumpType (history entries) p.dumpType
        ⟨"sipo_shift", ShiftRegister.dumpType, shiftRegister⟩ :=
      ⟨[], entries, rfl, (typed p parsed).symm, fun later member => typed p parsed ▸ own later member⟩
    rw [ofLine_of_parse _ parsed, ofPlacement_of_lastWith last, ShiftRegister.restoreLine_of_parse parsed,
      map_eq_pure_bind]
    rfl

/-- The builder never says that a type is unknown, which is for the catalog to say. -/
def LeavesTypes (builder : Builder) : Prop :=
  ∀ p, (∀ name, (builder p).result ≠ .error (.refused (.unknownComponentType name))) ∧
    ∀ dumpType, (builder p).result ≠ .error (.refused (.unknownDumpType dumpType))

theorem leavesTypes_shiftRegister : LeavesTypes shiftRegister := by
  intro p
  by_cases own : p.dumpType = ShiftRegister.dumpType
  · have restored := ShiftRegister.restore_result_eq_ok_iff.mpr ⟨own, rfl⟩
    have made : (shiftRegister p).result = .ok (.restored p) := Logged.result_bind_of_ok restored
    rw [made]
    exact ⟨nofun, nofun⟩
  · have refused : (shiftRegister p).result = .error (.refused (.dumpTypeMismatch _ p.dumpType)) :=
      Logged.result_bind_of_error (congrArg Logged.result (ShiftRegister.restore_of_ne own))
    rw [refused]
    exact ⟨nofun, nofun⟩

theorem leavesTypes_inverter : LeavesTypes inverter := fun _ => ⟨nofun, nofun⟩

/-- By name a catalog makes the chip that the builder registered last for its dump type makes, under whatever name that
was, so it makes the same chip as on a line. -/
theorem made_by_latest {latest : Registration} (last : LastWith Registration.typeName (history entries) typeName entry)
    (lastOfType : LastWith Registration.dumpType (history entries) entry.dumpType latest) (x y : Int32) :
    (registered entries).ofType typeName x y = latest.builder (.atPoint entry.dumpType x y) ∧
      (registered entries).ofLine (Placement.pointLine entry.dumpType x y) =
        latest.builder (.atPoint entry.dumpType x y) := by
  have made : (registered entries).ofPlacement (.atPoint entry.dumpType x y) =
      latest.builder (.atPoint entry.dumpType x y) := ofPlacement_of_lastWith lastOfType
  constructor
  · rw [ofType_of_lastWith last, made]
  · rw [ofLine_pointLine, made]

theorem exists_latest (last : LastWith Registration.typeName (history entries) typeName entry) :
    ∃ latest, LastWith Registration.dumpType (history entries) entry.dumpType latest :=
  exists_lastWith (List.mem_map_of_mem last.mem)

/-- How a catalog answers after a series of registrations, with names and dump types in any number of them. What the
builder in charge makes or refuses is passed on as it is. So the catalog says of no other name than one that was never
registered that it is unknown, and of no name that its dump type is, as long as that builder does not say so itself. -/
structure Agreement (entries : List Registration) : Prop where
  unknownName : ∀ typeName x y, typeName ∉ (history entries).map Registration.typeName →
    (registered entries).ofType typeName x y = Logged.refuse (.unknownComponentType typeName)
  knownName : ∀ typeName ∈ (history entries).map Registration.typeName, ∃ entry latest,
    LastWith Registration.typeName (history entries) typeName entry ∧
    LastWith Registration.dumpType (history entries) entry.dumpType latest
  latest : ∀ typeName entry latest, LastWith Registration.typeName (history entries) typeName entry →
    LastWith Registration.dumpType (history entries) entry.dumpType latest → ∀ x y,
    (registered entries).ofType typeName x y = latest.builder (.atPoint entry.dumpType x y) ∧
    (registered entries).ofLine (Placement.pointLine entry.dumpType x y) =
      latest.builder (.atPoint entry.dumpType x y)
  refused : ∀ typeName x y, (∀ entry latest, LastWith Registration.typeName (history entries) typeName entry →
      LastWith Registration.dumpType (history entries) entry.dumpType latest → LeavesTypes latest.builder) →
    ((∃ name, ((registered entries).ofType typeName x y).result = .error (.refused (.unknownComponentType name))) ↔
      typeName ∉ (history entries).map Registration.typeName) ∧
    ∀ dumpType, ((registered entries).ofType typeName x y).result ≠ .error (.refused (.unknownDumpType dumpType))
  ownLine : (∀ entry ∈ entries, entry.dumpType ≠ ShiftRegister.dumpType) → ∀ line,
    (∀ p, Placement.parse line = .ok p → p.dumpType = ShiftRegister.dumpType) →
    (registered entries).ofLine line = Chip.register <$> ShiftRegister.restoreLine line
  foreignLine : ∀ line p, Placement.parse line = .ok p → p.dumpType ∉ (history entries).map Registration.dumpType →
    (registered entries).ofLine line = Logged.refuse (.unknownDumpType p.dumpType) ∧
    ShiftRegister.restoreLine line = Logged.refuse (.dumpTypeMismatch ShiftRegister.dumpType p.dumpType)

theorem registrations_agree (entries : List Registration) : Agreement entries where
  unknownName := fun _ x y unknown => ofType_of_notMem unknown x y
  knownName := by
    intro typeName known
    obtain ⟨entry, last⟩ := exists_lastWith known
    obtain ⟨latest, lastOfType⟩ := exists_latest last
    exact ⟨entry, latest, last, lastOfType⟩
  latest := fun _ _ _ last lastOfType => made_by_latest last lastOfType
  refused := by
    intro typeName x y leave
    by_cases known : typeName ∈ (history entries).map Registration.typeName
    · obtain ⟨entry, last⟩ := exists_lastWith known
      obtain ⟨latest, lastOfType⟩ := exists_latest last
      obtain ⟨noName, noType⟩ := leave entry latest last lastOfType (.atPoint entry.dumpType x y)
      rw [(made_by_latest last lastOfType x y).1]
      exact ⟨⟨fun ⟨name, refused⟩ => absurd refused (noName name), fun unknown => absurd known unknown⟩, noType⟩
    · rw [ofType_of_notMem known]
      exact ⟨⟨fun _ => known, fun _ => ⟨typeName, rfl⟩⟩, nofun⟩
  ownLine := fun own _ typed => ofLine_eq_restoreLine own typed
  foreignLine := by
    intro line p parsed unknown
    have other : p.dumpType ≠ ShiftRegister.dumpType := fun same => unknown (same ▸ List.mem_cons_self)
    rw [ofLine_of_parse _ parsed, ofPlacement_of_notMem unknown, ShiftRegister.restoreLine_of_parse parsed,
      ShiftRegister.restore_of_ne other]
    exact ⟨rfl, rfl⟩

/-- Two registrations share a dump type, and the second one takes the name of the shift register for it. -/
def rivals : List Registration := [⟨"inv", 7, inverter⟩, ⟨"sipo_shift", 7, shiftRegister⟩]

theorem rivals_agree :
    (registered rivals).ofType "inv" (-3) 4 = Logged.refuse (.dumpTypeMismatch 189 7) ∧
    (registered rivals).ofLine "7 -3 4 -3 4 0" = Logged.refuse (.dumpTypeMismatch 189 7) ∧
    (∀ dumpType, ((registered rivals).ofType "inv" (-3) 4).result ≠ .error (.refused (.unknownDumpType dumpType))) ∧
    (registered rivals).ofType "nand" 0 0 = Logged.refuse (.unknownComponentType "nand") ∧
    (registered rivals).ofLine "189 1 2 3 4 1024 true" =
      Chip.register <$> ShiftRegister.restoreLine "189 1 2 3 4 1024 true" ∧
    (registered rivals).ofLine "150 0 0 0 0 0" = Logged.refuse (.unknownDumpType 150) := by
  have agree := registrations_agree rivals
  have last : LastWith Registration.typeName (history rivals) "inv" ⟨"inv", 7, inverter⟩ :=
    ⟨[_], [_], rfl, rfl, by simp⟩
  have lastOfType : LastWith Registration.dumpType (history rivals) 7 ⟨"sipo_shift", 7, shiftRegister⟩ :=
    ⟨[_, _], [], rfl, rfl, by simp⟩
  have line : Placement.pointLine 7 (-3) 4 = "7 -3 4 -3 4 0" := by decide
  have leave : ∀ entry ∈ history rivals, LeavesTypes entry.builder := by
    simp only [history, rivals, List.forall_mem_cons]
    exact ⟨leavesTypes_shiftRegister, leavesTypes_inverter, leavesTypes_shiftRegister, by simp⟩
  obtain ⟨byName, byLine⟩ := agree.latest "inv" _ _ last lastOfType (-3) 4
  rw [line] at byLine
  have never := (agree.refused "inv" (-3) 4 fun _ _ _ charged => leave _ charged.mem).2
  refine ⟨byName, byLine, never, agree.unknownName "nand" 0 0 (by decide), ?_, ?_⟩
  · refine agree.ownLine (by decide) _ fun p parsed => ?_
    have read : Placement.parse "189 1 2 3 4 1024 true" = .ok ⟨189, 1, 2, 3, 4, 1024, [.high]⟩ := rfl
    rw [read] at parsed
    cases parsed
    rfl
  · exact (agree.foreignLine "150 0 0 0 0 0" (.atPoint 150 0 0) rfl (by decide)).1

end Catalog

end LogicBoard
