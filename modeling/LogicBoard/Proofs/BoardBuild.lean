import LogicBoard.Proofs.BoardChips

namespace LogicBoard

/-- Either all of a list goes well, or there is a first element that does not. -/
theorem forall_ok_or_first_error {ε α β : Type} (f : α → Except ε β) (items : List α) :
    (∀ item ∈ items, ∃ value, f item = .ok value) ∨
      ∃ before item after error, items = before ++ item :: after ∧
        (∀ earlier ∈ before, ∃ value, f earlier = .ok value) ∧ f item = .error error := by
  induction items with
  | nil => exact .inl (by simp)
  | cons item items ih =>
    cases here : f item with
    | error error => exact .inr ⟨[], item, items, error, rfl, by simp, here⟩
    | ok value =>
      rcases ih with all | ⟨before, failing, after, error, rfl, earlier, failed⟩
      · exact .inl (List.forall_mem_cons.mpr ⟨⟨value, here⟩, all⟩)
      · have extended := List.forall_mem_cons.mpr ⟨⟨value, here⟩, earlier⟩
        exact .inr ⟨item :: before, failing, after, error, rfl, extended, failed⟩

def Connection.references (connection : Connection) : List PinReference := connection.source :: connection.targets

/-- The references of all connections, the source of each before its targets. -/
def Description.references (d : Description) : List PinReference := d.connections.flatMap Connection.references

/-- The wires of a connection when references stand for pins. -/
def Connection.wires (pinOf : PinReference → PinId) (connection : Connection) : List Wire :=
  connection.targets.map fun target => ⟨pinOf connection.source, pinOf target⟩

theorem Circuit.label_of_input? {c : Circuit} {label : String} {id : PinId} (found : c.input? label = some id) :
    (c.pins.get? id).map Pin.label = some label := by
  unfold input? at found
  have labelled := List.find?_some found
  exact of_decide_eq_true labelled

namespace Board

def withWires (b : Board) (wires : List Wire) : Board :=
  { b with circuit := { b.circuit with wires := b.circuit.wires ++ wires } }

section
variable {b : Board} {reference : PinReference}

theorem withWires_nil (b : Board) : b.withWires [] = b := by
  rw [withWires, List.append_nil]

theorem withWires_withWires (b : Board) (first second : List Wire) :
    (b.withWires first).withWires second = b.withWires (first ++ second) := by
  simp only [withWires, List.append_assoc]

/-- Wires have no part in what a reference stands for. -/
theorem resolve_withWires (b : Board) (wires : List Wire) : (b.withWires wires).resolve = b.resolve := rfl

theorem allocated_of_resolve {id : PinId} (resolved : b.resolve reference = .ok id) : id < b.circuit.pins.size := by
  rw [← PinTable.get?_isSome_iff]
  simp only [resolve, Board.pin] at resolved
  split at resolved
  · split at resolved
    · rename_i found
      cases resolved
      rw [← Option.isSome_map, Circuit.label_of_input? found]
      rfl
    · cases resolved
  · split at resolved
    · cases resolved
    · split at resolved
      · rename_i found
        cases resolved
        have answers := List.find?_some found
        cases pin : b.circuit.pins.get? id with
        | none => simp [pin] at answers
        | some _ => rfl
      · cases resolved

theorem resolve_sparesPins (b : Board) (reference : PinReference) :
    ErrorsIn BoardError.SparesPins (b.resolve reference) := by
  intro error failed
  simp only [resolve, Board.pin] at failed
  split at failed
  · split at failed <;> cases failed
    trivial
  · split at failed
    · cases failed
      trivial
    · split at failed <;> cases failed
      trivial

/-- While everything is low, a new wire changes no level. -/
theorem connect_of_low {c : Circuit} (low : c.pins.Low) {source target : PinId} (atSource : source < c.pins.size)
    (atTarget : target < c.pins.size) :
    (c.connect source target).result = .ok { c with wires := c.wires ++ [⟨source, target⟩] } := by
  have carried : c.pins.carry ⟨source, target⟩ = c.pins := by
    rw [PinTable.carry, low source, ← low target, PinTable.setLevel_level]
  rw [Circuit.connect_result, if_pos atSource, if_pos atTarget, Circuit.withWire, carried]

end

section
variable {b : Board} {pinOf : PinReference → PinId} {reference : PinReference} {source : PinId} {error : BoardError}

theorem addTargets_append (source : PinId) (before after : List PinReference) (b : Board) :
    addTargets source (before ++ after) b = addTargets source before b >>= addTargets source after := by
  induction before generalizing b with
  | nil => exact (pure_bind b _).symm
  | cons target before ih => simp only [List.cons_append, addTargets, bind_assoc, ih]

theorem addTargets_ok {targets : List PinReference} (low : b.circuit.pins.Low) (atSource : source < b.circuit.pins.size)
    (resolved : ∀ target ∈ targets, b.resolve target = .ok (pinOf target)) :
    (addTargets source targets b).result = .ok (b.withWires (targets.map fun target => ⟨source, pinOf target⟩)) := by
  induction targets generalizing b with
  | nil =>
    rw [List.map_nil, withWires_nil]
    rfl
  | cons target targets ih =>
    obtain ⟨here, others⟩ := List.forall_mem_cons.mp resolved
    have connected := connect_of_low low atSource (allocated_of_resolve here)
    rw [addTargets, Logged.result_bind_of_ok (Logged.result_ofExcept_of_ok here), Logged.result_bind_of_ok connected]
    have rest := ih (b := b.withWires [⟨source, pinOf target⟩]) low atSource others
    rw [withWires_withWires] at rest
    exact rest

theorem addTargets_error {before after : List PinReference} (low : b.circuit.pins.Low)
    (atSource : source < b.circuit.pins.size)
    (resolved : ∀ target ∈ before, b.resolve target = .ok (pinOf target))
    (failed : b.resolve reference = .error error) :
    (addTargets source (before ++ reference :: after) b).result = .error (.refused error) := by
  rw [addTargets_append, Logged.result_bind_of_ok (addTargets_ok low atSource resolved), addTargets, resolve_withWires]
  exact Logged.result_bind_of_error (Logged.result_ofExcept_of_error failed)

theorem addConnections_ok {connections : List Connection} (low : b.circuit.pins.Low)
    (resolved : ∀ reference ∈ connections.flatMap Connection.references, b.resolve reference = .ok (pinOf reference)) :
    (addConnections connections b).result = .ok (b.withWires (connections.flatMap (Connection.wires pinOf))) := by
  induction connections generalizing b with
  | nil =>
    rw [List.flatMap_nil, withWires_nil]
    rfl
  | cons connection connections ih =>
    rw [List.flatMap_cons, List.forall_mem_append] at resolved
    obtain ⟨⟨here, targets⟩, others⟩ := resolved.imp_left List.forall_mem_cons.mp
    have added := addTargets_ok low (allocated_of_resolve here) targets
    rw [addConnections, Logged.result_bind_of_ok (Logged.result_ofExcept_of_ok here), Logged.result_bind_of_ok added]
    have rest := ih (b := b.withWires (connection.wires pinOf)) low others
    rw [withWires_withWires] at rest
    exact rest

/-- The reference in the middle comes after all of the first list or else is in it. -/
theorem split_references {first second before after : List PinReference}
    (joined : first ++ second = before ++ reference :: after) :
    (∃ mid, before = first ++ mid ∧ second = mid ++ reference :: after) ∨
      ∃ mid, first = before ++ reference :: mid := by
  rcases List.append_eq_append_iff.mp joined with ⟨mid, left, right⟩ | ⟨mid, left, right⟩
  · exact .inl ⟨mid, left, right⟩
  · cases mid with
    | nil =>
      rw [List.append_nil] at left
      exact .inl ⟨[], by rw [List.append_nil, left], right.symm⟩
    | cons other mid =>
      obtain ⟨rfl, _⟩ := List.cons_eq_cons.mp right
      exact .inr ⟨mid, left⟩

/-- The first reference that stands for no pin decides. -/
theorem addConnections_error {connections : List Connection} {before after : List PinReference}
    (low : b.circuit.pins.Low) (references : connections.flatMap Connection.references = before ++ reference :: after)
    (resolved : ∀ earlier ∈ before, b.resolve earlier = .ok (pinOf earlier))
    (failed : b.resolve reference = .error error) :
    (addConnections connections b).result = .error (.refused error) := by
  induction connections generalizing b before with
  | nil => simp at references
  | cons connection connections ih =>
    rw [List.flatMap_cons, Connection.references, List.cons_append] at references
    rw [addConnections]
    cases before with
    | nil =>
      -- The source of this connection is the one that fails, so its targets are not looked at.
      obtain ⟨rfl, _⟩ := List.cons_eq_cons.mp references
      exact Logged.result_bind_of_error (Logged.result_ofExcept_of_error failed)
    | cons first before =>
      obtain ⟨rfl, others⟩ := List.cons_eq_cons.mp references
      obtain ⟨here, earlier⟩ := List.forall_mem_cons.mp resolved
      have atSource := allocated_of_resolve here
      rw [Logged.result_bind_of_ok (Logged.result_ofExcept_of_ok here)]
      rcases split_references others with ⟨mid, rfl, rest⟩ | ⟨mid, targets⟩
      · -- All targets of this connection stand for pins.
        rw [List.forall_mem_append] at earlier
        rw [Logged.result_bind_of_ok (addTargets_ok low atSource earlier.1)]
        exact ih low rest earlier.2 failed
      · rw [targets]
        exact Logged.result_bind_of_error (addTargets_error low atSource earlier failed)

end

/-- Chips, inputs, wires and names are those of the description, and nothing has happened on the board yet. -/
structure Built (d : Description) (chips : List Chip) (b : Board) : Prop extends
    Furnished d.inputs d.chips chips b where
  description : b.description = d
  wired : ∃ pinOf, (∀ reference ∈ d.references, b.resolve reference = .ok (pinOf reference)) ∧
    b.circuit.wires = d.connections.flatMap (Connection.wires pinOf)

/-- The result is the one that the description asks for. Chips are made entry by entry, references are looked up one
after the other on the board with all its chips, and the first of them that fails decides. The only other way to fail
is to have more voltage sources than their counter of 64 bits can count. -/
structure Outcome (catalog : Catalog) (d : Description) (result : Except Failure Board) : Prop where
  ok_iff : (∃ b, result = .ok b) ↔ ∃ chips, List.Forall₂ (Makes catalog) d.chips chips ∧
    Word.fits64 (chips.map Chip.sourceCount).sum ∧
    ∀ reference ∈ d.references, ∃ id, (furnished d chips).resolve reference = .ok id
  ofEntry : ∀ before entry after chips failure, d.chips = before ++ entry :: after →
    List.Forall₂ (Makes catalog) before chips → Word.fits64 (chips.map Chip.sourceCount).sum →
    (makeChip catalog entry).result = .error failure → result = .error failure
  ofSources : ∀ before after chips, d.chips = before ++ after → List.Forall₂ (Makes catalog) before chips →
    ¬Word.fits64 (chips.map Chip.sourceCount).sum → result = .error (.overflow .add)
  ofReference : ∀ chips before reference after error, List.Forall₂ (Makes catalog) d.chips chips →
    Word.fits64 (chips.map Chip.sourceCount).sum → d.references = before ++ reference :: after →
    (∀ earlier ∈ before, ∃ id, (furnished d chips).resolve earlier = .ok id) →
    (furnished d chips).resolve reference = .error error → result = .error (.refused error)
  sparesPins : ∀ id, result ≠ .error (.refused (.unknownPin id))
  built : ∀ b, result = .ok b → ∃ chips, List.Forall₂ (Makes catalog) d.chips chips ∧ Built d chips b

section
variable {catalog : Catalog} {d : Description} {chips : List Chip}

theorem furnished_furnished (stocked : catalog.Stocked) (makes : List.Forall₂ (Makes catalog) d.chips chips) :
    Furnished d.inputs d.chips chips (furnished d chips) :=
  (furnished_bare d).withEntries (makes.imp fun _ _ made => makeChip_startsLow stocked made)

/-- The event at the end has no part in the result. -/
theorem build_result (catalog : Catalog) (d : Description) : (build catalog d).result =
    (addEntries catalog d.chips (bare d) >>= addConnections d.connections).result := by
  have reported (connected : Logged Board) : (connected >>= fun b => do
      Logged.report (.loaded b.circuit.name b.circuit.chips.length b.circuit.wires.length)
      return b).result = connected.result := by
    cases ended : connected.result with
    | error failure => exact Logged.result_bind_of_error ended
    | ok b => exact Logged.result_bind_of_ok ended
  rw [← reported (_ >>= _), bind_assoc]
  rfl

theorem build_error {failure : Failure} (failed : (addEntries catalog d.chips (bare d)).result = .error failure) :
    (build catalog d).result = .error failure := by
  rw [build_result]
  exact Logged.result_bind_of_error failed

theorem addEntries_bare (makes : List.Forall₂ (Makes catalog) d.chips chips) :
    (addEntries catalog d.chips (bare d)).result =
      if Word.fits64 (chips.map Chip.sourceCount).sum then .ok (furnished d chips) else .error (.overflow .add) := by
  have added := addEntries_result makes (bare_counted d)
  rw [bare_sources_add] at added
  exact added

section
variable (stocked : catalog.Stocked) (makes : List.Forall₂ (Makes catalog) d.chips chips)
  (fits : Word.fits64 (chips.map Chip.sourceCount).sum)
include stocked makes fits

theorem build_ok (resolved : ∀ reference ∈ d.references, ∃ id, (furnished d chips).resolve reference = .ok id) :
    ∃ b, (build catalog d).result = .ok b ∧ Built d chips b := by
  have start := furnished_furnished stocked makes
  choose! pinOf resolved using resolved
  refine ⟨(furnished d chips).withWires (d.connections.flatMap (Connection.wires pinOf)), ?_, ?_⟩
  · rw [build_result, Logged.result_bind_of_ok ((addEntries_bare makes).trans (if_pos fits))]
    exact addConnections_ok start.low resolved
  · refine ⟨⟨start.inputs, start.labelled, start.size, start.paired, start.count, start.seated, start.named, start.low,
      start.ticks, start.sources⟩, ?_, pinOf, resolved, ?_⟩
    · exact withEntries_description (bare d) d.chips chips
    · rw [withWires, furnished, withEntries_wires, bare_wires, List.nil_append]

theorem build_error_of_reference {before after : List PinReference} {reference : PinReference} {error : BoardError}
    (references : d.references = before ++ reference :: after)
    (resolved : ∀ earlier ∈ before, ∃ id, (furnished d chips).resolve earlier = .ok id)
    (failed : (furnished d chips).resolve reference = .error error) :
    (build catalog d).result = .error (.refused error) := by
  choose! pinOf resolved using resolved
  rw [build_result, Logged.result_bind_of_ok ((addEntries_bare makes).trans (if_pos fits))]
  exact addConnections_error (furnished_furnished stocked makes).low references resolved failed

end

/-- Building fails without blaming a pin, or it succeeds and everything that was asked for could be had. -/
theorem build_cases (stocked : catalog.Stocked) (d : Description) :
    (∃ failure, (build catalog d).result = .error failure ∧ failure.SparesPins) ∨
      ∃ chips b, (build catalog d).result = .ok b ∧ Built d chips b ∧ List.Forall₂ (Makes catalog) d.chips chips ∧
        Word.fits64 (chips.map Chip.sourceCount).sum ∧
        ∀ reference ∈ d.references, ∃ id, (furnished d chips).resolve reference = .ok id := by
  cases added : (addEntries catalog d.chips (bare d)).result with
  | error failure =>
    exact .inl ⟨failure, build_error added, addEntries_sparesPins stocked d.chips (bare d) failure added⟩
  | ok full =>
    obtain ⟨chips, makes⟩ := exists_chips_of_addEntries added
    have fits : Word.fits64 (chips.map Chip.sourceCount).sum := by
      by_contra exceeds
      rw [addEntries_bare makes, if_neg exceeds] at added
      cases added
    rcases forall_ok_or_first_error (furnished d chips).resolve d.references with
      resolved | ⟨before, reference, after, error, references, resolved, failed⟩
    · obtain ⟨b, built, asAsked⟩ := build_ok stocked makes fits resolved
      exact .inr ⟨chips, b, built, asAsked, makes, fits, resolved⟩
    · refine .inl ⟨_, build_error_of_reference stocked makes fits references resolved failed, ?_⟩
      exact resolve_sparesPins _ _ error failed

theorem build_eq_ok_iff (stocked : catalog.Stocked) (d : Description) : (∃ b, (build catalog d).result = .ok b) ↔
    ∃ chips, List.Forall₂ (Makes catalog) d.chips chips ∧ Word.fits64 (chips.map Chip.sourceCount).sum ∧
      ∀ reference ∈ d.references, ∃ id, (furnished d chips).resolve reference = .ok id := by
  constructor
  · rintro ⟨b, ran⟩
    rcases build_cases stocked d with ⟨failure, failed, _⟩ | ⟨chips, _, _, _, makes, fits, resolved⟩
    · rw [ran] at failed
      cases failed
    · exact ⟨chips, makes, fits, resolved⟩
  · rintro ⟨chips, makes, fits, resolved⟩
    obtain ⟨b, ran, _⟩ := build_ok stocked makes fits resolved
    exact ⟨b, ran⟩

theorem exists_built_of_build (stocked : catalog.Stocked) {b : Board} (ran : (build catalog d).result = .ok b) :
    ∃ chips, List.Forall₂ (Makes catalog) d.chips chips ∧ Built d chips b := by
  rcases build_cases stocked d with ⟨failure, failed, _⟩ | ⟨chips, _, built, asAsked, makes, _⟩
  · rw [ran] at failed
    cases failed
  · rw [ran] at built
    cases built
    exact ⟨chips, makes, asAsked⟩

/-- Building has the outcome that the description asks for, whatever proper builders have been registered. -/
theorem build_outcome (stocked : catalog.Stocked) (d : Description) : Outcome catalog d (build catalog d).result where
  ok_iff := build_eq_ok_iff stocked d
  ofEntry := by
    intro before entry after chips failure entries makes fits failed
    refine build_error ?_
    rw [entries]
    exact addEntries_error makes (bare_counted d) (by rwa [bare_sources_add]) failed
  ofSources := by
    intro before after chips entries makes exceeds
    refine build_error ?_
    rw [entries]
    exact addEntries_overflow makes (bare_counted d) (by rwa [bare_sources_add])
  ofReference := by
    intro chips before reference after error makes fits references resolved failed
    exact build_error_of_reference stocked makes fits references resolved failed
  sparesPins := by
    intro id blamed
    rcases build_cases stocked d with ⟨failure, failed, spares⟩ | ⟨_, _, ran, _⟩
    · rw [blamed] at failed
      cases failed
      exact spares
    · rw [blamed] at ran
      cases ran
  built := fun _ ran => exists_built_of_build stocked ran

end

/-- The standard catalog and an inverter. -/
def invertingCatalog : Catalog := Catalog.standard.register "inv" 7 Catalog.inverter

/-- Two chips share a name, a connection has no target, and there are wires to a later chip and into an output. -/
def crossed : Description where
  name := "crossed"
  description := ""
  inputs := ["DATA", "CLK"]
  chips := [⟨"u", some "sipo_shift", none, none⟩, ⟨"u", some "inv", none, some (3, 4)⟩,
    ⟨"v", some "sipo_shift", none, none⟩]
  connections := [⟨⟨"u", "Y"⟩, [⟨"v", "D"⟩, ⟨"v", "clk"⟩]⟩, ⟨⟨"inputs", "CLK"⟩, []⟩,
    ⟨⟨"v", "I0"⟩, [⟨"u", "A"⟩, ⟨"u", "Y"⟩]⟩]

theorem crossed_build : ∃ b, (build invertingCatalog crossed).result = .ok b ∧
    b.circuit.wires = [⟨14, 15⟩, ⟨14, 16⟩, ⟨24, 12⟩, ⟨24, 14⟩] ∧ b.chipId? "u" = some 1 ∧ b.circuit.inputs = [0, 1] ∧
    b.circuit.chips.length = 3 ∧ LastNamed crossed.chips "u" 1 ∧ b.circuit.pins.Low ∧ b.description = crossed := by
  have passed : (build invertingCatalog crossed).passes fun b =>
      decide (b.circuit.wires = [⟨14, 15⟩, ⟨14, 16⟩, ⟨24, 12⟩, ⟨24, 14⟩] ∧ b.chipId? "u" = some 1) := by
    decide +kernel
  obtain ⟨b, ran, checked⟩ := Logged.passes_iff.mp passed
  obtain ⟨wires, latest⟩ := of_decide_eq_true checked
  have outcome := build_outcome (.register "inv" 7 .standard Catalog.proper_inverter) crossed
  obtain ⟨chips, _, built⟩ := outcome.built b ran
  exact ⟨b, ran, wires, latest, built.inputs, built.count, (built.named "u" 1).mp latest, built.low, built.description⟩

end Board

end LogicBoard
