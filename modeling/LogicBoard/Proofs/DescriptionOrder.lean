import Mathlib.Data.List.Perm.Basic
import LogicBoard.Proofs.BoardTwins

namespace LogicBoard

/-- The same description up to the order of its inputs and the order of its chips. -/
structure Description.Reordered (d e : Description) : Prop where
  name : d.name = e.name
  description : d.description = e.description
  inputs : d.inputs.Perm e.inputs
  chips : d.chips.Perm e.chips
  connections : d.connections = e.connections

namespace Description.Reordered
variable {d e : Description}

theorem symm (reordered : d.Reordered e) : e.Reordered d :=
  ⟨reordered.name.symm, reordered.description.symm, reordered.inputs.symm, reordered.chips.symm,
    reordered.connections.symm⟩

theorem references (reordered : d.Reordered e) : d.references = e.references := by
  rw [Description.references, Description.references, reordered.connections]

end Description.Reordered

/-- The wires of the same connections correspond when their references stand for corresponding pins. -/
theorem forall₂_wires {twins : PinId → PinId → Prop} {f g : PinReference → PinId} {connections : List Connection}
    (related : ∀ reference ∈ connections.flatMap Connection.references, twins (f reference) (g reference)) :
    List.Forall₂ (fun u v : Wire => twins u.source v.source ∧ twins u.target v.target)
      (connections.flatMap (Connection.wires f)) (connections.flatMap (Connection.wires g)) := by
  induction connections with
  | nil => exact .nil
  | cons connection connections ih =>
    rw [List.flatMap_cons, List.forall_mem_append] at related
    obtain ⟨⟨source, targets⟩, others⟩ := related.imp_left List.forall_mem_cons.mp
    rw [List.flatMap_cons, List.flatMap_cons]
    refine List.rel_append ?_ (ih others)
    rw [Connection.wires, Connection.wires, List.forall₂_map_left_iff, List.forall₂_map_right_iff, List.forall₂_same]
    exact fun target member => ⟨source, targets target member⟩

namespace Board

/-- The chips of reordered entries are the reordered chips. -/
theorem exists_chips_of_perm {catalog : Catalog} {entries others : List ChipEntry} {chips : List Chip}
    (perm : entries.Perm others) (makes : List.Forall₂ (Makes catalog) entries chips) :
    ∃ more, List.Forall₂ (Makes catalog) others more ∧ more.Perm chips :=
  List.perm_comp_forall₂ perm.symm makes

theorem makes_right_unique (catalog : Catalog) : Relator.RightUnique (Makes catalog) := by
  intro entry chip other first second
  exact Except.ok.inj (first.symm.trans second)

section
variable {d e : Description} {chips others : List Chip}

section
variable (reordered : d.Reordered e) (makesD : List.Forall₂ (Makes .standard) d.chips chips)
  (makesE : List.Forall₂ (Makes .standard) e.chips others) (perm : others.Perm chips)
  (fits : Word.fits64 (chips.map Chip.sourceCount).sum)
include reordered makesD makesE perm fits

/-- Before the wires are there, reordered descriptions lead to boards on which the same names are in use. -/
theorem matched_furnished : Matched (furnished d chips) (furnished e others) where
  sound := by
    have same := (perm.map Chip.sourceCount).sum_nat
    exact ⟨sound_furnished makesD fits, sound_furnished makesE (same ▸ fits)⟩
  inputs := by
    intro label
    rw [(furnished_furnished .standard makesD).input?_isSome, (furnished_furnished .standard makesE).input?_isSome]
    exact reordered.inputs.mem_iff
  names := by
    intro name
    rw [(furnished_furnished .standard makesD).chipId?_isSome, (furnished_furnished .standard makesE).chipId?_isSome]
    exact (reordered.chips.map ChipEntry.name).mem_iff

/-- With their wires, the boards are linked by the names of pins and chips. -/
theorem linked_withWires {f g : PinReference → PinId}
    (resolvedD : ∀ reference ∈ d.references, (furnished d chips).resolve reference = .ok (f reference))
    (resolvedE : ∀ reference ∈ e.references, (furnished e others).resolve reference = .ok (g reference)) :
    Linked (Twins (furnished d chips) (furnished e others)) (Mates (furnished d chips) (furnished e others))
      ((furnished d chips).withWires (d.connections.flatMap (Connection.wires f)))
      ((furnished e others).withWires (e.connections.flatMap (Connection.wires g))) := by
  have matched := matched_furnished reordered makesD makesE perm fits
  have startD := furnished_furnished .standard makesD
  have startE := furnished_furnished .standard makesE
  have soundD := matched.sound.1.withWires (allocated_wires resolvedD)
  have soundE := matched.sound.2.withWires (allocated_wires resolvedE)
  refine ⟨⟨soundD, soundE⟩, ⟨⟨soundD.wellFormed, soundE.wellFormed⟩, matched.biUnique, fun p q => matched.allocated,
    fun i j mated => ?_, fun i j n p q mated atD atE => ?_, fun p q => matched.places, ?_, fun p q _ => ?_, ?_⟩,
    matched.resolve, matched.named⟩
  · obtain ⟨name, namedD, namedE⟩ := mated
    have withinD := matched.sound.1.indexed name i namedD
    have withinE := matched.sound.2.indexed name j namedE
    obtain ⟨r, atD, registerD, phaseD⟩ := startD.cleared (registers_of_makes makesD) withinD
    obtain ⟨s, atE, registerE, phaseE⟩ := startE.cleared (registers_of_makes makesE) withinE
    exact ⟨r, s, atD, atE, registerD.trans registerE.symm, phaseD.trans phaseE.symm⟩
  · obtain ⟨name, namedD, namedE⟩ := mated
    exact .inr ⟨name, n, Option.bind_eq_some_iff.mpr ⟨i, namedD, atD⟩, Option.bind_eq_some_iff.mpr ⟨j, namedE, atE⟩⟩
  · rw [withWires, withWires, furnished, furnished, withEntries_wires, withEntries_wires, bare_wires, bare_wires,
      List.nil_append, List.nil_append, ← reordered.connections]
    refine forall₂_wires fun reference member => ?_
    have atE := resolvedE reference (reordered.references ▸ member)
    rcases matched.resolve reference with ⟨p, q, resolved, again, twins⟩ | ⟨error, failed, _⟩
    · cases (resolvedD reference member).symm.trans resolved
      cases atE.symm.trans again
      exact twins
    · cases (resolvedD reference member).symm.trans failed
  · exact (startD.low p).trans (startE.low q).symm
  · refine ⟨startD.ticks.trans startE.ticks.symm, startD.sources.trans (Eq.trans ?_ startE.sources.symm)⟩
    exact (perm.map Chip.sourceCount).sum_nat.symm

end

theorem build_ok_of_reordered (reordered : d.Reordered e) (built : ∃ a, (build .standard d).result = .ok a) :
    ∃ b, (build .standard e).result = .ok b := by
  obtain ⟨chips, makes, fits, resolved⟩ := (build_eq_ok_iff .standard d).mp built
  obtain ⟨others, makesE, perm⟩ := exists_chips_of_perm reordered.chips makes
  have same := (perm.map Chip.sourceCount).sum_nat
  refine (build_eq_ok_iff .standard e).mpr ⟨others, makesE, same ▸ fits, fun reference member => ?_⟩
  obtain ⟨p, atD⟩ := resolved reference (reordered.references ▸ member)
  rcases (matched_furnished reordered makes makesE perm fits).resolve reference with
    ⟨_, q, _, atE, _⟩ | ⟨error, failed, _⟩
  · exact ⟨q, atE⟩
  · cases atD.symm.trans failed

theorem linked_of_build (reordered : d.Reordered e) {a b : Board} (builtD : (build .standard d).result = .ok a)
    (builtE : (build .standard e).result = .ok b) : ∃ twins mates, Linked twins mates a b := by
  obtain ⟨chips, f, makesD, fits, resolvedD, rfl⟩ := eq_withWires_of_build .standard builtD
  obtain ⟨others, g, makesE, _, resolvedE, rfl⟩ := eq_withWires_of_build .standard builtE
  obtain ⟨more, makes, perm⟩ := exists_chips_of_perm reordered.chips makesD
  cases List.right_unique_forall₂' (makes_right_unique .standard) makesE makes
  exact ⟨_, _, linked_withWires reordered makesD makesE perm fits resolvedD resolvedE⟩

/-- The order of the inputs and the order of the chips in a description have no part in what can be seen of its board by
name. Reordered descriptions can be built both or neither, and then all commands fail on both boards in the same way or
leave them alike. -/
theorem build_reordered (reordered : d.Reordered e) :
    ((∃ a, (build .standard d).result = .ok a) ↔ ∃ b, (build .standard e).result = .ok b) ∧
    ∀ a b, (build .standard d).result = .ok a → (build .standard e).result = .ok b → ∀ commands,
      (∃ failure, (obeyAll commands a).result = .error failure ∧ (obeyAll commands b).result = .error failure) ∨
      ∃ a' b', (obeyAll commands a).result = .ok a' ∧ (obeyAll commands b).result = .ok b' ∧ Alike a' b' := by
  refine ⟨⟨build_ok_of_reordered reordered, build_ok_of_reordered reordered.symm⟩, ?_⟩
  intro a b builtD builtE commands
  obtain ⟨twins, mates, linked⟩ := linked_of_build reordered builtD builtE
  rcases linked.obeyAll commands with failed | ⟨c, d, atA, atB, still⟩
  · exact .inl failed
  · exact .inr ⟨c, d, atA, atB, still.alike⟩

end

/-- Two registers, the second one fed by the newest bit of the first. -/
def pair : Description where
  name := "pair"
  description := ""
  inputs := ["DATA", "CLK"]
  chips := [⟨"u", some "sipo_shift", none, none⟩, ⟨"v", some "sipo_shift", none, some (3, 4)⟩]
  connections := [⟨⟨"inputs", "DATA"⟩, [⟨"u", "D"⟩]⟩, ⟨⟨"inputs", "CLK"⟩, [⟨"u", "clk"⟩, ⟨"v", "Clk"⟩]⟩,
    ⟨⟨"u", "I7"⟩, [⟨"v", "D"⟩]⟩]

/-- The same with inputs and chips the other way round. -/
def pairReversed : Description := { pair with inputs := ["CLK", "DATA"], chips := pair.chips.reverse }

def pairCommands : List Command :=
  [.clockIn ⟨"inputs", "DATA"⟩ ⟨"inputs", "CLK"⟩ .high, .setInput ⟨"v", "I0"⟩ .high, .step,
    .clockIn ⟨"u", "D"⟩ ⟨"inputs", "CLK"⟩ .low, .run 2]

theorem pair_build_reordered : ∃ a b a' b', pair.Reordered pairReversed ∧ (build .standard pair).result = .ok a ∧
    (build .standard pairReversed).result = .ok b ∧ a.post? "u" 2 = some 4 ∧ b.post? "u" 2 = some 14 ∧
    (obeyAll pairCommands a).result = .ok a' ∧ (obeyAll pairCommands b).result = .ok b' ∧
    a'.outputByte? "v" = some 0x80 ∧ Alike a' b' := by
  have reordered : pair.Reordered pairReversed :=
    ⟨rfl, rfl, List.Perm.swap "CLK" "DATA" [], (List.reverse_perm pair.chips).symm, rfl⟩
  have left : (build .standard pair).passes fun a => decide (a.post? "u" 2 = some 4) &&
      (obeyAll pairCommands a).passes fun a' => a'.outputByte? "v" = some 0x80 := by
    decide +kernel
  have right : (build .standard pairReversed).passes fun b => b.post? "u" 2 = some 14 := by
    decide +kernel
  obtain ⟨a, builtA, checked⟩ := Logged.passes_iff.mp left
  obtain ⟨atA, obeyed⟩ := Bool.and_eq_true_iff.mp checked
  obtain ⟨a', endA, byte⟩ := Logged.passes_iff.mp obeyed
  obtain ⟨b, builtB, atB⟩ := Logged.passes_iff.mp right
  rcases (build_reordered reordered).2 a b builtA builtB pairCommands with
    ⟨failure, failed, _⟩ | ⟨c, b', again, endB, alike⟩
  · cases endA.symm.trans failed
  · cases endA.symm.trans again
    exact ⟨a, b, a', b', reordered, builtA, builtB, of_decide_eq_true atA, of_decide_eq_true atB, endA, endB,
      of_decide_eq_true byte, alike⟩

end Board

end LogicBoard
