import LogicBoard.Proofs.PostPlaces
import LogicBoard.Proofs.TableWrites
import LogicBoard.ShiftRegister

namespace LogicBoard

theorem Word.exists_toInt_eq {n : Int} (lower : -2147483648 ≤ n) (upper : n ≤ 2147483647) :
    ∃ w : Int32, w.toInt = n := by
  have word : int32? n = some (Int32.ofInt n) := if_pos ⟨lower, upper⟩
  exact ⟨_, int32?_eq_some_iff.mp word⟩

namespace Outline

/-- The chip has a size, and at its spacing it ends within the words of 32 bits. -/
structure Roomy (o : Outline) : Prop where
  columns : 1 ≤ o.columns
  rows : 1 ≤ o.rows
  width : o.columns * o.spacing.toInt ≤ 2147483647
  height : o.rows * o.spacing.toInt ≤ 2147483647
  right : o.x.toInt + o.columns * o.spacing.toInt ≤ 2147483647
  bottom : o.y.toInt + o.rows * o.spacing.toInt ≤ 2147483647

/-- The slot of the pin lies strictly between the ends of its edge. -/
def HasSlot (o : Outline) (pin : Pin) : Prop :=
  0 < pin.position ∧ pin.position < if pin.side.isHorizontal then o.columns else o.rows

/-- The point lies on an edge of the outline, between two corners. -/
def OnEdge (o : Outline) (width height : Int) (p : Point) : Side → Prop
  | .north => p.2 = o.y.toInt ∧ o.x.toInt < p.1 ∧ p.1 < o.x.toInt + width
  | .south => p.2 = o.y.toInt + height ∧ o.x.toInt < p.1 ∧ p.1 < o.x.toInt + width
  | .west => p.1 = o.x.toInt ∧ o.y.toInt < p.2 ∧ p.2 < o.y.toInt + height
  | .east => p.1 = o.x.toInt + width ∧ o.y.toInt < p.2 ∧ p.2 < o.y.toInt + height

variable {o : Outline} {pin other : Pin} {p : Point} {width height : Int}

theorem OnEdge.unique (wide : 0 < width) (high : 0 < height) {a b : Side} (atA : o.OnEdge width height p a)
    (atB : o.OnEdge width height p b) : a = b := by
  cases a <;> cases b <;> simp only [OnEdge] at atA atB <;> first | rfl | omega

theorem OnEdge.exists_words (right : o.x.toInt + width ≤ 2147483647) (bottom : o.y.toInt + height ≤ 2147483647)
    (wide : 0 < width) (high : 0 < height) {side : Side} (on : o.OnEdge width height p side) :
    ∃ q : Int32 × Int32, exact q = p := by
  have left := o.x.le_toInt
  have top := o.y.le_toInt
  have within : o.x.toInt ≤ p.1 ∧ p.1 ≤ o.x.toInt + width ∧ o.y.toInt ≤ p.2 ∧ p.2 ≤ o.y.toInt + height := by
    cases side <;> simp only [OnEdge] at on <;> omega
  obtain ⟨x, atX⟩ := Word.exists_toInt_eq (n := p.1) (by omega) (by omega)
  obtain ⟨y, atY⟩ := Word.exists_toInt_eq (n := p.2) (by omega) (by omega)
  exact ⟨(x, y), Prod.ext atX atY⟩

theorem onEdge_pointOn {distance : Int} {side : Side} (inside : 0 < distance)
    (before : distance < if side.isHorizontal then width else height) :
    o.OnEdge width height (o.pointOn width height distance side) side := by
  cases side <;> simp_all [Side.isHorizontal, OnEdge, pointOn]

theorem pointOn_injective {first second : Int} {side : Side}
    (same : o.pointOn width height first side = o.pointOn width height second side) : first = second := by
  cases side <;> simp [pointOn] at same <;> omega

/-- Turning a chip over twice brings every edge back. -/
theorem edge_edge (o : Outline) (side : Side) : o.edge (o.edge side) = side := by
  unfold edge
  cases side <;> cases o.flipX <;> cases o.flipY <;> rfl

theorem isHorizontal_edge (o : Outline) (side : Side) : (o.edge side).isHorizontal = side.isHorizontal := by
  unfold edge
  cases side <;> cases o.flipX <;> cases o.flipY <;> rfl

theorem spacing_cases (o : Outline) : o.spacing.toInt = 8 ∨ o.spacing.toInt = 16 := by
  unfold spacing
  split
  · exact .inl rfl
  · exact .inr rfl

namespace Roomy
variable (roomy : o.Roomy)
include roomy

theorem sizes_le : o.columns ≤ 2147483647 ∧ o.rows ≤ 2147483647 := by
  have width := roomy.width
  have height := roomy.height
  rcases o.spacing_cases with gap | gap <;> rw [gap] at width height <;> omega

theorem across_eq : o.across = o.columns := by
  have le := roomy.sizes_le
  exact Int32.toInt_ofNat_of_lt (by omega)

theorem down_eq : o.down = o.rows := by
  have le := roomy.sizes_le
  exact Int32.toInt_ofNat_of_lt (by omega)

/-- The exact width and height are more than nothing, and they are what the footprint comes to. -/
theorem exists_footprint : 0 < o.across * o.spacing.toInt ∧ 0 < o.down * o.spacing.toInt ∧
    ∃ w h, o.footprint = .ok (w, h) ∧ w.toInt = o.across * o.spacing.toInt ∧ h.toInt = o.down * o.spacing.toInt := by
  have columns := roomy.columns
  have rows := roomy.rows
  have width := roomy.width
  have height := roomy.height
  rw [roomy.across_eq, roomy.down_eq]
  have positive : 0 < o.columns * o.spacing.toInt ∧ 0 < o.rows * o.spacing.toInt := by
    rcases o.spacing_cases with gap | gap <;> rw [gap] <;> omega
  obtain ⟨w, wide⟩ := Word.exists_toInt_eq (by omega) width
  obtain ⟨h, high⟩ := Word.exists_toInt_eq (by omega) height
  refine ⟨positive.1, positive.2, w, h, ?_, wide, high⟩
  rw [footprint_eq_ok_iff, roomy.across_eq, roomy.down_eq]
  exact ⟨wide, high⟩

theorem position_eq (has : o.HasSlot pin) : (Int32.ofNat pin.position).toInt = pin.position := by
  obtain ⟨_, before⟩ := has
  have sizes := roomy.sizes_le
  have below : pin.position < 2147483648 := by split at before <;> omega
  exact Int32.toInt_ofNat_of_lt below

/-- Counted from either end, the slot lies strictly between the ends of the edge. -/
theorem along_within (has : o.HasSlot pin) :
    0 < o.along pin ∧ o.along pin < if pin.side.isHorizontal then o.across else o.down := by
  obtain ⟨inside, before⟩ := has
  unfold along
  rw [roomy.position_eq ⟨inside, before⟩, roomy.across_eq, roomy.down_eq]
  by_cases horizontal : pin.side.isHorizontal
  · rw [if_pos horizontal] at before
    rw [if_pos horizontal, if_pos horizontal, turned]
    split <;> omega
  · rw [if_neg horizontal] at before
    rw [if_neg horizontal, if_neg horizontal, turned]
    split <;> omega

/-- So does the distance of the pin from the end of its edge, once the chip has been turned over. -/
theorem distance_within (has : o.HasSlot pin) : 0 < o.along pin * o.spacing.toInt ∧ o.along pin * o.spacing.toInt <
    if (o.edge pin.side).isHorizontal then o.across * o.spacing.toInt else o.down * o.spacing.toInt := by
  obtain ⟨inside, before⟩ := roomy.along_within has
  have gap : 0 < o.spacing.toInt := by rcases o.spacing_cases with gap | gap <;> omega
  refine ⟨Int.mul_pos inside gap, ?_⟩
  rw [isHorizontal_edge, ← ite_mul]
  exact Int.mul_lt_mul_of_pos_right before gap

theorem size_le : o.across * o.spacing.toInt ≤ 2147483647 ∧ o.down * o.spacing.toInt ≤ 2147483647 := by
  rw [roomy.across_eq, roomy.down_eq]
  exact ⟨roomy.width, roomy.height⟩

/-- The pin is located on its edge, and no step towards its coordinates leaves the words. -/
theorem exists_locate (has : o.HasSlot pin) : ∃ q, o.locate pin = .ok q ∧
    o.OnEdge (o.across * o.spacing.toInt) (o.down * o.spacing.toInt) (exact q) (o.edge pin.side) := by
  obtain ⟨wide, high, w, h, size, width, height⟩ := roomy.exists_footprint
  obtain ⟨inside, before⟩ := roomy.along_within has
  obtain ⟨near, far⟩ := roomy.distance_within has
  have on := onEdge_pointOn (o := o) near far
  rw [← pinPoint_eq_pointOn] at on
  have right : o.x.toInt + o.across * o.spacing.toInt ≤ 2147483647 := by
    rw [roomy.across_eq]
    exact roomy.right
  have bottom : o.y.toInt + o.down * o.spacing.toInt ≤ 2147483647 := by
    rw [roomy.down_eq]
    exact roomy.bottom
  obtain ⟨q, same⟩ := on.exists_words right bottom wide high
  have sizes := roomy.sizes_le
  have limits := roomy.size_le
  have along : o.along pin ≤ 2147483647 := by
    rw [roomy.across_eq, roomy.down_eq] at before
    split at before <;> omega
  -- All that is reckoned on the way lies between nothing and the size of the chip.
  obtain ⟨slot, atSlot⟩ := Word.exists_toInt_eq (by omega) along
  have small : o.along pin * o.spacing.toInt ≤ 2147483647 := by split at far <;> omega
  obtain ⟨distance, atDistance⟩ := Word.exists_toInt_eq (by omega) small
  exact ⟨q, locate_eq_ok_iff.mpr ⟨⟨w, h, size⟩, ⟨slot, distance, atSlot, atDistance⟩, same⟩, same ▸ on⟩

/-- Two pins at one point have the same slot on the same side. -/
theorem eq_of_locate {q : Int32 × Int32} (first : o.HasSlot pin) (second : o.HasSlot other)
    (atPin : o.locate pin = .ok q) (atOther : o.locate other = .ok q) :
    pin.side = other.side ∧ pin.position = other.position := by
  obtain ⟨wide, high, _⟩ := roomy.exists_footprint
  have samePlace : o.pinPoint pin = o.pinPoint other :=
    (locate_eq_ok_iff.mp atPin).2.2.symm.trans (locate_eq_ok_iff.mp atOther).2.2
  rw [pinPoint_eq_pointOn, pinPoint_eq_pointOn] at samePlace
  -- The edges meet in corners only, where no pin is, so the point decides the edge, and then the distance along it.
  have here := roomy.distance_within first
  have there := roomy.distance_within second
  have onHere := onEdge_pointOn (o := o) here.1 here.2
  have onThere := onEdge_pointOn (o := o) there.1 there.2
  rw [← samePlace] at onThere
  have sameEdge := onHere.unique wide high onThere
  have sameSide : pin.side = other.side := by rw [← o.edge_edge pin.side, sameEdge, edge_edge]
  rw [sameSide] at samePlace
  have gap : o.spacing.toInt ≠ 0 := by rcases o.spacing_cases with gap | gap <;> omega
  have sameAlong := Int.eq_of_mul_eq_mul_right gap (pointOn_injective samePlace)
  refine ⟨sameSide, ?_⟩
  unfold along at sameAlong
  rw [roomy.position_eq first, roomy.position_eq second, sameSide] at sameAlong
  simp only [turned] at sameAlong
  split at sameAlong <;> split at sameAlong <;> omega

end Roomy

/-- All posts with a slot can be reached, lie on the edge where their pin is drawn, and are apart from each other. -/
structure PostsApart (o : Outline) (table : PinTable) (w h : Int32) : Prop where
  footprint : o.footprint = .ok (w, h)
  onEdge : ∀ n pin, o.handles[n]?.bind table.get? = some pin → o.HasSlot pin →
    ∃ p, o.post n table = .ok (some p) ∧ o.OnEdge w.toInt h.toInt (exact p) (o.edge pin.side)
  apart : ∀ m n a b, o.handles[m]?.bind table.get? = some a → o.handles[n]?.bind table.get? = some b →
    o.HasSlot a → o.HasSlot b → (a.side, a.position) ≠ (b.side, b.position) → o.post m table ≠ o.post n table

theorem post_of_pin {n : Nat} {table : PinTable} (behind : o.handles[n]?.bind table.get? = some pin) :
    o.post n table = (o.locate pin).map some := by
  rw [post, behind]

theorem Roomy.postsApart (roomy : o.Roomy) (table : PinTable) : ∃ w h, o.PostsApart table w h := by
  obtain ⟨_, _, w, h, size, width, height⟩ := roomy.exists_footprint
  refine ⟨w, h, size, fun n pin behind has => ?_, fun m n a b behindA behindB hasA hasB different same => different ?_⟩
  · obtain ⟨q, located, on⟩ := roomy.exists_locate has
    rw [post_of_pin behind, located, width, height]
    exact ⟨q, rfl, on⟩
  · obtain ⟨q, atA, _⟩ := roomy.exists_locate hasA
    obtain ⟨q', atB, _⟩ := roomy.exists_locate hasB
    rw [post_of_pin behindA, post_of_pin behindB, atA, atB] at same
    simp only [Except.map, Except.ok.injEq, Option.some.injEq] at same
    obtain ⟨side, position⟩ := roomy.eq_of_locate hasA hasB atA (same ▸ atB)
    rw [side, position]

end Outline

namespace ShiftRegister

/-- The side and the slot of a post: the two inputs on the left, then the outputs along the top. -/
def slotAt (n : Nat) : Side × Nat := if n < 2 then (.west, n + 1) else (.north, n - 1)

theorem pinout_slots (register : BitVec 8) :
    (pinout register).map (fun pin => (pin.side, pin.position)) = (List.range 10).map slotAt := rfl

theorem slotAt_injective {m n : Nat} (same : slotAt m = slotAt n) : m = n := by
  unfold slotAt at same
  split at same <;> split at same <;> simp at same <;> omega

section
variable {r placed : ShiftRegister} {table pins : PinTable} (setup : r.setup table = (placed, pins))
include setup

theorem outline_of_setup :
    placed.outline = { r.outline with columns := 9, rows := 3, handles := List.range' table.size 10 } := by
  cases setup
  rfl

theorem roomy_of_setup (right : r.outline.x.toInt + 9 * r.outline.spacing.toInt ≤ 2147483647)
    (bottom : r.outline.y.toInt + 3 * r.outline.spacing.toInt ≤ 2147483647) : placed.outline.Roomy := by
  have width : 9 * r.outline.spacing.toInt ≤ 2147483647 := by
    rcases r.outline.spacing_cases with gap | gap <;> omega
  have height : 3 * r.outline.spacing.toInt ≤ 2147483647 := by
    rcases r.outline.spacing_cases with gap | gap <;> omega
  rw [outline_of_setup setup]
  exact ⟨(by decide : 1 ≤ 9), (by decide : 1 ≤ 3), width, height, right, bottom⟩

/-- Every post of a register that has been set up has its pin, and the pin has its slot. -/
theorem exists_pin_of_setup {n : Nat} (within : n < 10) : ∃ pin, placed.outline.handles[n]?.bind pins.get? = some pin ∧
    placed.outline.HasSlot pin ∧ (pin.side, pin.position) = slotAt n := by
  have slot := congrArg (·[n]?) (pinout_slots r.register)
  rw [List.getElem?_map, List.getElem?_map, List.getElem?_range within, Option.map_some] at slot
  obtain ⟨pin, atPin, same⟩ := Option.map_eq_some_iff.mp slot
  have columns : placed.outline.columns = 9 := congrArg Outline.columns (outline_of_setup setup)
  have rows : placed.outline.rows = 3 := congrArg Outline.rows (outline_of_setup setup)
  refine ⟨pin, ?_, ?_, same⟩
  · rw [outline_of_setup setup, List.getElem?_range' within, Nat.one_mul, Option.bind_some]
    cases setup
    exact (table.get?_allocateAll_add (pinout r.register) n).trans atPin
  · rw [slotAt] at same
    rw [Outline.HasSlot, columns, rows]
    split at same
    · obtain ⟨side, position⟩ := Prod.mk.inj same
      rw [side, position, if_neg (by decide)]
      omega
    · obtain ⟨side, position⟩ := Prod.mk.inj same
      rw [side, position, if_pos (by decide)]
      omega

end

end ShiftRegister

/-- Pins with a slot of their own never meet and never leave the edge on which they are drawn, on any chip that ends
within the words. A register is such a chip wherever it has been set up within them, and all its ten pins have slots. -/
theorem posts_apart : (∀ (o : Outline) (table : PinTable), o.Roomy → ∃ w h, o.PostsApart table w h) ∧
    ∀ (r placed : ShiftRegister) (table pins : PinTable), r.setup table = (placed, pins) →
      r.outline.x.toInt + 9 * r.outline.spacing.toInt ≤ 2147483647 →
      r.outline.y.toInt + 3 * r.outline.spacing.toInt ≤ 2147483647 →
      ∃ w h, placed.outline.footprint = .ok (w, h) ∧
        (∀ n < 10, ∃ p, placed.outline.post n pins = .ok (some p) ∧
          placed.outline.OnEdge w.toInt h.toInt (Outline.exact p)
            (placed.outline.edge (if n < 2 then .west else .north))) ∧
        ∀ m < 10, ∀ n < 10, m ≠ n → placed.outline.post m pins ≠ placed.outline.post n pins := by
  refine ⟨fun o table roomy => roomy.postsApart table, fun r placed table pins setup right bottom => ?_⟩
  obtain ⟨w, h, apart⟩ := (ShiftRegister.roomy_of_setup setup right bottom).postsApart pins
  refine ⟨w, h, apart.footprint, fun n within => ?_, fun m withinM n withinN different => ?_⟩
  · obtain ⟨pin, behind, has, slot⟩ := ShiftRegister.exists_pin_of_setup setup within
    have side : pin.side = if n < 2 then .west else .north := by
      have first : pin.side = (ShiftRegister.slotAt n).1 := congrArg Prod.fst slot
      rw [first, ShiftRegister.slotAt, apply_ite Prod.fst]
    exact side ▸ apart.onEdge n pin behind has
  · obtain ⟨a, behindA, hasA, slotA⟩ := ShiftRegister.exists_pin_of_setup setup withinM
    obtain ⟨b, behindB, hasB, slotB⟩ := ShiftRegister.exists_pin_of_setup setup withinN
    refine apart.apart m n a b behindA behindB hasA hasB fun same => different ?_
    exact ShiftRegister.slotAt_injective (slotA.symm.trans (same.trans slotB))

/-- A register that is turned over both ways. It begins at the first column there is and ends in the last row. -/
def cornered : ShiftRegister := { outline := { x := -2147483648, y := 2147483599, x2 := 0, y2 := 0, flags := 3072 } }

theorem cornered_posts_apart : ∃ placed pins, cornered.setup .empty = (placed, pins) ∧
    placed.outline.post 0 pins = .ok (some (-2147483504, 2147483631)) ∧
    (∃ w h, placed.outline.PostsApart pins w h) ∧
    ∀ m < 10, ∀ n < 10, m ≠ n → placed.outline.post m pins ≠ placed.outline.post n pins := by
  obtain ⟨placed, pins, setup, first⟩ : ∃ placed pins, cornered.setup .empty = (placed, pins) ∧
      placed.outline.post 0 pins = .ok (some (-2147483504, 2147483631)) := ⟨_, _, rfl, rfl⟩
  have right : cornered.outline.x.toInt + 9 * cornered.outline.spacing.toInt ≤ 2147483647 := by decide
  have bottom : cornered.outline.y.toInt + 3 * cornered.outline.spacing.toInt ≤ 2147483647 := by decide
  obtain ⟨_, _, _, _, distinct⟩ := posts_apart.2 cornered placed .empty pins setup right bottom
  have roomy := ShiftRegister.roomy_of_setup setup right bottom
  exact ⟨placed, pins, setup, first, posts_apart.1 placed.outline pins roomy, distinct⟩

end LogicBoard
