import Mathlib.Tactic.Ring
import LogicBoard.Outline

namespace LogicBoard

theorem Except.bind_eq_ok_iff {ε α β : Type} {first : Except ε α} {second : α → Except ε β} {result : β} :
    (first >>= second) = .ok result ↔ ∃ value, first = .ok value ∧ second value = .ok result := by
  cases first <;> simp [bind, Except.bind]

theorem Except.pure_eq_ok_iff {ε α : Type} {value result : α} :
    (pure value : Except ε α) = .ok result ↔ value = result := by
  simp [pure, Except.pure]

namespace Checked
variable {a b w : Int32}

theorem add_eq_ok_iff : add a b = .ok w ↔ w.toInt = a.toInt + b.toInt := word_eq_ok_iff

theorem sub_eq_ok_iff : sub a b = .ok w ↔ w.toInt = a.toInt - b.toInt := word_eq_ok_iff

theorem mul_eq_ok_iff : mul a b = .ok w ↔ w.toInt = a.toInt * b.toInt := word_eq_ok_iff

end Checked

/-- A point in exact integers. -/
abbrev Point := Int × Int

namespace Outline

def exact (p : Int32 × Int32) : Point := (p.1.toInt, p.2.toInt)

/-- The slots along the upper and lower edges, as far as a word of 32 bits keeps them. -/
def across (o : Outline) : Int := (Int32.ofNat o.columns).toInt

/-- The slots along the left and right edges, as far as a word of 32 bits keeps them. -/
def down (o : Outline) : Int := (Int32.ofNat o.rows).toInt

/-- A place on an edge with a number of slots, counted from the other end when the chip is turned over. -/
def turned (flipped : Bool) (slots place : Int) : Int := if flipped then slots - place else place

/-- The slot of a pin along its edge once the chip has been turned over. -/
def along (o : Outline) (pin : Pin) : Int :=
  let position := (Int32.ofNat pin.position).toInt
  if pin.side.isHorizontal then turned o.flipX o.across position else turned o.flipY o.down position

/-- The edge on which a pin is drawn: a flip exchanges the edges across it. -/
def edge (o : Outline) (side : Side) : Side :=
  if (if side.isHorizontal then o.flipY else o.flipX) then side.opposite else side

/-- The point on an edge of an outline with a width and a height, at a distance from the end of the edge. -/
def pointOn (o : Outline) (width height distance : Int) : Side → Point
  | .north => (o.x.toInt + distance, o.y.toInt)
  | .south => (o.x.toInt + distance, o.y.toInt + height)
  | .west => (o.x.toInt, o.y.toInt + distance)
  | .east => (o.x.toInt + width, o.y.toInt + distance)

/-- Where the pin of a chip that is not turned over stands, in slots from the corner of the chip. -/
def upright (o : Outline) (pin : Pin) : Point :=
  let position := (Int32.ofNat pin.position).toInt
  match pin.side with
  | .north => (position, 0)
  | .south => (position, o.down)
  | .west => (0, position)
  | .east => (o.across, position)

/-- Where the pin stands: turned over, then drawn at the spacing of the slots, then moved to the place of the chip. -/
def pinPoint (o : Outline) (pin : Pin) : Point :=
  (o.x.toInt + turned o.flipX o.across (o.upright pin).1 * o.spacing.toInt,
    o.y.toInt + turned o.flipY o.down (o.upright pin).2 * o.spacing.toInt)

variable {o : Outline} {pin : Pin} {p : Int32 × Int32} {w h : Int32}

theorem footprint_eq_ok_iff : o.footprint = .ok (w, h) ↔
    w.toInt = o.across * o.spacing.toInt ∧ h.toInt = o.down * o.spacing.toInt := by
  simp only [footprint, Except.bind_eq_ok_iff, Checked.mul_eq_ok_iff, Except.pure_eq_ok_iff, Prod.mk.injEq]
  constructor
  · rintro ⟨_, width, _, height, rfl, rfl⟩
    exact ⟨width, height⟩
  · rintro ⟨width, height⟩
    exact ⟨w, width, h, height, rfl, rfl⟩

theorem slot_eq_ok_iff {flipped : Bool} {size position : Nat} : slot flipped size position = .ok w ↔
    w.toInt = turned flipped (Int32.ofNat size).toInt (Int32.ofNat position).toInt := by
  cases flipped
  · simp [slot, turned, ← Int32.toInt_inj, eq_comm]
  · exact Checked.sub_eq_ok_iff

/-- The exact place of a pin is the point on the edge on which the pin is drawn. -/
theorem pinPoint_eq_pointOn (o : Outline) (pin : Pin) : o.pinPoint pin =
    o.pointOn (o.across * o.spacing.toInt) (o.down * o.spacing.toInt) (o.along pin * o.spacing.toInt)
      (o.edge pin.side) := by
  unfold pinPoint upright along edge
  cases pin.side <;> cases o.flipX <;> cases o.flipY <;> simp [Side.isHorizontal, Side.opposite, pointOn, turned]

/-- The same point reckoned with words, coordinate by coordinate. -/
def reach (o : Outline) (w h distance : Int32) : Side → Except Overflow (Int32 × Int32)
  | .north => return (← Checked.add o.x distance, o.y)
  | .south => return (← Checked.add o.x distance, ← Checked.add o.y h)
  | .west => return (o.x, ← Checked.add o.y distance)
  | .east => return (← Checked.add o.x w, ← Checked.add o.y distance)

theorem reach_eq_ok_iff {distance : Int32} {side : Side} :
    o.reach w h distance side = .ok p ↔ exact p = o.pointOn w.toInt h.toInt distance.toInt side := by
  obtain ⟨x, y⟩ := p
  cases side <;>
    simp only [reach, pointOn, exact, Except.bind_eq_ok_iff, Except.pure_eq_ok_iff, Checked.add_eq_ok_iff,
      Prod.mk.injEq, Int32.toInt_inj] <;>
    grind

theorem locate_eq (o : Outline) (pin : Pin) : o.locate pin =
    o.footprint >>= fun size =>
    (if pin.side.isHorizontal then slot o.flipX o.columns pin.position
      else slot o.flipY o.rows pin.position) >>= fun position =>
    Checked.mul position o.spacing >>= fun distance =>
    o.reach size.1 size.2 distance (o.edge pin.side) := by
  unfold locate edge
  cases pin.side <;> rfl

theorem locate_eq_ok_iff : o.locate pin = .ok p ↔ (∃ w h, o.footprint = .ok (w, h)) ∧
    (∃ slot distance : Int32, slot.toInt = o.along pin ∧ distance.toInt = o.along pin * o.spacing.toInt) ∧
    exact p = o.pinPoint pin := by
  have position (w : Int32) : (if pin.side.isHorizontal then slot o.flipX o.columns pin.position
      else slot o.flipY o.rows pin.position) = .ok w ↔ w.toInt = o.along pin := by
    unfold along
    split <;> exact slot_eq_ok_iff
  simp only [locate_eq, Except.bind_eq_ok_iff, Prod.exists, footprint_eq_ok_iff, position, Checked.mul_eq_ok_iff,
    reach_eq_ok_iff, pinPoint_eq_pointOn]
  constructor
  · rintro ⟨w, h, ⟨width, height⟩, slot, atSlot, distance, atDistance, same⟩
    rw [atSlot] at atDistance
    refine ⟨⟨w, h, width, height⟩, ⟨slot, distance, atSlot, atDistance⟩, ?_⟩
    rw [same, width, height, atDistance]
  · rintro ⟨⟨w, h, width, height⟩, ⟨slot, distance, atSlot, atDistance⟩, same⟩
    refine ⟨w, h, ⟨width, height⟩, slot, atSlot, distance, ?_, ?_⟩
    · rw [atDistance, atSlot]
    · rw [same, width, height, atDistance]

/-- The point of a post is the exact place of the pin behind its handle, if there is one. -/
theorem exact_of_post {n : Nat} {table : PinTable} {here : Option (Int32 × Int32)} (found : o.post n table = .ok here) :
    here.map exact = (o.handles[n]?.bind table.get?).map o.pinPoint := by
  unfold post at found
  cases behind : o.handles[n]?.bind table.get? with
  | none =>
    rw [behind] at found
    cases found
    rfl
  | some pin =>
    rw [behind] at found
    cases located : o.locate pin with
    | error operation => simp [located, Except.map] at found
    | ok p =>
      simp only [located, Except.map, Except.ok.injEq] at found
      rw [← found, Option.map_some, Option.map_some, (locate_eq_ok_iff.mp located).2.2]

end Outline

end LogicBoard
