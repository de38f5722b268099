import Mathlib.Data.Nat.Bitwise
import LogicBoard.Proofs.PostPlaces

namespace LogicBoard.Outline
variable {o : Outline}

/-- The outline with one flag changed, or with all flags of a mask changed. -/
def toggled (o : Outline) (mask : UInt32) : Outline := { o with flags := o.flags ^^^ mask }

theorem toggled_toggled (o : Outline) (mask : UInt32) : (o.toggled mask).toggled mask = o := by
  simp only [toggled, UInt32.xor_assoc, UInt32.xor_self, UInt32.xor_zero]

theorem toggled_comm (o : Outline) (first second : UInt32) :
    (o.toggled first).toggled second = (o.toggled second).toggled first := by
  simp only [toggled, UInt32.xor_assoc, UInt32.xor_comm first second]

theorem and_flag_ne_zero {flags flag : UInt32} {k : Nat} (power : flag.toNat = 2 ^ k) :
    (flags &&& flag != 0) = flags.toNat.testBit k := by
  rw [Bool.eq_iff_iff, bne_iff_ne, ne_eq, ← UInt32.toNat_inj, UInt32.toNat_and, power, Nat.and_two_pow]
  cases flags.toNat.testBit k <;> simp

theorem isSmall_eq (o : Outline) : o.isSmall = o.flags.toNat.testBit 0 := and_flag_ne_zero rfl

theorem flipX_eq (o : Outline) : o.flipX = o.flags.toNat.testBit 10 := and_flag_ne_zero rfl

theorem flipY_eq (o : Outline) : o.flipY = o.flags.toNat.testBit 11 := and_flag_ne_zero rfl

theorem testBit_toggled (o : Outline) (mask : UInt32) (k : Nat) :
    (o.toggled mask).flags.toNat.testBit k = (o.flags.toNat.testBit k ^^ mask.toNat.testBit k) := by
  rw [toggled, UInt32.toNat_xor, Nat.testBit_xor]

theorem isSmall_toggled (o : Outline) (mask : UInt32) :
    (o.toggled mask).isSmall = (o.isSmall ^^ mask.toNat.testBit 0) := by
  rw [isSmall_eq, isSmall_eq, testBit_toggled]

theorem flipX_toggled (o : Outline) (mask : UInt32) :
    (o.toggled mask).flipX = (o.flipX ^^ mask.toNat.testBit 10) := by
  rw [flipX_eq, flipX_eq, testBit_toggled]

theorem flipY_toggled (o : Outline) (mask : UInt32) :
    (o.toggled mask).flipY = (o.flipY ^^ mask.toNat.testBit 11) := by
  rw [flipY_eq, flipY_eq, testBit_toggled]

/-- The flags that have a say in how a chip is drawn. -/
def drawnFlags : UInt32 := smallFlag ||| flipXFlag ||| flipYFlag

theorem testBit_of_unused (flag : UInt32) {mask : UInt32} {k : Nat} (unused : mask &&& drawnFlags = 0)
    (power : flag.toNat = 2 ^ k) (among : drawnFlags &&& flag = flag) : mask.toNat.testBit k = false := by
  rw [← and_flag_ne_zero power, ← among, ← UInt32.and_assoc, unused, UInt32.zero_and]
  rfl

theorem spacing_eq_of_isSmall {a b : Outline} (same : a.isSmall = b.isSmall) : a.spacing = b.spacing := by
  rw [spacing, spacing, same]

theorem footprint_toggled {mask : UInt32} (isSmall : (o.toggled mask).isSmall = o.isSmall) :
    (o.toggled mask).footprint = o.footprint := by
  unfold footprint
  rw [spacing_eq_of_isSmall isSmall]
  rfl

theorem post_toggled {mask : UInt32} (isSmall : (o.toggled mask).isSmall = o.isSmall)
    (flipX : (o.toggled mask).flipX = o.flipX) (flipY : (o.toggled mask).flipY = o.flipY) :
    (o.toggled mask).post = o.post := by
  have located : (o.toggled mask).locate = o.locate := by
    funext pin
    unfold locate
    simp only [footprint_toggled isSmall, spacing_eq_of_isSmall isSmall, flipX, flipY]
    rfl
  funext n table
  unfold post
  rw [located]
  rfl

theorem turned_not (flipped : Bool) (slots place : Int) :
    turned (!flipped) slots place = slots - turned flipped slots place := by
  cases flipped <;> simp [turned]

/-- A flip takes a coordinate as far from one end of the chip as it was from the other. -/
theorem mirrored_eq (start slots gap place : Int) (flipped : Bool) : start + turned (!flipped) slots place * gap =
    2 * start + slots * gap - (start + turned flipped slots place * gap) := by
  rw [turned_not]
  ring

theorem isSmall_toggled_flipX (o : Outline) : (o.toggled flipXFlag).isSmall = o.isSmall :=
  (o.isSmall_toggled _).trans (Bool.xor_false _)

theorem isSmall_toggled_flipY (o : Outline) : (o.toggled flipYFlag).isSmall = o.isSmall :=
  (o.isSmall_toggled _).trans (Bool.xor_false _)

theorem pinPoint_toggled_flipX (o : Outline) (pin : Pin) : (o.toggled flipXFlag).pinPoint pin =
    (2 * o.x.toInt + o.across * o.spacing.toInt - (o.pinPoint pin).1, (o.pinPoint pin).2) := by
  have flipX : (o.toggled flipXFlag).flipX = !o.flipX := (o.flipX_toggled _).trans (Bool.xor_true _)
  have flipY : (o.toggled flipXFlag).flipY = o.flipY := (o.flipY_toggled _).trans (Bool.xor_false _)
  rw [pinPoint, pinPoint, flipX, flipY, spacing_eq_of_isSmall o.isSmall_toggled_flipX, ← mirrored_eq]
  rfl

theorem pinPoint_toggled_flipY (o : Outline) (pin : Pin) : (o.toggled flipYFlag).pinPoint pin =
    ((o.pinPoint pin).1, 2 * o.y.toInt + o.down * o.spacing.toInt - (o.pinPoint pin).2) := by
  have flipX : (o.toggled flipYFlag).flipX = o.flipX := (o.flipX_toggled _).trans (Bool.xor_false _)
  have flipY : (o.toggled flipYFlag).flipY = !o.flipY := (o.flipY_toggled _).trans (Bool.xor_true _)
  rw [pinPoint, pinPoint, flipX, flipY, spacing_eq_of_isSmall o.isSmall_toggled_flipY, ← mirrored_eq]
  rfl

theorem spacing_toggled_small (small : o.isSmall) : (o.toggled smallFlag).spacing.toInt = 2 * o.spacing.toInt := by
  have large : (o.toggled smallFlag).isSmall = false := by
    rw [isSmall_toggled, small]
    rfl
  rw [spacing, spacing, large, small]
  rfl

theorem pinPoint_toggled_small (small : o.isSmall) (pin : Pin) : (o.toggled smallFlag).pinPoint pin =
    (o.x.toInt + 2 * ((o.pinPoint pin).1 - o.x.toInt), o.y.toInt + 2 * ((o.pinPoint pin).2 - o.y.toInt)) := by
  have flipX : (o.toggled smallFlag).flipX = o.flipX := (o.flipX_toggled _).trans (Bool.xor_false _)
  have flipY : (o.toggled smallFlag).flipY = o.flipY := (o.flipY_toggled _).trans (Bool.xor_false _)
  have upright : (o.toggled smallFlag).upright pin = o.upright pin := rfl
  have across : (o.toggled smallFlag).across = o.across := rfl
  have down : (o.toggled smallFlag).down = o.down := rfl
  rw [pinPoint, pinPoint, flipX, flipY, spacing_toggled_small small, upright, across, down]
  refine Prod.ext ?_ ?_
  · simp only [toggled]
    ring
  · simp only [toggled]
    ring

/-- What the flags do to the post at which a chip of a given size has a pin: each flip mirrors it in the middle of the
outline, the small size halves its distances, in whatever way the other flags are set, and no other flag counts. -/
structure Symmetric (o : Outline) (n : Nat) (table : PinTable) (w h : Int32) (here : Option (Int32 × Int32)) :
    Prop where
  flipX : ∀ there, (o.toggled flipXFlag).post n table = .ok there →
    there.map exact = (here.map exact).map fun p => (2 * o.x.toInt + w.toInt - p.1, p.2)
  flipY : ∀ there, (o.toggled flipYFlag).post n table = .ok there →
    there.map exact = (here.map exact).map fun p => (p.1, 2 * o.y.toInt + h.toInt - p.2)
  flipBoth : ∀ there, ((o.toggled flipXFlag).toggled flipYFlag).post n table = .ok there →
    there.map exact = (here.map exact).map fun p => (2 * o.x.toInt + w.toInt - p.1, 2 * o.y.toInt + h.toInt - p.2)
  flipSize : (o.toggled flipXFlag).footprint = .ok (w, h) ∧ (o.toggled flipYFlag).footprint = .ok (w, h)
  commute : (o.toggled flipXFlag).toggled flipYFlag = (o.toggled flipYFlag).toggled flipXFlag
  inverse : ∀ mask, (o.toggled mask).toggled mask = o
  enlarge : o.isSmall → ∀ there, (o.toggled smallFlag).post n table = .ok there → there.map exact =
    (here.map exact).map fun p => (o.x.toInt + 2 * (p.1 - o.x.toInt), o.y.toInt + 2 * (p.2 - o.y.toInt))
  enlargeSize : o.isSmall → ∀ wide high, (o.toggled smallFlag).footprint = .ok (wide, high) →
    wide.toInt = 2 * w.toInt ∧ high.toInt = 2 * h.toInt
  unused : ∀ mask, mask &&& (smallFlag ||| flipXFlag ||| flipYFlag) = 0 →
    (o.toggled mask).footprint = o.footprint ∧ (o.toggled mask).post n table = o.post n table

theorem post_symmetric {n : Nat} {table : PinTable} {w h : Int32} {here : Option (Int32 × Int32)}
    (size : o.footprint = .ok (w, h)) (placed : o.post n table = .ok here) : o.Symmetric n table w h here := by
  obtain ⟨width, height⟩ := footprint_eq_ok_iff.mp size
  have atPin := exact_of_post placed
  refine ⟨fun there found => ?_, fun there found => ?_, fun there found => ?_, ⟨?_, ?_⟩, o.toggled_comm _ _,
    o.toggled_toggled, fun small there found => ?_, fun small wide high found => ?_, fun mask clear => ?_⟩
  · rw [exact_of_post found, atPin, Option.map_map, width]
    exact congrArg (Option.map · _) (funext o.pinPoint_toggled_flipX)
  · rw [exact_of_post found, atPin, Option.map_map, height]
    exact congrArg (Option.map · _) (funext o.pinPoint_toggled_flipY)
  · rw [exact_of_post found, atPin, Option.map_map, width, height]
    refine congrArg (Option.map · _) (funext fun pin => ?_)
    rw [pinPoint_toggled_flipY, pinPoint_toggled_flipX, spacing_eq_of_isSmall o.isSmall_toggled_flipX]
    rfl
  · rw [footprint_toggled o.isSmall_toggled_flipX, size]
  · rw [footprint_toggled o.isSmall_toggled_flipY, size]
  · rw [exact_of_post found, atPin, Option.map_map]
    exact congrArg (Option.map · _) (funext (pinPoint_toggled_small small))
  · obtain ⟨wider, higher⟩ := footprint_eq_ok_iff.mp found
    rw [wider, higher, width, height, spacing_toggled_small small]
    exact ⟨Int.mul_left_comm _ _ _, Int.mul_left_comm _ _ _⟩
  · have isSmall : (o.toggled mask).isSmall = o.isSmall := by
      rw [isSmall_toggled, testBit_of_unused smallFlag clear rfl rfl, Bool.xor_false]
    have flipX : (o.toggled mask).flipX = o.flipX := by
      rw [flipX_toggled, testBit_of_unused flipXFlag clear rfl rfl, Bool.xor_false]
    have flipY : (o.toggled mask).flipY = o.flipY := by
      rw [flipY_toggled, testBit_of_unused flipYFlag clear rfl rfl, Bool.xor_false]
    exact ⟨footprint_toggled isSmall, by rw [post_toggled isSmall flipX flipY]⟩

/-- A small chip that is turned over and has a flag set that does not count. Only four of its columns fit a word. -/
def farColumns : Outline :=
  { x := -40, y := 7, x2 := 0, y2 := 0, flags := 1029, columns := 4294967300, rows := 3, handles := [5, 0] }

def eastPin : PinTable := PinTable.empty.allocate { label := "A", position := 1, side := .east }

theorem farColumns_symmetric : farColumns.footprint = .ok (32, 24) ∧
    farColumns.post 1 eastPin = .ok (some (-40, 15)) ∧
    (farColumns.toggled flipXFlag).post 1 eastPin = .ok (some (-8, 15)) ∧
    farColumns.Symmetric 1 eastPin 32 24 (some (-40, 15)) :=
  ⟨rfl, rfl, rfl, post_symmetric rfl rfl⟩

end LogicBoard.Outline
