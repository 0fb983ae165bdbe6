import TabletopDice.Selection
import TabletopDice.DiceError

/-!
# Rolled dice, one at a time

A rolled die with every face that was drawn for it. Its value is the sum of the faces, up to a
greatest value at which it stays.
-/

namespace TabletopDice

/-- The greatest value of a die. -/
def maxDieValue : Nat := 65535

/-- A rolled die: its value, the faces drawn for it in order, and the selection that dropped it, if
it was dropped. -/
structure Die where
  value : Nat
  draws : List Nat
  droppedBy : Option Selection := none
deriving DecidableEq, Repr, Inhabited

namespace Die

/-! ## Drawing faces -/

/-- A die for which nothing has been drawn. -/
def blank : Die := { value := 0, draws := [] }

/-- The die with one more face. Its value stays at the greatest one. -/
def push (d : Die) (face : Nat) : Die :=
  { d with value := min maxDieValue (d.value + face), draws := d.draws ++ [face] }

/-- The die with these faces. -/
def ofDraws (faces : List Nat) : Die :=
  faces.foldl push blank

/-- The die with a single face. -/
def single (face : Nat) : Die := ofDraws [face]

/-- The face drawn first, or the value of a die without faces. -/
def natural (d : Die) : Nat :=
  d.draws.head?.getD d.value

/-- The face drawn last, or the value of a die without faces. -/
def latest (d : Die) : Nat :=
  d.draws.getLast?.getD d.value

/-- Whether the die was drawn again. -/
def isExploded (d : Die) : Bool :=
  1 < d.draws.length

/-- A further face is the last one that was drawn. -/
@[simp] theorem draws_push (d : Die) (face : Nat) : (d.push face).draws = d.draws ++ [face] := rfl

/-- A further face leaves the mark of the die as it is. -/
@[simp] theorem droppedBy_push (d : Die) (face : Nat) : (d.push face).droppedBy = d.droppedBy := rfl

/-- Pushing faces adds them to the draws in order. -/
theorem draws_foldl_push (d : Die) (faces : List Nat) :
    (faces.foldl push d).draws = d.draws ++ faces := by
  induction faces generalizing d with
  | nil => simp
  | cons face faces ih => simp [ih]

/-- Pushing faces drops no die. -/
theorem droppedBy_foldl_push (d : Die) (faces : List Nat) :
    (faces.foldl push d).droppedBy = d.droppedBy := by
  induction faces generalizing d with
  | nil => rfl
  | cons face faces ih => simp [ih]

@[simp] theorem draws_ofDraws (faces : List Nat) : (ofDraws faces).draws = faces := by
  simp [ofDraws, draws_foldl_push, blank]

@[simp] theorem draws_single (face : Nat) : (single face).draws = [face] := draws_ofDraws _

/-! ## Dropping -/

/-- Whether the die counts. -/
def isKept (d : Die) : Bool :=
  d.droppedBy.isNone

/-- The die marked as dropped. A die can be dropped only once. -/
def drop (d : Die) (s : Selection) : Except DiceError Die :=
  if d.isKept then .ok { d with droppedBy := some s } else .error .alreadyDropped

/-- A kept die can be dropped. -/
theorem drop_of_isKept {d : Die} (s : Selection) (h : d.isKept) :
    d.drop s = .ok { d with droppedBy := some s } := by
  simp [drop, h]

/-! ## Order and text -/

/-- Dice are ordered by their values alone. -/
instance : Ord Die := ⟨fun a b => compare a.value b.value⟩

/-- The text of a die: its value, a mark if it exploded and a mark if it was dropped. -/
def text (d : Die) : String :=
  toString d.value ++ (if d.isExploded then "!" else "") ++ (if d.isKept then "" else " (d)")

end Die

end TabletopDice
