import TabletopDice.Selection

/-!
# Dice

A group of equal dice with its explosion and its selections, and the text of a group such as
`4d6!!>5kh3`. A group is plain data: the bounds below are what roll text must respect, and a group
built by hand may lie outside of them.
-/

namespace TabletopDice

/-! ## Explosions -/

/-- The rule by which a die is drawn again: whenever a face reaches the threshold, another face is
drawn and added. Without a threshold of its own the rule uses the number of sides. A recursive
explosion goes on from the new face, any other stops after one. -/
structure Explosion where
  threshold : Option Nat
  recursive : Bool
deriving DecidableEq, Repr, Inhabited

/-- The most faces that an exploding die can show. -/
def Explosion.maxDraws (e : Explosion) : Nat :=
  if e.recursive then 10 else 2

/-- The text of an explosion. -/
def Explosion.text (e : Explosion) : String :=
  (if e.recursive then "!!" else "!") ++
    match e.threshold with
    | some t => ">" ++ toString t
    | none => ""

/-! ## Groups of dice -/

/-- A number of equal dice. -/
structure Dice where
  count : Nat
  sides : Nat
  explosion : Option Explosion := none
  selections : List Selection := []
deriving DecidableEq, Repr

namespace Dice

/-- The most dice of one group in roll text. -/
def maxCount : Nat := 100

/-- The fewest sides of a die in roll text. -/
def minSides : Nat := 2

/-- The most sides of a die in roll text. -/
def maxSides : Nat := 1000

/-- A single six-sided die. -/
def standard : Dice := { count := 1, sides := 6 }

instance : Inhabited Dice := ⟨standard⟩

/-- A single die that explodes again and again on its highest face. -/
def exploding (sides : Nat) : Dice :=
  { count := 1, sides, explosion := some { threshold := none, recursive := true } }

/-- The face from which on a die of the group explodes, if it explodes at all. -/
def explosionThreshold (d : Dice) : Option Nat :=
  d.explosion.map fun e => e.threshold.getD d.sides

/-- The most faces that a die of the group can show. -/
def maxDraws (d : Dice) : Nat :=
  match d.explosion with
  | some e => e.maxDraws
  | none => 1

/-- The group with one more selection at the end. -/
def select (d : Dice) (kind : Kind) (count : Nat) : Dice :=
  { d with selections := d.selections ++ [⟨kind, count⟩] }

/-- The group with an explosion in place of the one it had. -/
def explodeOn (d : Dice) (threshold : Option Nat) (recursive : Bool) : Dice :=
  { d with explosion := some { threshold, recursive } }

/-- The text of a group. -/
def text (d : Dice) : String :=
  toString d.count ++ "d" ++ toString d.sides ++
    (match d.explosion with
    | some e => e.text
    | none => "") ++
    String.join (d.selections.map Selection.text)

end Dice

end TabletopDice
