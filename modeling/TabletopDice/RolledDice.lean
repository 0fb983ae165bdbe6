import TabletopDice.Dice
import TabletopDice.Die
import TabletopDice.Ranking

/-!
# Rolled groups of dice

A group of dice with the dice that were rolled for it. Selections mark dice as dropped; the total
counts the others.
-/

namespace TabletopDice

/-- The greatest total of a group of dice. -/
def maxGroupTotal : Nat := 4294967295

/-- A group of dice and the dice rolled for it, in order. -/
structure RolledDice where
  dice : Dice
  rolls : List Die
deriving DecidableEq, Repr

namespace RolledDice

/-! ## Kept dice and totals -/

/-- The dice that count, in order. -/
def kept (r : RolledDice) : List Die :=
  r.rolls.filter Die.isKept

/-- The sum of the dice that count. -/
def keptSum (r : RolledDice) : Nat :=
  r.kept.foldr (fun d n => d.value + n) 0

/-- The total of the dice that count, if it is not too large. -/
def total (r : RolledDice) : Except DiceError Nat :=
  if r.keptSum ≤ maxGroupTotal then .ok r.keptSum else .error .overflow

/-! ## Selections -/

/-- Dice are ranked by value while they count, and not at all once they are dropped. -/
def rankKey (d : Die) : Option Int :=
  if d.isKept then some d.value else none

/-- The positions of the dice that a selection drops: a window of the ranked dice. -/
def window (s : Selection) (rolls : List Die) : List Nat :=
  let ranked := ranking rankKey rolls
  (ranked.take (s.last ranked.length)).drop (s.first ranked.length)

/-- Drops the die at one position. -/
def dropAt (s : Selection) (rolls : Array Die) (i : Nat) : Except DiceError (Array Die) :=
  match rolls[i]? with
  | some d => (d.drop s).map (rolls.setIfInBounds i)
  | none => .ok rolls

/-- The group after a selection. Dice dropped before are not considered. -/
def apply (s : Selection) (r : RolledDice) : Except DiceError RolledDice :=
  ((window s r.rolls).foldlM (dropAt s) r.rolls.toArray).map fun rolls =>
    { r with rolls := rolls.toList }

/-- The group after some selections, one after the other. -/
def applyAll (ss : List Selection) (r : RolledDice) : Except DiceError RolledDice :=
  ss.foldlM (fun r s => r.apply s) r

/-! ## Text -/

/-- The text of a group: its dice, then the rolled dice in brackets. With a limit, only so many dice
are listed, and the number of the others is written at the end. -/
def describe (limit : Option Nat) (r : RolledDice) : String :=
  let shown := limit.getD r.rolls.length
  let hidden := r.rolls.length - shown
  r.dice.text ++ "[" ++ ", ".intercalate ((r.rolls.take shown).map Die.text) ++
    (if 0 < hidden then ", " ++ toString hidden ++ " more..." else "") ++ "]"

end RolledDice

end TabletopDice
