import TabletopDice.RolledExpr
import TabletopDice.DiceRoll
import TabletopDice.Outcome
import TabletopDice.Message

/-!
# Trait rolls

A trait die and a wild die rolled side by side. The higher total counts, and of two equal totals the
one of the trait die.
-/

namespace TabletopDice

/-! ## Results -/

/-- The result of a trait roll: both dice with their totals, and the target number. -/
structure TraitResult where
  trait : RolledDice
  wild : RolledDice
  traitTotal : Int
  wildTotal : Int
  target : Int
deriving DecidableEq, Repr

namespace TraitResult

/-- The die whose total counts. -/
def chosen (r : TraitResult) : TraitDie :=
  if r.wildTotal ≤ r.traitTotal then .trait else .wild

/-- The total that counts. -/
def total (r : TraitResult) : Int :=
  match r.chosen with
  | .trait => r.traitTotal
  | .wild => r.wildTotal

/-- Whether both dice show a one as their first face. -/
def criticalFailure (r : TraitResult) : Bool :=
  isTraitCriticalFailure r.trait r.wild

/-- The outcome of the total that counts. -/
def outcome (r : TraitResult) : Outcome :=
  .classify r.total (some r.target) r.criticalFailure

/-- The name of a die, with a mark if its total counts. -/
def label (r : TraitResult) (die : TraitDie) : String :=
  die.text ++ if r.chosen = die then "*" else ""

/-- The text of a result, with at most so many dice listed for each group. -/
def describe (limit : Option Nat) (r : TraitResult) : String :=
  r.label .trait ++ " " ++ r.trait.describe limit ++ " = " ++ toString r.traitTotal ++ ", " ++
    r.label .wild ++ " " ++ r.wild.describe limit ++ " = " ++ toString r.wildTotal ++
    " (" ++ r.outcome.text ++ ")"

end TraitResult

/-! ## Trait rolls -/

/-- The sides that the dice of a trait roll can have in roll text. -/
def traitSides : List Nat := [4, 6, 8, 10, 12, 20, 100]

/-- The sides of a die when none are given. -/
def TraitDie.defaultSides : TraitDie → Nat
  | trait => 4
  | wild => 6

/-- The target number when none is given. -/
def defaultTarget : Int := 4

/-- A trait roll: its dice, the target number, how many of the two dice count, what is added to both
totals, the comment, the text it was read from and the messages about that text. -/
structure TraitRoll where
  traitDie : Dice := .exploding TraitDie.trait.defaultSides
  wildDie : Dice := .exploding TraitDie.wild.defaultSides
  target : Int := defaultTarget
  targetHighest : Nat := 1
  modifier : Option Int := none
  comment : Option String := none
  raw : String := ""
  messages : List Message := []
deriving DecidableEq, Repr, Inhabited

namespace TraitRoll

/-- A trait roll with these sides. -/
def ofSides (traitSides wildSides : Nat) : TraitRoll :=
  { traitDie := .exploding traitSides, wildDie := .exploding wildSides }

/-- The total of a rolled die and a modifier. -/
def modifiedTotal (modifier : Int) (r : RolledDice) : Except DiceError Int := do
  let sum ← r.total
  match (total? sum).bind fun n => total? (n + modifier) with
  | some n => pure n
  | none => .error .overflow

/-- The result of a trait roll whose dice are rolled. -/
def judge (t : TraitRoll) (trait wild : RolledDice) : Except DiceError TraitResult := do
  let traitTotal ← modifiedTotal (t.modifier.getD 0) trait
  let wildTotal ← modifiedTotal (t.modifier.getD 0) wild
  pure { trait, wild, traitTotal, wildTotal, target := t.target }

/-- Rolls the trait die and then the wild die. -/
def rollDice (t : TraitRoll) : Rolling DiceError TraitResult := do
  let trait ← t.traitDie.roll
  let wild ← t.wildDie.roll
  Rolling.ofExcept (t.judge trait wild)

/-- Rolls both dice and takes the higher total. -/
def roll (t : TraitRoll) : Rolling RollError TraitResult :=
  t.rollDice.mapError .dice

end TraitRoll

end TabletopDice
