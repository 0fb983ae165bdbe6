import TabletopDice.RolledDice
import TabletopDice.Total

/-!
# Outcomes

How a total compares with a target number, and when a roll is a critical failure.
-/

namespace TabletopDice

/-! ## Outcomes -/

/-- The outcome of a roll. -/
inductive Outcome where
  | criticalFailure
  | failed
  | success
  | raise
  | notApplicable
deriving DecidableEq, Repr, Inhabited

/-- How far a total must lie above the target number to be a raise. -/
def raiseMargin : Int := 4

namespace Outcome

/-- Whether the outcome is a success, raises included. -/
def isSuccess : Outcome → Bool
  | success | raise => true
  | criticalFailure | failed | notApplicable => false

/-- Only a success and a raise count as successes. -/
theorem isSuccess_iff {o : Outcome} : o.isSuccess ↔ o = success ∨ o = raise := by
  cases o <;> decide

/-- The text of an outcome. -/
def text : Outcome → String
  | criticalFailure => "critical failure"
  | failed => "failed"
  | success => "success"
  | raise => "raise"
  | notApplicable => "n/a"

/-- The smallest total that is a raise. It is never beyond the range of totals. -/
def raiseFrom (target : Int) : Int :=
  min (target + raiseMargin) maxTotal

/-- The outcome of a total. A critical failure comes first, even without a target number. -/
def classify (total : Int) (target : Option Int) (critical : Bool) : Outcome :=
  if critical then criticalFailure
  else match target with
    | none => notApplicable
    | some t =>
      if raiseFrom t ≤ total then raise
      else if t ≤ total then success
      else failed

end Outcome

/-! ## Critical failures -/

/-- Whether all dice that count show a one, and there are at least two of them. -/
def isCriticalFailure (groups : List RolledDice) : Bool :=
  let kept := groups.flatMap RolledDice.kept
  kept.all (fun d => d.value == 1) && 2 ≤ kept.length

/-- Whether the first face of the first die is a one. -/
def RolledDice.isNaturalOne (r : RolledDice) : Bool :=
  r.rolls.head?.any fun d => d.natural == 1

/-- Whether both dice of a trait roll show a one as their first face. -/
def isTraitCriticalFailure (trait wild : RolledDice) : Bool :=
  trait.isNaturalOne && wild.isNaturalOne

end TabletopDice
