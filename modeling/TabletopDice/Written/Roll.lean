import TabletopDice.Roll
import TabletopDice.Text.Normal
import TabletopDice.Written.Layout
import TabletopDice.Written.Outline
import TabletopDice.Written.Dice

/-!
# Reading rolls

The roll that a text stands for. Reading never fails: what cannot be used is left out, and the
messages of the roll say so.
-/

namespace TabletopDice.Written

/-! ## Expressions -/

/-- The terms of a list of fragments, without those that cannot be used. -/
def readTerms : List Fragment → Noted (List (Sign × Term))
  | [] => pure []
  | f :: fs => do
    let term ← checkTerm f.chars
    let rest ← readTerms fs
    pure ((term.map (f.sign, ·)).toList ++ rest)

/-- The expressions of lists of fragments, without those that have no usable terms. -/
def readExprs : List (List Fragment) → Noted (List Expr)
  | [] => pure []
  | fs :: rest => do
    let terms ← readTerms fs
    let exprs ← readExprs rest
    pure (if terms.isEmpty then exprs else ⟨terms⟩ :: exprs)

/-- The expression of a text without any. -/
def standardExpr : Expr := ⟨[(.plus, .dice .standard)]⟩

/-! ## Repetition -/

/-- The most copies of a list of expressions. -/
def maxCopies : Nat := 100

/-- The largest number of groups that is reported. -/
def maxReported : Nat := 18446744073709551615

/-- The expressions repeated as a whole, or none if that makes too many groups of dice. -/
def repeated (exprs : List Expr) (times : Nat) : Noted (List Expr) :=
  let groups := min maxReported (Expr.totalGroups exprs * times)
  if groups ≤ maxDiceGroups then pure (List.replicate (min times maxCopies) exprs).flatten
  else ⟨[], [.tooManyDiceGroups groups]⟩

/-! ## Parts given once -/

/-- The target number. -/
def readTarget (slots : Slots) : Noted (Option Int) :=
  match slots.target with
  | some digits => Noted.total digits
  | none => pure none

/-- How many of the highest results are compared with the target number, which must be given. -/
def readTargetHighest (slots : Slots) (target : Option Int) : Noted (Option Nat) :=
  match slots.targetHighest with
  | some digits => (Noted.number digits).chain fun n =>
    if n = 0 then .refuse .targetHighestZero
    else if target.isNone then .refuse .targetHighestWithoutTarget
    else pure (some n)
  | none => pure none

/-- The modifier of the whole roll. -/
def readModifier (slots : Slots) : Noted (Option Int) :=
  match slots.modifier with
  | some (sign, digits) => (Noted.total digits).chain fun n => pure (sign.apply 0 n)
  | none => pure none

/-- Notes a wild die, which has no place in a roll. -/
def refuseWildDie (slots : Slots) : Noted Unit :=
  if slots.wildDie.isSome then .note .wildDieOutsideTrait else pure ()

/-! ## Rolls -/

/-- Reads normal text without its comment and repetition, with its expressions once. -/
def readBlock (body : List Char) : Noted Roll := do
  let outline ← Outline.ofTokens (tokens body)
  refuseWildDie outline.slots
  let target ← readTarget outline.slots
  let targetHighest ← readTargetHighest outline.slots target
  let modifier ← readModifier outline.slots
  let written ← readExprs outline.exprs
  let exprs := if outline.hadContent then written else [standardExpr]
  pure { exprs, target, targetHighest, modifier }

/-- Reads normal text without its comment and repetition, and repeats its expressions as a block. -/
def readBody (body : List Char) (times : Nat) : Noted Roll := do
  let block ← readBlock body
  let exprs ← repeated block.exprs times
  pure { block with exprs }

end TabletopDice.Written

namespace TabletopDice

open Written

/-- The roll that a text stands for. -/
def Roll.ofText (text : String) : Roll :=
  let trimmed := Text.trim text.toList
  if maxTextLength < trimmed.length then { raw := text, messages := [.inputTooLong] }
  else
    let cut := splitRepetition trimmed
    let parts := splitComment (Text.normal cut.1)
    let read := readBody parts.1 cut.2
    { read.value with comment := parts.2, raw := text, messages := read.notes }

end TabletopDice
