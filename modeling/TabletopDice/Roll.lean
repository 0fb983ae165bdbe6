import TabletopDice.RolledExpr
import TabletopDice.DiceRoll
import TabletopDice.Outcome
import TabletopDice.Message

/-!
# Rolls

A roll of one or more expressions that share a target number, a modifier and a comment. Each
expression is rolled, totalled and classified in order; then, if only the highest results are to be
compared with the target number, the others lose their outcome.
-/

namespace TabletopDice

/-! ## Rolling an expression -/

/-- Rolls the dice of a term, if it has any. -/
def Term.roll : Term → Rolling DiceError RolledTerm
  | number n => pure (.number n)
  | dice d => do
    let r ← d.roll
    pure (.dice r)

/-- Rolls the dice of a term behind its sign. -/
def rollSigned (p : Sign × Term) : Rolling DiceError (Sign × RolledTerm) := do
  let t ← p.2.roll
  pure (p.1, t)

/-- Rolls the dice of every term in order. -/
def Expr.roll (e : Expr) : Rolling RollError RolledExpr := do
  let terms ← (e.terms.mapM rollSigned).mapError (.evaluating e)
  pure ⟨terms⟩

/-! ## Results -/

/-- The result of one expression. -/
structure ExprResult where
  rolled : RolledExpr
  total : Int
  modifiedTotal : Int
  outcome : Outcome
deriving DecidableEq, Repr

/-- The text of a result, with at most so many dice listed for each group. -/
def ExprResult.describe (limit : Option Nat) (r : ExprResult) : String :=
  r.rolled.describe limit ++ " = " ++ toString r.modifiedTotal ++
    if r.outcome = .notApplicable then "" else " (" ++ r.outcome.text ++ ")"

/-- The result of a roll: its comment and the result of each expression in order. -/
structure RollResult where
  comment : Option String
  exprs : List ExprResult
deriving DecidableEq, Repr

namespace RollResult

/-- The number of expressions that succeeded. -/
def successes (r : RollResult) : Nat :=
  r.exprs.countP fun e => e.outcome.isSuccess

/-- Whether the dice of all expressions together are a critical failure. -/
def criticalFailure (r : RollResult) : Bool :=
  isCriticalFailure (r.exprs.flatMap fun e => e.rolled.groups)

/-- The lines of a result: the comment, if there is one, and a line for each expression. -/
def lines (limit : Option Nat) (r : RollResult) : List String :=
  r.comment.toList ++ r.exprs.map (ExprResult.describe limit)

/-- The text of a result. -/
def describe (limit : Option Nat) (r : RollResult) : String :=
  "\n".intercalate (r.lines limit)

end RollResult

/-! ## Rolls -/

/-- A roll: its expressions, the target number that each is compared with, how many of the highest
results are compared, what is added to each total, the comment, the text it was read from and the
messages about that text. -/
structure Roll where
  exprs : List Expr := []
  target : Option Int := none
  targetHighest : Option Nat := none
  modifier : Option Int := none
  comment : Option String := none
  raw : String := ""
  messages : List Message := []
deriving DecidableEq, Repr, Inhabited

namespace Roll

/-- Whether there is anything to roll. -/
def isUsable (r : Roll) : Bool :=
  !r.exprs.isEmpty

/-- The number of groups of dice. -/
def diceGroups (r : Roll) : Nat :=
  Expr.totalGroups r.exprs

/-- The result of an expression whose dice are rolled. -/
def judge (r : Roll) (rolled : RolledExpr) : Except RollError ExprResult := do
  let total ← rolled.total
  match total? (total + r.modifier.getD 0) with
  | some modifiedTotal =>
    pure {
      rolled, total, modifiedTotal
      outcome := .classify modifiedTotal r.target (isCriticalFailure rolled.groups) }
  | none => .error (.overflow rolled)

/-- Rolls an expression and classifies its total. -/
def rollExpr (r : Roll) (e : Expr) : Rolling RollError ExprResult := do
  let rolled ← e.roll
  Rolling.ofExcept (r.judge rolled)

/-- The positions of the results beyond the highest `h`. Of equal results the earlier ones count as
higher. -/
def beyondHighest (h : Nat) (results : List ExprResult) : List Nat :=
  (ranking (fun e => some (-e.modifiedTotal)) results).drop h

/-- Takes the outcome from all but the highest `h` results. -/
def keepHighest (h : Nat) (results : List ExprResult) : List ExprResult :=
  let demoted := beyondHighest h results
  results.mapIdx fun i e => if i ∈ demoted then { e with outcome := .notApplicable } else e

/-- Only with a target number are the highest results told apart from the others. -/
def rank (r : Roll) (results : List ExprResult) : List ExprResult :=
  match r.target, r.targetHighest with
  | some _, some h => keepHighest h results
  | _, _ => results

/-- Rolls every expression in order. -/
def roll (r : Roll) : Rolling RollError RollResult := do
  let results ← r.exprs.mapM r.rollExpr
  pure { comment := r.comment, exprs := r.rank results }

end Roll

end TabletopDice
