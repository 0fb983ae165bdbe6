import TabletopDice.Expr
import TabletopDice.RolledDice

/-!
# Rolled expressions

An expression with all of its dice rolled, its total, and the ways in which a roll can fail.
-/

namespace TabletopDice

/-! ## Terms and expressions -/

/-- A term with its dice rolled. -/
inductive RolledTerm where
  | number (n : Int)
  | dice (r : RolledDice)
deriving DecidableEq, Repr

namespace RolledTerm

/-- The value of a term: the number, or the total of the group. -/
def value : RolledTerm → Except DiceError Int
  | number n => .ok n
  | dice r => r.total.map Int.ofNat

/-- The group of dice of a term, if it is one. -/
def group? : RolledTerm → Option RolledDice
  | number _ => none
  | dice r => some r

/-- The text of a term, with at most so many dice listed. -/
def describe (limit : Option Nat) : RolledTerm → String
  | number n => toString n
  | dice r => r.describe limit

end RolledTerm

/-- An expression with all of its dice rolled. -/
structure RolledExpr where
  terms : List (Sign × RolledTerm)
deriving DecidableEq, Repr, Inhabited

/-! ## Failures -/

/-- Why an expression or a whole roll has no result. -/
inductive RollError where
  /-- The dice failed on their own. -/
  | dice (e : DiceError)
  /-- The dice failed while an expression was rolled. -/
  | evaluating (expr : Expr) (e : DiceError)
  /-- The dice failed while an expression was totalled. -/
  | totalling (rolled : RolledExpr) (e : DiceError)
  /-- The total of an expression left its range. -/
  | overflow (rolled : RolledExpr)
deriving DecidableEq, Repr

namespace RolledExpr

/-! ## Total and text -/

/-- The groups of dice in order. -/
def groups (e : RolledExpr) : List RolledDice :=
  e.terms.filterMap fun p => p.2.group?

/-- The running total after one more term. A value that is no total by itself does not count. -/
def addTerm (e : RolledExpr) (total : Int) (p : Sign × RolledTerm) : Except RollError Int :=
  match p.2.value with
  | .error err => .error (.totalling e err)
  | .ok n =>
    match (total? n).bind (p.1.apply total) with
    | some total' => .ok total'
    | none => .error (.overflow e)

/-- The signed sum of the terms. It fails as soon as the running total leaves its range. -/
def total (e : RolledExpr) : Except RollError Int :=
  e.terms.foldlM e.addTerm 0

/-- The text of a rolled expression, with at most so many dice listed for each group. -/
def describe (limit : Option Nat) (e : RolledExpr) : String :=
  joinSigned (e.terms.map fun p => (p.1, p.2.describe limit))

end RolledExpr

/-- The text of a failure. -/
def RollError.text : RollError → String
  | dice e => e.text
  | evaluating expr e => "dice error while evaluating \"" ++ expr.text ++ "\": " ++ e.text
  | totalling rolled e =>
    "dice error while calculating (" ++ rolled.describe none ++ "): " ++ e.text
  | overflow rolled => "integer overflow while calculating " ++ rolled.describe none

end TabletopDice
