import TabletopDice.Dice
import TabletopDice.Total

/-!
# Expressions

Signed sums of numbers and groups of dice, such as `2d6 + 3`.
-/

namespace TabletopDice

/-! ## Signed texts -/

/-- Texts with their signs after a first one: each sign stands between blanks. -/
def joinMore (parts : List (Sign × String)) : String :=
  String.join (parts.map fun p => " " ++ p.1.symbol.toString ++ " " ++ p.2)

/-- Texts joined by their signs. A leading plus is left out, a leading minus is written without
blanks. -/
def joinSigned : List (Sign × String) → String
  | [] => ""
  | (.plus, t) :: rest => t ++ joinMore rest
  | (.minus, t) :: rest => "-" ++ t ++ joinMore rest

/-! ## Expressions -/

/-- A term of an expression: a number or a group of dice. -/
inductive Term where
  | number (n : Int)
  | dice (d : Dice)
deriving DecidableEq, Repr

namespace Term

/-- Whether the term is a group of dice. -/
def isDice : Term → Bool
  | number _ => false
  | dice _ => true

/-- The text of a term. -/
def text : Term → String
  | number n => toString n
  | dice d => d.text

end Term

/-- An expression: its terms in order, each with the sign in front of it. -/
structure Expr where
  terms : List (Sign × Term)
deriving DecidableEq, Repr, Inhabited

namespace Expr

/-- The number of groups of dice. -/
def diceGroups (e : Expr) : Nat :=
  e.terms.countP fun p => p.2.isDice

/-- Whether the expression has the same value every time, having no dice. -/
def isDeterministic (e : Expr) : Bool :=
  e.diceGroups == 0

/-- The number of groups of dice in some expressions. -/
def totalGroups (es : List Expr) : Nat :=
  es.foldr (fun e n => e.diceGroups + n) 0

/-- The text of an expression. -/
def text (e : Expr) : String :=
  joinSigned (e.terms.map fun p => (p.1, p.2.text))

end Expr

end TabletopDice
