/-!
# Totals and signs

Totals are integers that must stay within a fixed range. A sign says whether a number is added to
a running total or taken away from it.
-/

namespace TabletopDice

/-! ## The range of totals -/

/-- The smallest total. -/
def minTotal : Int := -2147483648

/-- The largest total. -/
def maxTotal : Int := 2147483647

/-- An integer as a total, if it is within the range. -/
def total? (n : Int) : Option Int :=
  if minTotal ≤ n ∧ n ≤ maxTotal then some n else none

/-- Within the range nothing is changed. -/
theorem total?_eq_some_iff {n m : Int} :
    total? n = some m ↔ n = m ∧ minTotal ≤ n ∧ n ≤ maxTotal := by
  unfold total?
  split
  · simp_all
  · simp only [reduceCtorEq, false_iff]
    omega

/-! ## Signs -/

/-- Whether a number is added or taken away. -/
inductive Sign where
  | plus
  | minus
deriving DecidableEq, Repr, Inhabited

/-- The character that a sign is written as. -/
def Sign.symbol : Sign → Char
  | plus => '+'
  | minus => '-'

/-- A number with a sign in front. -/
def Sign.signed : Sign → Int → Int
  | plus, n => n
  | minus, n => -n

/-- The total after a signed number, if it is still within the range. -/
def Sign.apply (s : Sign) (total n : Int) : Option Int :=
  total? (total + s.signed n)

/-- A plus leaves a number as it is. -/
@[simp] theorem Sign.signed_plus (n : Int) : Sign.plus.signed n = n := rfl

/-- A minus takes its negative. -/
@[simp] theorem Sign.signed_minus (n : Int) : Sign.minus.signed n = -n := rfl

end TabletopDice
