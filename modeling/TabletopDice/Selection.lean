/-!
# Keeping and dropping dice

A selection keeps or drops the highest or lowest dice of a group. Here it is only a rule about
ranks: among `n` dice in ascending order it drops those of a window of ranks.
-/

namespace TabletopDice

/-! ## Kinds of selection -/

/-- Which dice a selection is about. -/
inductive Kind where
  | keepHigh
  | keepLow
  | dropHigh
  | dropLow
deriving DecidableEq, Repr, Inhabited

namespace Kind

/-- Every kind, in the order in which selections are applied. -/
def all : List Kind := [keepHigh, keepLow, dropHigh, dropLow]

theorem mem_all (k : Kind) : k ∈ all := by
  cases k <;> decide

/-- Whether the kind keeps dice rather than dropping them. -/
def isKeep : Kind → Bool
  | keepHigh | keepLow => true
  | dropHigh | dropLow => false

/-- The letters that a kind is written as. -/
def symbol : Kind → String
  | keepHigh => "kh"
  | keepLow => "kl"
  | dropHigh => "dh"
  | dropLow => "dl"

end Kind

/-! ## Selections -/

/-- A rule that keeps or drops a number of dice. -/
structure Selection where
  kind : Kind
  count : Nat
deriving DecidableEq, Repr, Inhabited

namespace Selection

/-- The text of a selection. A count of one is left out, and so is a count of zero. -/
def text (s : Selection) : String :=
  s.kind.symbol ++ if 1 < s.count then toString s.count else ""

/-- The first rank that a selection drops among `n` dice in ascending order. -/
def first (s : Selection) (n : Nat) : Nat :=
  match s.kind with
  | .keepHigh => 0
  | .keepLow => s.count
  | .dropHigh => n - s.count
  | .dropLow => 0

/-- The rank at which the dropped dice end, among `n` dice in ascending order. -/
def last (s : Selection) (n : Nat) : Nat :=
  match s.kind with
  | .keepHigh => n - s.count
  | .keepLow => n
  | .dropHigh => n
  | .dropLow => s.count

end Selection

end TabletopDice
