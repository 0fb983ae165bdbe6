import TabletopDice.Rolling

/-!
# Shuffles

A random order of the numbers from one up to a size, by exchanging each place, from the last one
down, with a place drawn from those up to it.
-/

namespace TabletopDice

/-- Exchanges the places from `i` down to the second one with places that are drawn. A drawn place
beyond the end of the sequence is refused. -/
def shuffleFrom : (i : Nat) → Array Nat → Rolling DiceError (List Nat)
  | 0, xs => .done xs.toList
  | i + 1, xs => .draw 0 (i + 1) fun j =>
    if j < xs.size then shuffleFrom i (xs.swapIfInBounds (i + 1) j)
    else .fail (.noSuchPlace j xs.size)

/-- The numbers from one to `size` in random order. -/
def shuffle (size : Nat) : Rolling DiceError (List Nat) :=
  shuffleFrom (size - 1) (List.range' 1 size).toArray

end TabletopDice
