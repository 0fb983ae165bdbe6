import TabletopDice.Rolling
import TabletopDice.RolledDice

/-!
# Rolling a group of dice

Each die is drawn and explodes fully before the next one; then the selections are applied.
-/

namespace TabletopDice

/-! ## Explosions -/

/-- Draws again while the latest face reaches the threshold and there is room for another one. -/
def Die.explodeFrom (threshold sides : Nat) :
    (room latest : Nat) → Die → Rolling DiceError Die
  | 0, _, d => pure d
  | room + 1, latest, d =>
    if latest < threshold then pure d
    else do
      let v ← Rolling.face sides
      Die.explodeFrom threshold sides room v (d.push v)

/-- Explodes a die that has faces already, as far as the explosion allows. -/
def Explosion.apply (e : Explosion) (sides : Nat) (d : Die) : Rolling DiceError Die :=
  d.explodeFrom (e.threshold.getD sides) sides (e.maxDraws - d.draws.length) d.latest

namespace Dice

/-! ## Groups -/

/-- One die of the group. -/
def rollDie (d : Dice) : Rolling DiceError Die := do
  let v ← Rolling.face d.sides
  match d.explosion with
  | some e => e.apply d.sides (Die.single v)
  | none => pure (Die.single v)

/-- The whole group, one die after the other, with its selections applied in order. -/
def roll (d : Dice) : Rolling DiceError RolledDice := do
  let rolls ← (List.replicate d.count d).mapM rollDie
  Rolling.ofExcept (RolledDice.applyAll d.selections { dice := d, rolls })

end Dice

end TabletopDice
