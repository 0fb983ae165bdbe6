import TabletopDice.Noted
import TabletopDice.Expr
import TabletopDice.Written.Term

/-!
# Checking dice

The numbers of a written group of dice are checked, and conflicts between its suffixes are settled.
A quantity or number of sides out of range rejects the group; any other fault only costs the suffix
that has it. Every suffix is either honoured or noted.
-/

namespace TabletopDice.Written

/-! ## Quantity and sides -/

/-- The number of dice, which is one if it is not written. -/
def checkCount : Option (List Char) → Noted (Option Nat)
  | none => pure (some 1)
  | some digits => (Noted.number digits).chain fun n =>
    if 1 ≤ n ∧ n ≤ Dice.maxCount then pure (some n) else .refuse (.quantityOutOfRange n)

/-- The number of sides. -/
def checkSides (digits : List Char) : Noted (Option Nat) :=
  (Noted.number digits).chain fun n =>
    if Dice.minSides ≤ n ∧ n ≤ Dice.maxSides then pure (some n) else .refuse (.sidesOutOfRange n)

/-! ## Suffixes on their own -/

/-- An explosion of dice with so many sides. A threshold equal to the sides is none at all. -/
def checkExplosion (sides : Nat) (recursive : Bool) :
    Option (List Char) → Noted (Option Explosion)
  | none => pure (some { threshold := none, recursive })
  | some digits => (Noted.number digits).chain fun n =>
    if n = sides then pure (some { threshold := none, recursive })
    else if Dice.minSides ≤ n ∧ n < sides then pure (some { threshold := some n, recursive })
    else .refuse (.thresholdOutOfRange n sides)

/-- The most dice that a selection can name among `count`: every die can be kept, but one must be
left when dice are dropped. -/
def maxSelected (count : Nat) (kind : Kind) : Nat :=
  if kind.isKeep then count else count - 1

/-- The count of a selection among `count` dice, which is one if it is not written. -/
def checkSelection (count : Nat) (kind : Kind) (given : Option (List Char)) :
    Noted (Option Nat) :=
  let number : Noted (Option Nat) :=
    match given with
    | none => pure (some 1)
    | some digits => Noted.number digits
  number.chain fun n =>
    if 1 ≤ n ∧ n ≤ maxSelected count kind then pure (some n)
    else .refuse (.selectionOutOfRange kind n (maxSelected count kind))

/-! ## Suffixes together -/

/-- The suffixes met so far. For the explosion and for each kind of selection: whether one was
written, and what came of the first one. -/
structure Choices where
  explosion : Option (Option Explosion) := none
  selected : Kind → Option (Option Nat) := fun _ => none

namespace Choices

/-- The choices after one more suffix. Only the first one of its kind is used. -/
def add (count sides : Nat) (c : Choices) : Suffix → Noted Choices
  | .explosion recursive threshold =>
    match c.explosion with
    | some _ => ⟨c, [.duplicate .explosion]⟩
    | none => do
      let e ← checkExplosion sides recursive threshold
      pure { c with explosion := some e }
  | .selection kind given =>
    match c.selected kind with
    | some _ => ⟨c, [.duplicate (.selection kind)]⟩
    | none => do
      let n ← checkSelection count kind given
      pure { c with selected := fun k => if k = kind then some n else c.selected k }

/-- The choices made by a sequence of suffixes. -/
def ofSuffixes (count sides : Nat) (suffixes : List Suffix) : Noted Choices :=
  suffixes.foldlM (add count sides) {}

/-- The usable count of a kind of selection. -/
def usable (c : Choices) (kind : Kind) : Option Nat :=
  (c.selected kind).join

end Choices

/-! ## Conflicts -/

/-- The usable selections that drop dice, each noted as overridden. -/
def overriddenDrops (usable : Kind → Option Nat) : List Message :=
  ((usable .dropHigh).map fun n => .dropOverridden ⟨.dropHigh, n⟩).toList ++
    ((usable .dropLow).map fun n => .dropOverridden ⟨.dropLow, n⟩).toList

/-- Settles which selections are applied: keeping wins over dropping, the highest win over the
lowest, and drops that leave no dice are both left out. -/
def resolve (count : Nat) (usable : Kind → Option Nat) : Noted (List Selection) :=
  match usable .keepHigh, usable .keepLow with
  | some h, some l =>
    ⟨[⟨.keepHigh, h⟩], .keepLowOverridden ⟨.keepLow, l⟩ :: overriddenDrops usable⟩
  | some h, none => ⟨[⟨.keepHigh, h⟩], overriddenDrops usable⟩
  | none, some l => ⟨[⟨.keepLow, l⟩], overriddenDrops usable⟩
  | none, none =>
    match usable .dropHigh, usable .dropLow with
    | some h, some l =>
      if count ≤ h + l then ⟨[], [.dropsEveryDie h l count]⟩
      else ⟨[⟨.dropHigh, h⟩, ⟨.dropLow, l⟩], []⟩
    | some h, none => ⟨[⟨.dropHigh, h⟩], []⟩
    | none, some l => ⟨[⟨.dropLow, l⟩], []⟩
    | none, none => ⟨[], []⟩

/-! ## Groups and terms -/

/-- The group of a quantity, sides and suffixes that are known to be in range. -/
def assemble (count sides : Nat) (suffixes : List Suffix) : Noted Dice := do
  let choices ← Choices.ofSuffixes count sides suffixes
  let selections ← resolve count choices.usable
  pure { count, sides, explosion := choices.explosion.join, selections }

/-- The group that is written, if it can be used. -/
def WrittenDice.check (w : WrittenDice) : Noted (Option Dice) := do
  let count ← checkCount w.count
  let sides ← checkSides w.sides
  match count, sides with
  | some count, some sides => some <$> assemble count sides w.suffixes
  | _, _ => pure none

/-- A number that is written, if it is not too large. -/
def checkLiteral (digits : List Char) : Noted (Option Term) :=
  if (Numeral.value digits : Int) ≤ maxTotal then pure (some (.number (Numeral.value digits)))
  else .refuse (.numberTooLarge (String.ofList digits))

/-- The term that a fragment stands for, if it can be used. -/
def checkTerm (fragment : List Char) : Noted (Option Term) :=
  match WrittenTerm.ofText? fragment with
  | some (.number digits) => checkLiteral digits
  | some (.dice w) => Option.map Term.dice <$> w.check
  | none => .refuse (.unknownTerm (String.ofList fragment))

end TabletopDice.Written
