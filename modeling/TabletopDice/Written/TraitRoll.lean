import TabletopDice.TraitRoll
import TabletopDice.Text.Normal
import TabletopDice.Written.Layout
import TabletopDice.Written.Roll

/-!
# Reading trait rolls

The trait roll that a text stands for: its first expression gives the trait die and numbers to add,
which take the place of a modifier in parentheses. As with other rolls, reading never fails.
-/

namespace TabletopDice.Written

/-! ## Dice -/

/-- The sides of a die of a trait roll. -/
def checkTraitSides (die : TraitDie) (digits : List Char) : Noted (Option Nat) :=
  (Noted.number digits).chain fun n =>
    if n ∈ traitSides then pure (some n) else .refuse (.dieNotAllowed die n die.defaultSides)

/-- The die with these sides, or the default one. -/
def traitDice (die : TraitDie) (sides : Option Nat) : Dice :=
  .exploding (sides.getD die.defaultSides)

/-- Notes a quantity other than one. -/
def checkTraitQuantity : Option (List Char) → Noted Unit
  | some digits =>
    if Numeral.value digits = 1 then pure () else .note (.traitQuantity (String.ofList digits))
  | none => pure ()

/-! ## Terms -/

/-- The terms of a trait roll met so far: what came of the first dice, if there were any, and the
sum of the numbers, if there were any. -/
structure TraitDraft where
  sides : Option (Option Nat) := none
  inline : Option Int := none
deriving DecidableEq, Repr

namespace TraitDraft

/-- Adds a number to the sum. A number that takes the sum out of its range is left out. -/
def addNumber (d : TraitDraft) (sign : Sign) (digits : List Char) : Noted TraitDraft := do
  match ← Noted.total digits with
  | none => pure d
  | some n =>
    match sign.apply (d.inline.getD 0) n with
    | some sum => pure { d with inline := some sum }
    | none => ⟨d, [.numberTooLarge (String.ofList digits)]⟩

/-- Takes dice as the trait die, if they are the first ones. -/
def addDice (d : TraitDraft) (f : Fragment) (w : WrittenDice) : Noted TraitDraft :=
  match d.sides with
  | some _ => ⟨d, [.extraTraitTerm f.text]⟩
  | none => do
    checkTraitQuantity w.count
    let sides ← checkTraitSides .trait w.sides
    pure { d with sides := some sides }

/-- The terms with one more fragment. -/
def add (d : TraitDraft) (f : Fragment) : Noted TraitDraft :=
  match WrittenTerm.ofText? f.chars with
  | some (.number digits) => d.addNumber f.sign digits
  | some (.dice w) => d.addDice f w
  | none => ⟨d, [.unknownTerm (String.ofList f.chars)]⟩

end TraitDraft

/-! ## Trait rolls -/

/-- The text of an expression as written, without blanks. -/
def fragmentsText (fs : List Fragment) : String :=
  String.join (fs.map Fragment.text)

/-- Notes the number of highest results, which has no place in a trait roll. -/
def refuseTargetHighest (slots : Slots) : Noted Unit :=
  match slots.targetHighest with
  | some digits => .note (.extraTraitTerm ("th" ++ String.ofList digits))
  | none => pure ()

/-- The sides of the wild die, if any are given. -/
def readWildSides (slots : Slots) : Noted (Option Nat) :=
  match slots.wildDie with
  | some digits => checkTraitSides .wild digits
  | none => pure none

/-- Notes the expressions after the first one. -/
def refuseExprs (exprs : List (List Fragment)) : Noted Unit :=
  ⟨(), exprs.map fun fs => .extraTraitTerm (fragmentsText fs)⟩

/-- The numbers among the terms take the place of the modifier in parentheses. -/
def readTraitModifier (slots : Slots) (inline : Option Int) : Noted (Option Int) :=
  match inline with
  | some sum => pure (some sum)
  | none => readModifier slots

/-- Reads normal text without its comment. -/
def readTraitBody (body : List Char) : Noted TraitRoll := do
  let outline ← Outline.ofTokens (tokens body)
  let target ← readTarget outline.slots
  refuseTargetHighest outline.slots
  let wildSides ← readWildSides outline.slots
  let draft ← (outline.exprs.head?.getD []).foldlM TraitDraft.add {}
  refuseExprs outline.exprs.tail
  let modifier ← readTraitModifier outline.slots draft.inline
  pure {
    traitDie := traitDice .trait draft.sides.join
    wildDie := traitDice .wild wildSides
    target := target.getD defaultTarget
    modifier }

end TabletopDice.Written

namespace TabletopDice

open Written

/-- The trait roll that a text stands for. -/
def TraitRoll.ofText (text : String) : TraitRoll :=
  let trimmed := Text.trim text.toList
  if maxTextLength < trimmed.length then { raw := text, messages := [.inputTooLong] }
  else
    let parts := splitComment (Text.normal trimmed)
    let read := readTraitBody parts.1
    { read.value with comment := parts.2, raw := text, messages := read.notes }

end TabletopDice
