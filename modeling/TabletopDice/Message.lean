import TabletopDice.Dice
import TabletopDice.Total

/-!
# Messages

What the reader of roll text has to say about it. A message never stops the reading: each one tells
of a part that was left out or changed.
-/

namespace TabletopDice

/-! ## Parts of roll text -/

/-- A part of roll text that can be given only once. -/
inductive SinglePart where
  | targetNumber
  | targetHighest
  | globalModifier
  | wildDie
  | explosion
  | selection (kind : Kind)
deriving DecidableEq, Repr

/-- The name of a part. -/
def SinglePart.text : SinglePart → String
  | targetNumber => "target number"
  | targetHighest => "target highest"
  | globalModifier => "global modifier"
  | wildDie => "wild die"
  | explosion => "explosion"
  | selection kind => kind.symbol

/-- One of the two dice of a trait roll. -/
inductive TraitDie where
  | trait
  | wild
deriving DecidableEq, Repr

/-- The name of a die. -/
def TraitDie.text : TraitDie → String
  | trait => "trait"
  | wild => "wild"

/-- The most characters of roll text. -/
def maxTextLength : Nat := 1000

/-- The most groups of dice of a roll. -/
def maxDiceGroups : Nat := 100

/-! ## Messages -/

/-- A remark on roll text. -/
inductive Message where
  /-- The text is too long to be read. -/
  | inputTooLong
  /-- A fragment is neither a number nor a group of dice. -/
  | unknownTerm (fragment : String)
  /-- No term follows a sign. -/
  | missingTerm (sign : Sign)
  /-- A number is too large for its purpose. -/
  | numberTooLarge (digits : String)
  /-- A group has too few or too many dice. -/
  | quantityOutOfRange (given : Nat)
  /-- A die has too few or too many sides. -/
  | sidesOutOfRange (given : Nat)
  /-- An explosion has a threshold that the dice do not allow. -/
  | thresholdOutOfRange (given sides : Nat)
  /-- A selection has a count that the dice do not allow. -/
  | selectionOutOfRange (kind : Kind) (given max : Nat)
  /-- A selection drops dice beside another one that keeps dice. -/
  | dropOverridden (selection : Selection)
  /-- The lowest dice are to be kept beside the highest. -/
  | keepLowOverridden (selection : Selection)
  /-- Two selections drop every die. -/
  | dropsEveryDie (high low count : Nat)
  /-- A part is given again. -/
  | duplicate (part : SinglePart)
  /-- The highest results are to be compared, but there is no target number. -/
  | targetHighestWithoutTarget
  /-- The number of highest results to compare is zero. -/
  | targetHighestZero
  /-- There are too many groups of dice. -/
  | tooManyDiceGroups (count : Nat)
  /-- A wild die is given, but the roll is not a trait roll. -/
  | wildDieOutsideTrait
  /-- A trait die has a quantity other than one. -/
  | traitQuantity (digits : String)
  /-- A die of a trait roll has sides that are not allowed, and is replaced. -/
  | dieNotAllowed (die : TraitDie) (given replacement : Nat)
  /-- A trait roll has a part that it cannot use. -/
  | extraTraitTerm (text : String)
deriving DecidableEq, Repr

/-- A text between double quotes. -/
def inQuotes (text : String) : String :=
  "\"" ++ text ++ "\""

/-- The text of a message. -/
def Message.text : Message → String
  | inputTooLong => "input is longer than " ++ toString maxTextLength ++ " characters"
  | unknownTerm fragment => "could not understand " ++ inQuotes fragment
  | missingTerm sign => inQuotes sign.symbol.toString ++ " is missing a term"
  | numberTooLarge digits => "number " ++ inQuotes digits ++ " is too large"
  | quantityOutOfRange given =>
    "dice quantity must be between 1 and " ++ toString Dice.maxCount ++ ", got " ++ toString given
  | sidesOutOfRange given =>
    "dice sides must be between " ++ toString Dice.minSides ++ " and " ++ toString Dice.maxSides ++
      ", got " ++ toString given
  | thresholdOutOfRange given sides =>
    "explosion threshold must be between " ++ toString Dice.minSides ++ " and " ++
      toString sides ++ ", got " ++ toString given ++ "; the dice won't explode"
  | selectionOutOfRange kind given max =>
    kind.symbol ++ " count must be between 1 and " ++ toString max ++ ", got " ++
      toString given ++ "; it is ignored"
  | dropOverridden selection =>
    "keep modifiers take precedence over drop modifiers; " ++ selection.text ++ " is ignored"
  | keepLowOverridden selection =>
    "keep highest takes precedence over keep lowest; " ++ selection.text ++ " is ignored"
  | dropsEveryDie high low count =>
    "dropping " ++ toString high ++ " highest and " ++ toString low ++ " lowest of " ++
      toString count ++ " dice would drop them all; both are ignored"
  | duplicate part => part.text ++ " was given more than once; only the first is used"
  | targetHighestWithoutTarget => "target highest needs a target number; it is ignored"
  | targetHighestZero => "target highest must be at least 1; it is ignored"
  | tooManyDiceGroups count =>
    "too many dice groups (" ++ toString count ++ "), the maximum is " ++ toString maxDiceGroups
  | wildDieOutsideTrait => "a wild die can only be used in trait rolls; it is ignored"
  | traitQuantity digits => "trait rolls use a single trait die, got " ++ digits
  | dieNotAllowed die given replacement =>
    die.text ++ " die must be a d4, d6, d8, d10, d12, d20 or d100, got d" ++ toString given ++
      "; the default d" ++ toString replacement ++ " is used"
  | extraTraitTerm text =>
    "trait rolls take a single trait die and modifiers; " ++ inQuotes text ++ " is ignored"

end TabletopDice
