/-!
# What can go wrong with dice

The causes of failure when dice are drawn, dropped or totalled, and the text of each. Computations
that can fail are put together from steps, so the rules about their steps are here as well.
-/

namespace TabletopDice

/-- A failure of a single group of dice. -/
inductive DiceError where
  /-- A number was asked for from a range whose lower end lies above its upper end. -/
  | invalidRange (lo hi : Nat)
  /-- A total left its range. -/
  | overflow
  /-- A die was dropped twice. -/
  | alreadyDropped
  /-- An exchange was asked for with a place beyond the end of a sequence. -/
  | noSuchPlace (place size : Nat)
deriving DecidableEq, Repr

/-- The text of a failure. -/
def DiceError.text : DiceError → String
  | invalidRange lo hi =>
    "invalid random integer range: min " ++ toString lo ++ " is greater than max " ++ toString hi
  | overflow => "integer overflow"
  | alreadyDropped =>
    "marking a die as dropped that has already been marked as dropped by another modifier"
  | noSuchPlace place size =>
    "place " ++ toString place ++ " is outside of a sequence of " ++ toString size

/-! ## Steps that can fail -/

section Steps

variable {ε α β : Type} {x : Except ε α}

/-- Two steps succeed if the first one does, and the second one from there. -/
theorem bind_eq_ok_iff {f : α → Except ε β} {b : β} :
    (x >>= f) = .ok b ↔ ∃ a, x = .ok a ∧ f a = .ok b := by
  constructor
  · intro h
    cases x with
    | error e => cases h
    | ok a => exact ⟨a, rfl, h⟩
  · rintro ⟨a, rfl, h⟩
    exact h

/-- Two steps fail if the first one does, or the second one after it. -/
theorem bind_eq_error_iff {f : α → Except ε β} {e : ε} :
    (x >>= f) = .error e ↔ x = .error e ∨ ∃ a, x = .ok a ∧ f a = .error e := by
  constructor
  · intro h
    cases x with
    | error e' =>
      cases h
      exact .inl rfl
    | ok a => exact .inr ⟨a, rfl, h⟩
  · rintro (rfl | ⟨a, rfl, h⟩)
    · rfl
    · exact h

/-- A step whose value is changed succeeds if the step does. -/
theorem map_eq_ok_iff {f : α → β} {b : β} : x.map f = .ok b ↔ ∃ a, x = .ok a ∧ f a = b := by
  constructor
  · intro h
    cases x with
    | error e => cases h
    | ok a =>
      cases h
      exact ⟨a, rfl, rfl⟩
  · rintro ⟨a, rfl, rfl⟩
    rfl

end Steps

end TabletopDice
