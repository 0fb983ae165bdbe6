import TabletopDice.Message
import TabletopDice.Numeral

/-!
# Values with notes

A value together with the messages that came up while it was found, in order. Numbers are read here
too, since a number that is too large leaves a message.
-/

namespace TabletopDice

/-- A value and the messages on the way to it. -/
structure Noted (α : Type) where
  value : α
  notes : List Message := []
deriving DecidableEq, Repr

namespace Noted

variable {α β : Type}

/-! ## Notes in order -/

instance : Monad Noted where
  pure a := ⟨a, []⟩
  bind x f := ⟨(f x.value).value, x.notes ++ (f x.value).notes⟩

@[simp] theorem value_pure (a : α) : (pure a : Noted α).value = a := rfl

@[simp] theorem notes_pure (a : α) : (pure a : Noted α).notes = [] := rfl

@[simp] theorem value_bind (x : Noted α) (f : α → Noted β) :
    (x >>= f).value = (f x.value).value := rfl

@[simp] theorem notes_bind (x : Noted α) (f : α → Noted β) :
    (x >>= f).notes = x.notes ++ (f x.value).notes := rfl

instance : LawfulMonad Noted :=
  LawfulMonad.mk' _
    (fun x => by cases x; simp [Functor.map])
    (fun _ _ => by simp [bind, pure])
    (fun _ _ _ => by simp [bind])

/-- Without notes there is nothing but the value. -/
theorem eq_pure_of_notes {x : Noted α} (h : x.notes = []) : x = pure x.value := by
  obtain ⟨value, notes⟩ := x
  subst h
  rfl

/-- A message on its own. -/
def note (m : Message) : Noted Unit := ⟨(), [m]⟩

/-- No value, for a reason. -/
def refuse (m : Message) : Noted (Option α) := ⟨none, [m]⟩

/-- Goes on with a value if there is one. -/
def chain (x : Noted (Option α)) (f : α → Noted (Option β)) : Noted (Option β) := do
  match ← x with
  | some a => f a
  | none => pure none

@[simp] theorem notes_note (m : Message) : (note m).notes = [m] := rfl

@[simp] theorem value_map (f : α → β) (x : Noted α) : (f <$> x).value = f x.value := rfl

@[simp] theorem notes_map (f : α → β) (x : Noted α) : (f <$> x).notes = x.notes := by
  rw [map_eq_pure_bind, notes_bind, notes_pure, List.append_nil]

/-- A value found without a message is only passed on. -/
theorem pure_chain (a : α) (f : α → Noted (Option β)) :
    (pure (some a) : Noted _).chain f = f a := by
  simp [chain]

/-- A refusal stands, whatever would have followed. -/
theorem refuse_chain (m : Message) (f : α → Noted (Option β)) :
    (refuse m : Noted (Option α)).chain f = refuse m := rfl

/-! ## Numbers -/

/-- The largest number that roll text can name. -/
def maxNumber : Nat := 4294967295

/-- The number that digits stand for, if it is not too large. -/
def number (digits : List Char) : Noted (Option Nat) :=
  if Numeral.value digits ≤ maxNumber then pure (some (Numeral.value digits))
  else refuse (.numberTooLarge (String.ofList digits))

/-- Going on with a number: it is refused if it is too large, and used otherwise. -/
theorem number_chain (digits : List Char) (f : Nat → Noted (Option α)) :
    (number digits).chain f =
      if Numeral.value digits ≤ maxNumber then f (Numeral.value digits)
      else refuse (.numberTooLarge (String.ofList digits)) := by
  unfold number
  split
  · rw [pure_chain]
  · rw [refuse_chain]

/-- A number that must fulfil a condition is taken silently exactly when it does. -/
theorem notes_ite_eq_nil_iff {p : Prop} [Decidable p] (a : α) (m : Message) :
    (if p then pure (some a) else refuse m : Noted (Option α)).notes = [] ↔ p := by
  split <;> simp_all [refuse]

/-- A number that is written and must fulfil a condition is taken silently exactly when it does. -/
theorem notes_number_chain_ite_eq_nil_iff {p : Nat → Prop} [DecidablePred p] {digits : List Char}
    (hp : ∀ n, p n → n ≤ maxNumber) (a : Nat → α) (m : Nat → Message) :
    ((number digits).chain fun n =>
      if p n then pure (some (a n)) else refuse (m n)).notes = [] ↔ p (Numeral.value digits) := by
  rw [number_chain]
  split
  · exact notes_ite_eq_nil_iff _ _
  · next hlarge =>
    constructor
    · intro h
      simp [refuse] at h
    · intro h
      exact absurd (hp _ h) hlarge

/-- A number that is written and fulfils its condition is taken. -/
theorem number_chain_ite_of {p : Nat → Prop} [DecidablePred p] {digits : List Char}
    (hp : ∀ n, p n → n ≤ maxNumber) (a : Nat → α) (m : Nat → Message)
    (h : p (Numeral.value digits)) :
    ((number digits).chain fun n => if p n then pure (some (a n)) else refuse (m n)) =
      pure (some (a (Numeral.value digits))) := by
  rw [number_chain, if_pos (hp _ h), if_pos h]

/-- A number as a total, if it is not too large. -/
def asTotal (n : Nat) : Noted (Option Int) :=
  if (n : Int) ≤ maxTotal then pure (some n)
  else refuse (.numberTooLarge (toString n))

/-- The total that digits stand for, if it is not too large. -/
def total (digits : List Char) : Noted (Option Int) :=
  (number digits).chain asTotal

end Noted

end TabletopDice
