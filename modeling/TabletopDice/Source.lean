import TabletopDice.Rolling
import TabletopDice.Seeded

/-!
# Sources of numbers

The rollers that come with the library. Main statement: all but a script stay within the range they
are asked for (`Source.next_mem`).
-/

namespace TabletopDice

/-- A roller with its state. An inverted range is refused in `Rolling.int` before any source is
asked for a number, so that no source has to look at the range again. -/
inductive Source where
  /-- Answers from a list, in order and whatever the range, until the list ends. -/
  | script (answers : List Nat)
  /-- One number again and again, moved to the nearer end of the range when it lies outside. -/
  | constant (n : Nat)
  /-- The upper end of the range. -/
  | highest
  /-- Pseudo-random numbers from a state. -/
  | seeded (state : UInt64)
deriving Repr

namespace Source

/-- The answer of a source and the source after it. -/
def next : Source → (lo hi : Nat) → Option (Nat × Source)
  | script [], _, _ => none
  | script (v :: rest), _, _ => some (v, script rest)
  | constant n, lo, hi => some (max lo (min n hi), constant n)
  | highest, _, hi => some (hi, highest)
  | seeded s, lo, hi =>
    let p := Seeded.between lo hi s
    some (p.1, seeded p.2)

/-- The roller that draws from a source. -/
def roller : Roller Source := ⟨next⟩

/-- Runs a roll with a source. -/
def run {ε α : Type} (s : Source) (t : Rolling ε α) : Run Source ε α :=
  roller.run t s

/-- The answers that a script still has. Other sources have no end. -/
def remaining : Source → Option Nat
  | script answers => some answers.length
  | constant _ | highest | seeded _ => none

/-- Whether a script still has answers. Other sources have no end. -/
def hasMore : Source → Option Bool
  | script answers => some !answers.isEmpty
  | constant _ | highest | seeded _ => none

/-- Whether a source follows the range it is asked for. -/
def keepsRange : Source → Bool
  | script _ => false
  | constant _ | highest | seeded _ => true

/-- A source that keeps the range answers within it, and goes on doing so. -/
theorem next_mem {s s' : Source} {lo hi v : Nat} (hs : s.keepsRange) (h : lo ≤ hi)
    (hv : s.next lo hi = some (v, s')) : lo ≤ v ∧ v ≤ hi ∧ s'.keepsRange := by
  cases s with
  | script answers => simp [keepsRange] at hs
  | constant n =>
    simp only [next, Option.some.injEq, Prod.mk.injEq] at hv
    obtain ⟨rfl, rfl⟩ := hv
    exact ⟨by omega, by omega, rfl⟩
  | highest =>
    simp only [next, Option.some.injEq, Prod.mk.injEq] at hv
    obtain ⟨rfl, rfl⟩ := hv
    exact ⟨h, Nat.le_refl _, rfl⟩
  | seeded st =>
    simp only [next, Option.some.injEq, Prod.mk.injEq] at hv
    obtain ⟨rfl, rfl⟩ := hv
    exact ⟨(Seeded.between_mem st h).1, (Seeded.between_mem st h).2, rfl⟩

end Source

end TabletopDice
