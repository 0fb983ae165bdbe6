/-!
# A seeded generator

A small generator of pseudo-random words over a 64-bit state, and the reduction of a 32-bit word to
a range without bias.
-/

namespace TabletopDice.Seeded

/-! ## Words -/

/-- What the state grows by with every word. -/
def increment : UInt64 := 0x2d358dccaa6c78a5

/-- What the state is mixed with for the second factor of a word. -/
def twist : UInt64 := 0x8bb84b93962eacc9

/-- The word of a state: the product of the state and its twisted form, with the upper half of the
128 bits folded onto the lower half. -/
def word (s : UInt64) : UInt64 :=
  let product := s.toNat * (s ^^^ twist).toNat
  UInt64.ofNat product ^^^ UInt64.ofNat (product / UInt64.size)

/-- The lower 32 bits of the next word, and the state after it. -/
def next (s : UInt64) : Nat × UInt64 :=
  ((word (s + increment)).toNat % UInt32.size, s + increment)

/-- The next number has 32 bits. -/
theorem next_lt (s : UInt64) : (next s).1 < UInt32.size :=
  Nat.mod_lt _ (by decide)

/-! ## Ranges -/

/-- Scales a 32-bit number to a number below `n`. A number that falls short by its lower half is
replaced by the next one, at most `fuel` times. -/
def scale (n short : Nat) : (fuel : Nat) → Nat → UInt64 → Nat × UInt64
  | 0, r, s => (r * n / UInt32.size, s)
  | fuel + 1, r, s =>
    if r * n % UInt32.size < short then scale n short fuel (next s).1 (next s).2
    else (r * n / UInt32.size, s)

/-- A number below `n`, each equally likely. The state passes through all of its `2 ^ 64` values, so
the replacements end before the fuel does. -/
def below (n : Nat) (s : UInt64) : Nat × UInt64 :=
  scale n ((UInt32.size - n) % n) UInt64.size (next s).1 (next s).2

/-- A number from `lo` to `hi`. The full range of 16 bits needs no scaling. -/
def between (lo hi : Nat) (s : UInt64) : Nat × UInt64 :=
  if lo = 0 ∧ hi = 65535 then ((next s).1 % 65536, (next s).2)
  else
    let p := below (hi - lo + 1) s
    (lo + p.1, p.2)

/-- Scaling stays below the bound. -/
theorem scale_lt {n short fuel r : Nat} {s : UInt64} (hn : 0 < n) (hr : r < UInt32.size) :
    (scale n short fuel r s).1 < n := by
  have small : ∀ {r : Nat}, r < UInt32.size → r * n / UInt32.size < n := by
    intro r hr
    exact Nat.div_lt_of_lt_mul ((Nat.mul_lt_mul_right hn).2 hr)
  induction fuel generalizing r s with
  | zero => exact small hr
  | succ fuel ih =>
    rw [scale]
    split
    · exact ih (next_lt s)
    · exact small hr

/-- A number below a bound is below it. -/
theorem below_lt {n : Nat} (s : UInt64) (hn : 0 < n) : (below n s).1 < n := by
  unfold below
  exact scale_lt hn (next_lt s)

/-- Outside of the full range a number is scaled and moved to the lower end. -/
theorem between_of_not_full {lo hi : Nat} (s : UInt64) (h : ¬ (lo = 0 ∧ hi = 65535)) :
    between lo hi s = (lo + (below (hi - lo + 1) s).1, (below (hi - lo + 1) s).2) := by
  rw [between, if_neg h]

/-- A number asked for from a range lies in it. -/
theorem between_mem {lo hi : Nat} (s : UInt64) (h : lo ≤ hi) :
    lo ≤ (between lo hi s).1 ∧ (between lo hi s).1 ≤ hi := by
  by_cases hfull : lo = 0 ∧ hi = 65535
  · rw [between, if_pos hfull]
    have := Nat.mod_lt (next s).1 (show 0 < 65536 by decide)
    exact ⟨by omega, by omega⟩
  · rw [between_of_not_full s hfull]
    have := below_lt s (show 0 < hi - lo + 1 by omega)
    exact ⟨by omega, by omega⟩

end TabletopDice.Seeded
