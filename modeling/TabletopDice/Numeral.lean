/-!
# Numerals

Runs of ASCII digits and the numbers they stand for. Leading zeros are allowed, and a numeral may
be of any length.
-/

namespace TabletopDice.Numeral

/-! ## The digits at the start of a text -/

/-- The digits that a text starts with. -/
def leading (s : List Char) : List Char :=
  s.takeWhile Char.isDigit

/-- The text after the digits that it starts with. -/
def afterLeading (s : List Char) : List Char :=
  s.dropWhile Char.isDigit

/-- The two parts make up the text. -/
theorem leading_append_afterLeading (s : List Char) : leading s ++ afterLeading s = s :=
  List.takeWhile_append_dropWhile

/-- The first part consists of digits. -/
theorem isDigit_of_mem_leading {s : List Char} {c : Char} (h : c ∈ leading s) : c.isDigit := by
  have hall := List.all_takeWhile (p := Char.isDigit) (l := s)
  exact List.all_eq_true.1 hall c h

/-- The second part does not start with a digit. -/
theorem isDigit_head_afterLeading (s : List Char) :
    ∀ c ∈ (afterLeading s).head?, c.isDigit = false := by
  intro c hc
  have := List.head?_dropWhile_not Char.isDigit s
  rw [Option.mem_def] at hc
  unfold afterLeading at hc
  simpa [hc] using this

/-- Reading digits never makes a text longer. -/
theorem length_afterLeading_le (s : List Char) : (afterLeading s).length ≤ s.length :=
  (List.dropWhile_sublist _).length_le

/-- Digits followed by something else are read back whole. -/
theorem leading_append {ds r : List Char} (h : ∀ c ∈ ds, c.isDigit)
    (hr : ∀ c ∈ r.head?, c.isDigit = false) : leading (ds ++ r) = ds := by
  induction ds with
  | nil =>
    cases r with
    | nil => rfl
    | cons c r => simp [leading, hr c (by simp)]
  | cons d ds ih =>
    have hd : d.isDigit := h d (by simp)
    have := ih fun c hc => h c (by simp [hc])
    simp_all [leading]

/-- What follows the digits is left over. -/
theorem afterLeading_append {ds r : List Char} (h : ∀ c ∈ ds, c.isDigit)
    (hr : ∀ c ∈ r.head?, c.isDigit = false) : afterLeading (ds ++ r) = r := by
  have := leading_append_afterLeading (ds ++ r)
  rw [leading_append h hr] at this
  exact List.append_cancel_left this

/-! ## Values -/

/-- The number that a run of digits stands for. -/
def value (ds : List Char) : Nat :=
  Nat.ofDigitChars 10 ds 0

/-- Leading zeros change nothing. -/
theorem value_cons_zero (ds : List Char) : value ('0' :: ds) = value ds := by
  simp [value, Nat.ofDigitChars_cons]

/-- The digits of a number, without leading zeros. -/
def ofNat (n : Nat) : List Char :=
  Nat.toDigits 10 n

/-- A number is read back from its digits. -/
@[simp] theorem value_ofNat (n : Nat) : value (ofNat n) = n :=
  Nat.ofDigitChars_toDigits (by decide) (by decide)

/-- The digits of a number are digits. -/
theorem isDigit_of_mem_ofNat {n : Nat} {c : Char} (h : c ∈ ofNat n) : c.isDigit :=
  Nat.isDigit_of_mem_toDigits (by decide) (by decide) h

/-- Every number has a digit. -/
theorem ofNat_ne_nil (n : Nat) : ofNat n ≠ [] :=
  Nat.toDigits_ne_nil

end TabletopDice.Numeral
