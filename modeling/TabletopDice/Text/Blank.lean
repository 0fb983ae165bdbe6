/-!
# Blanks

The characters that count as white space in roll text, and the removal of them
from the ends of a text.
-/

namespace TabletopDice.Text

/-! ## The blank characters -/

/-- The code points with the `White_Space` property. -/
def blankPoints : List Nat :=
  [0x09, 0x0A, 0x0B, 0x0C, 0x0D, 0x20, 0x85, 0xA0, 0x1680,
   0x2000, 0x2001, 0x2002, 0x2003, 0x2004, 0x2005, 0x2006, 0x2007, 0x2008, 0x2009, 0x200A,
   0x2028, 0x2029, 0x202F, 0x205F, 0x3000]

/-- Whether a character is white space. -/
def isBlank (c : Char) : Bool :=
  blankPoints.contains c.toNat

/-- The blanks are the characters whose code point is in the list. -/
theorem isBlank_iff {c : Char} : isBlank c ↔ c.toNat ∈ blankPoints := by
  simp [isBlank]

/-- Between the space and the end of ASCII there are no blanks. -/
theorem isBlank_eq_false_of_between {c : Char} (h : 0x20 < c.toNat) (h' : c.toNat < 0x85) :
    isBlank c = false := by
  have hall : ∀ n ∈ blankPoints, ¬ (0x20 < n ∧ n < 0x85) := by decide
  rw [Bool.eq_false_iff, Ne, isBlank_iff]
  exact fun hc => hall _ hc ⟨h, h'⟩

/-! ## Trimming -/

/-- The text without the blanks at its end. -/
def trimEnd (s : List Char) : List Char :=
  (s.reverse.dropWhile isBlank).reverse

/-- The text without the blanks at its start and end. -/
def trim (s : List Char) : List Char :=
  trimEnd (s.dropWhile isBlank)

@[simp] theorem trimEnd_nil : trimEnd [] = [] := rfl

/-- A text that ends in some other character stays as it is. -/
theorem trimEnd_concat_of_not_isBlank {c : Char} (s : List Char) (h : isBlank c = false) :
    trimEnd (s ++ [c]) = s ++ [c] := by
  simp [trimEnd, h]

/-- Trimming the end comes after trimming the start, and makes no text longer. -/
theorem length_trim_le (s : List Char) : (trim s).length ≤ (s.dropWhile isBlank).length := by
  unfold trim trimEnd
  rw [List.length_reverse]
  exact Nat.le_trans (List.dropWhile_sublist _).length_le (Nat.le_of_eq (List.length_reverse))

theorem isBlank_of_mem_takeWhile {s : List Char} {c : Char} (h : c ∈ s.takeWhile isBlank) :
    isBlank c :=
  List.all_eq_true.1 List.all_takeWhile c h

/-- What is cut off at both ends is blank. -/
theorem exists_append_trim (s : List Char) :
    ∃ before after, (∀ c ∈ before, isBlank c) ∧ (∀ c ∈ after, isBlank c) ∧
      s = before ++ trim s ++ after := by
  have hend : s.dropWhile isBlank =
      trim s ++ ((s.dropWhile isBlank).reverse.takeWhile isBlank).reverse := by
    rw [trim, trimEnd, ← List.reverse_append, List.takeWhile_append_dropWhile, List.reverse_reverse]
  refine ⟨s.takeWhile isBlank, ((s.dropWhile isBlank).reverse.takeWhile isBlank).reverse,
    fun _ => isBlank_of_mem_takeWhile, ?_, ?_⟩
  · intro c hc
    exact isBlank_of_mem_takeWhile (List.mem_reverse.1 hc)
  · rw [List.append_assoc, ← hend, List.takeWhile_append_dropWhile]

end TabletopDice.Text
