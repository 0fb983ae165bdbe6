import Mathlib.Data.List.Chain
import TabletopDice.Proofs.OrderedChoice

/-!
# The language of terms

The terms that can be written, described apart from how they are read: a numeral, or dice whose
numbers are numerals and in which no bare `!` stands in front of another explosion, since the two
would be one `!!`. Main statement: the grammar of terms reads exactly this language, each text of it
in one way, and the spelling of what is read is the text (`term_language`).
-/

namespace TabletopDice.Written

/-! ## Rows of suffixes -/

/-- Suffixes stay apart unless a bare `!` comes in front of another explosion. -/
theorem apart_iff (xs : List Suffix) :
    Apart xs ↔ xs.IsChain fun x y => x = .explosion false none → y.isExplosion = false := by
  induction xs with
  | nil => exact iff_of_true trivial List.isChain_nil
  | cons x xs ih => rw [Apart, List.isChain_cons, ← ih, endsBefore_suffixChars_iff]

/-! ## The language -/

/-- Whether dice can be written this way: all numbers are numerals, and there is no bare `!` in
front of another explosion. -/
structure WrittenDice.Spellable (w : WrittenDice) : Prop where
  count : ∀ ds ∈ w.count, IsNumeral ds
  sides : IsNumeral w.sides
  numbers : ∀ x ∈ w.suffixes, ∀ ds ∈ x.digits, IsNumeral ds
  bangs : w.suffixes.IsChain fun x y => x = .explosion false none → y.isExplosion = false

theorem WrittenDice.wellSpelled_iff (w : WrittenDice) : w.WellSpelled ↔ w.Spellable := by
  constructor
  · rintro ⟨hcount, hsides, hsuffixes, hapart⟩
    exact ⟨hcount, hsides, hsuffixes, (apart_iff _).1 hapart⟩
  · rintro ⟨hcount, hsides, hnumbers, hbangs⟩
    exact ⟨hcount, hsides, hnumbers, (apart_iff _).2 hbangs⟩

/-- The characters of a term. -/
def WrittenTerm.chars : WrittenTerm → List Char
  | .number ds => ds
  | .dice w => w.chars

/-- Whether a term can be written this way. -/
def WrittenTerm.Spellable : WrittenTerm → Prop
  | .number ds => IsNumeral ds
  | .dice w => w.Spellable

/-- A text is read as a term exactly when it is the spelling of this term. -/
theorem ofText?_eq_some_iff {s : List Char} {t : WrittenTerm} :
    WrittenTerm.ofText? s = some t ↔ s = t.chars ∧ t.Spellable := by
  rcases t with ds | w
  · rw [ofText?_eq_number_iff]
    constructor
    · rintro ⟨rfl, hs⟩
      exact ⟨rfl, hs⟩
    · rintro ⟨rfl, hds⟩
      exact ⟨rfl, hds⟩
  · rw [ofText?_eq_dice_iff, WrittenDice.wellSpelled_iff]
    rfl

/-- A text is no term exactly when it is not the spelling of one. -/
theorem ofText?_eq_none_iff {s : List Char} :
    WrittenTerm.ofText? s = none ↔ ∀ t : WrittenTerm, t.Spellable → t.chars ≠ s := by
  constructor
  · rintro hnone t ht rfl
    exact Option.some_ne_none t ((ofText?_eq_some_iff.2 ⟨rfl, ht⟩).symm.trans hnone)
  · intro h
    rcases hread : WrittenTerm.ofText? s with _ | t
    · rfl
    · obtain ⟨hs, ht⟩ := ofText?_eq_some_iff.1 hread
      exact absurd hs.symm (h t ht)

/-- Two terms that can be written differ in their spellings. -/
theorem WrittenTerm.eq_of_chars_eq {t u : WrittenTerm} (ht : t.Spellable) (hu : u.Spellable)
    (h : t.chars = u.chars) : t = u :=
  Option.some.inj ((ofText?_eq_some_iff.2 ⟨rfl, ht⟩).symm.trans (ofText?_eq_some_iff.2 ⟨h, hu⟩))

/-- The grammar of terms reads numerals, and dice with their quantity, sides and suffixes in order,
where no bare `!` is in front of another explosion. Everything else is no term. What is read is
spelled as the text, and nothing else that can be written is. -/
theorem term_language (s : List Char) :
    Reader.whole Reader.term s = WrittenTerm.ofText? s ∧
      (∀ ds, WrittenTerm.ofText? s = some (.number ds) ↔ s = ds ∧ IsNumeral ds) ∧
      (∀ w, WrittenTerm.ofText? s = some (.dice w) ↔ s = w.chars ∧ w.Spellable) ∧
      (WrittenTerm.ofText? s = none ↔
        ¬ IsNumeral s ∧ ∀ w : WrittenDice, w.Spellable → w.chars ≠ s) ∧
      (∀ t, WrittenTerm.ofText? s = some t → t.chars = s ∧
        ∀ u : WrittenTerm, u.Spellable → u.chars = s → u = t) := by
  refine ⟨Reader.whole_term s, ?_, ?_, ?_, ?_⟩
  · intro ds
    exact ofText?_eq_number_iff
  · intro w
    exact ofText?_eq_some_iff
  · rw [ofText?_eq_none_iff]
    constructor
    · intro h
      exact ⟨fun hs => h (.number s) hs rfl, fun w hw => h (.dice w) hw⟩
    · rintro ⟨hnum, hdice⟩ (ds | w) ht
      · rintro rfl
        exact hnum ht
      · exact hdice w ht
  · intro t ht
    obtain ⟨rfl, hspell⟩ := ofText?_eq_some_iff.1 ht
    exact ⟨rfl, fun u hu hchars => WrittenTerm.eq_of_chars_eq hu hspell hchars⟩

/-- In `2d6!>3!!!kh2dl` the three exclamation marks in a row are a `!!` and a `!`. -/
theorem term_language_of_bangs :
    let w : WrittenDice :=
      ⟨some ['2'], ['6'], [.explosion false (some ['3']), .explosion true none,
        .explosion false none, .selection .keepHigh (some ['2']), .selection .dropLow none]⟩
    WrittenTerm.ofText? "2d6!>3!!!kh2dl".toList = some (.dice w) ∧
      w.chars = "2d6!>3!!!kh2dl".toList ∧ w.Spellable ∧
      ∀ u : WrittenTerm, u.Spellable → u.chars = "2d6!>3!!!kh2dl".toList → u = .dice w := by
  intro w
  have hnumeral : ∀ c : Char, c.isDigit = true → IsNumeral [c] :=
    fun c hc => ⟨by simp, by simpa using hc⟩
  have hspell : w.Spellable := by
    refine ⟨?_, hnumeral '6' (by decide), ?_, ?_⟩
    · rintro _ ⟨⟩
      exact hnumeral '2' (by decide)
    · intro x hx ds hds
      simp only [w, List.mem_cons, List.not_mem_nil, or_false] at hx
      rcases hx with rfl | rfl | rfl | rfl | rfl <;> simp [Suffix.digits] at hds <;> subst hds
      · exact hnumeral '3' (by decide)
      · exact hnumeral '2' (by decide)
    · simp [w, Suffix.isExplosion]
  obtain ⟨-, -, hdice, -, hunique⟩ := term_language "2d6!>3!!!kh2dl".toList
  have hread := (hdice w).2 ⟨rfl, hspell⟩
  exact ⟨hread, rfl, hspell, (hunique (.dice w) hread).2⟩

end TabletopDice.Written
