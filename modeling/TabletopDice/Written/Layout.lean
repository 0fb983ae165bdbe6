import TabletopDice.Numeral
import TabletopDice.Text.Blank

/-!
# The layout of roll text

What stands around the expressions: a repetition at the very end, and a comment in double quotes.
-/

namespace TabletopDice.Written

/-! ## Repetition -/

/-- Cuts off an `x` and a number at the end of a text, where blanks may stand before, between and
after them. A missing number, or zero, stands for one; so does a missing `x`. -/
def splitRepetition (s : List Char) : List Char × Nat :=
  let back := s.reverse.dropWhile Text.isBlank
  match (Numeral.afterLeading back).dropWhile Text.isBlank with
  | [] => (s, 1)
  | c :: before =>
    if c = 'x' ∨ c = 'X' then
      (before.reverse, max 1 (Numeral.value (Numeral.leading back).reverse))
    else (s, 1)

/-! ## Comments -/

/-- Whether a character stands between quotes rather than being one. -/
def notQuote (c : Char) : Bool :=
  c != '"'

/-- Takes out the first text in double quotes. Quotes around nothing hold no comment, and a quote
without a partner stays. -/
def splitComment (s : List Char) : List Char × Option String :=
  match s.dropWhile notQuote with
  | [] => (s, none)
  | _ :: afterOpening =>
    match afterOpening.dropWhile notQuote with
    | [] => (s, none)
    | _ :: rest =>
      let comment := afterOpening.takeWhile notQuote
      (s.takeWhile notQuote ++ rest,
        if comment = [] then none else some (String.ofList comment))

end TabletopDice.Written
