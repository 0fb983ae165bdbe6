import TabletopDice.Numeral
import TabletopDice.Selection

/-!
# Terms as written

The terms of an expression before any of their numbers are checked. A term is a run of digits, or
dice: an optional quantity, a `d`, the sides, and suffixes in any order.
-/

namespace TabletopDice.Written

/-! ## Terms -/

/-- A suffix of a group of dice. -/
inductive Suffix where
  /-- `!` or `!!`, and an optional threshold after `>`. -/
  | explosion (recursive : Bool) (threshold : Option (List Char))
  /-- The letters of a kind of selection, and an optional count. -/
  | selection (kind : Kind) (count : Option (List Char))
deriving DecidableEq, Repr

/-- A group of dice as written. -/
structure WrittenDice where
  count : Option (List Char)
  sides : List Char
  suffixes : List Suffix
deriving DecidableEq, Repr

/-- A term as written. -/
inductive WrittenTerm where
  | number (digits : List Char)
  | dice (d : WrittenDice)
deriving DecidableEq, Repr

/-! ## Suffixes -/

/-- The digits that a text starts with, if there are any. -/
def digits? (s : List Char) : Option (List Char) :=
  match Numeral.leading s with
  | [] => none
  | digits => some digits

/-- Reads the threshold of an explosion. -/
def afterBang (recursive : Bool) : List Char → Suffix × List Char
  | '>' :: r =>
    match digits? r with
    | some digits => (.explosion recursive (some digits), Numeral.afterLeading r)
    | none => (.explosion recursive none, '>' :: r)
  | r => (.explosion recursive none, r)

/-- Reads the count of a selection. -/
def afterKind (kind : Kind) (s : List Char) : Suffix × List Char :=
  (.selection kind (digits? s), Numeral.afterLeading s)

/-- Reads the first suffix of a text. -/
def firstSuffix? : List Char → Option (Suffix × List Char)
  | '!' :: '!' :: r => some (afterBang true r)
  | '!' :: r => some (afterBang false r)
  | 'k' :: 'h' :: r => some (afterKind .keepHigh r)
  | 'k' :: 'l' :: r => some (afterKind .keepLow r)
  | 'd' :: 'h' :: r => some (afterKind .dropHigh r)
  | 'd' :: 'l' :: r => some (afterKind .dropLow r)
  | _ => none

/-- The threshold of an explosion is taken from what is left. -/
theorem length_afterBang_le (recursive : Bool) (s : List Char) :
    (afterBang recursive s).2.length ≤ s.length := by
  unfold afterBang
  split
  · next r =>
    split
    · exact Nat.le_succ_of_le (Numeral.length_afterLeading_le r)
    · exact Nat.le_refl _
  · exact Nat.le_refl _

/-- A suffix takes at least one character. -/
theorem length_firstSuffix?_lt {s r : List Char} {x : Suffix}
    (h : firstSuffix? s = some (x, r)) : r.length < s.length := by
  unfold firstSuffix? at h
  split at h
  all_goals simp only [Option.some.injEq, reduceCtorEq] at h
  · next r' =>
    have := length_afterBang_le true r'
    simp_all only [List.length_cons]
    omega
  · next r' _ =>
    have := length_afterBang_le false r'
    simp_all only [List.length_cons]
    omega
  all_goals
    rw [afterKind, Prod.mk.injEq] at h
    rw [← h.2]
    refine Nat.lt_of_le_of_lt (Numeral.length_afterLeading_le _) ?_
    simp only [List.length_cons]
    omega

/-- Reads a text that consists of suffixes. -/
def suffixes? (s : List Char) : Option (List Suffix) :=
  match s with
  | [] => some []
  | c :: r =>
    match _h : firstSuffix? (c :: r) with
    | some (x, rest) => (suffixes? rest).map (x :: ·)
    | none => none
termination_by s.length
decreasing_by exact length_firstSuffix?_lt _h

/-! ## Reading a term -/

/-- Reads the sides and suffixes of a group of dice. -/
def afterD (count : Option (List Char)) (s : List Char) : Option WrittenDice := do
  let sides ← digits? s
  let suffixes ← suffixes? (Numeral.afterLeading s)
  pure { count, sides, suffixes }

/-- Reads a text that is a term from its first character to its last. -/
def WrittenTerm.ofText? (s : List Char) : Option WrittenTerm :=
  match Numeral.afterLeading s with
  | [] => (digits? s).map .number
  | 'd' :: r => (afterD (digits? s) r).map .dice
  | _ => none

end TabletopDice.Written
