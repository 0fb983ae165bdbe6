import TabletopDice.Numeral
import TabletopDice.Total

/-!
# Tokens

Roll text without blanks and capital letters, cut into tokens. Every text can be cut: a character
that starts no other token is text. Numbers are kept as they are written.
-/

namespace TabletopDice.Written

/-! ## Tokens -/

/-- A token of roll text. -/
inductive Token where
  /-- `th` and digits. -/
  | targetHighest (digits : List Char)
  /-- `t` or `tn` and digits. -/
  | target (digits : List Char)
  /-- Digits in parentheses, with or without a sign. -/
  | modifier (sign : Sign) (digits : List Char)
  /-- `wd` and digits. -/
  | wildDie (digits : List Char)
  /-- A semicolon or comma. -/
  | separator
  /-- A plus or minus. -/
  | sign (s : Sign)
  /-- Anything else. -/
  | text (chars : List Char)
deriving DecidableEq, Repr

/-! ## The first token of a text -/

/-- Reads digits and makes something of them, if there are any. -/
def withDigits {α : Type} (f : List Char → α) (s : List Char) : Option (α × List Char) :=
  match Numeral.leading s with
  | [] => none
  | digits => some (f digits, Numeral.afterLeading s)

/-- Reads a target number or the number of highest results, after the `t`. -/
def afterT : List Char → Option (Token × List Char)
  | 'h' :: r => withDigits .targetHighest r
  | 'n' :: r => withDigits .target r
  | r => withDigits .target r

/-- Reads a closing parenthesis after a modifier. -/
def closed : Option (Token × List Char) → Option (Token × List Char)
  | some (t, ')' :: r) => some (t, r)
  | _ => none

/-- Reads a modifier after its opening parenthesis. -/
def afterParen : List Char → Option (Token × List Char)
  | '+' :: r => closed (withDigits (.modifier .plus) r)
  | '-' :: r => closed (withDigits (.modifier .minus) r)
  | r => closed (withDigits (.modifier .plus) r)

/-- Reads a token that starts with a letter or parenthesis of its own. -/
def special? : List Char → Option (Token × List Char)
  | 't' :: r => afterT r
  | '(' :: r => afterParen r
  | 'w' :: 'd' :: r => withDigits .wildDie r
  | _ => none

/-- The characters that may start another token. -/
def reserved : List Char := ['t', 'w', '+', '-', ';', ',', '(', ')']

/-- Whether a character can stand in a longer run of text. -/
def isPlain (c : Char) : Bool :=
  !reserved.contains c

/-- Reads a token that starts with `c`, where no special token starts. -/
def ordinary (c : Char) (r : List Char) : Token × List Char :=
  if c = ';' ∨ c = ',' then (.separator, r)
  else if c = '+' then (.sign .plus, r)
  else if c = '-' then (.sign .minus, r)
  else if isPlain c then (.text (c :: r.takeWhile isPlain), r.dropWhile isPlain)
  else (.text [c], r)

/-- Reads the token that starts with `c`. -/
def firstToken (c : Char) (r : List Char) : Token × List Char :=
  (special? (c :: r)).getD (ordinary c r)

/-! ## Tokens leave less to read -/

/-- Reading digits takes the leading ones, of which there is one at least, and leaves what
follows. -/
theorem withDigits_eq_some {α : Type} {f : List Char → α} {s r : List Char} {a : α}
    (h : withDigits f s = some (a, r)) :
    Numeral.leading s ≠ [] ∧ a = f (Numeral.leading s) ∧ r = Numeral.afterLeading s := by
  unfold withDigits at h
  split at h
  · simp at h
  · next hne =>
    simp only [Option.some.injEq, Prod.mk.injEq] at h
    exact ⟨by simpa using hne, h.1.symm, h.2.symm⟩

/-- Reading digits leaves no more than there was. -/
theorem length_withDigits_le {α : Type} {f : List Char → α} {s r : List Char} {a : α}
    (h : withDigits f s = some (a, r)) : r.length ≤ s.length := by
  rw [(withDigits_eq_some h).2.2]
  exact Numeral.length_afterLeading_le s

/-- A closing parenthesis is taken from what is left. -/
theorem length_closed_lt {p : Option (Token × List Char)} {t : Token} {r : List Char}
    (h : closed p = some (t, r)) : ∃ r', p = some (t, r') ∧ r.length < r'.length := by
  unfold closed at h
  split at h
  · simp only [Option.some.injEq, Prod.mk.injEq] at h
    obtain ⟨rfl, rfl⟩ := h
    exact ⟨_, rfl, by simp⟩
  · simp at h

/-- Reading digits and a closing parenthesis leaves no more than there was. -/
theorem length_closed_withDigits_le {f : List Char → Token} {s r : List Char} {t : Token}
    (h : closed (withDigits f s) = some (t, r)) : r.length ≤ s.length := by
  obtain ⟨r', hr', hlt⟩ := length_closed_lt h
  exact Nat.le_trans (Nat.le_of_lt hlt) (length_withDigits_le hr')

/-- Behind the letter of a target number no more is left than there was. -/
theorem length_afterT_le {s r : List Char} {t : Token} (h : afterT s = some (t, r)) :
    r.length ≤ s.length := by
  unfold afterT at h
  split at h
  · exact Nat.le_succ_of_le (length_withDigits_le h)
  · exact Nat.le_succ_of_le (length_withDigits_le h)
  · exact length_withDigits_le h

/-- Behind the parenthesis of a modifier no more is left than there was. -/
theorem length_afterParen_le {s r : List Char} {t : Token} (h : afterParen s = some (t, r)) :
    r.length ≤ s.length := by
  unfold afterParen at h
  split at h
  · exact Nat.le_succ_of_le (length_closed_withDigits_le h)
  · exact Nat.le_succ_of_le (length_closed_withDigits_le h)
  · exact length_closed_withDigits_le h

/-- A token with a letter or parenthesis of its own takes at least this one character. -/
theorem length_special?_lt {s r : List Char} {t : Token} (h : special? s = some (t, r)) :
    r.length < s.length := by
  unfold special? at h
  split at h
  · have := length_afterT_le h
    simp only [List.length_cons]
    omega
  · have := length_afterParen_le h
    simp only [List.length_cons]
    omega
  · have := length_withDigits_le h
    simp only [List.length_cons]
    omega
  · simp at h

/-- Behind its first character any other token leaves no more than there was. -/
theorem length_ordinary_le (c : Char) (r : List Char) : (ordinary c r).2.length ≤ r.length := by
  unfold ordinary
  split
  · exact Nat.le_refl _
  split
  · exact Nat.le_refl _
  split
  · exact Nat.le_refl _
  split
  · exact (List.dropWhile_sublist _).length_le
  · exact Nat.le_refl _

/-- The first token takes at least one character. -/
theorem length_firstToken_lt (c : Char) (r : List Char) :
    (firstToken c r).2.length < (c :: r).length := by
  unfold firstToken
  cases h : special? (c :: r) with
  | none => exact Nat.lt_succ_of_le (length_ordinary_le c r)
  | some p => exact length_special?_lt (show special? (c :: r) = some (p.1, p.2) from h)

/-! ## All tokens -/

/-- The tokens of a text. -/
def tokens : List Char → List Token
  | [] => []
  | c :: r => (firstToken c r).1 :: tokens (firstToken c r).2
termination_by s => s.length
decreasing_by exact length_firstToken_lt c r

@[simp] theorem tokens_nil : tokens [] = [] := by
  rw [tokens]

/-- The tokens of a text are its first token and those of the rest. -/
theorem tokens_cons (c : Char) (r : List Char) :
    tokens (c :: r) = (firstToken c r).1 :: tokens (firstToken c r).2 := by
  rw [tokens]

end TabletopDice.Written
