import TabletopDice.Proofs.TermSpelling
import TabletopDice.Written.Token

/-!
# Grammars of ordered choices

The tokens of roll text and the terms of its expressions, each written down as a grammar: a choice
takes the first alternative that succeeds, an alternative that fails gives back all that it took,
and a repetition goes on for as long as it can. Main statements: the grammar of tokens reads every
text to its end, as the tokens of the text (`whole_tokenRow`), and the grammar of terms reads what
terms are read as (`whole_term`).
-/

namespace TabletopDice.Written

/-! ## Readers -/

/-- A reader takes something off the start of a text, or fails. Of two readers the second one is
tried from the same place when the first one fails. -/
abbrev Reader := StateT (List Char) Option

namespace Reader

variable {α β : Type}

/-- Reads a character that meets a condition. -/
def char (p : Char → Bool) : Reader Char
  | c :: r => if p c then some (c, r) else none
  | [] => none

/-- Reads these characters. -/
def literal : List Char → Reader Unit
  | [] => pure ()
  | c :: cs => do
    let _ ← char (· == c)
    literal cs

/-- What is read by a reader that is used for as long as it succeeds and takes something, with what
is left after it. -/
def repeated (p : Reader α) (s : List Char) : List α × List Char :=
  match p s with
  | none => ([], s)
  | some (a, r) =>
    if _h : r.length < s.length then (a :: (repeated p r).1, (repeated p r).2)
    else ([], s)
termination_by s.length

/-- Reads as often as possible. -/
def many (p : Reader α) : Reader (List α) :=
  fun s => some (repeated p s)

/-- Reads as often as possible, and at least once. -/
def many₁ (p : Reader α) : Reader (List α) := do
  let a ← p
  let as ← many p
  pure (a :: as)

/-- Reads a text to its end. -/
def whole (p : Reader α) (s : List Char) : Option α :=
  match p s with
  | some (a, []) => some a
  | _ => none

/-! ## The grammar of tokens -/

/-- At least one digit. -/
def numeral : Reader (List Char) :=
  many₁ (char Char.isDigit)

def targetHighest : Reader Token := do
  literal ['t', 'h']
  .targetHighest <$> numeral

def target : Reader Token := do
  literal ['t', 'n'] <|> literal ['t']
  .target <$> numeral

def sign (s : Sign) : Reader Sign := do
  literal [s.symbol]
  pure s

def modifier : Reader Token := do
  literal ['(']
  let s ← optional (sign .plus <|> sign .minus)
  let ds ← numeral
  literal [')']
  pure (.modifier (s.getD .plus) ds)

def wildDie : Reader Token := do
  literal ['w', 'd']
  .wildDie <$> numeral

def punctuation : Reader Token :=
  (fun _ => .separator) <$> char (fun c => c = ';' || c = ',') <|>
    .sign <$> sign .plus <|> .sign <$> sign .minus

def plain : Reader Token :=
  .text <$> many₁ (char isPlain)

def stray : Reader Token :=
  (fun c => .text [c]) <$> char fun _ => true

/-- A token. -/
def token : Reader Token :=
  targetHighest <|> target <|> modifier <|> wildDie <|> punctuation <|> plain <|> stray

/-- Tokens, one after the other. -/
def tokenRow : Reader (List Token) :=
  many token

/-! ## The grammar of terms -/

def explosion : Reader Suffix := do
  literal ['!']
  let again ← optional (literal ['!'])
  let t ← optional (do literal ['>']; numeral)
  pure (.explosion again.isSome t)

def kind (k : Kind) : Reader Kind := do
  literal k.symbol.toList
  pure k

def selection : Reader Suffix := do
  let k ← kind .keepHigh <|> kind .keepLow <|> kind .dropHigh <|> kind .dropLow
  let n ← optional numeral
  pure (.selection k n)

def dice : Reader WrittenDice := do
  let count ← optional numeral
  literal ['d']
  let sides ← numeral
  let suffixes ← many (explosion <|> selection)
  pure { count, sides, suffixes }

/-- A term. -/
def term : Reader WrittenTerm :=
  .dice <$> dice <|> .number <$> numeral

/-! ## Readers at work -/

/-- A reader and then another one on what is left. -/
theorem bind_apply (p : Reader α) (f : α → Reader β) (s : List Char) :
    (p >>= f) s = (p s).bind fun x => f x.1 x.2 := rfl

theorem map_apply (f : α → β) (p : Reader α) (s : List Char) :
    (f <$> p) s = (p s).map fun x => (f x.1, x.2) := by
  show ((p s).bind fun x => some (f x.1, x.2)) = _
  cases p s <;> rfl

theorem pure_apply (a : α) (s : List Char) : (pure a : Reader α) s = some (a, s) := rfl

/-- The second reader is tried where the first one fails. -/
theorem orElse_apply (p q : Reader α) (s : List Char) : (p <|> q) s = (p s).or (q s) := by
  show (p s).orElse (fun _ => q s) = _
  cases p s <;> rfl

/-- An optional part is left out where it cannot be read. -/
theorem optional_apply (p : Reader α) (s : List Char) :
    optional p s = some (match p s with
      | some (a, r) => (some a, r)
      | none => (none, s)) := by
  rw [optional, orElse_apply, map_apply, pure_apply]
  cases p s <;> rfl

/-- A character is read if it is one of those that are looked for. -/
theorem char_cons (p : Char → Bool) (c : Char) (r : List Char) :
    char p (c :: r) = if p c then some (c, r) else none := rfl

theorem literal_nil (s : List Char) : literal [] s = some ((), s) := rfl

theorem literal_cons_nil (c : Char) (cs : List Char) : literal (c :: cs) [] = none := rfl

/-- A word is read letter by letter. -/
theorem literal_cons_cons (c x : Char) (cs r : List Char) :
    literal (c :: cs) (x :: r) = if x = c then literal cs r else none := by
  rw [literal, bind_apply, char_cons]
  by_cases h : x = c
  · rw [if_pos h, if_pos (by simpa using h)]
    rfl
  · rw [if_neg h, if_neg (by simpa using h)]
    rfl

/-- Characters are not read where they do not stand. -/
theorem literal_eq_none {cs s : List Char} (h : ∀ r, s ≠ cs ++ r) : literal cs s = none := by
  induction cs generalizing s with
  | nil => exact absurd rfl (h s)
  | cons c cs ih =>
    rcases s with _ | ⟨x, r⟩
    · rfl
    · rw [literal_cons_cons]
      by_cases hx : x = c
      · subst hx
        rw [if_pos rfl]
        apply ih
        rintro r' rfl
        exact h r' rfl
      · rw [if_neg hx]

/-- What begins with another character is not read. -/
theorem literal_bind_of_ne {c x : Char} (h : x ≠ c) (cs r : List Char) (f : Unit → Reader α) :
    (literal (c :: cs) >>= f) (x :: r) = none := by
  rw [bind_apply, literal_cons_cons, if_neg h]
  rfl

/-- A repetition ends where its reader fails. -/
theorem repeated_of_none {p : Reader α} {s : List Char} (h : p s = none) :
    repeated p s = ([], s) := by
  rw [repeated, h]

/-- A repetition goes on behind what its reader takes. -/
theorem repeated_of_some {p : Reader α} {s r : List Char} {a : α} (h : p s = some (a, r))
    (hlt : r.length < s.length) :
    repeated p s = (a :: (repeated p r).1, (repeated p r).2) := by
  rw [repeated, h]
  exact dif_pos hlt

/-- A choice goes on to the second reader if the first one fails. -/
theorem whole_orElse_of_none {p : Reader α} (q : Reader α) {s : List Char} (h : p s = none) :
    whole (p <|> q) s = whole q s := by
  rw [whole, whole, orElse_apply, h, Option.none_or]

/-- A choice does not come back to the second reader once the first one succeeds. -/
theorem whole_orElse_of_some {p : Reader α} (q : Reader α) {s : List Char} {x : α × List Char}
    (h : p s = some x) : whole (p <|> q) s = whole p s := by
  rw [whole, whole, orElse_apply, h, Option.some_or]

/-- A repetition reads a text to its end if nothing is left after it. -/
theorem whole_many (p : Reader α) (s : List Char) :
    whole (many p) s = if (repeated p s).2 = [] then some (repeated p s).1 else none := by
  have hread : many p s = some ((repeated p s).1, (repeated p s).2) := rfl
  rw [whole, hread]
  rcases (repeated p s).2 with _ | ⟨c, r⟩ <;> rfl

/-- Repeated characters are the longest run of them. -/
theorem repeated_char (p : Char → Bool) (s : List Char) :
    repeated (char p) s = (s.takeWhile p, s.dropWhile p) := by
  induction s with
  | nil => exact repeated_of_none rfl
  | cons c r ih =>
    by_cases hc : p c
    · have hread : char p (c :: r) = some (c, r) := if_pos hc
      rw [repeated_of_some hread (Nat.lt_succ_self _), ih, List.takeWhile_cons_of_pos hc,
        List.dropWhile_cons_of_pos hc]
    · have hread : char p (c :: r) = none := if_neg hc
      rw [repeated_of_none hread, List.takeWhile_cons_of_neg hc, List.dropWhile_cons_of_neg hc]

/-- One or more characters are the longest run of them, if there is any. -/
theorem many₁_char_cons (p : Char → Bool) (c : Char) (r : List Char) :
    many₁ (char p) (c :: r) =
      if p c then some (c :: r.takeWhile p, r.dropWhile p) else none := by
  rw [many₁, bind_apply, char_cons]
  split
  · show some (c :: (repeated (char p) r).1, (repeated (char p) r).2) = _
    rw [repeated_char]
  · rfl

/-! ## Tokens as ordered choices -/

/-- A numeral takes all digits that the text starts with. -/
theorem numeral_apply (f : List Char → α) (s : List Char) :
    (f <$> numeral) s = withDigits f s := by
  rw [map_apply]
  cases s with
  | nil => rfl
  | cons c r =>
    rw [numeral, many₁_char_cons, withDigits, Numeral.leading, Numeral.afterLeading]
    split
    · next hc => rw [List.takeWhile_cons_of_pos hc, List.dropWhile_cons_of_pos hc]; rfl
    · next hc => rw [List.takeWhile_cons_of_neg hc]; rfl

theorem withDigits_of_noDigitAhead (f : List Char → α) {s : List Char}
    (h : NoDigitAhead s) : withDigits f s = none := by
  have hlead : Numeral.leading s = [] := @Numeral.leading_append [] s nofun h
  rw [withDigits, hlead]

/-- Behind the `t` a target number may have an `n`, and a number of highest results has an `h`. -/
theorem targetHighest_or_target_t (r : List Char) :
    (targetHighest <|> target) ('t' :: r) = afterT r := by
  simp only [orElse_apply, targetHighest, target, bind_apply, literal_cons_cons, literal_nil,
    numeral_apply]
  rcases r with _ | ⟨c, r⟩
  · simp [literal_cons_nil, afterT]
  · simp only [literal_cons_cons, literal_nil]
    by_cases hh : c = 'h'
    · subst hh
      -- a target number would need a digit in place of the `h`
      have hno : withDigits Token.target ('h' :: r) = none :=
        withDigits_of_noDigitAhead _ (noDigitAhead_cons.2 rfl)
      simp [afterT, hno]
    · by_cases hn : c = 'n'
      · subst hn
        simp [afterT]
      · simp [hh, hn, afterT]

/-- What is read behind the sign of a modifier. -/
theorem modifier_digits (s : Sign) (r : List Char) :
    (do let ds ← numeral; literal [')']; pure (Token.modifier s ds) : Reader Token) r =
      closed (withDigits (.modifier s) r) := by
  rw [← numeral_apply, map_apply, bind_apply]
  rcases numeral r with _ | ⟨ds, r'⟩
  · rfl
  · rcases r' with _ | ⟨c, r'⟩
    · rfl
    · show (literal [')'] (c :: r')).bind _ = _
      rw [literal_cons_cons, literal_nil]
      by_cases hc : c = ')'
      · subst hc
        rfl
      · rw [if_neg hc]
        simp [closed, hc]

/-- The sign of a modifier may be left out. -/
theorem modifier_paren (r : List Char) : modifier ('(' :: r) = afterParen r := by
  have hread : modifier ('(' :: r) = (optional (sign .plus <|> sign .minus) r).bind fun x =>
      closed (withDigits (.modifier (x.1.getD .plus)) x.2) := by
    simp only [← modifier_digits]
    rfl
  rw [hread, optional_apply, orElse_apply]
  rcases r with _ | ⟨c, r⟩
  · rfl
  · simp only [sign, bind_apply, literal_cons_cons, literal_nil, Sign.symbol, pure_apply]
    by_cases hplus : c = '+'
    · subst hplus
      rfl
    · by_cases hminus : c = '-'
      · subst hminus
        rfl
      · simp [hplus, hminus, afterParen]

theorem targetHighest_or_target_of_ne {c : Char} (h : c ≠ 't') (r : List Char) :
    (targetHighest <|> target) (c :: r) = none := by
  have htarget : target (c :: r) = none := by
    rw [target, bind_apply, orElse_apply, literal_cons_cons, literal_cons_cons, if_neg h, if_neg h]
    rfl
  rw [orElse_apply, targetHighest, literal_bind_of_ne h, htarget]
  rfl

theorem wildDie_w (r : List Char) : wildDie ('w' :: r) = special? ('w' :: r) := by
  rw [wildDie, bind_apply, literal_cons_cons, if_pos rfl]
  rcases r with _ | ⟨c, r⟩
  · rfl
  · rw [literal_cons_cons]
    by_cases hd : c = 'd'
    · subst hd
      exact numeral_apply _ r
    · rw [if_neg hd]
      simp [special?, hd]

/-- The alternatives for tokens with a letter or parenthesis of their own. -/
theorem special_apply (c : Char) (r : List Char) :
    (targetHighest <|> target <|> modifier <|> wildDie) (c :: r) = special? (c :: r) := by
  have hassoc : (targetHighest <|> target <|> modifier <|> wildDie) (c :: r) =
      ((targetHighest <|> target) (c :: r)).or ((modifier (c :: r)).or (wildDie (c :: r))) := by
    simp only [orElse_apply, Option.or_assoc]
  rw [hassoc]
  by_cases ht : c = 't'
  · subst ht
    rw [targetHighest_or_target_t, modifier, literal_bind_of_ne (by decide), wildDie,
      literal_bind_of_ne (by decide)]
    exact Option.or_none
  · rw [targetHighest_or_target_of_ne ht, Option.none_or]
    by_cases hparen : c = '('
    · subst hparen
      rw [modifier_paren, wildDie, literal_bind_of_ne (by decide)]
      exact Option.or_none
    · rw [modifier, literal_bind_of_ne hparen, Option.none_or]
      by_cases hw : c = 'w'
      · subst hw
        exact wildDie_w r
      · rw [wildDie, literal_bind_of_ne hw]
        simp [special?, ht, hparen, hw]

/-- The other alternatives take at least one character. -/
theorem ordinary_apply (c : Char) (r : List Char) :
    (punctuation <|> plain <|> stray) (c :: r) = some (ordinary c r) := by
  have hstray : stray (c :: r) = some (.text [c], r) := rfl
  have hplain : plain (c :: r) =
      if isPlain c then some (.text (c :: r.takeWhile isPlain), r.dropWhile isPlain) else none := by
    rw [plain, map_apply, many₁_char_cons]
    split <;> rfl
  have hpunctuation : punctuation (c :: r) =
      if c = ';' ∨ c = ',' then some (.separator, r)
      else if c = '+' then some (.sign .plus, r)
      else if c = '-' then some (.sign .minus, r) else none := by
    simp only [punctuation, orElse_apply, map_apply, char_cons, sign, bind_apply,
      literal_cons_cons, literal_nil, Sign.symbol, pure_apply]
    by_cases hsep : c = ';' ∨ c = ','
    · simp [hsep]
    · by_cases hplus : c = '+'
      · simp [hplus]
      · by_cases hminus : c = '-'
        · simp [hminus]
        · simp [hsep, hplus, hminus]
  rw [orElse_apply, orElse_apply, hpunctuation, hplain, hstray, ordinary]
  split
  · rfl
  · split
    · rfl
    · split
      · rfl
      · split <;> rfl

/-- The grammar of tokens takes the first token off a text. -/
theorem token_cons (c : Char) (r : List Char) : token (c :: r) = some (firstToken c r) := by
  have hsplit : token (c :: r) =
      ((targetHighest <|> target <|> modifier <|> wildDie) (c :: r)).or
        ((punctuation <|> plain <|> stray) (c :: r)) := by
    simp only [token, orElse_apply, Option.or_assoc]
  rw [hsplit, special_apply, ordinary_apply, firstToken]
  cases special? (c :: r) <;> rfl

/-- The grammar of tokens reads every text to its end. -/
theorem whole_tokenRow (s : List Char) : whole tokenRow s = some (tokens s) := by
  have hrow : repeated token s = (tokens s, []) := by
    induction s using tokens.induct with
    | case1 =>
      rw [tokens_nil]
      exact repeated_of_none rfl
    | case2 c r ih =>
      have hstep := repeated_of_some (a := (firstToken c r).1) (r := (firstToken c r).2)
        (token_cons c r) (length_firstToken_lt c r)
      rw [hstep, ih, tokens_cons]
  rw [tokenRow, whole_many, hrow]
  rfl

/-! ## Terms as ordered choices -/

/-- A numeral is the leading run of digits. -/
theorem numeral_eq (s : List Char) :
    numeral s = (digits? s).map fun ds => (ds, Numeral.afterLeading s) := by
  have hread : numeral s = withDigits id s := by
    rw [← numeral_apply, id_map]
  rw [hread, withDigits, digits?]
  cases Numeral.leading s <;> rfl

/-- A numeral may be missing. -/
theorem optional_numeral (s : List Char) :
    optional numeral s = some (digits? s, Numeral.afterLeading s) := by
  have happ := digits?_append_afterLeading s
  rw [optional_apply, numeral_eq]
  cases h : digits? s with
  | none =>
    rw [h, Option.getD_none, List.nil_append] at happ
    rw [happ]
    rfl
  | some ds => rfl

/-- The threshold of an explosion may be left out, and so it is where no digits stand behind its
sign. -/
theorem threshold_apply (b : Bool) (s : List Char) :
    (do let t ← optional (do literal ['>']; numeral); pure (.explosion b t) : Reader Suffix) s =
      some (afterBang b s) := by
  rw [bind_apply, optional_apply, bind_apply]
  rcases s with _ | ⟨c, r⟩
  · rfl
  · rw [literal_cons_cons, literal_nil]
    by_cases hc : c = '>'
    · subst hc
      simp only [if_true, Option.bind_some, numeral_eq, afterBang]
      cases digits? r <;> rfl
    · rw [if_neg hc]
      simp [afterBang, hc, pure_apply]

theorem explosion_bang (r : List Char) :
    explosion ('!' :: r) = firstSuffix? ('!' :: r) := by
  have hread : explosion ('!' :: r) = (optional (literal ['!']) r).bind fun x =>
      some (afterBang x.1.isSome x.2) := by
    simp only [← threshold_apply]
    rfl
  rw [hread, optional_apply]
  rcases r with _ | ⟨c, r⟩
  · rfl
  · rw [literal_cons_cons, literal_nil]
    by_cases hc : c = '!'
    · subst hc
      rfl
    · rw [if_neg hc, firstSuffix?_bang (by simpa using hc)]
      rfl

/-- A selection is its symbol and perhaps a number. -/
theorem selection_apply (s : List Char) :
    selection s =
      ((kind .keepHigh <|> kind .keepLow <|> kind .dropHigh <|> kind .dropLow) s).map fun x =>
        afterKind x.1 x.2 := by
  rw [selection, bind_apply]
  simp only [bind_apply, optional_numeral]
  cases (kind .keepHigh <|> kind .keepLow <|> kind .dropHigh <|> kind .dropLow) s <;> rfl

/-- A kind is not read where its letters do not stand. -/
theorem kind_eq_none {k : Kind} {s : List Char} (h : ∀ r, s ≠ k.symbol.toList ++ r) :
    kind k s = none := by
  rw [kind, bind_apply, literal_eq_none h]
  rfl

theorem selection_bang (r : List Char) : selection ('!' :: r) = none := by
  have hkinds : ∀ k, kind k ('!' :: r) = none := by
    intro k
    apply kind_eq_none
    cases k <;> exact nofun
  simp only [selection_apply, orElse_apply, hkinds, Option.or_none, Option.map_none]

/-- Behind an exclamation mark stands an explosion, and behind the letters of a kind a selection. -/
theorem suffix_apply (s : List Char) : (explosion <|> selection) s = firstSuffix? s := by
  rw [orElse_apply]
  have hexplosion : ∀ k : Kind, ∀ r, explosion (k.symbol.toList ++ r) = none := by
    intro k r
    cases k <;> exact literal_bind_of_ne (by decide) _ _ _
  have hselection : ∀ k : Kind, ∀ r, selection (k.symbol.toList ++ r) = some (afterKind k r) := by
    intro k r
    rw [selection_apply]
    cases k <;> rfl
  by_cases hbang : s.head? = some '!'
  · obtain ⟨r, rfl⟩ := List.head?_eq_some_iff.1 hbang
    rw [explosion_bang, selection_bang, Option.or_none]
  · by_cases hkind : ∃ k : Kind, ∃ r, s = k.symbol.toList ++ r
    · obtain ⟨k, r, rfl⟩ := hkind
      rw [hexplosion, hselection, firstSuffix?_selection]
      rfl
    · have hread : firstSuffix? s = none := by
        rcases h : firstSuffix? s with _ | ⟨x, r⟩
        · rfl
        · -- a suffix that is read has its characters in front
          obtain ⟨rfl, -, -⟩ := firstSuffix?_eq_some_iff.1 h
          rcases x with ⟨b, t⟩ | ⟨k, n⟩
          · exact absurd (by cases b <;> rfl) hbang
          · exact absurd ⟨k, n.getD [] ++ r, List.append_assoc _ _ _⟩ hkind
      have hkinds : ∀ k, kind k s = none := by
        intro k
        apply kind_eq_none
        intro r hr
        exact hkind ⟨k, r, hr⟩
      have hliteral : literal ['!'] s = none := by
        apply literal_eq_none
        rintro r rfl
        exact hbang rfl
      rw [hread, explosion, bind_apply, hliteral, selection_apply]
      simp only [orElse_apply, hkinds]
      rfl

/-- A row of suffixes is read if it goes up to the end of the text. -/
theorem suffixes?_eq (s : List Char) :
    suffixes? s = whole (many (explosion <|> selection)) s := by
  rw [whole_many]
  fun_induction suffixes? s with
  | case1 => rw [repeated_of_none (suffix_apply [])]; rfl
  | case2 c r x rest hx ih =>
    have hstep := repeated_of_some ((suffix_apply (c :: r)).trans hx) (length_firstSuffix?_lt hx)
    rw [ih, hstep]
    split <;> rfl
  | case3 c r hx =>
    rw [repeated_of_none ((suffix_apply (c :: r)).trans hx)]
    rfl

/-- Dice are read from a `d` behind their quantity, if they have one. -/
theorem dice_apply (s : List Char) :
    dice s = ((literal ['d'] (Numeral.afterLeading s)).bind fun x =>
      (digits? x.2).map fun sides =>
        (⟨digits? s, sides, (repeated (explosion <|> selection) (Numeral.afterLeading x.2)).1⟩,
          (repeated (explosion <|> selection) (Numeral.afterLeading x.2)).2)) := by
  rw [dice, bind_apply, optional_numeral, Option.bind_some]
  simp only [bind_apply, numeral_eq]
  congr 1
  funext x
  cases digits? x.2 <;> rfl

/-- A number is read to the end if nothing is behind its digits. -/
theorem whole_number (s : List Char) :
    whole (WrittenTerm.number <$> numeral) s =
      match Numeral.afterLeading s with
      | [] => (digits? s).map .number
      | _ => none := by
  rw [whole, map_apply, numeral_eq]
  cases digits? s <;> cases Numeral.afterLeading s <;> rfl

/-- The grammar of terms reads what a term is read as. -/
theorem whole_term (s : List Char) : whole term s = WrittenTerm.ofText? s := by
  unfold WrittenTerm.ofText?
  -- without dice the grammar reads a number, with dice it must read them to the end
  have hnumber : dice s = none →
      whole term s = whole (WrittenTerm.number <$> numeral) s := by
    intro h
    apply whole_orElse_of_none
    rw [map_apply, h]
    rfl
  rcases h : Numeral.afterLeading s with _ | ⟨c, r⟩
  · have hdice : dice s = none := by rw [dice_apply, h]; rfl
    rw [hnumber hdice, whole_number, h]
  · by_cases hc : c = 'd'
    · subst hc
      have hread : dice s = (digits? r).map fun sides =>
          (⟨digits? s, sides, (repeated (explosion <|> selection) (Numeral.afterLeading r)).1⟩,
            (repeated (explosion <|> selection) (Numeral.afterLeading r)).2) := by
        rw [dice_apply, h, literal_cons_cons, if_pos rfl]
        rfl
      show _ = (afterD (digits? s) r).map WrittenTerm.dice
      rcases hsides : digits? r with _ | sides
      · rw [hsides] at hread
        rw [hnumber hread, whole_number, h, afterD, hsides]
        rfl
      · rw [hsides] at hread
        have hmap := map_apply WrittenTerm.dice dice s
        rw [hread] at hmap
        rw [term, whole_orElse_of_some _ hmap, whole, hmap, afterD, hsides, suffixes?_eq,
          whole_many]
        rcases (repeated (explosion <|> selection) (Numeral.afterLeading r)).2 with _ | ⟨x, r'⟩ <;>
          rfl
    · have hdice : dice s = none := by
        rw [dice_apply, h, literal_cons_cons, if_neg hc]
        rfl
      rw [hnumber hdice, whole_number, h]
      simp [hc]

end Reader

end TabletopDice.Written
