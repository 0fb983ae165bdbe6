import TabletopDice.Written.TraitRoll
import TabletopDice.Proofs.TermSpelling

/-!
# How the layout is spelled

What the repetition and the comment of a text are, said without reading from either end. Main
statements: a text is cut as it is repeated (`repeats_iff`) and as it is commented
(`commented_iff`), and what is left of it is read (`Roll.ofText_of_short`,
`TraitRoll.ofText_of_short`).
-/

namespace TabletopDice.Written

/-! ## Repetition -/

/-- A text ends in an `x` and digits, with nothing but blanks before and after the digits. -/
def EndsRepeated (s rest ds : List Char) : Prop :=
  ∃ x before after, (x = 'x' ∨ x = 'X') ∧ (∀ c ∈ before, Text.isBlank c) ∧
    (∀ c ∈ ds, c.isDigit) ∧ (∀ c ∈ after, Text.isBlank c) ∧
    s = rest ++ x :: (before ++ ds ++ after)

/-- The rest of a text and the number of times it is repeated. -/
inductive Repeats (s : List Char) : List Char → Nat → Prop where
  | times {rest ds : List Char} (ending : EndsRepeated s rest ds) :
      Repeats s rest (max 1 (Numeral.value ds))
  | once (plain : ∀ rest ds, ¬ EndsRepeated s rest ds) : Repeats s s 1

/-- The code points of the digits. -/
theorem toNat_of_isDigit {c : Char} (h : c.isDigit) : 48 ≤ c.toNat ∧ c.toNat ≤ 57 := by
  simp only [Char.isDigit, Bool.and_eq_true, decide_eq_true_eq, UInt32.le_iff_toNat_le] at h
  exact h

theorem isBlank_eq_false_of_isDigit {c : Char} (h : c.isDigit) : Text.isBlank c = false := by
  obtain ⟨hlow, hhigh⟩ := toNat_of_isDigit h
  exact Text.isBlank_eq_false_of_between (by omega) (by omega)

/-- An `x` is neither blank nor a digit. -/
theorem not_isBlank_of_cross {x : Char} (h : x = 'x' ∨ x = 'X') :
    Text.isBlank x = false ∧ x.isDigit = false := by
  rcases h with rfl | rfl <;> decide

/-- No digit stands at the start of blanks with an `x` behind them. -/
theorem noDigitAhead_blanks {before r : List Char} {x : Char}
    (hbefore : ∀ c ∈ before, Text.isBlank c) (hx : x.isDigit = false) :
    NoDigitAhead (before ++ x :: r) := by
  cases before with
  | nil => exact noDigitAhead_cons.2 hx
  | cons b bs =>
    have hb : Text.isBlank b := hbefore b (.head _)
    refine noDigitAhead_cons.2 (Bool.eq_false_iff.2 fun h => ?_)
    rw [isBlank_eq_false_of_isDigit h] at hb
    exact absurd hb (by decide)

/-- Read from its back, a text that ends in an `x` and digits starts with blanks, the digits, blanks
and the `x`. -/
theorem dropWhile_reverse_ending {rest before ds after : List Char} {x : Char}
    (hafter : ∀ c ∈ after, Text.isBlank c) :
    (rest ++ x :: (before ++ ds ++ after)).reverse.dropWhile Text.isBlank =
      (ds.reverse ++ (before.reverse ++ x :: rest.reverse)).dropWhile Text.isBlank := by
  have hrev : (rest ++ x :: (before ++ ds ++ after)).reverse =
      after.reverse ++ (ds.reverse ++ (before.reverse ++ x :: rest.reverse)) := by simp
  rw [hrev, List.dropWhile_append_of_pos fun c hc => hafter c (List.mem_reverse.1 hc)]

theorem dropWhile_blanks {before r : List Char} {x : Char}
    (hbefore : ∀ c ∈ before, Text.isBlank c) (hx : Text.isBlank x = false) :
    (before ++ x :: r).dropWhile Text.isBlank = x :: r := by
  rw [List.dropWhile_append_of_pos hbefore, List.dropWhile_cons_of_neg (by simp [hx])]

/-- The ending of a text is found from its back. -/
theorem endsRepeated_iff {s rest ds : List Char} :
    EndsRepeated s rest ds ↔ ∃ x, (x = 'x' ∨ x = 'X') ∧
      (Numeral.afterLeading (s.reverse.dropWhile Text.isBlank)).dropWhile Text.isBlank =
        x :: rest.reverse ∧
      Numeral.leading (s.reverse.dropWhile Text.isBlank) = ds.reverse := by
  constructor
  · rintro ⟨x, before, after, hx, hbefore, hds, hafter, rfl⟩
    obtain ⟨hblank, hdigit⟩ := not_isBlank_of_cross hx
    have hdigits : ∀ c ∈ ds.reverse, c.isDigit := fun c hc => hds c (List.mem_reverse.1 hc)
    have hbefore : ∀ c ∈ before.reverse, Text.isBlank c :=
      fun c hc => hbefore c (List.mem_reverse.1 hc)
    refine ⟨x, hx, ?_⟩
    rw [dropWhile_reverse_ending hafter]
    -- Without digits the blanks on both sides are cut off together.
    cases hrev : ds.reverse with
    | nil =>
      rw [List.nil_append, dropWhile_blanks hbefore hblank]
      simp [Numeral.afterLeading, Numeral.leading, hdigit, hblank]
    | cons d ds' =>
      have hd : Text.isBlank d = false := isBlank_eq_false_of_isDigit (hdigits d (by simp [hrev]))
      rw [List.cons_append, List.dropWhile_cons_of_neg (by simp [hd]), ← List.cons_append, ← hrev,
        Numeral.afterLeading_append hdigits (noDigitAhead_blanks hbefore hdigit),
        Numeral.leading_append hdigits (noDigitAhead_blanks hbefore hdigit)]
      exact ⟨dropWhile_blanks hbefore hblank, rfl⟩
  · rintro ⟨x, hx, hdrop, hlead⟩
    have hds : ∀ c ∈ ds, c.isDigit := by
      intro c hc
      refine Numeral.isDigit_of_mem_leading (s := s.reverse.dropWhile Text.isBlank) ?_
      rw [hlead]
      exact List.mem_reverse.2 hc
    -- the text from its back: blanks, digits, blanks, the cross and the rest
    have hsplit : s.reverse = s.reverse.takeWhile Text.isBlank ++ (ds.reverse ++
        ((Numeral.afterLeading (s.reverse.dropWhile Text.isBlank)).takeWhile Text.isBlank ++
          x :: rest.reverse)) := by
      rw [← hdrop, List.takeWhile_append_dropWhile, ← hlead, Numeral.leading_append_afterLeading,
        List.takeWhile_append_dropWhile]
    refine ⟨x, ((Numeral.afterLeading (s.reverse.dropWhile Text.isBlank)).takeWhile
      Text.isBlank).reverse, (s.reverse.takeWhile Text.isBlank).reverse, hx, ?_, hds, ?_, ?_⟩
    · intro c hc
      exact Text.isBlank_of_mem_takeWhile (List.mem_reverse.1 hc)
    · intro c hc
      exact Text.isBlank_of_mem_takeWhile (List.mem_reverse.1 hc)
    · have h := congrArg List.reverse hsplit
      simpa using h

/-- Cutting off the repetition leaves the rest of the text and the number of times. -/
theorem repeats_iff {s rest : List Char} {n : Nat} :
    Repeats s rest n ↔ splitRepetition s = (rest, n) := by
  constructor
  · intro h
    cases h with
    | times ending =>
      obtain ⟨x, hx, hdrop, hlead⟩ := endsRepeated_iff.1 ending
      simp only [splitRepetition, hdrop, hlead, if_pos hx, List.reverse_reverse]
    | once plain =>
      unfold splitRepetition
      dsimp only
      split
      · rfl
      · next c before hdrop =>
        refine if_neg fun hx => plain before.reverse
          (Numeral.leading (s.reverse.dropWhile Text.isBlank)).reverse ?_
        exact endsRepeated_iff.2 ⟨c, hx, by rw [hdrop, List.reverse_reverse], by simp⟩
  · intro h
    unfold splitRepetition at h
    dsimp only at h
    split at h
    · next hdrop =>
      cases h
      refine .once fun rest' ds hends => ?_
      obtain ⟨x, -, hdrop', -⟩ := endsRepeated_iff.1 hends
      rw [hdrop] at hdrop'
      cases hdrop'
    · next c before hdrop =>
      split at h
      · next hx =>
        cases h
        exact .times (endsRepeated_iff.2 ⟨c, hx, by rw [hdrop, List.reverse_reverse], by simp⟩)
      · next hx =>
        cases h
        refine .once fun rest' ds hends => ?_
        obtain ⟨x, hx', hdrop', -⟩ := endsRepeated_iff.1 hends
        rw [hdrop] at hdrop'
        cases hdrop'
        exact hx hx'

/-- Every text is repeated in some way, since it can be cut. -/
theorem repeats_split (s : List Char) : Repeats s (splitRepetition s).1 (splitRepetition s).2 :=
  repeats_iff.2 rfl

/-! ## Comments -/

/-- A text without its comment, and the comment. -/
inductive Commented : List Char → List Char → Option String → Prop where
  | quoted {before inside after : List Char} (before_open : ∀ c ∈ before, c ≠ '"')
      (inside_quotes : ∀ c ∈ inside, c ≠ '"') :
      Commented (before ++ '"' :: (inside ++ '"' :: after)) (before ++ after)
        (if inside = [] then none else some (String.ofList inside))
  | plain {s : List Char} (unpaired : s.count '"' ≤ 1) : Commented s s none

theorem notQuote_iff {c : Char} : notQuote c ↔ c ≠ '"' := by
  simp [notQuote]

theorem ne_quote_of_mem_takeWhile {s : List Char} {c : Char} (h : c ∈ s.takeWhile notQuote) :
    c ≠ '"' :=
  notQuote_iff.1 (List.all_eq_true.1 List.all_takeWhile c h)

/-- A text with a quote in it is split by the first one. -/
theorem exists_split_of_dropWhile {s r : List Char} {q : Char} (h : s.dropWhile notQuote = q :: r) :
    ∃ before, (∀ c ∈ before, c ≠ '"') ∧ s = before ++ '"' :: r := by
  have hq : notQuote q = false := by
    have hhead := List.head?_dropWhile_not notQuote s
    simpa [h] using hhead
  have hq : q = '"' := by simpa [notQuote] using hq
  refine ⟨s.takeWhile notQuote, ?_, ?_⟩
  · intro c hc
    exact ne_quote_of_mem_takeWhile hc
  · rw [← hq, ← h, List.takeWhile_append_dropWhile]

theorem count_quote_eq_zero {s : List Char} (h : ∀ c ∈ s, c ≠ '"') : s.count '"' = 0 :=
  List.count_eq_zero.2 fun hmem => h _ hmem rfl

theorem count_quote_of_dropWhile_eq_nil {s : List Char} (h : s.dropWhile notQuote = []) :
    s.count '"' = 0 := by
  have hs := List.takeWhile_append_dropWhile (p := notQuote) (l := s)
  rw [h, List.append_nil] at hs
  refine count_quote_eq_zero fun c hc => ?_
  rw [← hs] at hc
  exact ne_quote_of_mem_takeWhile hc

/-- Up to a quote nothing is dropped, and the quote stops it. -/
theorem dropWhile_notQuote {before r : List Char} (h : ∀ c ∈ before, c ≠ '"') :
    (before ++ '"' :: r).dropWhile notQuote = '"' :: r := by
  rw [List.dropWhile_append_of_pos fun c hc => notQuote_iff.2 (h c hc)]
  rfl

theorem takeWhile_notQuote {before r : List Char} (h : ∀ c ∈ before, c ≠ '"') :
    (before ++ '"' :: r).takeWhile notQuote = before := by
  rw [List.takeWhile_append_of_pos fun c hc => notQuote_iff.2 (h c hc)]
  simp [notQuote]

/-- Taking out the comment leaves the text around it. -/
theorem commented_iff {s rest : List Char} {comment : Option String} :
    Commented s rest comment ↔ splitComment s = (rest, comment) := by
  constructor
  · intro h
    cases h with
    | quoted before_open inside_quotes =>
      simp only [splitComment, dropWhile_notQuote before_open, dropWhile_notQuote inside_quotes,
        takeWhile_notQuote before_open, takeWhile_notQuote inside_quotes]
    | plain unpaired =>
      unfold splitComment
      split
      · rfl
      · next hopen =>
        split
        · rfl
        · next hclose =>
          -- Two quotes would have been counted.
          obtain ⟨before, -, rfl⟩ := exists_split_of_dropWhile hopen
          obtain ⟨inside, -, rfl⟩ := exists_split_of_dropWhile hclose
          simp only [List.count_append, List.count_cons_self] at unpaired
          omega
  · intro h
    unfold splitComment at h
    split at h
    · next hopen =>
      cases h
      refine .plain ?_
      rw [count_quote_of_dropWhile_eq_nil hopen]
      exact Nat.zero_le 1
    · next afterOpening hopen =>
      obtain ⟨before, hbefore, rfl⟩ := exists_split_of_dropWhile hopen
      split at h
      · next hclose =>
        cases h
        have hone : (before ++ '"' :: afterOpening).count '"' = 1 := by
          rw [List.count_append, List.count_cons_self, count_quote_eq_zero hbefore,
            count_quote_of_dropWhile_eq_nil hclose]
        exact .plain (Nat.le_of_eq hone)
      · next hclose =>
        obtain ⟨inside, hinside, rfl⟩ := exists_split_of_dropWhile hclose
        rw [takeWhile_notQuote hbefore, takeWhile_notQuote hinside] at h
        cases h
        exact .quoted hbefore hinside

theorem commented_split (s : List Char) :
    Commented s (splitComment s).1 (splitComment s).2 :=
  commented_iff.2 rfl

end TabletopDice.Written

/-! ## Whole texts -/

namespace TabletopDice

open Written

/-- A text that is too long is not read at all. -/
theorem Roll.ofText_of_long {text : String}
    (h : maxTextLength < (Text.trim text.toList).length) :
    ofText text = { raw := text, messages := [.inputTooLong] } :=
  if_pos h

/-- A text that is short enough is read without its repetition and its comment. -/
theorem Roll.ofText_of_short {text : String} {rest body : List Char} {n : Nat}
    {comment : Option String} (short : (Text.trim text.toList).length ≤ maxTextLength)
    (repetition : Repeats (Text.trim text.toList) rest n)
    (commented : Commented (Text.normal rest) body comment) :
    ofText text = { (readBody body n).value with
      comment := comment, raw := text, messages := (readBody body n).notes } := by
  unfold ofText
  dsimp only
  rw [if_neg (Nat.not_lt.2 short), repeats_iff.1 repetition]
  dsimp only
  rw [commented_iff.1 commented]

theorem TraitRoll.ofText_of_long {text : String}
    (h : maxTextLength < (Text.trim text.toList).length) :
    ofText text = { raw := text, messages := [.inputTooLong] } :=
  if_pos h

/-- A trait roll is read without its comment. An `x` has no meaning there. -/
theorem TraitRoll.ofText_of_short {text : String} {body : List Char} {comment : Option String}
    (short : (Text.trim text.toList).length ≤ maxTextLength)
    (commented : Commented (Text.normal (Text.trim text.toList)) body comment) :
    ofText text = { (readTraitBody body).value with
      comment := comment, raw := text, messages := (readTraitBody body).notes } := by
  unfold ofText
  dsimp only
  rw [if_neg (Nat.not_lt.2 short), commented_iff.1 commented]

end TabletopDice
