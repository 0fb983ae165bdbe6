import TabletopDice.Proofs.OrderedChoice

/-!
# How tokens are spelled

A text is cut into tokens without losing a character. Main statements: the token that a text starts
with is cut off where it ends (`cut_firstToken`), and every text is its tokens as they are spelled,
one after the other, in which every sign is a token or within a modifier and every separator is a
token (`lossless_tokens`).
-/

namespace TabletopDice.Written

/-! ## Spellings -/

/-- The ways to spell the tokens that have a letter or parenthesis of their own. -/
inductive SpecialSpelling : Token → List Char → Prop
  | targetHighest {ds : List Char} (h : IsNumeral ds) :
    SpecialSpelling (.targetHighest ds) ('t' :: 'h' :: ds)
  | target {ds : List Char} (h : IsNumeral ds) : SpecialSpelling (.target ds) ('t' :: ds)
  | targetNumber {ds : List Char} (h : IsNumeral ds) :
    SpecialSpelling (.target ds) ('t' :: 'n' :: ds)
  | modifier {ds : List Char} (h : IsNumeral ds) :
    SpecialSpelling (.modifier .plus ds) ('(' :: (ds ++ [')']))
  | signedModifier {ds : List Char} (s : Sign) (h : IsNumeral ds) :
    SpecialSpelling (.modifier s ds) ('(' :: s.symbol :: (ds ++ [')']))
  | wildDie {ds : List Char} (h : IsNumeral ds) : SpecialSpelling (.wildDie ds) ('w' :: 'd' :: ds)

/-- The ways to spell a token. -/
inductive Spelling : Token → List Char → Prop
  | special {t : Token} {cs : List Char} (h : SpecialSpelling t cs) : Spelling t cs
  | semicolon : Spelling .separator [';']
  | comma : Spelling .separator [',']
  | sign (s : Sign) : Spelling (.sign s) [s.symbol]
  | text {cs : List Char} (h : cs ≠ []) : Spelling (.text cs) cs

/-- Whether a token with a letter or parenthesis of its own can start where the text does. -/
def StartsSpecial (s : List Char) : Prop :=
  ∃ t cs r, SpecialSpelling t cs ∧ s = cs ++ r

/-- Every token has a character at least. -/
theorem Spelling.ne_nil {t : Token} {cs : List Char} (h : Spelling t cs) : cs ≠ [] := by
  rcases h with h | _ | _ | _ | h
  · rcases h <;> exact List.cons_ne_nil _ _
  · exact List.cons_ne_nil _ _
  · exact List.cons_ne_nil _ _
  · exact List.cons_ne_nil _ _
  · exact h

/-! ## Tokens cut off a text -/

/-- A token cut off a text as some characters, in front of the rest. -/
inductive Cut : Token → List Char → List Char → Prop
  | special {t : Token} {cs r : List Char} (h : SpecialSpelling t cs)
    (hend : ∀ ds, t ∈ [.targetHighest ds, .target ds, .wildDie ds] → NoDigitAhead r) : Cut t cs r
  | separator {c : Char} {r : List Char} (h : c = ';' ∨ c = ',') : Cut .separator [c] r
  | sign (s : Sign) {r : List Char} : Cut (.sign s) [s.symbol] r
  | plain {cs r : List Char} (hne : cs ≠ []) (h : ∀ c ∈ cs, isPlain c) : Cut (.text cs) cs r
  | stray {c : Char} {r : List Char} (h : c ∈ ['t', 'w', '(', ')'])
    (hstart : ¬ StartsSpecial (c :: r)) : Cut (.text [c]) [c] r

/-! ## Tokens with a letter or parenthesis of their own -/

theorem IsNumeral.exists_eq_cons {ds : List Char} (h : IsNumeral ds) :
    ∃ d ds', ds = d :: ds' ∧ d.isDigit := by
  obtain ⟨d, ds', rfl⟩ := List.exists_cons_of_ne_nil h.1
  exact ⟨d, ds', rfl, h.2 d List.mem_cons_self⟩

/-- Digits are read up to where there are no more. -/
theorem exists_of_withDigits {α : Type} {f : List Char → α} {s r : List Char} {a : α}
    (h : withDigits f s = some (a, r)) :
    ∃ ds, IsNumeral ds ∧ a = f ds ∧ s = ds ++ r ∧ NoDigitAhead r := by
  obtain ⟨hne, rfl, rfl⟩ := withDigits_eq_some h
  exact ⟨Numeral.leading s, ⟨hne, fun c hc => Numeral.isDigit_of_mem_leading hc⟩, rfl,
    (Numeral.leading_append_afterLeading s).symm, noDigitAhead_afterLeading s⟩

/-- Digits are read where there are any. -/
theorem withDigits_ne_none {α : Type} (f : List Char → α) {ds : List Char} (h : IsNumeral ds)
    (r : List Char) : withDigits f (ds ++ r) ≠ none := by
  obtain ⟨d, ds', rfl, hd⟩ := h.exists_eq_cons
  rw [withDigits, Numeral.leading, List.cons_append, List.takeWhile_cons_of_pos hd]
  exact Option.some_ne_none _

/-- A modifier is closed by the parenthesis that follows it. -/
theorem closed_eq_some_iff {p : Option (Token × List Char)} {t : Token} {r : List Char} :
    closed p = some (t, r) ↔ p = some (t, ')' :: r) := by
  constructor
  · intro h
    unfold closed at h
    split at h
    · cases h
      rfl
    · cases h
  · rintro rfl
    rfl

theorem cut_of_afterT {s r : List Char} {t : Token} (h : afterT s = some (t, r)) :
    ∃ cs, 't' :: s = cs ++ r ∧ Cut t cs r := by
  unfold afterT at h
  split at h
  all_goals obtain ⟨ds, hds, rfl, rfl, hend⟩ := exists_of_withDigits h
  · exact ⟨_, rfl, .special (.targetHighest hds) fun _ _ => hend⟩
  · exact ⟨_, rfl, .special (.targetNumber hds) fun _ _ => hend⟩
  · exact ⟨_, rfl, .special (.target hds) fun _ _ => hend⟩

/-- A modifier ends with a parenthesis, so that it does not matter what comes next. -/
theorem cut_of_afterParen {s r : List Char} {t : Token} (h : afterParen s = some (t, r)) :
    ∃ cs, '(' :: s = cs ++ r ∧ Cut t cs r := by
  unfold afterParen at h
  split at h
  all_goals
    obtain ⟨ds, hds, rfl, rfl, -⟩ := exists_of_withDigits (closed_eq_some_iff.1 h)
    rw [List.append_cons]
  · exact ⟨_, rfl, .special (.signedModifier .plus hds) (by simp)⟩
  · exact ⟨_, rfl, .special (.signedModifier .minus hds) (by simp)⟩
  · exact ⟨_, rfl, .special (.modifier hds) (by simp)⟩

/-- A token with a letter or parenthesis of its own is cut off as it is spelled. -/
theorem cut_of_special? {s r : List Char} {t : Token} (h : special? s = some (t, r)) :
    ∃ cs, s = cs ++ r ∧ Cut t cs r := by
  unfold special? at h
  split at h
  · exact cut_of_afterT h
  · exact cut_of_afterParen h
  · obtain ⟨ds, hds, rfl, rfl, hend⟩ := exists_of_withDigits h
    exact ⟨_, rfl, .special (.wildDie hds) fun _ _ => hend⟩
  · cases h

theorem afterT_of_isNumeral {ds : List Char} (h : IsNumeral ds) (r : List Char) :
    afterT (ds ++ r) = withDigits .target (ds ++ r) := by
  obtain ⟨d, ds', rfl, hd⟩ := h.exists_eq_cons
  rw [List.cons_append]
  unfold afterT
  split
  · next heq =>
    obtain ⟨rfl, -⟩ := List.cons.inj heq
    exact absurd hd (by decide)
  · next heq =>
    obtain ⟨rfl, -⟩ := List.cons.inj heq
    exact absurd hd (by decide)
  · rfl

theorem closed_withDigits_ne_none {f : List Char → Token} {ds : List Char} (h : IsNumeral ds)
    (r : List Char) : closed (withDigits f (ds ++ ')' :: r)) ≠ none := by
  have hend : NoDigitAhead (')' :: r) := noDigitAhead_cons.2 (by decide)
  have hread : withDigits f (ds ++ ')' :: r) = some (f ds, ')' :: r) := by
    rcases hd : withDigits f (ds ++ ')' :: r) with _ | ⟨t, r'⟩
    · exact absurd hd (withDigits_ne_none f h _)
    · obtain ⟨-, rfl, rfl⟩ := withDigits_eq_some hd
      rw [Numeral.leading_append h.2 hend, Numeral.afterLeading_append h.2 hend]
  rw [hread]
  exact Option.some_ne_none _

theorem afterParen_of_isNumeral {ds : List Char} (h : IsNumeral ds) (r : List Char) :
    afterParen (ds ++ r) = closed (withDigits (.modifier .plus) (ds ++ r)) := by
  obtain ⟨d, ds', rfl, hd⟩ := h.exists_eq_cons
  rw [List.cons_append]
  unfold afterParen
  split
  · next heq =>
    obtain ⟨rfl, -⟩ := List.cons.inj heq
    exact absurd hd (by decide)
  · next heq =>
    obtain ⟨rfl, -⟩ := List.cons.inj heq
    exact absurd hd (by decide)
  · rfl

/-- Where a token with a letter or parenthesis of its own can start, one is read. -/
theorem special?_ne_none {s : List Char} (h : StartsSpecial s) : special? s ≠ none := by
  obtain ⟨t, cs, r, hspell, rfl⟩ := h
  rcases hspell with hds | hds | hds | hds | ⟨s, hds⟩ | hds
  · exact withDigits_ne_none _ hds r
  · show afterT (_ ++ r) ≠ none
    rw [afterT_of_isNumeral hds]
    exact withDigits_ne_none _ hds r
  · exact withDigits_ne_none _ hds r
  · show afterParen (_ ++ [')'] ++ r) ≠ none
    rw [List.append_assoc, afterParen_of_isNumeral hds]
    exact closed_withDigits_ne_none hds r
  · show afterParen (s.symbol :: (_ ++ [')'] ++ r)) ≠ none
    rw [List.append_assoc]
    rcases s <;> exact closed_withDigits_ne_none hds r
  · exact withDigits_ne_none _ hds r

/-! ## The first token -/

/-- Any other token is cut off as it is spelled. -/
theorem cut_ordinary {c : Char} {r : List Char} (h : ¬ StartsSpecial (c :: r)) :
    ∃ cs, c :: r = cs ++ (ordinary c r).2 ∧ Cut (ordinary c r).1 cs (ordinary c r).2 := by
  unfold ordinary
  by_cases hsep : c = ';' ∨ c = ','
  · rw [if_pos hsep]
    exact ⟨[c], rfl, .separator hsep⟩
  rw [if_neg hsep]
  by_cases hplus : c = '+'
  · subst hplus
    exact ⟨_, rfl, .sign .plus⟩
  rw [if_neg hplus]
  by_cases hminus : c = '-'
  · subst hminus
    exact ⟨_, rfl, .sign .minus⟩
  rw [if_neg hminus]
  by_cases hplain : isPlain c = true
  · rw [if_pos hplain]
    refine ⟨c :: r.takeWhile isPlain, ?_, .plain (List.cons_ne_nil _ _) ?_⟩
    · rw [List.cons_append, List.takeWhile_append_dropWhile]
    · intro x hx
      rcases List.mem_cons.1 hx with rfl | hx
      · exact hplain
      · exact List.all_eq_true.1 List.all_takeWhile x hx
  · rw [if_neg hplain]
    refine ⟨[c], rfl, .stray ?_ h⟩
    simp only [isPlain, reserved, Bool.not_eq_true', Bool.not_eq_false, List.contains_iff_mem,
      List.mem_cons, List.not_mem_nil, or_false] at hplain hsep ⊢
    grind

/-- The first token of a text is cut off the text, and the rest is what is left to read. -/
theorem cut_firstToken (c : Char) (r : List Char) :
    ∃ cs, c :: r = cs ++ (firstToken c r).2 ∧ Cut (firstToken c r).1 cs (firstToken c r).2 := by
  unfold firstToken
  rcases h : special? (c :: r) with _ | ⟨t, r'⟩
  · exact cut_ordinary fun hstart => special?_ne_none hstart h
  · exact cut_of_special? h

/-! ## All tokens -/

/-- Tokens with the characters they are spelled with, cut off a text one after the other. -/
inductive CutInto : List (Token × List Char) → List Char → Prop
  | nil : CutInto [] []
  | cons {t : Token} {cs r : List Char} {parts : List (Token × List Char)} (h : Cut t cs r)
    (hrest : CutInto parts r) : CutInto ((t, cs) :: parts) (cs ++ r)

/-- Whether a part of a text stands between the text on its left and the text on its right. -/
def StandsIn (parts : List (Token × List Char)) (left : List Char) (p : Token × List Char)
    (right : List Char) : Prop :=
  ∃ before after, parts = before ++ p :: after ∧
    before.flatMap Prod.snd = left ∧ after.flatMap Prod.snd = right

/-- Every text is cut into its tokens. -/
theorem exists_cutInto (s : List Char) :
    ∃ parts, CutInto parts s ∧ parts.map Prod.fst = tokens s := by
  induction s using tokens.induct with
  | case1 => exact ⟨[], .nil, tokens_nil.symm⟩
  | case2 c r ih =>
    obtain ⟨cs, hchars, hcut⟩ := cut_firstToken c r
    obtain ⟨parts, hparts, htokens⟩ := ih
    refine ⟨((firstToken c r).1, cs) :: parts, ?_, ?_⟩
    · rw [hchars]
      exact .cons hcut hparts
    · rw [List.map_cons, htokens, tokens_cons]

/-- The parts of a text put together are the text. -/
theorem CutInto.flatMap_eq {parts : List (Token × List Char)} {s : List Char}
    (h : CutInto parts s) : parts.flatMap Prod.snd = s := by
  induction h with
  | nil => rfl
  | cons hcut hrest ih => rw [List.flatMap_cons, ih]

/-- Every part is cut off in front of what stands on its right. -/
theorem CutInto.cut {parts : List (Token × List Char)} {s left right cs : List Char} {t : Token}
    (h : CutInto parts s) (hp : StandsIn parts left (t, cs) right) : Cut t cs right := by
  obtain ⟨before, after, rfl, -, rfl⟩ := hp
  induction before generalizing s with
  | nil =>
    rcases h with _ | ⟨hcut, hrest⟩
    rw [hrest.flatMap_eq]
    exact hcut
  | cons q before ih =>
    rcases h with _ | ⟨hcut, hrest⟩
    exact ih hrest

/-- Every character of a text stands in a part of it. -/
theorem exists_standsIn {parts : List (Token × List Char)} {left right : List Char} {c : Char}
    (h : parts.flatMap Prod.snd = left ++ c :: right) :
    ∃ left' t cs ds right', left = left' ++ cs ∧ right = ds ++ right' ∧
      StandsIn parts left' (t, cs ++ c :: ds) right' := by
  induction parts generalizing left with
  | nil => exact absurd h (by simp)
  | cons p parts ih =>
    obtain ⟨t, cs⟩ := p
    rw [List.flatMap_cons] at h
    -- the character comes after the first part or is in it
    have hplace : (∃ ds, left = cs ++ ds ∧ parts.flatMap Prod.snd = ds ++ c :: right) ∨
        ∃ ds, cs = left ++ c :: ds ∧ right = ds ++ parts.flatMap Prod.snd := by
      rcases List.append_eq_append_iff.1 h with h | ⟨_ | ⟨d, ds⟩, rfl, hright⟩
      · exact .inl h
      · exact .inl ⟨[], by rw [List.append_nil, List.append_nil], hright.symm⟩
      · obtain ⟨rfl, rfl⟩ := List.cons.inj hright
        exact .inr ⟨ds, rfl, rfl⟩
    rcases hplace with ⟨ds, rfl, hrest⟩ | ⟨ds, rfl, rfl⟩
    · obtain ⟨left', t', cs', ds', right', rfl, rfl, before, after, rfl, rfl, rfl⟩ := ih hrest
      exact ⟨cs ++ before.flatMap Prod.snd, t', cs', ds', _, (List.append_assoc _ _ _).symm, rfl,
        (t, cs) :: before, after, rfl, rfl, rfl⟩
    · exact ⟨[], t, left, ds, _, rfl, rfl, [], parts, rfl, rfl, rfl⟩

/-! ## What a token is cut off as -/

/-- A character is plain if no other token starts with it. -/
theorem isPlain_iff {c : Char} : isPlain c = true ↔ c ∉ reserved := by
  simp [isPlain]

theorem Cut.spelling {t : Token} {cs r : List Char} (h : Cut t cs r) : Spelling t cs := by
  rcases h with ⟨h, -⟩ | h | s | ⟨hne, -⟩ | _
  · exact .special h
  · rcases h with rfl | rfl
    · exact .semicolon
    · exact .comma
  · exact .sign s
  · exact .text hne
  · exact .text (List.cons_ne_nil _ _)

/-- The digits at the end of a token are all digits there are. -/
theorem Cut.noDigitAhead {t : Token} {ds cs r : List Char} (h : Cut t cs r)
    (ht : t ∈ [.targetHighest ds, .target ds, .wildDie ds]) : NoDigitAhead r := by
  rcases h with ⟨-, hend⟩ | _ | _ | _ | _
  · exact hend ds ht
  all_goals simp at ht

/-- Text has no sign and no separator in it, and from other tokens it has one character at most, and
this where none of them can start. -/
theorem Cut.text {ds cs r : List Char} (h : Cut (.text ds) cs r) :
    (∀ c ∈ ds, c ∉ ['+', '-', ';', ',']) ∧
      ∀ c ∈ ds, c ∈ ['t', 'w', '(', ')'] → ds = [c] ∧ ¬ StartsSpecial (c :: r) := by
  rcases h with ⟨hspell, -⟩ | _ | _ | ⟨-, hplain⟩ | ⟨hstray, hstart⟩
  · cases hspell
  · constructor
    · intro c hc hother
      apply isPlain_iff.1 (hplain c hc)
      simp only [List.mem_cons, List.not_mem_nil, or_false] at hother
      rcases hother with rfl | rfl | rfl | rfl <;> decide
    · intro c hc hother
      exfalso
      apply isPlain_iff.1 (hplain c hc)
      simp only [List.mem_cons, List.not_mem_nil, or_false] at hother
      rcases hother with rfl | rfl | rfl | rfl <;> decide
  · constructor
    · intro c hc
      obtain rfl := List.mem_singleton.1 hc
      simp only [List.mem_cons, List.not_mem_nil, or_false] at hstray
      rcases hstray with rfl | rfl | rfl | rfl <;> decide
    · intro c hc _
      obtain rfl := List.mem_singleton.1 hc
      exact ⟨rfl, hstart⟩

theorem IsNumeral.not_mem {ds : List Char} {c : Char} (h : IsNumeral ds)
    (hc : c.isDigit = false) : c ∉ ds := by
  intro hmem
  rw [h.2 c hmem] at hc
  cases hc

/-- A sign in a token with a letter or parenthesis of its own is the sign of a modifier. -/
theorem SpecialSpelling.of_sign {t : Token} {left right : List Char} {c : Char}
    (h : SpecialSpelling t (left ++ c :: right)) (hc : c = '+' ∨ c = '-') :
    ∃ s ds, s.symbol = c ∧ t = .modifier s ds ∧ left = ['('] ∧ right = ds ++ [')'] := by
  have hdigit : c.isDigit = false := by rcases hc with rfl | rfl <;> decide
  have hparen : c ≠ '(' ∧ c ≠ ')' := by rcases hc with rfl | rfl <;> decide
  generalize hcs : left ++ c :: right = cs at h
  have hmem : c ∈ cs := hcs ▸ List.mem_append_cons_self
  rcases h with hds | hds | hds | hds | ⟨s, hds⟩ | hds
  case signedModifier ds =>
    -- in front of the sign is the parenthesis, and there is no sign among the digits
    rcases left with _ | ⟨x, _ | ⟨y, left⟩⟩
    · exact absurd (List.cons.inj hcs).1 hparen.1
    · obtain ⟨rfl, hrest⟩ := List.cons_eq_cons.1 hcs
      obtain ⟨rfl, rfl⟩ := List.cons_eq_cons.1 hrest
      exact ⟨s, ds, rfl, rfl, rfl, rfl⟩
    · obtain ⟨-, hrest⟩ := List.cons_eq_cons.1 (List.cons_eq_cons.1 hcs).2
      have hlater : c ∈ ds ++ [')'] := hrest ▸ List.mem_append_cons_self
      simp [hds.not_mem hdigit, hparen.2] at hlater
  all_goals
    simp only [List.mem_cons, List.mem_append, List.not_mem_nil, hds.not_mem hdigit, or_false,
      false_or] at hmem
    rcases hc with rfl | rfl <;> simp at hmem

/-- A token with a letter or parenthesis of its own has no separator in it. -/
theorem SpecialSpelling.not_mem {t : Token} {cs : List Char} {c : Char}
    (h : SpecialSpelling t cs) (hc : c = ';' ∨ c = ',') : c ∉ cs := by
  have hdigit : c.isDigit = false := by rcases hc with rfl | rfl <;> decide
  have hsymbol : ∀ s : Sign, c ≠ s.symbol := by
    rcases hc with rfl | rfl <;> rintro (_ | _) <;> decide
  intro hmem
  rcases h with hds | hds | hds | hds | ⟨s, hds⟩ | hds
  all_goals
    simp only [List.mem_cons, List.mem_append, List.not_mem_nil, hds.not_mem hdigit, hsymbol,
      or_false, false_or] at hmem
    rcases hc with rfl | rfl <;> simp at hmem

/-- A sign is a token of its own or the sign of a modifier. -/
theorem Cut.of_sign {t : Token} {left right r : List Char} {c : Char}
    (h : Cut t (left ++ c :: right) r) (hc : c = '+' ∨ c = '-') :
    (∃ s, s.symbol = c ∧ t = .sign s ∧ left = [] ∧ right = []) ∨
      ∃ s ds, s.symbol = c ∧ t = .modifier s ds ∧ left = ['('] ∧ right = ds ++ [')'] := by
  generalize hcs : left ++ c :: right = cs at h
  have hmem : c ∈ cs := hcs ▸ List.mem_append_cons_self
  rcases h with ⟨hspell, -⟩ | hsep | s | ⟨-, hplain⟩ | ⟨hstray, -⟩
  · right
    subst hcs
    exact hspell.of_sign hc
  · exfalso
    obtain rfl := List.mem_singleton.1 hmem
    rcases hc with rfl | rfl <;> simp at hsep
  · left
    rcases List.append_eq_singleton_iff.1 hcs with ⟨rfl, h⟩ | ⟨-, h⟩
    · obtain ⟨rfl, rfl⟩ := List.cons.inj h
      exact ⟨s, rfl, rfl, rfl, rfl⟩
    · cases h
  · exfalso
    apply isPlain_iff.1 (hplain c hmem)
    rcases hc with rfl | rfl <;> decide
  · exfalso
    obtain rfl := List.mem_singleton.1 hmem
    rcases hc with rfl | rfl <;> simp at hstray

/-- A semicolon or comma is a token of its own. -/
theorem Cut.of_separator {t : Token} {left right r : List Char} {c : Char}
    (h : Cut t (left ++ c :: right) r) (hc : c = ';' ∨ c = ',') :
    t = .separator ∧ left = [] ∧ right = [] := by
  generalize hcs : left ++ c :: right = cs at h
  have hmem : c ∈ cs := hcs ▸ List.mem_append_cons_self
  rcases h with ⟨hspell, -⟩ | hsep | s | ⟨-, hplain⟩ | ⟨hstray, -⟩
  · exact absurd hmem (hspell.not_mem hc)
  · rcases List.append_eq_singleton_iff.1 hcs with ⟨rfl, h⟩ | ⟨-, h⟩
    · exact ⟨rfl, rfl, (List.cons.inj h).2⟩
    · cases h
  · exfalso
    obtain rfl := List.mem_singleton.1 hmem
    rcases s <;> simp [Sign.symbol] at hc
  · exfalso
    apply isPlain_iff.1 (hplain c hmem)
    rcases hc with rfl | rfl <;> decide
  · exfalso
    obtain rfl := List.mem_singleton.1 hmem
    rcases hc with rfl | rfl <;> simp at hstray

/-- Every part of a text spells its token. -/
theorem CutInto.spelling {parts : List (Token × List Char)} {s : List Char}
    {p : Token × List Char} (h : CutInto parts s) (hp : p ∈ parts) : Spelling p.1 p.2 := by
  obtain ⟨before, after, hsplit⟩ := List.append_of_mem hp
  exact (h.cut ⟨before, after, hsplit, rfl, rfl⟩).spelling

/-! ## Nothing is lost -/

/-- The grammar of tokens reads every text to its end, and the text is its tokens as they are
spelled, one after the other. Digits at the end of a token are not followed by more of them. Text is
free of signs and separators, and if it has one of the other characters that a token can start with,
it is this character alone, where no such token can start. Every sign is a token or the sign of a
modifier, and every separator is a token. -/
theorem lossless_tokens (s : List Char) :
    Reader.whole Reader.tokenRow s = some (tokens s) ∧
      ∃ parts : List (Token × List Char), parts.map Prod.fst = tokens s ∧
        parts.flatMap Prod.snd = s ∧
        (∀ p ∈ parts, Spelling p.1 p.2 ∧ p.2 ≠ []) ∧
        (∀ left t cs right, StandsIn parts left (t, cs) right →
          (∀ ds, t ∈ [.targetHighest ds, .target ds, .wildDie ds] → NoDigitAhead right) ∧
            ∀ ds, t = .text ds → (∀ c ∈ ds, c ∉ ['+', '-', ';', ',']) ∧
              ∀ c ∈ ds, c ∈ ['t', 'w', '(', ')'] → ds = [c] ∧ ¬ StartsSpecial (c :: right)) ∧
        (∀ left c right, s = left ++ c :: right → c = '+' ∨ c = '-' →
          (∃ sign, sign.symbol = c ∧ StandsIn parts left (.sign sign, [c]) right) ∨
            ∃ sign ds left' right', sign.symbol = c ∧ left = left' ++ ['('] ∧
              right = ds ++ ')' :: right' ∧
              StandsIn parts left' (.modifier sign ds, '(' :: c :: (ds ++ [')'])) right') ∧
        (∀ left c right, s = left ++ c :: right → c = ';' ∨ c = ',' →
          StandsIn parts left (.separator, [c]) right) := by
  refine ⟨Reader.whole_tokenRow s, ?_⟩
  obtain ⟨parts, hparts, htokens⟩ := exists_cutInto s
  have hchars := hparts.flatMap_eq
  refine ⟨parts, htokens, hchars, ?_, ?_, ?_, ?_⟩
  · intro p hp
    have hspell := hparts.spelling hp
    exact ⟨hspell, hspell.ne_nil⟩
  · intro left t cs right hp
    have hcut := hparts.cut hp
    refine ⟨fun ds ht => hcut.noDigitAhead ht, ?_⟩
    rintro ds rfl
    exact hcut.text
  · intro left c right hs hc
    rw [← hchars] at hs
    obtain ⟨left', t, cs, ds, right', rfl, rfl, hp⟩ := exists_standsIn hs
    rcases (hparts.cut hp).of_sign hc with ⟨sign, hsign, rfl, rfl, rfl⟩ |
      ⟨sign, ds', hsign, rfl, rfl, rfl⟩
    · left
      rw [List.append_nil]
      exact ⟨sign, hsign, hp⟩
    · right
      exact ⟨sign, ds', left', right', hsign, rfl, List.append_assoc _ _ _, hp⟩
  · intro left c right hs hc
    rw [← hchars] at hs
    obtain ⟨left', t, cs, ds, right', rfl, rfl, hp⟩ := exists_standsIn hs
    obtain ⟨rfl, rfl, rfl⟩ := (hparts.cut hp).of_separator hc
    rw [List.append_nil]
    exact hp

/-- In `t-(-2);th` the first sign is a token, and the semicolon separates. -/
theorem lossless_tokens_of_sign :
    ∃ parts : List (Token × List Char), parts.map Prod.fst = tokens "t-(-2);th".toList ∧
      parts.flatMap Prod.snd = "t-(-2);th".toList ∧
      StandsIn parts ['t'] (.sign .minus, ['-']) "(-2);th".toList ∧
      StandsIn parts "t-(-2)".toList (.separator, [';']) "th".toList := by
  obtain ⟨-, parts, htokens, hchars, -, -, hsigns, hseparators⟩ :=
    lossless_tokens "t-(-2);th".toList
  refine ⟨parts, htokens, hchars, ?_, ?_⟩
  · rcases hsigns ['t'] '-' "(-2);th".toList rfl (.inr rfl) with ⟨sign, hsign, hp⟩ |
      ⟨sign, ds, left', right', -, hleft, -, -⟩
    · rcases sign
      · exact absurd hsign (by decide)
      · exact hp
    · -- there is no parenthesis in front of the sign
      have hlast := congrArg List.getLast? hleft
      simp at hlast
  · exact hseparators "t-(-2)".toList ';' "th".toList rfl (.inl rfl)

end TabletopDice.Written
