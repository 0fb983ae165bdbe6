import TabletopDice.Proofs.BlanksAndCase
import TabletopDice.Proofs.OpaqueComment
import TabletopDice.Proofs.OutlineParts
import TabletopDice.Proofs.TokenSpelling

/-!
# Replacing a sign

What becomes of a text if the sign of one of its terms is replaced by the other one. Nothing else
changes: neither the tokens around the sign (`exists_sign_of_tokens`), nor the expressions but for
the sign itself (`exists_sign_of_expressions`), nor what is noted if there is text behind the sign
(`notes_ofTokens_sign`). The sign can be found in the normal text with its comment
(`Commented.exists_sign`) and in the text as it was given (`exists_sign_of_normal`).
-/

namespace TabletopDice

namespace Written

/-! ## Texts with a sign in them -/

/-- What is read of a text and what is left of it, with more text behind it. -/
def thenText {α : Type} (back : List Char) (p : α × List Char) : α × List Char :=
  (p.1, p.2 ++ back)

section

variable {p : Char → Bool} {x : Char} (hx : p x = false)

include hx

theorem takeWhile_append_cons (l r : List Char) : (l ++ x :: r).takeWhile p = l.takeWhile p := by
  induction l with
  | nil => exact List.takeWhile_cons_of_neg (by simp [hx])
  | cons c l ih => simp only [List.cons_append, List.takeWhile_cons, ih]

theorem dropWhile_append_cons (l r : List Char) :
    (l ++ x :: r).dropWhile p = l.dropWhile p ++ x :: r := by
  induction l with
  | nil => exact List.dropWhile_cons_of_neg (by simp [hx])
  | cons c l ih =>
    simp only [List.cons_append, List.dropWhile_cons, ih]
    split <;> rfl

end

section

variable (l r : List Char) (s : Sign)

/-- Digits are read up to a sign. -/
theorem withDigits_append_sign {α : Type} (f : List Char → α) :
    withDigits f (l ++ s.symbol :: r) = (withDigits f l).map (thenText (s.symbol :: r)) := by
  have hdigit : s.symbol.isDigit = false := by cases s <;> rfl
  unfold withDigits Numeral.leading Numeral.afterLeading
  rw [takeWhile_append_cons hdigit, dropWhile_append_cons hdigit]
  cases l.takeWhile Char.isDigit <;> rfl

theorem afterT_append_sign :
    afterT (l ++ s.symbol :: r) = (afterT l).map (thenText (s.symbol :: r)) := by
  match l with
  | [] =>
    cases s
    · exact withDigits_append_sign [] r .plus Token.target
    · exact withDigits_append_sign [] r .minus Token.target
  | c :: l =>
    rw [List.cons_append]
    by_cases hh : c = 'h'
    · subst hh
      exact withDigits_append_sign l r s Token.targetHighest
    by_cases hn : c = 'n'
    · subst hn
      exact withDigits_append_sign l r s Token.target
    · have hother : ∀ l, afterT (c :: l) = withDigits .target (c :: l) := by
        intro l
        unfold afterT
        split <;> simp_all
      rw [hother, hother]
      exact withDigits_append_sign (c :: l) r s Token.target

/-- A sign does not close a modifier. -/
theorem closed_append_sign (read : Option (Token × List Char)) :
    closed (read.map (thenText (s.symbol :: r))) =
      (closed read).map (thenText (s.symbol :: r)) := by
  rcases read with _ | ⟨t, _ | ⟨c, l⟩⟩
  · rfl
  · cases s <;> rfl
  · by_cases hc : c = ')'
    · subst hc
      rfl
    · simp [closed, thenText, hc]

theorem afterParen_append_sign {l : List Char} (hl : l ≠ []) :
    afterParen (l ++ s.symbol :: r) = (afterParen l).map (thenText (s.symbol :: r)) := by
  obtain ⟨c, l, rfl⟩ := List.exists_cons_of_ne_nil hl
  rw [List.cons_append]
  have hread : ∀ m l, closed (withDigits (.modifier m) (l ++ s.symbol :: r)) =
      (closed (withDigits (.modifier m) l)).map (thenText (s.symbol :: r)) := by
    intro m l
    rw [withDigits_append_sign, closed_append_sign]
  by_cases hplus : c = '+'
  · subst hplus
    exact hread .plus l
  by_cases hminus : c = '-'
  · subst hminus
    exact hread .minus l
  · have hother : ∀ l, afterParen (c :: l) = closed (withDigits (.modifier .plus) (c :: l)) := by
      intro l
      unfold afterParen
      split <;> simp_all
    rw [hother, hother]
    exact hread .plus (c :: l)

theorem special?_append_sign {c : Char} (h : c = '(' → l ≠ []) :
    special? (c :: (l ++ s.symbol :: r)) = (special? (c :: l)).map (thenText (s.symbol :: r)) := by
  by_cases ht : c = 't'
  · subst ht
    exact afterT_append_sign l r s
  by_cases hparen : c = '('
  · subst hparen
    exact afterParen_append_sign r s (h rfl)
  by_cases hw : c = 'w'
  · subst hw
    match l with
    | [] => cases s <;> rfl
    | d :: l =>
      by_cases hd : d = 'd'
      · subst hd
        exact withDigits_append_sign l r s Token.wildDie
      · simp [special?, hd]
  · simp [special?, ht, hparen, hw]

theorem ordinary_append_sign (c : Char) :
    ordinary c (l ++ s.symbol :: r) = thenText (s.symbol :: r) (ordinary c l) := by
  have hplain : isPlain s.symbol = false := by cases s <;> rfl
  unfold ordinary
  rw [takeWhile_append_cons hplain, dropWhile_append_cons hplain]
  split
  · rfl
  split
  · rfl
  split
  · rfl
  split <;> rfl

/-- The token before a sign has nothing to do with it, unless it is the one of a modifier. -/
theorem firstToken_append_sign {c : Char} (h : c = '(' → l ≠ []) :
    firstToken c (l ++ s.symbol :: r) = thenText (s.symbol :: r) (firstToken c l) := by
  unfold firstToken
  rw [special?_append_sign l r s h, ordinary_append_sign]
  cases special? (c :: l) <;> rfl

end

theorem firstToken_paren_sign (s : Sign) (r : List Char) :
    firstToken '(' (s.symbol :: r) =
      (closed (withDigits (.modifier s) r)).getD (.text ['('], s.symbol :: r) := by
  cases s <;> rfl

/-- Whether digits and a parenthesis follow has nothing to do with what is made of them. -/
theorem closed_withDigits_eq_none {f g : List Char → Token} {r : List Char}
    (h : closed (withDigits f r) = none) : closed (withDigits g r) = none := by
  unfold withDigits closed at *
  grind

/-- A token that ends before a sign is the same before another sign. -/
theorem firstToken_change_sign {c : Char} {l l' r : List Char} {t : Token} {m : Sign}
    (h : firstToken c (l ++ m.symbol :: r) = (t, l' ++ m.symbol :: r)) (s : Sign) :
    firstToken c (l ++ s.symbol :: r) = (t, l' ++ s.symbol :: r) := by
  by_cases hparen : c = '(' → l ≠ []
  · rw [firstToken_append_sign l r m hparen, thenText, Prod.mk.injEq] at h
    rw [firstToken_append_sign l r s hparen, thenText, h.1, List.append_cancel_right h.2]
  · -- only a parenthesis looks at a sign, and it is no modifier where it ends before the sign
    push Not at hparen
    obtain ⟨rfl, rfl⟩ := hparen
    rw [List.nil_append, firstToken_paren_sign] at h
    cases hclosed : closed (withDigits (.modifier m) r) with
    | none =>
      rw [hclosed] at h
      obtain ⟨rfl, hrest⟩ := Prod.mk.inj h
      obtain rfl : l' = [] := by simpa using hrest
      rw [List.nil_append, firstToken_paren_sign, closed_withDigits_eq_none hclosed]
      rfl
    | some p =>
      rw [hclosed] at h
      obtain rfl : p = (t, l' ++ m.symbol :: r) := h
      have hle := length_closed_withDigits_le hclosed
      simp only [List.length_append, List.length_cons] at hle
      omega

/-- A sign among the tokens stands in the text, and with the other sign in its place the tokens are
the same but for this one. -/
theorem exists_sign_of_tokens {x : List Char} {ts us : List Token} {m : Sign}
    (h : tokens x = ts ++ .sign m :: us) :
    ∃ l r, x = l ++ m.symbol :: r ∧
      ∀ s : Sign, tokens (l ++ s.symbol :: r) = ts ++ .sign s :: us := by
  induction ts generalizing x with
  | nil =>
    obtain _ | ⟨c, y⟩ := x
    · rw [tokens_nil] at h
      cases h
    rw [tokens_cons, List.nil_append] at h
    obtain ⟨hsign, hrest⟩ := List.cons.inj h
    obtain ⟨cs, hchars, hcut⟩ := cut_firstToken c y
    rw [hsign] at hcut
    rcases hcut with ⟨hspell, -⟩ | _ | _ | _ | _
    · cases hspell
    · have hy : y = (firstToken c y).2 := (List.cons.inj hchars).2
      obtain rfl : c = m.symbol := (List.cons.inj hchars).1
      rw [← hy] at hrest
      refine ⟨[], y, rfl, fun s => ?_⟩
      cases s <;> rw [List.nil_append, tokens_cons, ← hrest] <;> rfl
  | cons t ts ih =>
    obtain _ | ⟨c, y⟩ := x
    · rw [tokens_nil] at h
      cases h
    rw [tokens_cons] at h
    obtain ⟨htoken, hrest⟩ := List.cons.inj h
    obtain ⟨l, r, hl, hreplace⟩ := ih hrest
    obtain ⟨cs, hchars, hcut⟩ := cut_firstToken c y
    obtain ⟨d, cs, rfl⟩ := List.exists_cons_of_ne_nil hcut.spelling.ne_nil
    obtain rfl : c = d := (List.cons.inj hchars).1
    have hy : y = cs ++ (firstToken c y).2 := (List.cons.inj hchars).2
    rw [hl, ← List.append_assoc] at hy
    have hfirst : firstToken c (cs ++ l ++ m.symbol :: r) = (t, l ++ m.symbol :: r) := by
      rw [← hy, ← htoken, ← hl]
    refine ⟨c :: (cs ++ l), r, by rw [hy]; rfl, fun s => ?_⟩
    rw [List.cons_append, tokens_cons, firstToken_change_sign hfirst s, List.cons_append, hreplace]

/-! ## Signs and expressions -/

/-- A sign of a phrase can be replaced by the other one. -/
theorem exists_sign_of_signedTexts {p : List Token} {before after : List Fragment} {m : Sign}
    {cs : List Char} (h : signedTexts p = before ++ ⟨m, cs⟩ :: after) :
    ∃ q q', p = q ++ .sign m :: q' ∧ textToSign q' = cs ∧ ∀ s,
      signedTexts (q ++ .sign s :: q') = before ++ ⟨s, cs⟩ :: after ∧
      textToSign (q ++ .sign s :: q') = textToSign p := by
  induction p generalizing before with
  | nil => simp [signedTexts] at h
  | cons t p ih =>
    cases t with
    | sign m' =>
      cases before with
      | nil =>
        obtain ⟨hsign, rfl⟩ := List.cons.inj h
        obtain ⟨rfl, rfl⟩ := Fragment.mk.inj hsign
        exact ⟨[], p, rfl, rfl, fun s => ⟨rfl, rfl⟩⟩
      | cons f before =>
        obtain ⟨rfl, hrest⟩ := List.cons_eq_cons.1 h
        obtain ⟨q, q', rfl, htext, hreplace⟩ := ih hrest
        refine ⟨.sign m' :: q, q', rfl, htext, fun s => ?_⟩
        obtain ⟨hsigned, htextToSign⟩ := hreplace s
        exact ⟨by simp [signedTexts, hsigned, htextToSign], rfl⟩
    | _ =>
      obtain ⟨q, q', rfl, htext, hreplace⟩ := ih h
      refine ⟨_ :: q, q', rfl, htext, fun s => ?_⟩
      obtain ⟨hsigned, htextToSign⟩ := hreplace s
      exact ⟨hsigned, by simp [textToSign, htextToSign]⟩

/-- Fragments with text stand among all signs. -/
theorem exists_of_written {fs before after : List Fragment} {f : Fragment}
    (h : written fs = before ++ f :: after) :
    ∃ gs gs', fs = gs ++ f :: gs' ∧ written gs = before ∧ written gs' = after ∧ f.chars ≠ [] := by
  obtain ⟨l, l', rfl, rfl, hrest⟩ := List.filter_eq_append_iff.1 h
  obtain ⟨m, m', rfl, hbare, hf, rfl⟩ := List.filter_eq_cons_iff.1 hrest
  refine ⟨l ++ m, m', by simp, ?_, rfl, by simpa using hf⟩
  rw [written, List.filter_append, List.filter_eq_nil_iff.2 hbare, List.append_nil]

/-- A minus of a phrase can be replaced: what stands before the first sign has an implicit plus. -/
theorem exists_sign_of_fragments {p : List Token} {before after : List Fragment} {cs : List Char}
    (h : fragments p = before ++ ⟨.minus, cs⟩ :: after) :
    ∃ q q', p = q ++ .sign .minus :: q' ∧ textToSign q' = cs ∧ ∀ s,
      fragments (q ++ .sign s :: q') = before ++ ⟨s, cs⟩ :: after := by
  obtain ⟨gs, gs', hfs, rfl, rfl, hne⟩ := exists_of_written h
  obtain _ | ⟨g, gs⟩ := gs
  · obtain ⟨hsign, -⟩ := List.cons.inj hfs
    cases (Fragment.mk.inj hsign).1
  obtain ⟨rfl, hsigned⟩ := List.cons_eq_cons.1 hfs
  obtain ⟨q, q', rfl, htext, hreplace⟩ := exists_sign_of_signedTexts hsigned
  refine ⟨q, q', rfl, htext, fun s => ?_⟩
  obtain ⟨hsigned, htextToSign⟩ := hreplace s
  have hwritten : written (⟨s, cs⟩ :: gs') = ⟨s, cs⟩ :: written gs' :=
    List.filter_cons_of_pos (by simpa using hne)
  rw [← hwritten, written, written, ← List.filter_append, fragments, hsigned, htextToSign]
  rfl

/-- A sign of a phrase stands among all tokens. -/
theorem exists_sign_of_phrases {ts q q' : List Token} {ps ps' : List (List Token)} {m : Sign}
    (h : phrases ts = ps ++ (q ++ .sign m :: q') :: ps') :
    ∃ us us', ts = us ++ .sign m :: us' ∧ phrases us' = q' :: ps' ∧
      ∀ s, phrases (us ++ .sign s :: us') = ps ++ (q ++ .sign s :: q') :: ps' := by
  induction ts generalizing ps q with
  | nil => cases ps <;> simp [phrases_nil] at h
  | cons t ts ih =>
    cases hsep : t.isSeparator with
    | true =>
      cases t <;> cases hsep
      rw [phrases_separator] at h
      cases ps with
      | nil => simp at h
      | cons p ps =>
        obtain ⟨rfl, hrest⟩ := List.cons_eq_cons.1 h
        obtain ⟨us, us', rfl, hback, hreplace⟩ := ih hrest
        refine ⟨.separator :: us, us', rfl, hback, fun s => ?_⟩
        rw [List.cons_append, phrases_separator, hreplace]
        rfl
    | false =>
      obtain ⟨p, qs, hts⟩ := exists_phrases_eq_cons ts
      rw [phrases_cons hsep hts] at h
      cases ps with
      | nil =>
        obtain ⟨hp, rfl⟩ := List.cons_eq_cons.1 h
        cases q with
        | nil =>
          obtain ⟨rfl, rfl⟩ := List.cons_eq_cons.1 hp
          exact ⟨[], ts, rfl, hts, fun s => phrases_cons rfl hts⟩
        | cons u q =>
          obtain ⟨rfl, rfl⟩ := List.cons_eq_cons.1 hp
          have hts : phrases ts = [] ++ (q ++ .sign m :: q') :: qs := hts
          obtain ⟨us, us', rfl, hback, hreplace⟩ := ih hts
          exact ⟨t :: us, us', rfl, hback, fun s => phrases_cons hsep (hreplace s)⟩
      | cons p' ps =>
        obtain ⟨rfl, rfl⟩ := List.cons_eq_cons.1 h
        have hts : phrases ts = (p :: ps) ++ (q ++ .sign m :: q') :: ps' := hts
        obtain ⟨us, us', rfl, hback, hreplace⟩ := ih hts
        exact ⟨t :: us, us', rfl, hback, fun s => phrases_cons hsep (hreplace s)⟩

/-- A minus of the first expression can be replaced without a change to the others. -/
theorem exists_sign_of_expressions {ts : List Token} {before after : List Fragment}
    {cs : List Char} {rest : List (List Fragment)}
    (h : expressions ts = (before ++ ⟨.minus, cs⟩ :: after) :: rest) :
    ∃ us us' q ps, ts = us ++ .sign .minus :: us' ∧ phrases us' = q :: ps ∧ textToSign q = cs ∧
      ∀ s, expressions (us ++ .sign s :: us') = (before ++ ⟨s, cs⟩ :: after) :: rest := by
  obtain ⟨empty, fss, hphrases, hempty, -, rfl⟩ := List.filter_eq_cons_iff.1 h
  obtain ⟨ps, ps', hts, rfl, hps'⟩ := List.map_eq_append_iff.1 hphrases
  obtain ⟨p, qs, rfl, hp, rfl⟩ := List.map_eq_cons_iff.1 hps'
  obtain ⟨q, q', rfl, htext, hfragments⟩ := exists_sign_of_fragments hp
  obtain ⟨us, us', rfl, hback, hreplace⟩ := exists_sign_of_phrases hts
  refine ⟨us, us', q', qs, rfl, hback, htext, fun s => ?_⟩
  rw [expressions, hreplace, List.map_append, List.map_cons, hfragments, nonempty,
    List.filter_append, List.filter_eq_nil_iff.2 hempty, List.nil_append,
    List.filter_cons_of_pos (by simp)]

/-! ## Signs and notes -/

namespace Draft

/-- What is noted of a term is the sign that has no text behind it. -/
theorem notes_closeTerm_congr {d d' : Draft} (hchars : d.chars = d'.chars)
    (hsign : d.sign = d'.sign ∨ d.chars ≠ []) : d.closeTerm.notes = d'.closeTerm.notes := by
  obtain ⟨exprs, fragments, sign, chars, hadContent⟩ := d
  obtain ⟨exprs', fragments', sign', chars', hadContent'⟩ := d'
  obtain rfl : chars = chars' := hchars
  cases chars with
  | cons c cs => rfl
  | nil =>
    rcases hsign with hsign | hne
    · obtain rfl : sign = sign' := hsign
      cases sign <;> rfl
    · exact absurd rfl hne

end Draft

namespace Outline

/-- Two outlines on the way have the same parts given once and the same text in progress. The sign
before it is the same too, unless there is text behind the sign, be it already there or still to
come. -/
structure SameFaults (coming : List Char) (o o' : Outline) : Prop where
  slots : o.slots = o'.slots
  chars : o.draft.chars = o'.draft.chars
  sign : o.draft.sign = o'.draft.sign ∨ o.draft.chars ++ coming ≠ []

/-- Where a term ends there is no more text to come. -/
theorem SameFaults.notes_closeTerm {o o' : Outline} (h : SameFaults [] o o') :
    o.draft.closeTerm.notes = o'.draft.closeTerm.notes :=
  Draft.notes_closeTerm_congr h.chars (by simpa using h.sign)

/-- A token leaves the same notes, and what follows it will do so too. -/
theorem SameFaults.add {o o' : Outline} {t : Token} {ts p q : List Token}
    {ps qs : List (List Token)} (hphrases : phrases (t :: ts) = p :: ps)
    (hrest : phrases ts = q :: qs) (h : SameFaults (textToSign p) o o') :
    (add o t).notes = (add o' t).notes ∧
      SameFaults (textToSign q) (add o t).value (add o' t).value := by
  cases t with
  | separator =>
    rw [phrases_separator] at hphrases
    cases hphrases
    refine ⟨?_, h.slots, ?_, .inl ?_⟩
    · simpa [Outline.add, Draft.notes_closeExpr] using h.notes_closeTerm
    · simp [Outline.add, Draft.value_closeExpr]
    · simp [Outline.add, Draft.value_closeExpr]
  | sign s =>
    rw [phrases_cons rfl hrest] at hphrases
    cases hphrases
    refine ⟨?_, h.slots, ?_, .inl ?_⟩
    · simpa [Outline.add, Draft.notes_startTerm] using h.notes_closeTerm
    · simp [Outline.add, Draft.value_startTerm]
    · simp [Outline.add, Draft.value_startTerm]
  | text cs =>
    rw [phrases_cons rfl hrest] at hphrases
    cases hphrases
    refine ⟨rfl, h.slots, ?_, ?_⟩
    · simp [Outline.add, Draft.addText, h.chars]
    · simpa [Outline.add, Draft.addText, textToSign] using h.sign
  | _ =>
    rw [phrases_cons rfl hrest] at hphrases
    cases hphrases
    refine ⟨?_, ?_, h.chars, h.sign⟩
    · simp [Outline.add, h.slots]
    · simp [Outline.add, h.slots]

/-- The rest of the tokens leaves the same notes. -/
theorem SameFaults.foldlM_add {o o' : Outline} {ts p : List Token} {ps : List (List Token)}
    (hphrases : phrases ts = p :: ps) (h : SameFaults (textToSign p) o o') :
    (ts.foldlM Outline.add o).notes = (ts.foldlM Outline.add o').notes ∧
      (ts.foldlM Outline.add o).value.draft.closeExpr.notes =
        (ts.foldlM Outline.add o').value.draft.closeExpr.notes := by
  induction ts generalizing o o' p ps with
  | nil =>
    rw [phrases_nil] at hphrases
    cases hphrases
    refine ⟨rfl, ?_⟩
    rw [Draft.notes_closeExpr, Draft.notes_closeExpr]
    exact h.notes_closeTerm
  | cons t ts ih =>
    obtain ⟨q, qs, hrest⟩ := exists_phrases_eq_cons ts
    obtain ⟨hnotes, hsame⟩ := h.add hphrases hrest
    obtain ⟨hrun, hclose⟩ := ih hrest hsame
    rw [List.foldlM_cons, List.foldlM_cons, Noted.notes_bind, Noted.notes_bind, Noted.value_bind,
      Noted.value_bind, hnotes, hrun]
    exact ⟨rfl, hclose⟩

/-- Which sign stands before a text makes no difference to the notes of an outline. -/
theorem notes_ofTokens_sign {us us' q : List Token} {ps : List (List Token)}
    (hphrases : phrases us' = q :: ps) (hne : textToSign q ≠ []) (s s' : Sign) :
    (ofTokens (us ++ .sign s :: us')).notes = (ofTokens (us ++ .sign s' :: us')).notes := by
  have hsame : ∀ o, SameFaults (textToSign q) (add o (.sign s)).value (add o (.sign s')).value := by
    intro o
    exact ⟨rfl, rfl, .inr (by simpa [add, Draft.value_startTerm] using hne)⟩
  simp only [ofTokens, List.foldlM_append, List.foldlM_cons, Noted.notes_bind, Noted.value_bind,
    Noted.notes_pure]
  obtain ⟨hrun, hclose⟩ := (hsame (us.foldlM add {}).value).foldlM_add hphrases
  have hsign : ∀ o, (add o (.sign s)).notes = (add o (.sign s')).notes := by
    intro o
    simp [add, Draft.notes_startTerm]
  rw [hrun, hclose, hsign]

end Outline

/-! ## Signs and parts given once -/

/-- No part that can be given only once has to do with the signs of terms. -/
theorem slots_ofTokens_sign (us us' : List Token) (s : Sign) :
    Slots.ofTokens (us ++ .sign s :: us') = Slots.ofTokens (us ++ us') := by
  simp [Slots.ofTokens, targets, highests, modifiers, wildDice]

/-! ## Signs and comments -/

/-- A sign next to a comment can be replaced. -/
theorem Commented.exists_sign {n l r : List Char} {comment : Option String} {m : Sign}
    (h : Commented n (l ++ m.symbol :: r) comment) :
    ∃ left right, n = left ++ m.symbol :: right ∧
      ∀ s : Sign, Commented (left ++ s.symbol :: right) (l ++ s.symbol :: r) comment := by
  have hsymbol : ∀ s : Sign, s.symbol ≠ '"' := by
    rintro (_ | _) <;> decide
  generalize hbody : l ++ m.symbol :: r = body at h
  cases h with
  | @quoted before inside after before_open inside_quotes =>
    -- the sign stands in front of the comment or behind it
    have hplace : (∃ front, before = l ++ m.symbol :: front ∧ r = front ++ after) ∨
        ∃ front, l = before ++ front ∧ after = front ++ m.symbol :: r := by
      rcases List.append_eq_append_iff.1 hbody with ⟨_ | ⟨c, front⟩, rfl, hrest⟩ | h
      · exact .inr ⟨[], by simp, hrest.symm⟩
      · obtain ⟨rfl, rfl⟩ := List.cons_eq_cons.1 hrest
        exact .inl ⟨front, rfl, rfl⟩
      · exact .inr h
    rcases hplace with ⟨front, rfl, rfl⟩ | ⟨front, rfl, rfl⟩
    · refine ⟨l, front ++ '"' :: (inside ++ '"' :: after), by simp, fun s => ?_⟩
      have hopen : ∀ c ∈ l ++ s.symbol :: front, c ≠ '"' := by
        intro c hc
        rcases List.mem_append.1 hc with hc | hc
        · exact before_open c (List.mem_append_left _ hc)
        rcases List.mem_cons.1 hc with rfl | hc
        · exact hsymbol s
        · exact before_open c (List.mem_append_right _ (.tail _ hc))
      simpa using @Commented.quoted _ _ after hopen inside_quotes
    · refine ⟨before ++ '"' :: (inside ++ '"' :: front), r, by simp, fun s => ?_⟩
      simpa using @Commented.quoted _ _ (front ++ s.symbol :: r) before_open inside_quotes
  | plain unpaired =>
    subst hbody
    refine ⟨l, r, rfl, fun s => .plain ?_⟩
    simpa [List.count_cons, hsymbol] using unpaired

end Written

namespace Text

open Written

/-! ## Signs in the text as it was given -/

theorem isBlank_symbol (s : Sign) : isBlank s.symbol = false := by
  cases s <;> decide

theorem lower_symbol (s : Sign) : lower s.symbol = [s.symbol] := by
  cases s <;> decide

/-- A sign is the small letter of nothing but itself. -/
theorem eq_of_symbol_mem_lower {s : Sign} {c : Char} (h : s.symbol ∈ lower c) : c = s.symbol := by
  have hplain : s.symbol.toNat ≠ 0 ∧ s.symbol.toNat ≤ 'x'.toNat ∧ s.symbol ≠ 'i' ∧
      s.symbol.toNat ≠ 'k'.toNat := by
    cases s <;> decide
  obtain ⟨hzero, hlast, hi, hk⟩ := hplain
  obtain ⟨hascii, hlower⟩ := ascii_of_mem_lower hzero hlast hi hk h
  have hall : ∀ s : Sign, ∀ n < 0x80, (Char.ofNat n).toLower = s.symbol →
      Char.ofNat n = s.symbol := by
    rintro (_ | _) <;> decide
  have hsign := hall s c.toNat hascii
  rw [Char.ofNat_toNat] at hsign
  exact hsign hlower

theorem normal_append_sign (s : Sign) (l r : List Char) :
    normal (l ++ s.symbol :: r) = normal l ++ s.symbol :: normal r := by
  rw [normal_append, normal_cons_of_not_isBlank r (isBlank_symbol s), lower_symbol]
  rfl

/-- A sign in normal text stands in the text. -/
theorem exists_sign_of_normal {t l r : List Char} {s : Sign}
    (h : normal t = l ++ s.symbol :: r) :
    ∃ left right, t = left ++ s.symbol :: right ∧ normal left = l ∧ normal right = r := by
  obtain ⟨left, c, right, hc, rfl, hleft, hright⟩ := exists_of_normal (fun c hc => by
    rw [eq_of_symbol_mem_lower hc, lower_symbol]) h
  exact ⟨left, right, by rw [eq_of_symbol_mem_lower hc], hleft, hright⟩

/-- Trimming takes no sign for another. -/
theorem length_trim_sign (l r : List Char) (s s' : Sign) :
    (trim (l ++ s.symbol :: r)).length = (trim (l ++ s'.symbol :: r)).length := by
  rw [trim_append_cons (isBlank_symbol s), trim_append_cons (isBlank_symbol s')]
  simp

end Text

end TabletopDice
