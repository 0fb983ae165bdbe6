import TabletopDice.Written.Outline

/-!
# The parts of an outline

What the tokens of a text amount to, said without the machine that sorts them: the expressions are
what stands between separators, their fragments what stands between signs, and of each part that can
be given only once the first one counts. Main statements: the outline of some tokens has these parts
(`exprs_ofTokens`, `slots_ofTokens`), and it is made silently exactly when no such part is given
twice and every sign is followed by text (`notes_ofTokens_eq_nil_iff`).
-/

namespace TabletopDice.Written

/-! ## Parts given once -/

/-- The target numbers among some tokens, in order. -/
def targets (ts : List Token) : List (List Char) :=
  ts.filterMap fun
    | .target ds => some ds
    | _ => none

/-- The numbers of highest results among some tokens, in order. -/
def highests (ts : List Token) : List (List Char) :=
  ts.filterMap fun
    | .targetHighest ds => some ds
    | _ => none

/-- The modifiers among some tokens, in order. -/
def modifiers (ts : List Token) : List (Sign × List Char) :=
  ts.filterMap fun
    | .modifier s ds => some (s, ds)
    | _ => none

/-- The wild dice among some tokens, in order. -/
def wildDice (ts : List Token) : List (List Char) :=
  ts.filterMap fun
    | .wildDie ds => some ds
    | _ => none

/-- Whether a token belongs to an expression. -/
def Token.isContent : Token → Bool
  | .sign _ | .text _ => true
  | _ => false

/-! ## Expressions -/

/-- Whether a token ends the term before it. -/
def Token.endsTerm : Token → Bool
  | .sign _ | .separator => true
  | _ => false

/-- Whether a token stands between expressions. -/
def Token.isSeparator : Token → Bool
  | .separator => true
  | _ => false

/-- The tokens between separators. -/
def phrases (ts : List Token) : List (List Token) :=
  ts.splitOnP Token.isSeparator

/-- The text of a phrase up to its first sign. What can be given only once does not interrupt it. -/
def textToSign : List Token → List Char
  | .text cs :: ts => cs ++ textToSign ts
  | .sign _ :: _ | [] => []
  | _ :: ts => textToSign ts

/-- The signs of a phrase, each with the text up to the next one. -/
def signedTexts : List Token → List Fragment
  | .sign s :: ts => ⟨s, textToSign ts⟩ :: signedTexts ts
  | _ :: ts => signedTexts ts
  | [] => []

/-- The fragments that have any text. -/
def written (fs : List Fragment) : List Fragment :=
  fs.filter fun f => !f.chars.isEmpty

/-- The fragments of a phrase. What stands before its first sign has an implicit plus. -/
def fragments (p : List Token) : List Fragment :=
  written (⟨.plus, textToSign p⟩ :: signedTexts p)

/-- The lists of fragments that have any fragments. -/
def nonempty (fss : List (List Fragment)) : List (List Fragment) :=
  fss.filter fun fs => !fs.isEmpty

/-- The fragments of each expression. -/
def expressions (ts : List Token) : List (List Fragment) :=
  nonempty ((phrases ts).map fragments)

theorem phrases_nil : phrases [] = [[]] := rfl

/-- A separator starts a new phrase. -/
theorem phrases_separator (ts : List Token) : phrases (.separator :: ts) = [] :: phrases ts := by
  rw [phrases, List.splitOnP_cons_eq_if_modifyHead]
  rfl

/-- A token that is no separator stands at the start of the first phrase. -/
theorem phrases_cons {t : Token} {ts p : List Token} {ps : List (List Token)}
    (ht : t.isSeparator = false) (h : phrases ts = p :: ps) :
    phrases (t :: ts) = (t :: p) :: ps := by
  rw [phrases, List.splitOnP_cons_eq_if_modifyHead, ht, ← phrases, h]
  rfl

/-- There is always a first phrase, even if it is empty. -/
theorem exists_phrases_eq_cons (ts : List Token) : ∃ p ps, phrases ts = p :: ps :=
  List.exists_cons_of_ne_nil (List.splitOnP_ne_nil _ _)

theorem written_cons (f : Fragment) (fs : List Fragment) :
    written (f :: fs) = written [f] ++ written fs := by
  rw [← List.singleton_append, written, List.filter_append]
  rfl

theorem nonempty_cons (fs : List Fragment) (fss : List (List Fragment)) :
    nonempty (fs :: fss) = nonempty [fs] ++ nonempty fss := by
  rw [← List.singleton_append, nonempty, List.filter_append]
  rfl

/-! ## Drafts -/

namespace Draft

/-- The fragment in progress. -/
def current (d : Draft) : Fragment :=
  ⟨d.sign.getD .plus, d.chars⟩

/-- Finishing a term adds the fragment in progress to the finished ones, if it has any text. -/
theorem value_closeTerm (d : Draft) :
    d.closeTerm.value =
      { d with fragments := d.fragments ++ written [d.current], sign := none, chars := [] } := by
  obtain ⟨exprs, fragments, sign, chars, hadContent⟩ := d
  cases chars <;> cases sign <;> simp [closeTerm, current, written]

/-- A term is finished silently unless a sign has no text behind it. -/
theorem notes_closeTerm_eq_nil_iff (d : Draft) :
    d.closeTerm.notes = [] ↔ (d.sign.isSome → d.chars ≠ []) := by
  obtain ⟨exprs, fragments, sign, chars, hadContent⟩ := d
  cases chars <;> cases sign <;> simp [closeTerm]

/-- Finishing an expression adds its fragments to the finished expressions, if there are any. -/
theorem value_closeExpr (d : Draft) :
    d.closeExpr.value =
      { d with
        exprs := d.exprs ++ nonempty [d.fragments ++ written [d.current]]
        fragments := [], sign := none, chars := [] } := by
  unfold closeExpr
  rw [Noted.value_bind, value_closeTerm]
  cases h : d.fragments ++ written [d.current] <;> simp [nonempty]

/-- Finishing an expression leaves no notes but those of its last term. -/
theorem notes_closeExpr (d : Draft) : d.closeExpr.notes = d.closeTerm.notes := by
  unfold closeExpr
  rw [Noted.notes_bind]
  split <;> simp

/-- An expression ends silently unless a sign at its end has no text. -/
theorem notes_closeExpr_eq_nil_iff (d : Draft) :
    d.closeExpr.notes = [] ↔ (d.sign.isSome → d.chars ≠ []) := by
  rw [notes_closeExpr, notes_closeTerm_eq_nil_iff]

/-- A sign ends the term before it and starts another one. -/
theorem value_startTerm (d : Draft) (s : Sign) :
    (d.startTerm s).value =
      { d with
        fragments := d.fragments ++ written [d.current], sign := some s, chars := []
        hadContent := true } := by
  unfold startTerm
  rw [Noted.value_bind, value_closeTerm]
  rfl

theorem notes_startTerm (d : Draft) (s : Sign) : (d.startTerm s).notes = d.closeTerm.notes :=
  List.append_nil _

/-- A sign is met silently unless another one stands right before it. -/
theorem notes_startTerm_eq_nil_iff (d : Draft) (s : Sign) :
    (d.startTerm s).notes = [] ↔ (d.sign.isSome → d.chars ≠ []) := by
  rw [notes_startTerm, notes_closeTerm_eq_nil_iff]

end Draft

/-! ## Parts of an outline -/

/-- The parts that some tokens give first. -/
def Slots.ofTokens (ts : List Token) : Slots where
  target := (targets ts).head?
  targetHighest := (highests ts).head?
  modifier := (modifiers ts).head?
  wildDie := (wildDice ts).head?

/-- The parts of the first slots and, where these are empty, of the second ones. -/
def Slots.or (s s' : Slots) : Slots where
  target := s.target.or s'.target
  targetHighest := s.targetHighest.or s'.targetHighest
  modifier := s.modifier.or s'.modifier
  wildDie := s.wildDie.or s'.wildDie

/-- Filling keeps what was there before. -/
theorem value_fill {α : Type} (part : SinglePart) (slot : Option α) (a : α) :
    (fill part slot a).value = slot.or (some a) := by
  cases slot <;> rfl

/-- A part is filled silently exactly if it is still empty. -/
theorem notes_fill_eq_nil_iff {α : Type} (part : SinglePart) (slot : Option α) (a : α) :
    (fill part slot a).notes = [] ↔ slot = none := by
  cases slot <;> simp [fill]

/-- Whether these and a part that may be there already make one part at most. -/
def AtMostOne {α : Type} (slot : Option α) (xs : List α) : Prop :=
  xs.length + slot.isSome.toNat ≤ 1

theorem atMostOne_cons {α : Type} {slot : Option α} {a : α} {xs : List α} :
    AtMostOne slot (a :: xs) ↔ slot = none ∧ AtMostOne (slot.or (some a)) xs := by
  cases slot <;> simp [AtMostOne]

/-- No part is given that the slots have already, and none is given twice. -/
def Slots.Free (s : Slots) (ts : List Token) : Prop :=
  AtMostOne s.target (targets ts) ∧ AtMostOne s.targetHighest (highests ts) ∧
    AtMostOne s.modifier (modifiers ts) ∧ AtMostOne s.wildDie (wildDice ts)

/-- Whether a token gives no part that the slots have already. -/
def Slots.Takes (s : Slots) : Token → Prop
  | .target _ => s.target = none
  | .targetHighest _ => s.targetHighest = none
  | .modifier _ _ => s.modifier = none
  | .wildDie _ => s.wildDie = none
  | _ => True

theorem Slots.or_ofTokens_nil (s : Slots) : s.or (Slots.ofTokens []) = s := by
  simp [Slots.or, Slots.ofTokens, targets, highests, modifiers, wildDice]

theorem Slots.free_nil (s : Slots) : s.Free [] := by
  obtain ⟨t, th, m, w⟩ := s
  cases t <;> cases th <;> cases m <;> cases w <;>
    simp [Slots.Free, AtMostOne, targets, highests, modifiers, wildDice]

/-- The slots take some tokens one after the other. -/
theorem Slots.free_cons {s : Slots} {t : Token} {ts : List Token} :
    s.Free (t :: ts) ↔ s.Takes t ∧ (s.or (Slots.ofTokens [t])).Free ts := by
  cases t <;>
    simp [Slots.Free, Slots.Takes, Slots.or, Slots.ofTokens, targets, highests, modifiers, wildDice,
      atMostOne_cons, and_assoc, and_left_comm]

/-- Every sign of some phrases has text behind it. -/
def Followed (ps : List (List Token)) : Prop :=
  ∀ p ∈ ps, ∀ f ∈ signedTexts p, f.chars ≠ []

/-- Every sign is followed by text if it is in the first phrase and in all others. -/
theorem followed_cons {p : List Token} {ps : List (List Token)} :
    Followed (p :: ps) ↔ (∀ f ∈ signedTexts p, f.chars ≠ []) ∧ Followed ps := by
  simp [Followed]

namespace Outline

/-- A token is added silently exactly when it gives no part again, and leaves no sign behind without
text. -/
theorem notes_add_eq_nil_iff (o : Outline) (t : Token) :
    (add o t).notes = [] ↔ o.slots.Takes t ∧
      (t.endsTerm → o.draft.sign.isSome → o.draft.chars ≠ []) := by
  cases t <;>
    simp [add, Slots.Takes, Token.endsTerm, notes_fill_eq_nil_iff, Draft.notes_closeExpr_eq_nil_iff,
      Draft.notes_startTerm_eq_nil_iff]

/-- A token gives its part, unless that was given before. -/
theorem slots_add (o : Outline) (t : Token) :
    (add o t).value.slots = o.slots.or (Slots.ofTokens [t]) := by
  cases t <;>
    simp [add, Slots.or, Slots.ofTokens, targets, highests, modifiers, wildDice, value_fill]

/-- Of the parts given once the first ones are kept. -/
theorem slots_foldlM_add (o : Outline) (ts : List Token) :
    (ts.foldlM add o).value.slots = o.slots.or (Slots.ofTokens ts) := by
  induction ts generalizing o with
  | nil => exact (Slots.or_ofTokens_nil _).symm
  | cons t ts ih =>
    rw [List.foldlM_cons, Noted.value_bind, ih, slots_add]
    cases t <;>
      simp [Slots.or, Slots.ofTokens, targets, highests, modifiers, wildDice]

/-- Whether there was content is seen from the tokens. -/
theorem hadContent_foldlM_add (o : Outline) (ts : List Token) :
    (ts.foldlM add o).value.hadContent = (o.hadContent || ts.any Token.isContent) := by
  induction ts generalizing o with
  | nil => simp
  | cons t ts ih =>
    rw [List.foldlM_cons, Noted.value_bind, ih]
    cases t <;>
      simp [add, hadContent, Token.isContent, Draft.value_closeExpr, Draft.value_startTerm,
        Draft.addText]

/-- The expressions of an outline that goes on with some tokens. The fragment in progress grows up
to the first sign, and the expression in progress up to the first separator. -/
theorem exprs_closeExpr_foldlM_add (o : Outline) {ts p : List Token} {ps : List (List Token)}
    (h : phrases ts = p :: ps) :
    (ts.foldlM add o).value.draft.closeExpr.value.exprs =
      o.draft.exprs ++ nonempty ((o.draft.fragments ++
        written (⟨o.draft.sign.getD .plus, o.draft.chars ++ textToSign p⟩ :: signedTexts p)) ::
        ps.map fragments) := by
  induction ts generalizing o p ps with
  | nil =>
    rw [phrases_nil] at h
    cases h
    simp [Draft.value_closeExpr, textToSign, signedTexts, Draft.current]
  | cons t ts ih =>
    obtain ⟨q, qs, hq⟩ := exists_phrases_eq_cons ts
    rw [List.foldlM_cons, Noted.value_bind, ih _ hq]
    cases t with
    | separator =>
      rw [phrases_separator, hq] at h
      cases h
      -- the expression in progress is closed, and the phrases that follow start from nothing
      simp only [add, bind_pure_comp, Noted.value_map, Draft.value_closeExpr, Draft.current,
        Option.getD_none, List.nil_append, List.append_assoc, textToSign, List.append_nil,
        signedTexts, List.map_cons, fragments]
      rw [← nonempty_cons]
    | sign s =>
      rw [phrases_cons rfl hq] at h
      cases h
      -- the fragment in progress is written, and the sign opens the next one
      simp only [add, bind_pure_comp, Noted.value_map, Draft.value_startTerm, Draft.current,
        Option.getD_some, List.nil_append, List.append_assoc, textToSign, List.append_nil,
        signedTexts]
      rw [← written_cons]
    | text cs =>
      rw [phrases_cons rfl hq] at h
      cases h
      simp [add, Draft.addText, textToSign, signedTexts]
    | _ =>
      rw [phrases_cons rfl hq] at h
      cases h
      simp [add, textToSign, signedTexts]

/-- Tokens are added silently as long as no part is given again and no sign is left without text. -/
theorem notes_closeExpr_foldlM_add_eq_nil_iff (o : Outline) {ts p : List Token}
    {ps : List (List Token)} (h : phrases ts = p :: ps) :
    ((ts.foldlM add o).notes = [] ∧ (ts.foldlM add o).value.draft.closeExpr.notes = []) ↔
      o.slots.Free ts ∧ (o.draft.sign.isSome → o.draft.chars ++ textToSign p ≠ []) ∧
      Followed (p :: ps) := by
  induction ts generalizing o p ps with
  | nil =>
    rw [phrases_nil] at h
    cases h
    simp [Draft.notes_closeExpr_eq_nil_iff, textToSign, signedTexts, Followed, Slots.free_nil]
  | cons t ts ih =>
    obtain ⟨q, qs, hq⟩ := exists_phrases_eq_cons ts
    rw [List.foldlM_cons, Noted.notes_bind, Noted.value_bind, List.append_eq_nil_iff, and_assoc,
      ih _ hq, notes_add_eq_nil_iff, Slots.free_cons, slots_add, and_assoc, and_assoc]
    refine and_congr_right fun _ => ?_
    rw [and_left_comm]
    refine and_congr_right fun _ => ?_
    cases t with
    | separator =>
      rw [phrases_separator, hq] at h
      cases h
      simp [add, Token.endsTerm, Draft.value_closeExpr, textToSign, signedTexts, followed_cons]
    | sign s =>
      rw [phrases_cons rfl hq] at h
      cases h
      simp [add, Token.endsTerm, Draft.value_startTerm, textToSign, signedTexts, followed_cons,
        and_assoc]
    | _ =>
      rw [phrases_cons rfl hq] at h
      cases h
      simp [add, Token.endsTerm, Draft.addText, textToSign, signedTexts, followed_cons]

/-! ## The outline of all tokens -/

/-- The outline has the parts that are given first. -/
theorem slots_ofTokens (ts : List Token) :
    (ofTokens ts).value.slots = Slots.ofTokens ts := by
  unfold ofTokens
  rw [Noted.value_bind]
  exact slots_foldlM_add _ ts

/-- There was content exactly if a sign or text is among the tokens. -/
theorem hadContent_ofTokens (ts : List Token) :
    (ofTokens ts).value.hadContent = ts.any Token.isContent := by
  have h := hadContent_foldlM_add {} ts
  unfold hadContent at h
  simpa [ofTokens, hadContent, Draft.value_closeExpr] using h

/-- The outline has the expressions that stand between separators. -/
theorem exprs_ofTokens (ts : List Token) : (ofTokens ts).value.exprs = expressions ts := by
  obtain ⟨p, ps, h⟩ := exists_phrases_eq_cons ts
  rw [expressions, h, List.map_cons]
  exact exprs_closeExpr_foldlM_add {} h

/-- An outline is made silently exactly when no part is given twice and no sign is left without
text. -/
theorem notes_ofTokens_eq_nil_iff (ts : List Token) :
    (ofTokens ts).notes = [] ↔
      ((targets ts).length ≤ 1 ∧ (highests ts).length ≤ 1 ∧ (modifiers ts).length ≤ 1 ∧
        (wildDice ts).length ≤ 1) ∧ Followed (phrases ts) := by
  obtain ⟨p, ps, h⟩ := exists_phrases_eq_cons ts
  have hrun := notes_closeExpr_foldlM_add_eq_nil_iff {} h
  simp only [ofTokens, Noted.notes_bind, Noted.notes_pure, List.append_nil, List.append_eq_nil_iff]
  rw [hrun, h]
  simp [Slots.Free, AtMostOne]

end Outline

end TabletopDice.Written
