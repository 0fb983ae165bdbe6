import TabletopDice.Proofs.ReplacedSign
import TabletopDice.Proofs.TraitGrammar
import TabletopDice.Proofs.UndisturbedExpressions

/-!
# A die with a minus

The trait die is always added, so a minus before it cannot be followed. Of the dice that come after
the trait die the sign is reported with the rest of them, but that of the trait die is not. Main
statement: a text with a minus before its trait die is read and rolled as the text with a plus
there, with the same messages (`ofText_of_subtracted`).
-/

namespace TabletopDice

namespace Noted

/-- What follows a value depends on nothing but the value. -/
theorem bind_congr_value {α β : Type} {x : Noted α} {f g : α → Noted β}
    (h : f x.value = g x.value) : x >>= f = x >>= g :=
  congrArg (fun y : Noted β => (⟨y.value, x.notes ++ y.notes⟩ : Noted β)) h

end Noted

namespace Written

/-! ## The die and its sign -/

/-- Whether a fragment is read as dice. -/
def Fragment.isDice (f : Fragment) : Bool :=
  match WrittenTerm.ofText? f.chars with
  | some (.dice _) => true
  | _ => false

/-- The sign of the first dice of the first expression: these give the trait die. -/
def dieSign? (ts : List Token) : Option Sign :=
  (((expressions ts).head?.getD []).find? Fragment.isDice).map Fragment.sign

/-! ## Dice taken without their sign -/

namespace TraitDraft

/-- Only dice give the trait die. -/
theorem sides_add_of_not_isDice {d : TraitDraft} {f : Fragment} (h : f.isDice = false) :
    (d.add f).value.sides = d.sides := by
  unfold add
  unfold Fragment.isDice at h
  split
  · unfold addNumber
    rw [Noted.value_bind]
    split
    · rfl
    · split <;> rfl
  · next hdice =>
    rw [hdice] at h
    cases h
  · rfl

theorem sides_foldlM_add {d : TraitDraft} {fs : List Fragment} (h : ∀ f ∈ fs, f.isDice = false) :
    (fs.foldlM add d).value.sides = d.sides := by
  induction fs generalizing d with
  | nil => rfl
  | cons f fs ih =>
    rw [List.foldlM_cons, Noted.value_bind, ih fun g hg => h g (.tail _ hg),
      sides_add_of_not_isDice (h f (.head _))]

/-- The first dice are taken without a look at their sign. -/
theorem add_sign {d : TraitDraft} (hd : d.sides = none) {cs : List Char} {s : Sign}
    (hdice : Fragment.isDice ⟨s, cs⟩ = true) (s' : Sign) : d.add ⟨s', cs⟩ = d.add ⟨s, cs⟩ := by
  unfold Fragment.isDice at hdice
  unfold add
  dsimp only at hdice ⊢
  split at hdice
  · next w hw =>
    rw [hw]
    dsimp only [addDice]
    rw [hd]
  · cases hdice

theorem foldlM_add_sign {before : List Fragment} (hbefore : ∀ f ∈ before, f.isDice = false)
    {cs : List Char} {s : Sign} (hdice : Fragment.isDice ⟨s, cs⟩ = true) (after : List Fragment)
    (s' : Sign) :
    (before ++ ⟨s', cs⟩ :: after).foldlM add {} = (before ++ ⟨s, cs⟩ :: after).foldlM add {} := by
  have hsides : (before.foldlM add {}).value.sides = none := sides_foldlM_add hbefore
  rw [List.foldlM_append, List.foldlM_append]
  refine Noted.bind_congr_value ?_
  rw [List.foldlM_cons, List.foldlM_cons, add_sign hsides hdice s']

end TraitDraft

/-! ## The body of a text -/

/-- What a trait roll is read from: the parts given once, the terms of the first expression, the
other expressions, and what was noted on the way. -/
theorem readTraitBody_congr {body body' : List Char}
    (hnotes : (Outline.ofTokens (tokens body)).notes = (Outline.ofTokens (tokens body')).notes)
    (hslots : Slots.ofTokens (tokens body) = Slots.ofTokens (tokens body'))
    (hterms : ((expressions (tokens body)).head?.getD []).foldlM TraitDraft.add {} =
      ((expressions (tokens body')).head?.getD []).foldlM TraitDraft.add {})
    (htail : (expressions (tokens body)).tail = (expressions (tokens body')).tail) :
    readTraitBody body = readTraitBody body' := by
  have houtline : ∀ {α : Type} (f : Outline → Noted α) (x : Noted Outline),
      x >>= f = ⟨(f x.value).value, x.notes ++ (f x.value).notes⟩ := fun _ _ => rfl
  unfold readTraitBody
  rw [houtline, houtline, hnotes]
  simp only [Outline.slots_ofTokens, Outline.exprs_ofTokens, hslots, hterms, htail]

/-- The minus of the die stands in the text, and with the other sign in its place the text is read
as before. -/
theorem exists_sign_of_dieSign? {body : List Char} (h : dieSign? (tokens body) = some .minus) :
    ∃ l r, body = l ++ Sign.minus.symbol :: r ∧ ∀ s : Sign,
      dieSign? (tokens (l ++ s.symbol :: r)) = some s ∧
        readTraitBody (l ++ s.symbol :: r) = readTraitBody body := by
  obtain ⟨f, hfind, hminus⟩ := Option.map_eq_some_iff.1 h
  obtain ⟨sign, cs⟩ := f
  obtain rfl : sign = .minus := hminus
  obtain ⟨hdice, before, after, hfirst, hbefore⟩ := List.find?_eq_some_iff_append.1 hfind
  have hbefore : ∀ f ∈ before, f.isDice = false := by simpa using hbefore
  obtain ⟨rest, hexprs⟩ : ∃ rest,
      expressions (tokens body) = (before ++ ⟨.minus, cs⟩ :: after) :: rest := by
    cases hexprs : expressions (tokens body) with
    | nil => simp [hexprs] at hfirst
    | cons fs rest =>
      rw [hexprs] at hfirst
      obtain rfl : fs = before ++ ⟨.minus, cs⟩ :: after := hfirst
      exact ⟨rest, rfl⟩
  obtain ⟨us, us', q, ps, htokens, hphrases, htext, hreplace⟩ := exists_sign_of_expressions hexprs
  have hne : textToSign q ≠ [] := by
    have hmem : before ++ ⟨.minus, cs⟩ :: after ∈ expressions (tokens body) := by
      rw [hexprs]
      exact .head _
    rw [htext]
    exact chars_ne_nil_of_mem_expressions hmem (List.mem_append_right before (.head after))
  obtain ⟨l, r, rfl, hchange⟩ := exists_sign_of_tokens htokens
  refine ⟨l, r, rfl, fun s => ⟨?_, ?_⟩⟩
  · have hfinds : (before ++ ⟨s, cs⟩ :: after).find? Fragment.isDice = some ⟨s, cs⟩ :=
      List.find?_eq_some_iff_append.2 ⟨hdice, before, after, rfl, by simpa using hbefore⟩
    rw [dieSign?, hchange, hreplace, List.head?_cons, Option.getD_some, hfinds]
    rfl
  · apply readTraitBody_congr
    · rw [hchange, hchange]
      exact Outline.notes_ofTokens_sign hphrases hne _ _
    · rw [hchange, hchange, slots_ofTokens_sign, slots_ofTokens_sign]
    · rw [hchange, hchange, hreplace, hreplace]
      exact TraitDraft.foldlM_add_sign hbefore hdice after s
    · rw [hchange, hchange, hreplace, hreplace]
      rfl

end Written

/-! ## Whole texts -/

namespace TraitRoll

open Written

/-- The sign that a text has before its trait die, if it has any dice in its first expression. -/
def dieSign? (text : String) : Option Sign :=
  Written.dieSign? (tokens (splitComment (Text.normal (Text.trim text.toList))).1)

/-- A minus before the trait die is dropped, and no message says so. There is a text with a plus in
its place that is read in the same way: as the same trait roll with the same messages, which is
rolled in the same way. So a text with a minus leaves a message exactly when something else is wrong
with it: when with a plus in its place it does not stand for a trait roll. -/
theorem ofText_of_subtracted (text : String) (h : dieSign? text = some .minus) :
    ∃ left right, text.toList = left ++ '-' :: right ∧
      let text' := String.ofList (left ++ '+' :: right)
      dieSign? text' = some .plus ∧
      ofText text = { ofText text' with raw := text } ∧
      (ofText text).roll = (ofText text').roll ∧
      ((ofText text).messages = [] ↔ ∃ t, TraitStandsFor text' t) := by
  obtain ⟨l, r, hbody, hchange⟩ := exists_sign_of_dieSign? h
  obtain ⟨comment, hsplit⟩ : ∃ comment,
      Commented (Text.normal text.toList) (l ++ Sign.minus.symbol :: r) comment := by
    rw [← hbody, ← Text.normal_trim]
    exact ⟨_, commented_split _⟩
  obtain ⟨front, back, hnormal, hcommented⟩ := hsplit.exists_sign
  obtain ⟨left, right, htext, rfl, rfl⟩ := Text.exists_sign_of_normal hnormal
  refine ⟨left, right, htext, ?_⟩
  intro text'
  have htext' : text'.toList = left ++ Sign.plus.symbol :: right := String.toList_ofList
  have hsplit' :
      Commented (Text.normal text'.toList) (l ++ Sign.plus.symbol :: r) comment := by
    rw [htext', Text.normal_append_sign]
    exact hcommented .plus
  rw [← Text.normal_trim] at hsplit hsplit'
  have hlength : (Text.trim text.toList).length = (Text.trim text'.toList).length := by
    rw [htext, htext', Text.length_trim_sign]
  have hread : ofText text = { ofText text' with raw := text } := by
    by_cases hlong : maxTextLength < (Text.trim text.toList).length
    · rw [ofText_of_long hlong, ofText_of_long (hlength ▸ hlong)]
    · have hshort := Nat.not_lt.1 hlong
      rw [ofText_of_short hshort hsplit, ofText_of_short (hlength ▸ hshort) hsplit',
        (hchange .minus).2, (hchange .plus).2]
  have hmessages : (ofText text).messages = (ofText text').messages := by rw [hread]
  refine ⟨?_, hread, ?_, ?_⟩
  · rw [dieSign?, commented_iff.1 hsplit']
    exact (hchange .plus).1
  · rw [hread]
    exact roll_with_comment (ofText text') (ofText text').comment text
  · rw [hmessages]
    refine ⟨exists_traitStandsFor_of_messages, ?_⟩
    rintro ⟨t, ht⟩
    rw [ofText_of_traitStandsFor ht]
    cases ht
    rfl

/-- The quantity is reported, the minus is not. -/
theorem ofText_of_subtracted_two :
    dieSign? "3 - 2d8" = some .minus ∧
      ofText "3 - 2d8" = { ofText "3 + 2d8" with raw := "3 - 2d8" } ∧
      (ofText "3 - 2d8").messages = [.traitQuantity "2"] := by
  have hminus : dieSign? "3 - 2d8" = some .minus := by cbv
  obtain ⟨left, right, htext, -, hread, -, -⟩ := ofText_of_subtracted "3 - 2d8" hminus
  have hsplit : "3 ".toList ++ '-' :: " 2d8".toList = left ++ '-' :: right := htext
  -- there is no other minus
  obtain ⟨rfl, -, rfl⟩ := (List.append_cons_inj_of_notMem (by decide) (by decide)).1 hsplit
  have hquantity : (ofText "3 - 2d8").messages = [.traitQuantity "2"] := by cbv
  exact ⟨hminus, hread, hquantity⟩

/-- A die with a minus before it, and no message. -/
theorem messages_of_subtracted_d8 :
    dieSign? "-d8" = some .minus ∧ (ofText "-d8").messages = [] ∧
      (ofText "-d8").roll = (ofText "d8").roll := by
  exact ⟨by cbv, by cbv, by cbv⟩

end TraitRoll

end TabletopDice
