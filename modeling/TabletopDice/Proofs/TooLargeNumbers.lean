import TabletopDice.Proofs.ConservedSuffixes
import TabletopDice.Proofs.NotedLosses
import TabletopDice.Proofs.NumberReports
import TabletopDice.Proofs.TraitGrammar

/-!
# Numbers that are too large

Every number of a text that is too large for its purpose has a message of its own. Main statements:
a group of dice (`WrittenDice.reports_check`), the terms of a trait roll
(`TraitDraft.reports_foldlM_add`) and the parts given once report the rejected ones among their
numbers one by one, and so the messages of whole texts name them as they are written
(`too_large_as_written`).
-/

namespace TabletopDice

namespace Written

/-! ## Dice -/

theorem reports_checkCount (o : Option (List Char)) :
    Reports (checkCount o).notes (figure? .quantity o) := by
  cases o with
  | none => exact .of_silent rfl
  | some ds =>
    refine reports_number_chain (fun _ => rfl) fun n => ?_
    split <;> rfl

theorem reports_checkSides (ds : List Char) :
    Reports (checkSides ds).notes [⟨.sides, ds⟩] := by
  refine reports_number_chain (fun _ => rfl) fun n => ?_
  split <;> rfl

variable {count sides : Nat}

/-- A suffix reports its number if it is the first one of its part. -/
theorem Suffix.reports_firstNotes (x : Suffix) : Reports (x.firstNotes count sides) x.figures := by
  cases x with
  | explosion recursive t =>
    cases t with
    | none => exact .of_silent rfl
    | some ds =>
      refine reports_number_chain (fun _ => rfl) fun n => ?_
      split
      · rfl
      · split <;> rfl
  | selection kind n =>
    have hfits : ∀ n, oversized (if 1 ≤ n ∧ n ≤ maxSelected count kind then pure (some n)
        else Noted.refuse (.selectionOutOfRange kind n (maxSelected count kind)) :
          Noted (Option Nat)).notes = [] := by
      intro n
      split <;> rfl
    cases n with
    | none => exact .of_silent (hfits 1)
    | some ds => exact reports_number_chain (fun _ => rfl) hfits

/-- Suffixes in a row report the numbers of those that are the first ones of their part. -/
theorem Choices.reports_foldlM_add (c : Choices) (xs : List Suffix) :
    Reports (xs.foldlM (add count sides) c).notes ((firsts c.gives xs).flatMap Suffix.figures) := by
  induction xs generalizing c with
  | nil => exact .of_silent rfl
  | cons x xs ih =>
    have hrest := ih (add count sides c x).value
    rw [List.foldlM_cons, Noted.notes_bind, notes_add, firsts]
    cases hgives : c.gives x.part with
    | true =>
      -- what has been given is given still, and the message is about no number
      have hsame : (add count sides c x).value.gives = c.gives := by
        funext part
        rw [gives_add]
        by_cases hpart : x.part = part
        · rw [← hpart, hgives, Bool.true_or]
        · rw [decide_eq_false hpart, Bool.or_false]
      rw [hsame] at hrest
      exact .silent_append rfl hrest
    | false =>
      have hnext : (add count sides c x).value.gives =
          fun part => c.gives part || decide (x.part = part) := by
        funext part
        exact gives_add c x part
      rw [hnext] at hrest
      exact x.reports_firstNotes.append hrest

/-- No conflict between suffixes is about a number that is too large. -/
theorem oversized_resolve (count : Nat) (usable : Kind → Option Nat) :
    oversized (resolve count usable).notes = [] := by
  have hdrops : oversized (overriddenDrops usable) = [] := by
    refine oversized_eq_nil_iff.2 fun m hm => ?_
    obtain ⟨s, -, -, rfl⟩ := exists_of_mem_overriddenDrops hm
    rfl
  unfold resolve
  split
  · exact hdrops
  · exact hdrops
  · exact hdrops
  · split
    · split <;> rfl
    all_goals rfl

/-- A group that is put together reports the numbers of its first suffixes. -/
theorem reports_assemble (xs : List Suffix) :
    Reports (assemble count sides xs).notes
      ((firsts (fun _ => false) xs).flatMap Suffix.figures) := by
  have hgives : (fun _ => false) = Choices.gives {} := by
    funext part
    cases part <;> rfl
  rw [assemble, Noted.notes_bind, hgives]
  refine (Choices.reports_foldlM_add {} xs).append_silent ?_
  rw [Noted.notes_bind, oversized_append, oversized_resolve]
  rfl

/-- A group of dice reports the numbers that are looked at. -/
theorem WrittenDice.reports_check (w : WrittenDice) : Reports w.check.notes w.figures := by
  rw [check, Noted.notes_bind, Noted.notes_bind, figures, ← List.singleton_append]
  refine (reports_checkCount w.count).append ((reports_checkSides w.sides).append ?_)
  by_cases hrange : w.InRange
  · rw [checkCount_of_mem hrange.1, checkSides_of_mem hrange.2, if_pos hrange]
    simp only [Noted.value_pure, Noted.notes_map]
    exact reports_assemble w.suffixes
  · -- without a quantity or without sides the suffixes are not looked at
    rw [if_neg hrange]
    refine .of_silent ?_
    rcases decided_checkCount w.count with ⟨count, hcount⟩ | ⟨m, -, hcount⟩
    · rcases decided_checkSides w.sides with ⟨sides, hsides⟩ | ⟨m, -, hsides⟩
      · have hquantity := (notes_checkCount_eq_nil_iff w.count).1 (by rw [hcount]; rfl)
        have hsides := (notes_checkSides_eq_nil_iff w.sides).1 (by rw [hsides]; rfl)
        exact absurd ⟨hquantity, hsides⟩ hrange
      · rw [hcount, hsides]
        rfl
    · rw [hcount]
      rfl

/-- A term reports its numbers. -/
theorem Fragment.reports_notes (f : Fragment) : Reports f.notes f.figures := by
  unfold notes checkTerm figures
  cases WrittenTerm.ofText? f.chars with
  | none => exact .of_silent rfl
  | some t =>
    cases t with
    | number ds =>
      have hfits : Figure.fits ⟨.literal, ds⟩ = decide ((Numeral.value ds : Int) ≤ maxTotal) := rfl
      show Reports (checkLiteral ds).notes [⟨.literal, ds⟩]
      unfold checkLiteral
      split
      · next h => exact .of_fits (hfits.trans (decide_eq_true h)) rfl
      · next h => exact .of_names (hfits.trans (decide_eq_false h)) (names_digits ⟨.literal, ds⟩)
    | dice w =>
      show Reports (Option.map Term.dice <$> w.check).notes w.figures
      rw [Noted.notes_map]
      exact w.reports_check

/-! ## Numbers that are added up -/

theorem oversized_checkTraitQuantity (o : Option (List Char)) :
    oversized (checkTraitQuantity o).notes = [] := by
  unfold checkTraitQuantity
  split
  · split <;> rfl
  · rfl

theorem reports_checkTraitSides (die : TraitDie) (p : Purpose)
    (hp : p.fits = fun n => decide (n ≤ Noted.maxNumber)) (ds : List Char) :
    Reports (checkTraitSides die ds).notes [⟨p, ds⟩] := by
  refine reports_number_chain (fun n => by rw [hp]) fun n => ?_
  split <;> rfl

namespace TraitDraft

/-- A number among the terms is reported, or else it goes into the sum. -/
theorem reports_addNumber (d : TraitDraft) (s : Sign) {ds : List Char} (hds : IsNumeral ds) :
    let f : Figure := ⟨.added s (d.inline.getD 0), ds⟩
    Reports (d.addNumber s ds).notes [f] ∧
      (d.addNumber s ds).value = if f.fits then
        { d with inline := some (d.inline.getD 0 + s.signed (Numeral.value ds)) } else d := by
  intro f
  have hfits : f.fits = (decide ((Numeral.value ds : Int) ≤ maxTotal) &&
      (s.apply (d.inline.getD 0) (Numeral.value ds)).isSome) := rfl
  rw [addNumber, Noted.notes_bind, Noted.value_bind]
  by_cases hle : (Numeral.value ds : Int) ≤ maxTotal
  · rw [total_of_le hle]
    rw [decide_eq_true hle, Bool.true_and] at hfits
    cases happly : s.apply (d.inline.getD 0) (Numeral.value ds) with
    | none =>
      rw [happly] at hfits
      simp only [Noted.value_pure, Noted.notes_pure, happly, hfits]
      exact ⟨.of_names hfits (names_digits f), rfl⟩
    | some sum =>
      rw [happly] at hfits
      obtain ⟨hsum, -⟩ := total?_eq_some_iff.1 happly
      simp only [Noted.value_pure, Noted.notes_pure, happly, hfits, hsum]
      exact ⟨.of_fits hfits rfl, rfl⟩
  · obtain ⟨digits, htotal, hnames⟩ :=
      exists_refused_total (p := .added s (d.inline.getD 0)) hds rfl (Int.not_le.1 hle)
    rw [decide_eq_false hle, Bool.false_and] at hfits
    rw [htotal, hfits]
    exact ⟨.of_names hfits hnames, rfl⟩

/-- Only of the first dice the sides are looked at. -/
theorem reports_addDice (d : TraitDraft) (f : Fragment) (w : WrittenDice) :
    Reports (d.addDice f w).notes (if d.sides.isSome then [] else [⟨.sides, w.sides⟩]) ∧
      (d.addDice f w).value.sides.isSome ∧ (d.addDice f w).value.inline = d.inline := by
  cases hsides : d.sides with
  | some sides =>
    have hadd : d.addDice f w = ⟨d, [.extraTraitTerm f.text]⟩ := by simp only [addDice, hsides]
    rw [hadd]
    exact ⟨.of_silent rfl, by rw [hsides]; rfl, rfl⟩
  | none =>
    have hadd : d.addDice f w = (do
        checkTraitQuantity w.count
        let sides ← checkTraitSides .trait w.sides
        pure { d with sides := some sides }) := by
      simp only [addDice, hsides]
    rw [hadd, Noted.notes_bind, Noted.notes_bind]
    exact ⟨.silent_append (oversized_checkTraitQuantity w.count)
      ((reports_checkTraitSides .trait .sides rfl w.sides).append_silent rfl), rfl, rfl⟩

/-- The terms of a trait roll report their numbers, and there is a sum if one of them goes in. -/
theorem reports_foldlM_add (d : TraitDraft) (fs : List Fragment) :
    let figures := termFigures d.sides.isSome (d.inline.getD 0) fs
    Reports (fs.foldlM add d).notes figures ∧
      (fs.foldlM add d).value.inline.isSome = (d.inline.isSome || figures.any Figure.counts) := by
  -- the draft carries the sum and whether dice have been met, and each term changes one of them
  induction fs generalizing d with
  | nil => exact ⟨.of_silent rfl, (Bool.or_false _).symm⟩
  | cons f fs ih =>
    rw [List.foldlM_cons, Noted.notes_bind, Noted.value_bind]
    cases hread : WrittenTerm.ofText? f.chars with
    | none =>
      have hadd : d.add f = ⟨d, [.unknownTerm (String.ofList f.chars)]⟩ := by simp only [add, hread]
      obtain ⟨hreports, hinline⟩ := ih d
      simp only [termFigures, hread, hadd]
      exact ⟨.silent_append rfl hreports, hinline⟩
    | some t =>
      cases t with
      | number ds =>
        obtain ⟨-, hds⟩ := ofText?_eq_number_iff.1 hread
        have hadd : d.add f = d.addNumber f.sign ds := by simp only [add, hread]
        obtain ⟨hfirst, hvalue⟩ := d.reports_addNumber f.sign hds
        obtain ⟨hreports, hinline⟩ := ih (d.addNumber f.sign ds).value
        simp only [termFigures, hread, hadd]
        have hcounts : Figure.counts ⟨.added f.sign (d.inline.getD 0), ds⟩ =
            Figure.fits ⟨.added f.sign (d.inline.getD 0), ds⟩ := Bool.true_and _
        cases hfits : Figure.fits ⟨.added f.sign (d.inline.getD 0), ds⟩ with
        | true =>
          rw [hfits, if_pos rfl] at hvalue
          rw [hvalue] at hreports hinline ⊢
          refine ⟨hfirst.append hreports, ?_⟩
          rw [hinline, List.any_cons, hcounts, hfits, Bool.true_or, Bool.or_true]
          rfl
        | false =>
          rw [hfits, if_neg Bool.false_ne_true] at hvalue
          rw [hvalue] at hreports hinline ⊢
          refine ⟨hfirst.append hreports, ?_⟩
          rw [hinline, List.any_cons, hcounts, hfits, Bool.false_or]
          rfl
      | dice w =>
        have hadd : d.add f = d.addDice f w := by simp only [add, hread]
        obtain ⟨hfirst, hmet, hsum⟩ := d.reports_addDice f w
        obtain ⟨hreports, hinline⟩ := ih (d.addDice f w).value
        rw [hmet, hsum] at hreports hinline
        simp only [termFigures, hread, hadd]
        cases hsides : d.sides.isSome with
        | true | false =>
          rw [hsides] at hfirst
          exact ⟨hfirst.append hreports, hinline⟩

end TraitDraft

/-! ## Parts given once -/

section Parts

variable {slots : Slots} {s : List Char}

/-- A target number is reported if it is no total. -/
theorem reports_readTarget (h : slots.All fun ds => CompleteRun ds s) :
    Reports (readTarget slots).notes (figure? .target slots.target) := by
  unfold readTarget
  cases hslot : slots.target with
  | none => exact .of_silent rfl
  | some ds => exact reports_total (h.target ds hslot).isNumeral rfl fun _ => rfl

/-- The number of highest results is reported if it cannot be named. -/
theorem reports_readTargetHighest (slots : Slots) (target : Option Int) :
    Reports (readTargetHighest slots target).notes
      (figure? .targetHighest slots.targetHighest) := by
  unfold readTargetHighest
  cases slots.targetHighest with
  | none => exact .of_silent rfl
  | some ds =>
    refine reports_number_chain (fun _ => rfl) fun n => ?_
    split
    · rfl
    · split <;> rfl

/-- A modifier in parentheses is reported if it is no total. -/
theorem reports_readModifier (h : slots.All fun ds => CompleteRun ds s) :
    Reports (readModifier slots).notes (figure? .modifier (slots.modifier.map Prod.snd)) := by
  unfold readModifier
  cases hslot : slots.modifier with
  | none => exact .of_silent rfl
  | some p =>
    have hdigits := (h.modifier p hslot).isNumeral
    refine (reports_total (p := .modifier) hdigits rfl fun _ => rfl).append_silent ?_
    dsimp only
    split <;> rfl

/-- The modifier in parentheses is looked at if there is no sum to take its place. -/
theorem reports_readTraitModifier (h : slots.All fun ds => CompleteRun ds s) (inline : Option Int) :
    Reports (readTraitModifier slots inline).notes
      (figure? .modifier (if inline.isSome then none else slots.modifier.map Prod.snd)) := by
  unfold readTraitModifier
  cases inline with
  | none => exact reports_readModifier h
  | some sum => exact .of_silent rfl

theorem reports_readWildSides (slots : Slots) :
    Reports (readWildSides slots).notes (figure? .wildDie slots.wildDie) := by
  unfold readWildSides
  cases slots.wildDie with
  | none => exact .of_silent rfl
  | some ds => exact reports_checkTraitSides .wild .wildDie rfl ds

end Parts

/-! ## Outlines -/

/-- The outline of a text is about no number. -/
theorem oversized_ofTokens (ts : List Token) : oversized (Outline.ofTokens ts).notes = [] := by
  have hterm : ∀ d : Draft, oversized d.closeTerm.notes = [] := by
    rintro ⟨exprs, fragments, sign, chars, hadContent⟩
    cases chars <;> cases sign <;> rfl
  have hfill : ∀ {α : Type} (part : SinglePart) (slot : Option α) (a : α),
      oversized (fill part slot a).notes = [] := by
    intro α part slot a
    cases slot <;> rfl
  have hadd : ∀ (o : Outline) (t : Token), oversized (o.add t).notes = [] := by
    intro o t
    cases t <;> simp [Outline.add, hfill, Draft.notes_closeExpr, Draft.notes_startTerm, hterm]
  rw [Outline.ofTokens, Noted.notes_bind, Noted.notes_bind, Draft.notes_closeExpr]
  have hrun : oversized (ts.foldlM Outline.add {}).notes = [] := by
    refine oversized_eq_nil_iff.2 fun m hm => ?_
    obtain ⟨before, t, -, -, hm⟩ := Noted.exists_step_of_mem_notes hm
    exact oversized_eq_nil_iff.1 (hadd _ t) m hm
  simp [hrun, hterm]

/-! ## Bodies -/

/-- The body of a roll reports the numbers that are looked at. -/
theorem reports_readBody (body : List Char) (n : Nat) :
    Reports (readBody body n).notes
      (rollFigures (Slots.ofTokens (tokens body)) (expressions (tokens body))) := by
  have hruns := runs_ofTokens body
  have hwild : oversized (refuseWildDie (Slots.ofTokens (tokens body))).notes = [] := by
    unfold refuseWildDie
    split <;> rfl
  have hrepeated : oversized (repeated (blockOf (tokens body)) n).notes = [] := by
    unfold repeated
    dsimp only
    split <;> rfl
  rw [notes_readBody, slotNotes, rollFigures]
  refine .append_silent (.append (.silent_append (oversized_ofTokens _) ?_) ?_) hrepeated
  · exact (((reports_readTarget hruns).silent_append hwild).append
      (reports_readTargetHighest _ _)).append (reports_readModifier hruns)
  · exact .flatMap fun f _ => f.reports_notes

/-- The body of a trait roll reports the numbers that are looked at. -/
theorem reports_readTraitBody (body : List Char) :
    Reports (readTraitBody body).notes
      (traitFigures (Slots.ofTokens (tokens body)) (expressions (tokens body))) := by
  have hruns := runs_ofTokens body
  have hhighest : oversized (refuseTargetHighest (Slots.ofTokens (tokens body))).notes = [] := by
    unfold refuseTargetHighest
    split <;> rfl
  have hexprs : oversized (refuseExprs (expressions (tokens body)).tail).notes = [] := by
    refine oversized_eq_nil_iff.2 fun m hm => ?_
    obtain ⟨fs, -, rfl⟩ := List.mem_map.1 hm
    rfl
  obtain ⟨hterms, hinline⟩ :=
    TraitDraft.reports_foldlM_add {} ((expressions (tokens body)).head?.getD [])
  rw [Option.isSome_none, Bool.false_or] at hinline
  simp only [readTraitBody, Noted.notes_bind, Noted.notes_pure, List.append_nil,
    Outline.slots_ofTokens, Outline.exprs_ofTokens, traitFigures, List.append_assoc]
  refine .silent_append (oversized_ofTokens _) (.append (reports_readTarget hruns) ?_)
  refine .silent_append hhighest (.append (reports_readWildSides _) (.append hterms ?_))
  refine .silent_append hexprs ?_
  have hmodifier := reports_readTraitModifier hruns
    (((expressions (tokens body)).head?.getD []).foldlM TraitDraft.add {}).value.inline
  rw [hinline] at hmodifier
  exact hmodifier

/-! ## Numbers that are rejected -/

/-- A number takes the sum that it is added to out of the range of totals. -/
def Figure.LeavesRange (f : Figure) : Prop :=
  ∃ sign sum, f.purpose = .added sign sum ∧ sign.apply sum (Numeral.value f.digits) = none

/-- A number that is rejected is larger than any total, or it takes a sum out of their range. -/
theorem Figure.lt_or_leavesRange {f : Figure} (h : f.fits = false) :
    maxTotal < (Numeral.value f.digits : Int) ∨ f.LeavesRange := by
  obtain ⟨p, ds⟩ := f
  cases p with
  | literal | target | modifier => exact .inl (Int.not_le.1 (of_decide_eq_false h))
  | added sign sum =>
    rcases Bool.and_eq_false_iff.1 h with h | h
    · exact .inl (Int.not_le.1 (of_decide_eq_false h))
    · exact .inr ⟨sign, sum, rfl, by simpa using h⟩
  | _ =>
    have hlarge : ¬ Numeral.value ds ≤ Noted.maxNumber := of_decide_eq_false h
    left
    unfold maxTotal
    unfold Noted.maxNumber at hlarge
    show (2147483647 : Int) < (Numeral.value ds : Int)
    omega

/-- Only a number that is added up takes a sum out of the range of totals. -/
theorem Figure.lt_of_not_added {f : Figure} (h : f.fits = false)
    (hadded : f.purpose.isAdded = false) :
    maxTotal < (Numeral.value f.digits : Int) := by
  rcases lt_or_leavesRange h with hlarge | ⟨sign, sum, hpurpose, -⟩
  · exact hlarge
  · rw [hpurpose] at hadded
    cases hadded

/-- What all numbers of a text have is so for those that are reported. -/
theorem Reports.and {ms : List Message} {fs : List Figure} {p : Figure → Prop} (h : Reports ms fs)
    (hfs : ∀ f ∈ fs, p f) :
    List.Forall₂ (fun digits f => (p f ∧ f.fits = false) ∧ Names digits f) (oversized ms)
      (rejected fs) := by
  have hall : ∀ f ∈ rejected fs, p f ∧ f.fits = false := by
    intro f hf
    obtain ⟨hmem, hfits⟩ := mem_rejected.1 hf
    exact ⟨hfs f hmem, hfits⟩
  exact ((List.forall₂_and_left _ _).2 ⟨hall, h.flip⟩).flip

/-- A report tells of a number in a text: it names one that stands there, and that is larger than
any total or takes a sum out of their range. -/
structure TellsOf (body : List Char) (digits : String) (f : Figure) : Prop extends
    Names digits f where
  stands : f.StandsIn body
  large : maxTotal < (Numeral.value digits.toList : Int) ∨ f.LeavesRange

/-! ## Whole texts -/

/-- The numbers that are looked at in the body of a text, unless the text is too long to be read. -/
def figuresOf (figures : Slots → List (List Fragment) → List Figure) (text : String)
    (body : List Char) : List Figure :=
  if maxTextLength < (Text.trim text.toList).length then []
  else figures (Slots.ofTokens (tokens body)) (expressions (tokens body))

theorem mem_figuresOf {figures : Slots → List (List Fragment) → List Figure} {text : String}
    {body : List Char} {f : Figure} (h : f ∈ figuresOf figures text body) :
    f ∈ figures (Slots.ofTokens (tokens body)) (expressions (tokens body)) := by
  unfold figuresOf at h
  split at h
  · cases h
  · exact h

end Written

open Written

/-- The numbers of the text of a roll. -/
def Roll.figures (text : String) : List Figure :=
  figuresOf rollFigures text (bodyOf text)

/-- The messages of a roll report the numbers of its text. -/
theorem Roll.reports_messages (text : String) : Reports (ofText text).messages (figures text) := by
  unfold figures figuresOf
  split
  · next hlong =>
    rw [ofText_of_long hlong]
    exact .of_silent rfl
  · next hshort =>
    rw [(ofText_eq_readBody (Nat.not_lt.1 hshort)).2]
    exact reports_readBody _ _

/-- What is left of the text of a trait roll without its comment. -/
def TraitRoll.bodyOf (text : String) : List Char :=
  (splitComment (Text.normal (Text.trim text.toList))).1

/-- The numbers of the text of a trait roll. -/
def TraitRoll.figures (text : String) : List Figure :=
  figuresOf traitFigures text (bodyOf text)

/-- The messages of a trait roll report the numbers of its text. -/
theorem TraitRoll.reports_messages (text : String) :
    Reports (ofText text).messages (figures text) := by
  unfold figures figuresOf
  split
  · next hlong =>
    rw [ofText_of_long hlong]
    exact .of_silent rfl
  · next hshort =>
    rw [ofText_of_short (Nat.not_lt.1 hshort) (commented_split _)]
    exact reports_readTraitBody _

/-- The messages about numbers that are too large tell of the rejected ones among the numbers of the
text, one by one and in order: by the digits that are written there, a complete run, with all zeros
at its start. Only of a target number, a modifier or a number to be added that is larger than any
total, but can be named in text, it is left open whether zeros at the start are missing. What is
rejected in a roll is larger than any total. In a trait roll it may also be a number that takes the
sum out of the range of totals. -/
theorem too_large_as_written (text : String) :
    List.Forall₂
      (fun digits f => TellsOf (Roll.bodyOf text) digits f ∧
        maxTotal < (Numeral.value digits.toList : Int))
      (oversized (Roll.ofText text).messages) (rejected (Roll.figures text)) ∧
    List.Forall₂ (TellsOf (TraitRoll.bodyOf text)) (oversized (TraitRoll.ofText text).messages)
      (rejected (TraitRoll.figures text)) := by
  constructor
  · have hfigures : ∀ f ∈ Roll.figures text,
        f.StandsIn (Roll.bodyOf text) ∧ f.purpose.isAdded = false := by
      intro f hf
      have hmem := mem_figuresOf hf
      exact ⟨standsIn_of_mem_rollFigures hmem, isAdded_of_mem_rollFigures hmem⟩
    refine ((Roll.reports_messages text).and hfigures).imp fun digits f hf => ?_
    obtain ⟨⟨⟨hstands, hadded⟩, hfits⟩, hnames⟩ := hf
    have hlarge := Figure.lt_of_not_added hfits hadded
    rw [← hnames.value_eq] at hlarge
    exact ⟨⟨hnames, hstands, .inl hlarge⟩, hlarge⟩
  · have hfigures : ∀ f ∈ TraitRoll.figures text, f.StandsIn (TraitRoll.bodyOf text) :=
      fun f hf => standsIn_of_mem_traitFigures (mem_figuresOf hf)
    refine ((TraitRoll.reports_messages text).and hfigures).imp fun digits f hf => ?_
    obtain ⟨⟨hstands, hfits⟩, hnames⟩ := hf
    refine ⟨hnames, hstands, ?_⟩
    rw [hnames.value_eq]
    exact Figure.lt_or_leavesRange hfits

/-- A literal and the sides of dice are named with their zeros. In the trait roll the literal is
added up, and the dice are the trait die. -/
theorem too_large_as_written_of_zeros :
    List.Forall₂
      (fun digits f => TellsOf (Roll.bodyOf "08589934592 + 3d004294967296!>9") digits f ∧
        maxTotal < (Numeral.value digits.toList : Int))
      ["08589934592", "004294967296"]
      [⟨.literal, "08589934592".toList⟩, ⟨.sides, "004294967296".toList⟩] ∧
    List.Forall₂ (TellsOf (TraitRoll.bodyOf "08589934592 + 3d004294967296!>9"))
      ["08589934592", "004294967296"]
      [⟨.added .plus 0, "08589934592".toList⟩, ⟨.sides, "004294967296".toList⟩] := by
  have h := too_large_as_written "08589934592 + 3d004294967296!>9"
  have hroll : oversized (Roll.ofText "08589934592 + 3d004294967296!>9").messages =
      ["08589934592", "004294967296"] := by cbv
  have htrait : oversized (TraitRoll.ofText "08589934592 + 3d004294967296!>9").messages =
      ["08589934592", "004294967296"] := by cbv
  have hfigures : rejected (Roll.figures "08589934592 + 3d004294967296!>9") =
      [⟨.literal, "08589934592".toList⟩, ⟨.sides, "004294967296".toList⟩] := by cbv
  have hterms : rejected (TraitRoll.figures "08589934592 + 3d004294967296!>9") =
      [⟨.added .plus 0, "08589934592".toList⟩, ⟨.sides, "004294967296".toList⟩] := by cbv
  rw [hroll, htrait, hfigures, hterms] at h
  exact h

/-! ## Numbers that are reported otherwise -/

/-- Every number that is rejected is named by all of its digits, and is larger than any total. -/
def ReportedAsWritten (ms : List Message) (fs : List Figure) : Prop :=
  oversized ms = (rejected fs).map (fun f => String.ofList f.digits) ∧
    ∀ digits ∈ oversized ms, maxTotal < (Numeral.value digits.toList : Int)

/-- A number that takes the sum out of the range of totals can be small by itself. A target number
beyond all totals loses its zeros. -/
theorem not_reportedAsWritten :
    ¬ ReportedAsWritten (TraitRoll.ofText "d8+2147483647+1").messages
      (TraitRoll.figures "d8+2147483647+1") ∧
    ¬ ReportedAsWritten (Roll.ofText "t02147483648").messages (Roll.figures "t02147483648") := by
  constructor
  · rintro ⟨-, hlarge⟩
    have hreported : oversized (TraitRoll.ofText "d8+2147483647+1").messages = ["1"] := by cbv
    rw [hreported] at hlarge
    exact absurd (hlarge "1" (.head _)) (by decide)
  · rintro ⟨hwhole, -⟩
    have hreported : oversized (Roll.ofText "t02147483648").messages = ["2147483648"] := by cbv
    have hwritten : (rejected (Roll.figures "t02147483648")).map
        (fun f => String.ofList f.digits) = ["02147483648"] := by cbv
    rw [hreported, hwritten] at hwhole
    exact absurd hwhole (by decide)

end TabletopDice
