import TabletopDice.Proofs.ExactTotal
import TabletopDice.Proofs.Grammar

/-!
# The grammar of trait rolls

The texts that stand for a trait roll, with the trait roll that each stands for, said without the
reader. The terms of the one expression are taken one after the other: each number goes into a sum
that must stay within the range of totals, and only the first die is used. Main statements: such a
text is read as this trait roll (`ofText_of_traitStandsFor`), and every other text leaves a message
(`silent_ofText_iff`).
-/

namespace TabletopDice.Written

/-! ## Terms -/

/-- A term of a trait roll: a number with its sign, or the sides of a die. -/
inductive TraitTerm where
  | number (n : Int)
  | die (sides : Nat)
deriving DecidableEq, Repr

/-- A fragment spells a term of a trait roll: a numeral that is a total, or dice with a quantity of
one, if any, and with allowed sides. The suffixes of the dice and the sign before them have no
meaning. -/
inductive SpellsTrait : Fragment → TraitTerm → Prop where
  | number {s : Sign} {ds : List Char} (numeral : IsNumeral ds)
      (fits : (Numeral.value ds : Int) ≤ maxTotal) :
      SpellsTrait ⟨s, ds⟩ (.number (s.signed (Numeral.value ds)))
  | die {s : Sign} {w : WrittenDice} (spelled : w.WellSpelled) (single : numberOrOne w.count = 1)
      (allowed : Numeral.value w.sides ∈ traitSides) :
      SpellsTrait ⟨s, w.chars⟩ (.die (Numeral.value w.sides))

/-- The numbers among some terms, in order. -/
def numbersOf (ts : List TraitTerm) : List Int :=
  ts.filterMap fun
    | .number n => some n
    | .die _ => none

/-- The sides of the dice among some terms, in order. -/
def sidesOf (ts : List TraitTerm) : List Nat :=
  ts.filterMap fun
    | .number _ => none
    | .die sides => some sides

theorem mem_traitSides_le {n : Nat} (h : n ∈ traitSides) : n ≤ Noted.maxNumber := by
  have hall : ∀ n ∈ traitSides, n ≤ Noted.maxNumber := by decide
  exact hall n h

/-- Sides are taken silently exactly if a trait roll allows them. -/
theorem notes_checkTraitSides_eq_nil_iff (die : TraitDie) (ds : List Char) :
    (checkTraitSides die ds).notes = [] ↔ Numeral.value ds ∈ traitSides :=
  Noted.notes_number_chain_ite_eq_nil_iff (fun _ => mem_traitSides_le) _ _

theorem checkTraitSides_of_mem (die : TraitDie) {ds : List Char}
    (h : Numeral.value ds ∈ traitSides) :
    checkTraitSides die ds = pure (some (Numeral.value ds)) :=
  Noted.number_chain_ite_of (fun _ => mem_traitSides_le) _ _ h

/-- A quantity is taken silently exactly if it is one. -/
theorem notes_checkTraitQuantity_eq_nil_iff (o : Option (List Char)) :
    (checkTraitQuantity o).notes = [] ↔ numberOrOne o = 1 := by
  cases o with
  | none => simp [checkTraitQuantity, numberOrOne]
  | some ds =>
    unfold checkTraitQuantity numberOrOne
    dsimp only
    split <;> simp_all

/-! ## Terms one after the other -/

namespace TraitDraft

/-- Terms met so far can be followed by one more: by a number that keeps the sum in range, or by a
die if there was none. -/
def Takes (d : TraitDraft) : TraitTerm → Prop
  | .number n => IsTotal (d.inline.getD 0 + n)
  | .die _ => d.sides = none

/-- The terms with one more. -/
def take (d : TraitDraft) : TraitTerm → TraitDraft
  | .number n => { d with inline := some (d.inline.getD 0 + n) }
  | .die sides => { d with sides := d.sides.or (some (some sides)) }

/-- A fragment that spells a term is added silently if the term can follow. -/
theorem add_of_spells {d : TraitDraft} {f : Fragment} {t : TraitTerm} (h : SpellsTrait f t)
    (ht : d.Takes t) : d.add f = pure (d.take t) := by
  cases h with
  | @number s ds numeral fits =>
    have hsum : s.apply (d.inline.getD 0) (Numeral.value ds) =
        some (d.inline.getD 0 + s.signed (Numeral.value ds)) := total?_of_isTotal ht
    have hread : WrittenTerm.ofText? ds = some (.number ds) :=
      ofText?_eq_number_iff.2 ⟨rfl, numeral⟩
    unfold add
    simp only [hread]
    rw [addNumber, total_of_le fits, pure_bind]
    simp only [hsum]
    rfl
  | @die s w spelled single allowed =>
    have hsides : d.sides = none := ht
    have hquantity := Noted.eq_pure_of_notes ((notes_checkTraitQuantity_eq_nil_iff _).2 single)
    have hread : WrittenTerm.ofText? w.chars = some (.dice w) :=
      ofText?_eq_dice_iff.2 ⟨rfl, spelled⟩
    unfold add
    simp only [hread]
    unfold addDice
    simp only [hsides]
    rw [hquantity, pure_bind, checkTraitSides_of_mem _ allowed, pure_bind, take, hsides]
    rfl

/-- Only a fragment that spells a term which can follow is added silently. -/
theorem exists_term_of_notes {d : TraitDraft} {f : Fragment} (h : (d.add f).notes = []) :
    ∃ t, SpellsTrait f t ∧ d.Takes t := by
  obtain ⟨s, cs⟩ := f
  unfold add at h
  split at h
  · next ds hds =>
    obtain ⟨rfl, hnumeral⟩ := ofText?_eq_number_iff.1 hds
    rw [addNumber, Noted.notes_bind, List.append_eq_nil_iff, notes_total_eq_nil_iff] at h
    obtain ⟨hle, hrest⟩ := h
    rw [total_of_le hle] at hrest
    refine ⟨_, .number hnumeral hle, ?_⟩
    by_contra hsum
    have hnone : s.apply (d.inline.getD 0) (Numeral.value cs) = none := total?_of_not_isTotal hsum
    simp [hnone] at hrest
  · next w hw =>
    obtain ⟨rfl, hspelled⟩ := ofText?_eq_dice_iff.1 hw
    unfold addDice at h
    split at h
    · simp at h
    · next hsides =>
      simp only [Noted.notes_bind, Noted.notes_pure, List.append_nil, List.append_eq_nil_iff,
        notes_checkTraitQuantity_eq_nil_iff, notes_checkTraitSides_eq_nil_iff] at h
      exact ⟨_, .die hspelled h.1 h.2, hsides⟩
  · simp at h

/-- Terms met so far can be followed by these: at most one of all is a die, and the sum stays in
range after every number. -/
def TakesAll (d : TraitDraft) (ts : List TraitTerm) : Prop :=
  AtMostOne d.sides ((sidesOf ts).map some) ∧ SumsFrom (d.inline.getD 0) (numbersOf ts)

theorem takesAll_nil {d : TraitDraft} (hd : IsTotal (d.inline.getD 0)) : d.TakesAll [] := by
  refine ⟨?_, sumsFrom_nil.2 hd⟩
  cases h : d.sides <;> simp [AtMostOne, sidesOf]

/-- Terms follow one after the other. -/
theorem takesAll_cons {d : TraitDraft} (hd : IsTotal (d.inline.getD 0)) {t : TraitTerm}
    {ts : List TraitTerm} : d.TakesAll (t :: ts) ↔ d.Takes t ∧ (d.take t).TakesAll ts := by
  cases t with
  | number n =>
    show AtMostOne d.sides ((sidesOf ts).map some) ∧
        SumsFrom (d.inline.getD 0) (n :: numbersOf ts) ↔
      IsTotal (d.inline.getD 0 + n) ∧ AtMostOne d.sides ((sidesOf ts).map some) ∧
        SumsFrom (d.inline.getD 0 + n) (numbersOf ts)
    rw [sumsFrom_cons]
    -- the sum before the number is in range already, so only the one after it is in question
    constructor
    · rintro ⟨hone, -, hsums⟩
      exact ⟨hsums.isTotal, hone, hsums⟩
    · rintro ⟨-, hone, hsums⟩
      exact ⟨hone, hd, hsums⟩
  | die sides =>
    show AtMostOne d.sides (some sides :: (sidesOf ts).map some) ∧ _ ↔ d.sides = none ∧ _ ∧ _
    rw [atMostOne_cons, and_assoc]
    rfl

/-- The running sum stays a total. -/
theorem isTotal_take {d : TraitDraft} (hd : IsTotal (d.inline.getD 0)) {t : TraitTerm}
    (ht : d.Takes t) : IsTotal ((d.take t).inline.getD 0) := by
  cases t with
  | number n => exact ht
  | die sides => exact hd

/-- Terms without a fault are taken one after the other. -/
theorem foldlM_add_of_spells {fs : List Fragment} {ts : List TraitTerm}
    (h : List.Forall₂ SpellsTrait fs ts) {d : TraitDraft} (hd : IsTotal (d.inline.getD 0))
    (hts : d.TakesAll ts) : fs.foldlM add d = pure (ts.foldl take d) := by
  -- the draft grows with every fragment and keeps a sum that is in range
  induction h generalizing d with
  | nil => rfl
  | @cons f t fs ts hf _ ih =>
    obtain ⟨ht, hrest⟩ := (takesAll_cons hd).1 hts
    rw [List.foldlM_cons, add_of_spells hf ht, pure_bind]
    exact ih (isTotal_take hd ht) hrest

/-- Only terms without a fault are taken silently. -/
theorem exists_terms_of_notes {fs : List Fragment} {d : TraitDraft}
    (hd : IsTotal (d.inline.getD 0)) (h : (fs.foldlM add d).notes = []) :
    ∃ ts, List.Forall₂ SpellsTrait fs ts ∧ d.TakesAll ts := by
  induction fs generalizing d with
  | nil => exact ⟨[], .nil, takesAll_nil hd⟩
  | cons f fs ih =>
    rw [List.foldlM_cons, Noted.notes_bind, List.append_eq_nil_iff] at h
    obtain ⟨t, hf, ht⟩ := exists_term_of_notes h.1
    rw [add_of_spells hf ht, Noted.notes_pure, Noted.value_pure] at h
    obtain ⟨ts, hfs, hts⟩ := ih (isTotal_take hd ht) h.2
    exact ⟨t :: ts, .cons hf hfs, (takesAll_cons hd).2 ⟨ht, hts⟩⟩

/-- The first die is used, unless there was one before. -/
theorem sides_foldl_take (d : TraitDraft) (ts : List TraitTerm) :
    (ts.foldl take d).sides = d.sides.or ((sidesOf ts).head?.map some) := by
  induction ts generalizing d with
  | nil => simp [sidesOf]
  | cons t ts ih =>
    rw [List.foldl_cons, ih]
    cases t with
    | number n => rfl
    | die sides =>
      show (d.sides.or (some (some sides))).or _ = d.sides.or (some (some sides))
      cases d.sides <;> rfl

/-- All numbers go into the sum. -/
theorem inline_foldl_take (d : TraitDraft) (ts : List TraitTerm) :
    (ts.foldl take d).inline =
      if numbersOf ts = [] then d.inline else some (d.inline.getD 0 + (numbersOf ts).sum) := by
  induction ts generalizing d with
  | nil => rfl
  | cons t ts ih =>
    rw [List.foldl_cons, ih]
    cases t with
    | number n =>
      show (if numbersOf ts = [] then some (d.inline.getD 0 + n)
          else some (d.inline.getD 0 + n + (numbersOf ts).sum)) =
        some (d.inline.getD 0 + (n :: numbersOf ts).sum)
      rw [List.sum_cons, ← Int.add_assoc]
      split
      · next hnil => rw [hnil, List.sum_nil, Int.add_zero]
      · rfl
    | die sides => rfl

end TraitDraft

/-! ## Parts given once -/

/-- A number of highest results has no place in a trait roll. -/
theorem notes_refuseTargetHighest_eq_nil_iff (slots : Slots) :
    (refuseTargetHighest slots).notes = [] ↔ slots.targetHighest = none := by
  unfold refuseTargetHighest
  cases slots.targetHighest <;> simp

/-- The sides of a wild die are read silently exactly if a trait roll allows them. -/
theorem notes_readWildSides_eq_nil_iff (slots : Slots) :
    (readWildSides slots).notes = [] ↔ ∀ ds ∈ slots.wildDie, Numeral.value ds ∈ traitSides := by
  unfold readWildSides
  cases slots.wildDie with
  | none => simp
  | some ds => simp [notes_checkTraitSides_eq_nil_iff]

/-- Allowed sides of a wild die are used. -/
theorem readWildSides_of_mem {slots : Slots}
    (h : ∀ ds ∈ slots.wildDie, Numeral.value ds ∈ traitSides) :
    readWildSides slots = pure (slots.wildDie.map Numeral.value) := by
  unfold readWildSides
  cases hslot : slots.wildDie with
  | none => rfl
  | some ds => exact checkTraitSides_of_mem _ (h ds hslot)

/-- Further expressions have no place in a trait roll. -/
theorem notes_refuseExprs_eq_nil_iff (exprs : List (List Fragment)) :
    (refuseExprs exprs).notes = [] ↔ exprs = [] :=
  List.map_eq_nil_iff

/-- The modifier in parentheses is not even looked at if there are numbers among the terms. -/
theorem notes_readTraitModifier_eq_nil_iff (slots : Slots) (inline : Option Int) :
    (readTraitModifier slots inline).notes = [] ↔
      (inline = none → ∀ p ∈ slots.modifier, (Numeral.value p.2 : Int) ≤ maxTotal) := by
  unfold readTraitModifier
  cases inline with
  | none => simp [notes_readModifier_eq_nil_iff]
  | some sum => simp

/-- The sum of the numbers takes the place of the modifier in parentheses. -/
theorem readTraitModifier_of_le {slots : Slots} {inline : Option Int}
    (h : inline = none → ∀ p ∈ slots.modifier, (Numeral.value p.2 : Int) ≤ maxTotal) :
    readTraitModifier slots inline =
      pure (inline.or (slots.modifier.map fun p => p.1.signed (Numeral.value p.2))) := by
  unfold readTraitModifier
  cases inline with
  | none => exact readModifier_of_le (h rfl)
  | some sum => rfl

/-! ## The body of a text -/

/-- What can be given only once is given at most once and is in range, no number of highest results
is given, every sign has text behind it, and the fragments of the only expression spell these terms.
Of the terms at most one is a die, and the partial sums of the numbers stay within the range of
totals. The modifier in parentheses matters only without numbers. -/
structure TraitGrammatical (ts : List Token) (terms : List TraitTerm) : Prop where
  one_target : (targets ts).length ≤ 1
  no_highest : highests ts = []
  one_modifier : (modifiers ts).length ≤ 1
  one_wild_die : (wildDice ts).length ≤ 1
  target : ∀ ds ∈ targets ts, (Numeral.value ds : Int) ≤ maxTotal
  wild_die : ∀ ds ∈ wildDice ts, Numeral.value ds ∈ traitSides
  signs : Followed (phrases ts)
  one_expr : (expressions ts).length ≤ 1
  spelled : List.Forall₂ SpellsTrait (expressions ts).flatten terms
  one_die : (sidesOf terms).length ≤ 1
  sums : SumsFrom 0 (numbersOf terms)
  modifier : numbersOf terms = [] → ∀ p ∈ modifiers ts, (Numeral.value p.2 : Int) ≤ maxTotal

/-- The trait roll that tokens stand for whose expression spells some terms. -/
def traitRollOf (ts : List Token) (terms : List TraitTerm) : TraitRoll where
  traitDie := .exploding ((sidesOf terms).head?.getD TraitDie.trait.defaultSides)
  wildDie := .exploding (((wildDice ts).head?.map Numeral.value).getD TraitDie.wild.defaultSides)
  target := ((targets ts).head?.map fun ds => (Numeral.value ds : Int)).getD defaultTarget
  modifier :=
    if numbersOf terms = [] then
      (modifiers ts).head?.map fun p => p.1.signed (Numeral.value p.2)
    else some (numbersOf terms).sum

/-- Of a list with one entry at most the first entry is all there is. -/
theorem flatten_of_length_le_one {α : Type} {xss : List (List α)} (h : xss.length ≤ 1) :
    xss.flatten = xss.head?.getD [] := by
  match xss, h with
  | [], _ => rfl
  | [xs], _ => exact List.append_nil xs

theorem isTotal_empty : IsTotal (({} : TraitDraft).inline.getD 0) :=
  RolledExpr.isTotal_zero

/-- Before any term nothing has been met. -/
theorem takesAll_empty_iff {terms : List TraitTerm} :
    TraitDraft.TakesAll {} terms ↔ (sidesOf terms).length ≤ 1 ∧ SumsFrom 0 (numbersOf terms) := by
  simp [TraitDraft.TakesAll, AtMostOne]

/-- What comes of terms that are all that there is. -/
theorem foldl_take_empty (terms : List TraitTerm) :
    terms.foldl TraitDraft.take {} =
      { sides := (sidesOf terms).head?.map some
        inline := if numbersOf terms = [] then none else some (numbersOf terms).sum } := by
  have hsides := TraitDraft.sides_foldl_take {} terms
  have hinline := TraitDraft.inline_foldl_take {} terms
  rw [Option.none_or] at hsides
  rw [Option.getD_none, Int.zero_add] at hinline
  rw [← hsides, ← hinline]

/-- Text without a fault is read as the trait roll that it stands for. -/
theorem readTraitBody_of_grammatical {body : List Char} {terms : List TraitTerm}
    (h : TraitGrammatical (tokens body) terms) :
    readTraitBody body = pure (traitRollOf (tokens body) terms) := by
  have houtline : (Outline.ofTokens (tokens body)).notes = [] := by
    refine (Outline.notes_ofTokens_eq_nil_iff _).2
      ⟨⟨h.one_target, ?_, h.one_modifier, h.one_wild_die⟩, h.signs⟩
    rw [h.no_highest]
    exact Nat.zero_le 1
  have htarget :
      ∀ ds ∈ (Slots.ofTokens (tokens body)).target, (Numeral.value ds : Int) ≤ maxTotal :=
    fun ds hds => h.target ds ((mem_head?_iff_of_length_le_one h.one_target).1 hds)
  have hhighest : (refuseTargetHighest (Slots.ofTokens (tokens body))).notes = [] := by
    rw [notes_refuseTargetHighest_eq_nil_iff, Slots.ofTokens, h.no_highest]
    rfl
  have hwild : ∀ ds ∈ (Slots.ofTokens (tokens body)).wildDie, Numeral.value ds ∈ traitSides :=
    fun ds hds => h.wild_die ds ((mem_head?_iff_of_length_le_one h.one_wild_die).1 hds)
  have hterms := TraitDraft.foldlM_add_of_spells h.spelled isTotal_empty
    (takesAll_empty_iff.2 ⟨h.one_die, h.sums⟩)
  rw [flatten_of_length_le_one h.one_expr, foldl_take_empty] at hterms
  have hexprs : (refuseExprs (expressions (tokens body)).tail).notes = [] := by
    rw [notes_refuseExprs_eq_nil_iff, ← List.length_eq_zero_iff, List.length_tail]
    have hone := h.one_expr
    omega
  -- only without a sum of numbers is the modifier in parentheses looked at
  have hmodifier : (if numbersOf terms = [] then none else some (numbersOf terms).sum) = none →
      ∀ p ∈ (Slots.ofTokens (tokens body)).modifier, (Numeral.value p.2 : Int) ≤ maxTotal := by
    intro hnone p hp
    refine h.modifier ?_ p ((mem_head?_iff_of_length_le_one h.one_modifier).1 hp)
    by_contra hne
    rw [if_neg hne] at hnone
    cases hnone
  unfold readTraitBody
  rw [Noted.eq_pure_of_notes houtline]
  simp only [pure_bind, Outline.slots_ofTokens, Outline.exprs_ofTokens]
  rw [readTarget_of_le htarget, pure_bind, Noted.eq_pure_of_notes hhighest, pure_bind,
    readWildSides_of_mem hwild, pure_bind, hterms, pure_bind, Noted.eq_pure_of_notes hexprs,
    pure_bind, readTraitModifier_of_le hmodifier, pure_bind, traitRollOf]
  have hjoin : ((sidesOf terms).head?.map some).join = (sidesOf terms).head? := by
    cases (sidesOf terms).head? <;> rfl
  by_cases hnil : numbersOf terms = []
  · simp only [if_pos hnil, hjoin]
    rfl
  · simp only [if_neg hnil, hjoin]
    rfl

/-- Only text without a fault is read silently. -/
theorem exists_grammatical_of_notes {body : List Char} (h : (readTraitBody body).notes = []) :
    ∃ terms, TraitGrammatical (tokens body) terms := by
  simp only [readTraitBody, Noted.notes_bind, Noted.notes_pure, List.append_nil,
    List.append_eq_nil_iff, Outline.slots_ofTokens, Outline.exprs_ofTokens] at h
  obtain ⟨houtline, htarget, hhighest, hwild, hterms, hexprs, hmodifier⟩ := h
  obtain ⟨⟨hone, -, honeModifier, honeWild⟩, hsigns⟩ :=
    (Outline.notes_ofTokens_eq_nil_iff _).1 houtline
  have hhighest : highests (tokens body) = [] :=
    List.head?_eq_none_iff.1 ((notes_refuseTargetHighest_eq_nil_iff _).1 hhighest)
  have honeExpr : (expressions (tokens body)).length ≤ 1 := by
    rw [notes_refuseExprs_eq_nil_iff, ← List.length_eq_zero_iff, List.length_tail] at hexprs
    omega
  obtain ⟨terms, hspelled, htakes⟩ :=
    TraitDraft.exists_terms_of_notes isTotal_empty hterms
  -- what the terms amount to decides whether the modifier was looked at
  rw [TraitDraft.foldlM_add_of_spells hspelled isTotal_empty htakes, foldl_take_empty,
    Noted.value_pure, notes_readTraitModifier_eq_nil_iff] at hmodifier
  obtain ⟨honeDie, hsums⟩ := takesAll_empty_iff.1 htakes
  refine ⟨terms, hone, hhighest, honeModifier, honeWild, ?_, ?_, hsigns, honeExpr, ?_, honeDie,
    hsums, ?_⟩
  · intro ds hds
    exact (notes_readTarget_eq_nil_iff _).1 htarget ds ((mem_head?_iff_of_length_le_one hone).2 hds)
  · intro ds hds
    exact (notes_readWildSides_eq_nil_iff _).1 hwild ds
      ((mem_head?_iff_of_length_le_one honeWild).2 hds)
  · rw [flatten_of_length_le_one honeExpr]
    exact hspelled
  · intro hnil p hp
    exact hmodifier (if_pos hnil) p ((mem_head?_iff_of_length_le_one honeModifier).2 hp)

/-! ## Whole texts -/

/-- A text stands for a trait roll: it is short, and what is left of it without its comment is
grammatical. -/
inductive TraitStandsFor (text : String) : TraitRoll → Prop where
  | intro {body : List Char} {comment : Option String} {terms : List TraitTerm}
      (short : (Text.trim text.toList).length ≤ maxTextLength)
      (commented : Commented (Text.normal (Text.trim text.toList)) body comment)
      (grammatical : TraitGrammatical (tokens body) terms) :
      TraitStandsFor text { traitRollOf (tokens body) terms with comment := comment, raw := text }

end TabletopDice.Written

namespace TabletopDice.TraitRoll

open Written

/-- A text is read as the trait roll that it stands for. -/
theorem ofText_of_traitStandsFor {text : String} {t : TraitRoll} (h : TraitStandsFor text t) :
    ofText text = t := by
  obtain ⟨short, commented, grammatical⟩ := h
  rw [ofText_of_short short commented, readTraitBody_of_grammatical grammatical]
  rfl

/-- A text that is read silently stands for a trait roll. -/
theorem exists_traitStandsFor_of_messages {text : String} (h : (ofText text).messages = []) :
    ∃ t, TraitStandsFor text t := by
  by_cases hlong : maxTextLength < (Text.trim text.toList).length
  · rw [ofText_of_long hlong] at h
    cases h
  · have hshort := Nat.not_lt.1 hlong
    have hcommented := commented_split (Text.normal (Text.trim text.toList))
    rw [ofText_of_short hshort hcommented] at h
    obtain ⟨terms, hgrammatical⟩ := exists_grammatical_of_notes h
    exact ⟨_, .intro hshort hcommented hgrammatical⟩

/-- A text is read without a message exactly when it stands for a trait roll, and then it is read as
this trait roll. -/
theorem silent_ofText_iff (text : String) :
    ((ofText text).messages = [] ↔ ∃ t, TraitStandsFor text t) ∧
      ∀ t, TraitStandsFor text t → ofText text = t := by
  refine ⟨⟨exists_traitStandsFor_of_messages, ?_⟩, fun t => ofText_of_traitStandsFor⟩
  rintro ⟨t, ht⟩
  rw [ofText_of_traitStandsFor ht]
  cases ht
  rfl

/-- A text with two numbers, dice with a meaningless sign and suffix, and a modifier that is too
large but not looked at. -/
theorem silent_ofText_of_every_part :
    (ofText "3 - 1d8kh5 - 4 wd10 t6 (2147483648) \"luck\"").messages = [] ∧
    ∃ t, TraitStandsFor "3 - 1d8kh5 - 4 wd10 t6 (2147483648) \"luck\"" t ∧
      t = { ofSides 8 10 with
        target := 6, modifier := some (-1), comment := some "luck"
        raw := "3 - 1d8kh5 - 4 wd10 t6 (2147483648) \"luck\"" } := by
  have hsilent : (ofText "3 - 1d8kh5 - 4 wd10 t6 (2147483648) \"luck\"").messages = [] := by cbv
  obtain ⟨hiff, hread⟩ := silent_ofText_iff "3 - 1d8kh5 - 4 wd10 t6 (2147483648) \"luck\""
  obtain ⟨t, ht⟩ := hiff.1 hsilent
  refine ⟨hsilent, t, ht, ?_⟩
  rw [← hread t ht]
  cbv

end TabletopDice.TraitRoll
