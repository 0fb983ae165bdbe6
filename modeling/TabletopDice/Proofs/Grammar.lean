import Mathlib
import TabletopDice.Written.Roll
import TabletopDice.Proofs.FaultlessDice
import TabletopDice.Proofs.LayoutSpelling
import TabletopDice.Proofs.OutlineParts

/-!
# The grammar of rolls

The texts that stand for a roll, with the roll that each stands for, said without the reader. Main
statements: such a text is read as this roll (`ofText_of_standsFor`), and every other text leaves a
message (`messages_ofText_eq_nil_iff`).
-/

namespace TabletopDice.Written

/-! ## Expressions -/

/-- A fragment spells a signed term. -/
def Fragment.Spells (f : Fragment) (p : Sign × Term) : Prop :=
  p.1 = f.sign ∧ Written.Spells f.chars p.2

/-- Fragments spell an expression, one term each. -/
def SpellsExpr (fs : List Fragment) (e : Expr) : Prop :=
  List.Forall₂ Fragment.Spells fs e.terms

/-- Tokens spell a list of expressions, one between any two separators where there is one at all.
Tokens that belong to no expression spell the standard one. -/
def SpellsBlock (ts : List Token) (block : List Expr) : Prop :=
  if ts.any Token.isContent then List.Forall₂ SpellsExpr (expressions ts) block
  else block = [standardExpr]

/-- Fragments that spell terms are read as these. -/
theorem readTerms_of_spells {fs : List Fragment} {ps : List (Sign × Term)}
    (h : List.Forall₂ Fragment.Spells fs ps) : readTerms fs = pure ps := by
  induction h with
  | nil => rfl
  | @cons f p fs ps hp hps ih =>
    obtain ⟨sign, term⟩ := p
    obtain ⟨rfl, hterm⟩ := hp
    simp [readTerms, checkTerm_of_spells hterm, ih]

/-- Fragments are read silently exactly when they spell terms. -/
theorem notes_readTerms_eq_nil_iff (fs : List Fragment) :
    (readTerms fs).notes = [] ↔ ∃ ps, List.Forall₂ Fragment.Spells fs ps := by
  constructor
  · intro h
    induction fs with
    | nil => exact ⟨[], .nil⟩
    | cons f fs ih =>
      simp only [readTerms, Noted.notes_bind, Noted.notes_pure, List.append_nil,
        List.append_eq_nil_iff] at h
      obtain ⟨t, ht⟩ := (notes_checkTerm_eq_nil_iff f.chars).1 h.1
      obtain ⟨ps, hps⟩ := ih h.2
      exact ⟨(f.sign, t) :: ps, .cons ⟨rfl, ht⟩ hps⟩
  · rintro ⟨ps, hps⟩
    rw [readTerms_of_spells hps, Noted.notes_pure]

/-- Fragments that spell expressions are read as these. -/
theorem readExprs_of_spells {fss : List (List Fragment)} {es : List Expr}
    (hne : ∀ fs ∈ fss, fs ≠ []) (h : List.Forall₂ SpellsExpr fss es) : readExprs fss = pure es := by
  induction h with
  | nil => rfl
  | @cons fs e fss es he hes ih =>
    obtain ⟨terms⟩ := e
    have hterms : terms ≠ [] := by
      rintro rfl
      cases he
      exact hne [] (.head _) rfl
    simp [readExprs, readTerms_of_spells he, ih fun fs hfs => hne fs (.tail _ hfs), hterms]

/-- Lists of fragments are read silently exactly when they spell expressions. -/
theorem notes_readExprs_eq_nil_iff (fss : List (List Fragment)) :
    (readExprs fss).notes = [] ↔ ∃ es, List.Forall₂ SpellsExpr fss es := by
  induction fss with
  | nil => simp [readExprs]
  | cons fs fss ih =>
    simp only [readExprs, Noted.notes_bind, Noted.notes_pure, List.append_nil,
      List.append_eq_nil_iff, notes_readTerms_eq_nil_iff, ih]
    constructor
    · rintro ⟨⟨ps, hps⟩, es, hes⟩
      exact ⟨⟨ps⟩ :: es, .cons hps hes⟩
    · rintro ⟨es, hes⟩
      cases hes with
      | cons he hes => exact ⟨⟨_, he⟩, _, hes⟩

/-- No expression is without a fragment. -/
theorem ne_nil_of_mem_expressions {ts : List Token} {fs : List Fragment}
    (h : fs ∈ expressions ts) : fs ≠ [] := by
  have hkeep := (List.mem_filter.1 h).2
  simpa using hkeep

/-- Tokens that belong to no expression leave no fragments. -/
theorem expressions_of_not_isContent {ts : List Token} (h : ts.any Token.isContent = false) :
    expressions ts = [] := by
  induction ts with
  | nil => rfl
  | cons t ts ih =>
    rw [List.any_cons, Bool.or_eq_false_iff] at h
    obtain ⟨ht, hts⟩ := h
    obtain ⟨p, ps, hp⟩ := exists_phrases_eq_cons ts
    have ih := ih hts
    rw [expressions, hp, List.map_cons] at ih
    cases t with
    | separator =>
      rw [expressions, phrases_separator, hp]
      exact ih
    | sign s => cases ht
    | text cs => cases ht
    | _ =>
      rw [expressions, phrases_cons rfl hp]
      exact ih

/-! ## Parts given once -/

theorem le_maxNumber_of_total {n : Nat} (h : (n : Int) ≤ maxTotal) : n ≤ Noted.maxNumber := by
  unfold maxTotal at h
  unfold Noted.maxNumber
  omega

/-- A number is taken for a total silently exactly when it is not too large. -/
theorem notes_total_eq_nil_iff (ds : List Char) :
    (Noted.total ds).notes = [] ↔ (Numeral.value ds : Int) ≤ maxTotal :=
  Noted.notes_number_chain_ite_eq_nil_iff (fun _ => le_maxNumber_of_total) _ _

/-- A number that is no larger than any total is one. -/
theorem total_of_le {ds : List Char} (h : (Numeral.value ds : Int) ≤ maxTotal) :
    Noted.total ds = pure (some (Numeral.value ds : Int)) :=
  Noted.number_chain_ite_of (fun _ => le_maxNumber_of_total) _ _ h

/-- Neither sign takes a number out of the range of totals that it was in without. -/
theorem apply_zero_of_le {s : Sign} {n : Nat} (h : (n : Int) ≤ maxTotal) :
    s.apply 0 n = some (s.signed n) := by
  unfold maxTotal at h
  refine total?_eq_some_iff.2 ⟨Int.zero_add _, ?_⟩
  unfold minTotal maxTotal
  cases s with
  | plus =>
    rw [Sign.signed_plus]
    omega
  | minus =>
    rw [Sign.signed_minus]
    omega

/-- The number of highest results is at least one, and there is a target number to compare them
with. -/
def HighestFits (target : Option Int) (n : Nat) : Prop :=
  1 ≤ n ∧ n ≤ Noted.maxNumber ∧ target.isSome

/-- A target number is read silently exactly if it is a total. -/
theorem notes_readTarget_eq_nil_iff (slots : Slots) :
    (readTarget slots).notes = [] ↔ ∀ ds ∈ slots.target, (Numeral.value ds : Int) ≤ maxTotal := by
  unfold readTarget
  cases slots.target with
  | none => simp
  | some ds => simp [notes_total_eq_nil_iff]

theorem readTarget_of_le {slots : Slots}
    (h : ∀ ds ∈ slots.target, (Numeral.value ds : Int) ≤ maxTotal) :
    readTarget slots = pure (slots.target.map fun ds => (Numeral.value ds : Int)) := by
  unfold readTarget
  cases hslot : slots.target with
  | none => rfl
  | some ds => exact total_of_le (h ds hslot)

/-- The number of highest results is read silently exactly if it fits. -/
theorem notes_readTargetHighest_eq_nil_iff (slots : Slots) (target : Option Int) :
    (readTargetHighest slots target).notes = [] ↔
      ∀ ds ∈ slots.targetHighest, HighestFits target (Numeral.value ds) := by
  unfold readTargetHighest
  cases slots.targetHighest with
  | none => simp
  | some ds =>
    simp only [Noted.number_chain, Option.mem_some_iff, forall_eq', HighestFits]
    by_cases hlarge : Numeral.value ds ≤ Noted.maxNumber
    · by_cases hzero : Numeral.value ds = 0
      · simp [hzero, Noted.refuse]
      · cases target <;> simp [hzero, hlarge, Noted.refuse]
        omega
    · simp [hlarge, Noted.refuse]

theorem readTargetHighest_of_fits {slots : Slots} {target : Option Int}
    (h : ∀ ds ∈ slots.targetHighest, HighestFits target (Numeral.value ds)) :
    readTargetHighest slots target = pure (slots.targetHighest.map Numeral.value) := by
  unfold readTargetHighest
  cases hslot : slots.targetHighest with
  | none => rfl
  | some ds =>
    obtain ⟨hpos, hlarge, htarget⟩ := h ds hslot
    have hzero : Numeral.value ds ≠ 0 := by omega
    have hnone : ¬ target.isNone := by
      obtain ⟨t, rfl⟩ := Option.isSome_iff_exists.1 htarget
      simp
    simp only [Noted.number_chain, if_pos hlarge, if_neg hzero, if_neg hnone, Option.map_some]

/-- A modifier is read silently exactly if it is a total. -/
theorem notes_readModifier_eq_nil_iff (slots : Slots) :
    (readModifier slots).notes = [] ↔
      ∀ p ∈ slots.modifier, (Numeral.value p.2 : Int) ≤ maxTotal := by
  unfold readModifier
  cases slots.modifier with
  | none => simp
  | some p =>
    simp only [Noted.chain, Noted.notes_bind, List.append_eq_nil_iff, Option.mem_some_iff,
      forall_eq', notes_total_eq_nil_iff]
    constructor
    · intro h
      exact h.1
    · intro h
      refine ⟨h, ?_⟩
      split <;> rfl

theorem readModifier_of_le {slots : Slots}
    (h : ∀ p ∈ slots.modifier, (Numeral.value p.2 : Int) ≤ maxTotal) :
    readModifier slots = pure (slots.modifier.map fun p => p.1.signed (Numeral.value p.2)) := by
  unfold readModifier
  cases hslot : slots.modifier with
  | none => rfl
  | some p =>
    have hp := h p hslot
    simp only [total_of_le hp, Noted.pure_chain, apply_zero_of_le hp, Option.map_some]

/-- A wild die has no place in a roll. -/
theorem notes_refuseWildDie_eq_nil_iff (slots : Slots) :
    (refuseWildDie slots).notes = [] ↔ slots.wildDie = none := by
  unfold refuseWildDie
  cases slots.wildDie <;> simp

/-! ## Repetition -/

/-- Expressions are repeated silently exactly when this does not make too many groups of dice. -/
theorem notes_repeated_eq_nil_iff (block : List Expr) (n : Nat) :
    (repeated block n).notes = [] ↔ Expr.totalGroups block * n ≤ maxDiceGroups := by
  unfold repeated
  dsimp only
  have hcap : maxDiceGroups < maxReported := by decide
  split
  · simp only [Noted.notes_pure, true_iff]
    omega
  · simp only [List.cons_ne_self, false_iff]
    omega

/-- A block is repeated as long as there are not too many groups of dice. -/
theorem repeated_of_le {block : List Expr} {n : Nat}
    (h : Expr.totalGroups block * n ≤ maxDiceGroups) :
    repeated block n = pure (List.replicate (min n maxCopies) block).flatten :=
  if_pos (Nat.le_trans (Nat.min_le_right _ _) h)

/-- If the repetition makes too many groups of dice, no expressions are left. -/
theorem repeated_of_lt {block : List Expr} {n : Nat}
    (h : maxDiceGroups < Expr.totalGroups block * n) :
    repeated block n =
      ⟨[], [.tooManyDiceGroups (min maxReported (Expr.totalGroups block * n))]⟩ := by
  have hcap : maxDiceGroups < maxReported := by decide
  exact if_neg (Nat.not_le.2 (Nat.lt_min.2 ⟨hcap, h⟩))

/-! ## The body of a text -/

/-- What can be given only once is given at most once and is in range, no wild die is given, and
every sign has text behind it. -/
structure Grammatical (ts : List Token) : Prop where
  one_target : (targets ts).length ≤ 1
  one_highest : (highests ts).length ≤ 1
  one_modifier : (modifiers ts).length ≤ 1
  no_wild_die : wildDice ts = []
  target : ∀ ds ∈ targets ts, (Numeral.value ds : Int) ≤ maxTotal
  highest : ∀ ds ∈ highests ts,
    1 ≤ Numeral.value ds ∧ Numeral.value ds ≤ Noted.maxNumber ∧ targets ts ≠ []
  modifier : ∀ p ∈ modifiers ts, (Numeral.value p.2 : Int) ≤ maxTotal
  signs : Followed (phrases ts)

/-- The roll that tokens stand for which spell a block of expressions, repeated `n` times. -/
def rollOf (ts : List Token) (block : List Expr) (n : Nat) : Roll where
  exprs := (List.replicate (min n maxCopies) block).flatten
  target := (targets ts).head?.map fun ds => (Numeral.value ds : Int)
  targetHighest := (highests ts).head?.map Numeral.value
  modifier := (modifiers ts).head?.map fun p => p.1.signed (Numeral.value p.2)

/-- Of a list with one entry at most the first one is the only one. -/
theorem mem_head?_iff_of_length_le_one {α : Type} {xs : List α} (h : xs.length ≤ 1) {a : α} :
    a ∈ xs.head? ↔ a ∈ xs := by
  match xs, h with
  | [], _ => simp
  | [x], _ => simp [eq_comm]

theorem isSome_target_iff {ts : List Token} :
    ((targets ts).head?.map fun ds => (Numeral.value ds : Int)).isSome ↔ targets ts ≠ [] := by
  cases targets ts <;> simp

/-- Every part that is given once is read silently exactly when it is in range. -/
theorem slots_fit_iff {ts : List Token} (hone : (targets ts).length ≤ 1)
    (hhighest : (highests ts).length ≤ 1) (hmodifier : (modifiers ts).length ≤ 1) :
    ((∀ ds ∈ (targets ts).head?, (Numeral.value ds : Int) ≤ maxTotal) ∧
      (∀ ds ∈ (highests ts).head?, HighestFits
        ((targets ts).head?.map fun ds => (Numeral.value ds : Int)) (Numeral.value ds)) ∧
      ∀ p ∈ (modifiers ts).head?, (Numeral.value p.2 : Int) ≤ maxTotal) ↔
    ((∀ ds ∈ targets ts, (Numeral.value ds : Int) ≤ maxTotal) ∧
      (∀ ds ∈ highests ts,
        1 ≤ Numeral.value ds ∧ Numeral.value ds ≤ Noted.maxNumber ∧ targets ts ≠ []) ∧
      ∀ p ∈ modifiers ts, (Numeral.value p.2 : Int) ≤ maxTotal) := by
  simp only [mem_head?_iff_of_length_le_one hone, mem_head?_iff_of_length_le_one hhighest,
    mem_head?_iff_of_length_le_one hmodifier, HighestFits, isSome_target_iff]

/-- A block of expressions is read from what spells it. -/
theorem readExprs_of_spellsBlock {ts : List Token} {block : List Expr}
    (h : SpellsBlock ts block) :
    ∃ written, readExprs (expressions ts) = pure written ∧
      (if ts.any Token.isContent then written else [standardExpr]) = block := by
  unfold SpellsBlock at h
  split at h
  · next hcontent =>
    exact ⟨block, readExprs_of_spells (fun fs => ne_nil_of_mem_expressions) h, if_pos hcontent⟩
  · next hcontent =>
    refine ⟨[], ?_, by rw [if_neg hcontent, h]⟩
    rw [expressions_of_not_isContent (Bool.eq_false_iff.2 hcontent)]
    rfl

/-- Text without a fault is read as the block that it spells, with the parts given once. -/
theorem readBlock_of_grammatical {body : List Char} {block : List Expr}
    (h : Grammatical (tokens body)) (hblock : SpellsBlock (tokens body) block) :
    readBlock body = pure { rollOf (tokens body) block 1 with exprs := block } := by
  have houtline : (Outline.ofTokens (tokens body)).notes = [] := by
    refine (Outline.notes_ofTokens_eq_nil_iff _).2
      ⟨⟨h.one_target, h.one_highest, h.one_modifier, ?_⟩, h.signs⟩
    rw [h.no_wild_die]
    exact Nat.zero_le 1
  have hwild : (refuseWildDie (Slots.ofTokens (tokens body))).notes = [] := by
    rw [notes_refuseWildDie_eq_nil_iff, Slots.ofTokens, h.no_wild_die]
    rfl
  obtain ⟨htarget, hhighest, hmodifier⟩ :=
    (slots_fit_iff h.one_target h.one_highest h.one_modifier).2 ⟨h.target, h.highest, h.modifier⟩
  obtain ⟨written, hwritten, rfl⟩ := readExprs_of_spellsBlock hblock
  unfold readBlock
  rw [Noted.eq_pure_of_notes houtline]
  simp only [pure_bind, Outline.slots_ofTokens, Outline.exprs_ofTokens,
    Outline.hadContent_ofTokens]
  rw [Noted.eq_pure_of_notes hwild, readTarget_of_le htarget, pure_bind, pure_bind,
    readTargetHighest_of_fits hhighest, pure_bind, readModifier_of_le hmodifier, pure_bind,
    hwritten, pure_bind]
  rfl

/-- Text without a fault is read as the roll that it stands for. -/
theorem readBody_of_grammatical {body : List Char} {block : List Expr} {n : Nat}
    (h : Grammatical (tokens body)) (hblock : SpellsBlock (tokens body) block)
    (hgroups : Expr.totalGroups block * n ≤ maxDiceGroups) :
    readBody body n = pure (rollOf (tokens body) block n) := by
  rw [readBody, readBlock_of_grammatical h hblock, pure_bind, repeated_of_le hgroups, pure_bind]
  rfl

/-- Expressions that are read silently are spelled. -/
theorem spellsBlock_of_notes {ts : List Token}
    (h : (readExprs (expressions ts)).notes = []) :
    SpellsBlock ts
      (if ts.any Token.isContent then (readExprs (expressions ts)).value else [standardExpr]) := by
  unfold SpellsBlock
  split
  · obtain ⟨es, hes⟩ := (notes_readExprs_eq_nil_iff _).1 h
    rw [readExprs_of_spells (fun fs => ne_nil_of_mem_expressions) hes]
    exact hes
  · rfl

/-- A block is read silently only from text without a fault, which spells it. -/
theorem grammatical_of_notes {body : List Char} (h : (readBlock body).notes = []) :
    Grammatical (tokens body) ∧ SpellsBlock (tokens body) (readBlock body).value.exprs := by
  simp only [readBlock, Noted.notes_bind, Noted.notes_pure, List.append_nil,
    List.append_eq_nil_iff, Outline.slots_ofTokens, Outline.exprs_ofTokens] at h
  obtain ⟨houtline, hwild, htarget, hhighest, hmodifier, hwritten⟩ := h
  obtain ⟨⟨hone, honeHighest, honeModifier, -⟩, hsigns⟩ :=
    (Outline.notes_ofTokens_eq_nil_iff _).1 houtline
  have hwild : wildDice (tokens body) = [] :=
    List.head?_eq_none_iff.1 ((notes_refuseWildDie_eq_nil_iff _).1 hwild)
  have htarget := (notes_readTarget_eq_nil_iff _).1 htarget
  rw [readTarget_of_le htarget] at hhighest
  obtain ⟨htarget, hhighest, hmodifier⟩ := (slots_fit_iff hone honeHighest honeModifier).1
    ⟨htarget, (notes_readTargetHighest_eq_nil_iff _ _).1 hhighest,
      (notes_readModifier_eq_nil_iff _).1 hmodifier⟩
  refine ⟨⟨hone, honeHighest, honeModifier, hwild, htarget, hhighest, hmodifier, hsigns⟩, ?_⟩
  simp only [readBlock, Noted.value_bind, Noted.value_pure, Outline.exprs_ofTokens,
    Outline.hadContent_ofTokens]
  exact spellsBlock_of_notes hwritten

/-- Only text without a fault is read silently. -/
theorem exists_block_of_notes {body : List Char} {n : Nat} (h : (readBody body n).notes = []) :
    Grammatical (tokens body) ∧ ∃ block, SpellsBlock (tokens body) block ∧
      Expr.totalGroups block * n ≤ maxDiceGroups := by
  rw [readBody, Noted.notes_bind, Noted.notes_bind, Noted.notes_pure, List.append_nil,
    List.append_eq_nil_iff] at h
  obtain ⟨hblock, hgroups⟩ := h
  obtain ⟨hgrammatical, hspelled⟩ := grammatical_of_notes hblock
  exact ⟨hgrammatical, _, hspelled, (notes_repeated_eq_nil_iff _ _).1 hgroups⟩

/-! ## Whole texts -/

/-- A text stands for a roll: it is short, and what is left of it without its repetition and its
comment is grammatical and spells expressions that have not too many groups of dice together. -/
inductive StandsFor (text : String) : Roll → Prop where
  | intro {rest body : List Char} {n : Nat} {comment : Option String} {block : List Expr}
      (short : (Text.trim text.toList).length ≤ maxTextLength)
      (repetition : Repeats (Text.trim text.toList) rest n)
      (commented : Commented (Text.normal rest) body comment)
      (grammatical : Grammatical (tokens body))
      (spelled : SpellsBlock (tokens body) block)
      (groups : Expr.totalGroups block * n ≤ maxDiceGroups) :
      StandsFor text { rollOf (tokens body) block n with comment := comment, raw := text }

end TabletopDice.Written

namespace TabletopDice.Roll

open Written

/-- A text is read as the roll that it stands for. -/
theorem ofText_of_standsFor {text : String} {r : Roll} (h : StandsFor text r) :
    ofText text = r := by
  obtain ⟨short, repetition, commented, grammatical, spelled, groups⟩ := h
  rw [ofText_of_short short repetition commented,
    readBody_of_grammatical grammatical spelled groups]
  rfl

/-- A text that is read silently stands for a roll. -/
theorem exists_standsFor_of_messages {text : String} (h : (ofText text).messages = []) :
    ∃ r, StandsFor text r := by
  unfold ofText at h
  dsimp only at h
  split at h
  · simp at h
  · next short =>
    obtain ⟨grammatical, block, spelled, groups⟩ := exists_block_of_notes h
    exact ⟨_, .intro (Nat.not_lt.1 short) (repeats_split _) (commented_split _) grammatical spelled
      groups⟩

/-- A text is read without a message exactly when it stands for a roll, and then it is read as this
roll. -/
theorem messages_ofText_eq_nil_iff (text : String) :
    ((ofText text).messages = [] ↔ ∃ r, StandsFor text r) ∧
      ∀ r, StandsFor text r → ofText text = r := by
  refine ⟨⟨exists_standsFor_of_messages, ?_⟩, fun r => ofText_of_standsFor⟩
  rintro ⟨r, hr⟩
  rw [ofText_of_standsFor hr]
  cases hr
  rfl

/-- A text with every part that a roll can have stands for a roll. -/
theorem messages_ofText_of_every_part :
    (ofText "2d6!>5kh + 1 t7 th1 (-3) \"luck\" x2").messages = [] ∧
    ∃ r, StandsFor "2d6!>5kh + 1 t7 th1 (-3) \"luck\" x2" r ∧ r.exprs.length = 2 ∧
      r.comment = some "luck" := by
  have hsilent : (ofText "2d6!>5kh + 1 t7 th1 (-3) \"luck\" x2").messages = [] := by cbv
  obtain ⟨hiff, hread⟩ := messages_ofText_eq_nil_iff "2d6!>5kh + 1 t7 th1 (-3) \"luck\" x2"
  obtain ⟨r, hr⟩ := hiff.1 hsilent
  refine ⟨hsilent, r, hr, ?_⟩
  rw [← hread r hr]
  cbv

end TabletopDice.Roll
