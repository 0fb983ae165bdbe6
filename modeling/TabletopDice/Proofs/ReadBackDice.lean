import Mathlib
import TabletopDice.Proofs.ComposedRolls
import TabletopDice.Proofs.ParsedRoll
import TabletopDice.Proofs.PrintedRoll
import TabletopDice.Proofs.RolledGroups
import TabletopDice.Proofs.SortedFaces

/-!
# Reading back the text of dice

A group that is built by hand can have any numbers, and its selections can stand in any order. Where
nothing is reported about its text, the group that is read differs from it in three things at most:
a threshold equal to the sides is read as none, selections are put in the order of their kinds, and
a count of zero is read as one. Main statement: only the last of these makes a difference when the
groups are rolled (`roll_read_back`).
-/

namespace TabletopDice

/-! ## Texts that are read back -/

namespace Written

theorem repeats_of_mem_termAlphabet {s : List Char} (h : ∀ c ∈ s, c ∈ termAlphabet) :
    Repeats s s 1 := by
  refine .once fun rest ds hends => ?_
  obtain ⟨x, before, after, hx, -, -, -, hs⟩ := hends
  have hmem : x ∈ s := by
    rw [hs]
    simp
  obtain ⟨-, hsmall, hcapital, -⟩ := termAlphabet_facts x (h x hmem)
  exact hx.elim hsmall hcapital

theorem commented_of_mem_termAlphabet {s : List Char} (h : ∀ c ∈ s, c ∈ termAlphabet) :
    Commented s s none := by
  refine .plain ?_
  rw [count_quote_eq_zero fun c hc => (termAlphabet_facts c (h c hc)).2.2.2]
  exact Nat.zero_le 1

/-- Text of nothing but characters of terms is a single token. -/
theorem tokens_of_mem_termAlphabet {s : List Char} (hne : s ≠ []) (h : ∀ c ∈ s, c ∈ termAlphabet) :
    tokens s = [.text s] := by
  have hs := tokens_plain_append (r := []) hne (fun c hc => (termAlphabet_facts c (h c hc)).1.2.2)
    (by simp)
  rwa [List.append_nil, tokens_nil] at hs

/-- A single text spells a single term. -/
theorem exists_term_of_spellsBlock_text {cs : List Char} (hne : cs ≠ []) {block : List Expr}
    (h : SpellsBlock [.text cs] block) : ∃ t, Spells cs t ∧ block = [⟨[(.plus, t)]⟩] := by
  have hexpressions : expressions [.text cs] = [[⟨.plus, cs⟩]] := by
    have hphrases : phrases [.text cs] = [[.text cs]] := phrases_cons rfl phrases_nil
    simp [expressions, hphrases, fragments, written, nonempty, textToSign, signedTexts, hne]
  have hcontent : [Token.text cs].any Token.isContent = true := rfl
  rw [SpellsBlock, if_pos hcontent, hexpressions, List.forall₂_cons_left_iff] at h
  obtain ⟨⟨terms⟩, es, hterms, hes, rfl⟩ := h
  obtain ⟨⟨sign, t⟩, ts, ⟨rfl, ht⟩, hts, rfl⟩ := List.forall₂_cons_left_iff.1 hterms
  obtain rfl := List.forall₂_nil_left_iff.1 hes
  obtain rfl := List.forall₂_nil_left_iff.1 hts
  exact ⟨t, ht, rfl⟩

/-- If the text of dice spells a term, then these dice without their faults. -/
theorem eq_dice_of_spells_text {d : Dice} {t : Term} (h : Spells d.text.toList t) :
    (writtenDice d).Faultless ∧ t = .dice (writtenDice d).toDice := by
  rw [toList_diceText] at h
  have hwritten : WrittenTerm.ofText? (writtenDice d).chars = some (.dice (writtenDice d)) :=
    ofText?_eq_dice_iff.2 ⟨rfl, wellSpelled_writtenDice d⟩
  have hnotes := (notes_checkTerm_eq_nil_iff _).2 ⟨t, h⟩
  simp only [checkTerm, hwritten, Noted.notes_map] at hnotes
  have hfaultless := (notes_check_eq_nil_iff _).1 hnotes
  exact ⟨hfaultless, h.unique (.dice (wellSpelled_writtenDice d) hfaultless)⟩

end Written

open Written

/-- If the text of dice is read silently it is read as one group, the dice as they are written. -/
theorem exprs_ofText_diceText {d : Dice} (h : (Roll.ofText d.text).messages = []) :
    (writtenDice d).Faultless ∧
      (Roll.ofText d.text).exprs = [⟨[(.plus, .dice (writtenDice d).toDice)]⟩] := by
  have hall : ∀ c ∈ d.text.toList, c ∈ termAlphabet := by
    rw [toList_diceText]
    exact fun c => (wellSpelled_writtenDice d).mem_termAlphabet
  have hne : d.text.toList ≠ [] := by
    rw [toList_diceText]
    simp [WrittenDice.chars]
  have htrim : Text.trim d.text.toList = d.text.toList := (framed_of_mem_termAlphabet hne hall).trim
  by_cases hshort : (Text.trim d.text.toList).length ≤ maxTextLength
  · have hrepeats : Repeats (Text.trim d.text.toList) d.text.toList 1 := by
      rw [htrim]
      exact repeats_of_mem_termAlphabet hall
    have hcommented : Commented (Text.normal d.text.toList) d.text.toList none := by
      rw [normal_of_mem_termAlphabet hall]
      exact commented_of_mem_termAlphabet hall
    rw [Roll.ofText_of_short hshort hrepeats hcommented] at h ⊢
    obtain ⟨hgrammatical, block, hspelled, hgroups⟩ := exists_block_of_notes h
    rw [readBody_of_grammatical hgrammatical hspelled hgroups]
    rw [tokens_of_mem_termAlphabet hne hall] at hspelled
    obtain ⟨t, ht, rfl⟩ := exists_term_of_spellsBlock_text hne hspelled
    obtain ⟨hfaultless, rfl⟩ := eq_dice_of_spells_text ht
    exact ⟨hfaultless, rfl⟩
  · rw [Roll.ofText_of_long (Nat.lt_of_not_le hshort)] at h
    cases h

/-! ## Selections that are read back -/

namespace Selection

/-- The selection that is read back. Its text leaves out a count of zero, which stands for one. -/
def readBack (s : Selection) : Selection :=
  { s with count := max 1 s.count }

/-- The count as it is written is the one that is read back. -/
theorem numberOrOne_eq_readBack (s : Selection) :
    numberOrOne (if 1 < s.count then some (Numeral.ofNat s.count) else none) =
      s.readBack.count := by
  show _ = max 1 s.count
  split
  · next h => rw [numberOrOne_ofNat, Nat.max_eq_right (Nat.le_of_lt h)]
  · next h => rw [Nat.max_eq_left (Nat.le_of_not_lt h)]; rfl

end Selection

/-- Of selections that have every kind at most once, those that are the first of their kind are
all. -/
theorem perm_firsts {xs : List Selection}
    (h : ∀ kind, (xs.filter fun s => s.kind = kind).length ≤ 1) :
    (Kind.all.filterMap fun kind => (xs.filter fun s => s.kind = kind).head?).Perm xs := by
  have hnodup : xs.Nodup := by
    refine List.nodup_iff_count_le_one.2 fun s => ?_
    have hsub : List.count s xs ≤ (xs.filter fun s' => s'.kind = s.kind).length := by
      rw [List.count, ← List.countP_eq_length_filter]
      exact List.countP_mono_left fun s' _ heq => by simp [eq_of_beq heq]
    exact hsub.trans (h s.kind)
  have hfirst : ∀ kind s,
      s ∈ (xs.filter fun s => s.kind = kind).head? ↔ s ∈ xs ∧ s.kind = kind := by
    intro kind s
    rw [mem_head?_iff_of_length_le_one (h kind), List.mem_filter, decide_eq_true_iff]
  have hfirsts : (Kind.all.filterMap fun kind =>
      (xs.filter fun s => s.kind = kind).head?).Nodup := by
    refine List.Nodup.filterMap (fun kind kind' s hs hs' => ?_) (by decide)
    rw [← ((hfirst kind s).1 hs).2, ((hfirst kind' s).1 hs').2]
  refine (List.perm_ext_iff_of_nodup hfirsts hnodup).2 fun s => ?_
  rw [List.mem_filterMap]
  constructor
  · rintro ⟨kind, -, hs⟩
    exact ((hfirst kind s).1 hs).1
  · intro hs
    exact ⟨s.kind, s.kind.mem_all, (hfirst _ s).2 ⟨hs, rfl⟩⟩

namespace Dice

variable {d : Dice}

/-- The selections that are read are those of the group, as they are read back, in the order of
their kinds. -/
theorem selections_toDice_writtenDice (h : (writtenDice d).Faultless) :
    (writtenDice d).toDice.selections.Perm (d.selections.map Selection.readBack) := by
  have hfilter : ∀ kind, (d.selections.map Selection.readBack).filter (fun s => s.kind = kind) =
      (d.selections.filter fun s => s.kind = kind).map Selection.readBack := by
    intro kind
    rw [List.filter_map]
    rfl
  have hone : ∀ kind,
      ((d.selections.map Selection.readBack).filter fun s => s.kind = kind).length ≤ 1 := by
    intro kind
    have hcounts := h.suffixes.one_selection kind
    rw [countsOf_writtenDice, List.length_map] at hcounts
    rwa [hfilter, List.length_map]
  have hfirst : ∀ kind, ((countsOf kind (writtenDice d).suffixes).head?.map fun n =>
      (⟨kind, numberOrOne n⟩ : Selection)) =
      ((d.selections.map Selection.readBack).filter fun s => s.kind = kind).head? := by
    intro kind
    rw [hfilter, countsOf_writtenDice, List.head?_map, List.head?_map, Option.map_map]
    refine Option.map_congr fun s hs => ?_
    have hkind : s.kind = kind :=
      of_decide_eq_true (List.mem_filter.1 (List.mem_of_mem_head? hs)).2
    rw [Function.comp_apply, s.numberOrOne_eq_readBack, ← hkind]
    rfl
  have hfirsts := perm_firsts hone
  simp only [← hfirst] at hfirsts
  exact hfirsts

end Dice

/-- How the selections of a group are read back: one that keeps dice alone, and those that drop dice
with the higher end in front. -/
inductive ReadAs (count : Nat) : List Selection → List Selection → Prop where
  | none : ReadAs count [] []
  | keep {kind : Kind} {k : Nat} (keeps : kind.isKeep) (le : max 1 k ≤ count) :
      ReadAs count [⟨kind, k⟩] [⟨kind, max 1 k⟩]
  | drop {kind : Kind} {k : Nat} (drops : kind.isKeep = false) (lt : max 1 k < count) :
      ReadAs count [⟨kind, k⟩] [⟨kind, max 1 k⟩]
  | dropBoth {h l : Nat} (lt : max 1 h + max 1 l < count) :
      ReadAs count [⟨.dropHigh, h⟩, ⟨.dropLow, l⟩] [⟨.dropHigh, max 1 h⟩, ⟨.dropLow, max 1 l⟩]
  | dropSwapped {h l : Nat} (lt : max 1 h + max 1 l < count) :
      ReadAs count [⟨.dropLow, l⟩, ⟨.dropHigh, h⟩] [⟨.dropHigh, max 1 h⟩, ⟨.dropLow, max 1 l⟩]

theorem readAs_of_perm {count : Nat} {xs ys : List Selection} (hys : ValidSelections count ys)
    (h : ys.Perm (xs.map Selection.readBack)) : ReadAs count xs ys := by
  cases hys with
  | none =>
    rw [List.nil_perm, List.map_eq_nil_iff] at h
    rw [h]
    exact .none
  | keep keeps pos le =>
    obtain ⟨⟨kind, k⟩, rfl, heq⟩ := List.map_eq_singleton_iff.1 (List.singleton_perm.1 h).symm
    cases heq
    exact .keep keeps le
  | drop drops pos lt =>
    obtain ⟨⟨kind, k⟩, rfl, heq⟩ := List.map_eq_singleton_iff.1 (List.singleton_perm.1 h).symm
    cases heq
    exact .drop drops lt
  | dropBoth high_pos low_pos lt =>
    rcases List.pair_perm.1 h with heq | heq
    · obtain ⟨⟨kind, a⟩, rest, rfl, hhigh, hrest⟩ := List.map_eq_cons_iff.1 heq
      obtain ⟨⟨kind', b⟩, rfl, hlow⟩ := List.map_eq_singleton_iff.1 hrest
      cases hhigh
      cases hlow
      exact .dropBoth lt
    · obtain ⟨⟨kind, a⟩, rest, rfl, hlow, hrest⟩ := List.map_eq_cons_iff.1 heq
      obtain ⟨⟨kind', b⟩, rfl, hhigh⟩ := List.map_eq_singleton_iff.1 hrest
      cases hhigh
      cases hlow
      exact .dropSwapped lt

section

variable {count : Nat} {xs ys : List Selection}

/-- Without a count of zero the same ranks are left. -/
theorem ReadAs.after_eq (h : ReadAs count xs ys) (hpos : ∀ s ∈ xs, s.count ≠ 0) :
    Span.after ⟨0, count⟩ xs = Span.after ⟨0, count⟩ ys := by
  cases h with
  | none => rfl
  | @keep kind k keeps le =>
    rw [Nat.max_eq_right (Nat.one_le_iff_ne_zero.2 (hpos _ (.head _)))]
  | @drop kind k drops lt =>
    rw [Nat.max_eq_right (Nat.one_le_iff_ne_zero.2 (hpos _ (.head _)))]
  | @dropBoth h l lt =>
    rw [Nat.max_eq_right (Nat.one_le_iff_ne_zero.2 (hpos _ (.head _))),
      Nat.max_eq_right (Nat.one_le_iff_ne_zero.2 (hpos _ (.tail _ (.head _))))]
  | @dropSwapped h l lt =>
    simp only [Span.after, List.foldl_cons, List.foldl_nil, Span.narrow, Span.mk.injEq]
    have hl := hpos _ (.head _)
    have hh := hpos _ (.tail _ (.head _))
    dsimp only at hl hh
    omega

/-- With a count of zero another number of dice is left. -/
theorem ReadAs.leftOf_ne (h : ReadAs count xs ys) (hzero : ∃ s ∈ xs, s.count = 0) :
    leftOf count xs ≠ leftOf count ys := by
  obtain ⟨s, hs, hzero⟩ := hzero
  cases h with
  | none => cases hs
  | @keep kind k keeps le =>
    obtain rfl := List.mem_singleton.1 hs
    simp only [leftOf, List.foldl_cons, List.foldl_nil, Selection.left]
    dsimp only at hzero
    cases kind
    case keepHigh | keepLow => dsimp only; omega
    case dropHigh | dropLow => cases keeps
  | @drop kind k drops lt =>
    obtain rfl := List.mem_singleton.1 hs
    simp only [leftOf, List.foldl_cons, List.foldl_nil, Selection.left]
    dsimp only at hzero
    cases kind
    case keepHigh | keepLow => cases drops
    case dropHigh | dropLow => dsimp only; omega
  | @dropBoth h l lt =>
    simp only [List.mem_cons, List.not_mem_nil, or_false] at hs
    simp only [leftOf, List.foldl_cons, List.foldl_nil, Selection.left]
    rcases hs with rfl | rfl <;> dsimp only at hzero <;> omega
  | @dropSwapped h l lt =>
    simp only [List.mem_cons, List.not_mem_nil, or_false] at hs
    simp only [leftOf, List.foldl_cons, List.foldl_nil, Selection.left]
    rcases hs with rfl | rfl <;> dsimp only at hzero <;> omega

end

/-! ## Groups that are alike -/

namespace RolledDice

variable {r r' g g' : RolledDice} {ss ss' : List Selection}

/-- Which dice of a group count. -/
def mask (r : RolledDice) : List Bool :=
  r.rolls.map Die.isKept

/-- What the dice of a group show, whether they count or not. -/
def shown (r : RolledDice) : List (Nat × List Nat) :=
  r.rolls.map fun die => (die.value, die.draws)

theorem length_kept_eq_count (r : RolledDice) : r.kept.length = r.mask.count true := by
  rw [length_kept, mask, List.count, List.countP_map]
  exact List.countP_congr fun die _ => by simp

/-- Among the same number of dice those that are ranked tell which dice count. -/
theorem mask_eq_of_ascending {order : List Nat} (h : Ascending rankKey r.rolls order)
    (h' : Ascending rankKey r'.rolls order) (hlength : r.rolls.length = r'.rolls.length) :
    r.mask = r'.mask := by
  refine List.ext_getElem (by rw [mask, mask, List.length_map, List.length_map, hlength]) ?_
  intro i hi hi'
  have hranked := (h.mem_iff i).symm.trans (h'.mem_iff i)
  rw [isSome_keyAt_rankKey_iff, isSome_keyAt_rankKey_iff] at hranked
  rw [mask, List.length_map] at hi hi'
  have hsome : r.rolls[i].isKept ↔ r'.rolls[i].isKept := by
    simpa [List.getElem?_eq_getElem hi, List.getElem?_eq_getElem hi'] using hranked
  simp only [mask, List.getElem_map]
  exact Bool.eq_iff_iff.2 hsome

/-- Selections that leave the same ranks leave the same dice. -/
theorem mask_eq_of_after_eq (hrolls : r.rolls = r'.rolls)
    (h : Span.after ⟨0, r.kept.length⟩ ss = Span.after ⟨0, r.kept.length⟩ ss')
    (hg : r.applyAll ss = .ok g) (hg' : r'.applyAll ss' = .ok g') :
    g.mask = g'.mask ∧ g.keptSum = g'.keptSum := by
  have hkept : r.kept = r'.kept := by rw [kept, kept, hrolls]
  have hranked := ascending_of_applyAll hg
  have hranked' := ascending_of_applyAll hg'
  rw [h, hkept, hrolls] at hranked
  have hlength : g.rolls.length = g'.rolls.length := by
    have hshown := congrArg List.length (map_rolls_of_applyAll (f := Die.value) (fun _ _ => rfl) hg)
    have hshown' := congrArg List.length
      (map_rolls_of_applyAll (f := Die.value) (fun _ _ => rfl) hg')
    simp only [List.length_map] at hshown hshown'
    rw [hshown, hshown', hrolls]
  refine ⟨mask_eq_of_ascending hranked hranked' hlength, ?_⟩
  rw [keptSum_of_applyAll hg, keptSum_of_applyAll hg', sortedValues, sortedValues, h, hkept]

end RolledDice

/-! ## Runs that are alike -/

section Runs

variable {σ ε α β : Type} {R : α → β → Prop}

/-- Both runs end with values that are related, or with the same failure, or without answers. -/
inductive Ending.Alike (R : α → β → Prop) : Ending ε α → Ending ε β → Prop where
  | value {a : α} {b : β} (related : R a b) : Alike R (.value a) (.value b)
  | failed (e : ε) : Alike R (.failed e) (.failed e)
  | exhausted : Alike R .exhausted .exhausted

/-- Two runs draw the same answers, leave the roller in the same state and end alike. -/
structure Run.Alike (R : α → β → Prop) (run : Run σ ε α) (run' : Run σ ε β) : Prop where
  draws : run.draws = run'.draws
  state : run.state = run'.state
  ending : Ending.Alike R run.ending run'.ending

theorem Run.Alike.mono {R' : α → β → Prop} {run : Run σ ε α} {run' : Run σ ε β}
    (h : run.Alike R run') (hR : ∀ a b, R a b → R' a b) : run.Alike R' run' := by
  obtain ⟨ending, draws, state⟩ := run
  obtain ⟨ending', draws', state'⟩ := run'
  obtain ⟨hdraws, hstate, hending⟩ := h
  refine ⟨hdraws, hstate, ?_⟩
  dsimp only at hending ⊢
  cases hending with
  | value related => exact .value (hR _ _ related)
  | failed e => exact .failed e
  | exhausted => exact .exhausted

/-- A roll goes on alike if what follows a value without drawing is alike. -/
theorem Roller.alike_run_bind {γ : Type} {roller : Roller σ} {s : σ} {t : Rolling ε γ}
    {f : γ → Except ε α} {f' : γ → Except ε β}
    (h : ∀ vs c, Rolling.Path t vs (.ok c) → ∃ a b, f c = .ok a ∧ f' c = .ok b ∧ R a b) :
    (roller.run (t >>= fun c => Rolling.ofExcept (f c)) s).Alike R
      (roller.run (t >>= fun c => Rolling.ofExcept (f' c)) s) := by
  rw [run_andThen, run_andThen]
  cases hfirst : (roller.run t s).ending with
  | value c =>
    obtain ⟨a, b, ha, hb, hab⟩ := h _ c (Rolling.path_of_value hfirst)
    rw [Run.andThen_of_value hfirst, Run.andThen_of_value hfirst, run_ofExcept, run_ofExcept, ha,
      hb]
    exact ⟨rfl, rfl, .value hab⟩
  | failed e =>
    rw [Run.andThen, Run.andThen, hfirst]
    exact ⟨rfl, rfl, .failed e⟩
  | exhausted =>
    rw [Run.andThen, Run.andThen, hfirst]
    exact ⟨rfl, rfl, .exhausted⟩

end Runs

/-! ## Dice that are read back -/

namespace Dice

variable {d : Dice}

theorem explosion_toDice_writtenDice (d : Dice) :
    (writtenDice d).toDice.explosion = d.explosion.map fun e =>
      { e with threshold := e.threshold.bind fun t => if t = d.sides then none else some t } := by
  have hsides : Numeral.value (writtenDice d).sides = d.sides := Numeral.value_ofNat _
  unfold WrittenDice.toDice
  dsimp only
  rw [hsides, explosions_writtenDice]
  obtain ⟨count, sides, explosion, selections⟩ := d
  cases explosion with
  | none => rfl
  | some e =>
    obtain ⟨threshold, recursive⟩ := e
    cases threshold <;> simp [explosionOf]

/-- A threshold that is equal to the sides is read back as none, which makes no difference. -/
theorem threshold_toDice_writtenDice (d : Dice) :
    (writtenDice d).toDice.threshold = d.threshold := by
  have hsides : (writtenDice d).toDice.sides = d.sides := Numeral.value_ofNat _
  unfold threshold explosionThreshold
  rw [hsides, explosion_toDice_writtenDice]
  cases d.explosion with
  | none => rfl
  | some e =>
    obtain ⟨threshold, recursive⟩ := e
    cases threshold with
    | none => rfl
    | some t =>
      by_cases ht : t = d.sides <;> simp [ht]

theorem maxDraws_toDice_writtenDice (d : Dice) :
    (writtenDice d).toDice.maxDraws = d.maxDraws := by
  unfold maxDraws
  rw [explosion_toDice_writtenDice]
  cases d.explosion <;> rfl

/-- Before any selection the dice that are read back are rolled like those that were written. -/
theorem mapM_rollDie_toDice_writtenDice (d : Dice) :
    (List.replicate (writtenDice d).toDice.count (writtenDice d).toDice).mapM rollDie =
      (List.replicate d.count d).mapM rollDie := by
  have hcount : (writtenDice d).toDice.count = d.count := numberOrOne_ofNat _
  have hsides : (writtenDice d).toDice.sides = d.sides := Numeral.value_ofNat _
  have hdie : (writtenDice d).toDice.rollDie = d.rollDie := by
    rw [rollDie_eq, rollDie_eq, threshold_toDice_writtenDice, maxDraws_toDice_writtenDice, hsides]
  rw [hcount]
  induction d.count with
  | zero => rfl
  | succ n ih =>
    rw [List.replicate_succ, List.replicate_succ, List.mapM_cons, List.mapM_cons, hdie, ih]

end Dice

/-- Two groups show the same dice, and unless a selection has a count of zero the same ones of them
count and make the same total. -/
structure RolledDice.ReadBack (d : Dice) (g g' : RolledDice) : Prop where
  shown : g.shown = g'.shown
  same_iff : (g.mask = g'.mask ∧ g.total = g'.total) ↔ ∀ s ∈ d.selections, s.count ≠ 0

/-- The same rolled dice with the selections of a group and with those that are read back. -/
theorem RolledDice.readBack_of_applyAll {d d' : Dice} {rolls : List Die} {g g' : RolledDice}
    (hreadAs : ReadAs d.count d.selections d'.selections)
    (hrolls : rolls.countP Die.isKept = d.count)
    (hg : applyAll d.selections { dice := d, rolls } = .ok g)
    (hg' : applyAll d'.selections { dice := d', rolls } = .ok g') : g.ReadBack d g' := by
  have hkept : (RolledDice.kept { dice := d, rolls }).length = d.count := by
    rw [length_kept, hrolls]
  have hkept' : (RolledDice.kept { dice := d', rolls }).length = d.count := by
    rw [length_kept, hrolls]
  refine ⟨?_, fun hsame => ?_, fun hpos => ?_⟩
  · exact (map_rolls_of_applyAll (f := fun die => (die.value, die.draws)) (fun _ _ => rfl) hg).trans
      (map_rolls_of_applyAll (f := fun die => (die.value, die.draws)) (fun _ _ => rfl) hg').symm
  · by_contra hzero
    push Not at hzero
    have hleft := length_kept_of_applyAll hg
    have hleft' := length_kept_of_applyAll hg'
    rw [length_kept_eq_count, hkept] at hleft
    rw [length_kept_eq_count, hkept', ← hsame.1] at hleft'
    exact hreadAs.leftOf_ne hzero (hleft.symm.trans hleft')
  · have hspan := hreadAs.after_eq hpos
    rw [← hkept] at hspan
    have hsame : (⟨d, rolls⟩ : RolledDice).rolls = (⟨d', rolls⟩ : RolledDice).rolls := rfl
    obtain ⟨hmask, hsum⟩ := mask_eq_of_after_eq hsame hspan hg hg'
    exact ⟨hmask, by rw [total, total, hsum]⟩

/-- Whatever numbers, explosion and selections a group has: if its text is read silently it is read
as one group, and rolled with any roller both draw the same answers and show the same dice. Unless a
selection has a count of zero, which its text does not tell from a count of one, the same dice count
and their total is the same. With such a selection other dice count. -/
theorem roll_read_back (d : Dice) (h : (Roll.ofText d.text).messages = []) :
    ∃ d' : Dice, (Roll.ofText d.text).exprs = [⟨[(.plus, .dice d')]⟩] ∧
      ∀ {σ : Type} (roller : Roller σ) (s : σ),
        (roller.run d.roll s).Alike (RolledDice.ReadBack d) (roller.run d'.roll s) := by
  obtain ⟨hfaultless, hexprs⟩ := exprs_ofText_diceText h
  refine ⟨_, hexprs, fun roller s => ?_⟩
  have hreadAs : ReadAs d.count d.selections (writtenDice d).toDice.selections := by
    have hvalid := (valid_of_check (value_check hfaultless)).selections
    have hcount : (writtenDice d).toDice.count = d.count := numberOrOne_ofNat _
    rw [hcount] at hvalid
    exact readAs_of_perm hvalid (Dice.selections_toDice_writtenDice hfaultless)
  unfold Dice.roll
  rw [Dice.mapM_rollDie_toDice_writtenDice]
  refine Roller.alike_run_bind fun vs rolls hpath => ?_
  obtain ⟨g, hg⟩ := RolledDice.exists_applyAll d.selections { dice := d, rolls }
  obtain ⟨g', hg'⟩ := RolledDice.exists_applyAll (writtenDice d).toDice.selections
    { dice := (writtenDice d).toDice, rolls }
  exact ⟨g, g', hg, hg',
    RolledDice.readBack_of_applyAll hreadAs (countP_isKept_of_path hpath) hg hg'⟩

/-- A group with its lowest and its highest die dropped, in the other order than roll text has them,
and a threshold that is equal to the sides: it is read back as another group, but the same dice
count. -/
theorem roll_read_back_dropSwapped :
    let d : Dice := ⟨4, 6, some ⟨some 6, true⟩, [⟨.dropLow, 1⟩, ⟨.dropHigh, 1⟩]⟩
    let d' : Dice := ⟨4, 6, some ⟨none, true⟩, [⟨.dropHigh, 1⟩, ⟨.dropLow, 1⟩]⟩
    (Roll.ofText d.text).messages = [] ∧
    (Roll.ofText d.text).exprs = [⟨[(.plus, .dice d')]⟩] ∧
    (Source.run (.script [6, 3, 2, 5, 2]) d.roll).Alike
      (fun g g' => g.shown = g'.shown ∧ g.mask = g'.mask ∧ g.total = g'.total)
      (Source.run (.script [6, 3, 2, 5, 2]) d'.roll) := by
  intro d d'
  have hsilent : (Roll.ofText d.text).messages = [] := by cbv
  have hread : (Roll.ofText d.text).exprs = [⟨[(.plus, .dice d')]⟩] := by cbv
  obtain ⟨d'', hexprs, halike⟩ := roll_read_back d hsilent
  have heq : d'' = d' := by
    rw [hread] at hexprs
    simpa using hexprs.symm
  subst heq
  refine ⟨hsilent, hread, (halike Source.roller _).mono fun g g' hg => ⟨hg.shown, ?_⟩⟩
  exact hg.same_iff.2 (by decide)

/-- A die of which none is kept is read back as one that is kept. -/
theorem roll_ne_read_back_keepNone :
    let d : Dice := ⟨1, 6, none, [⟨.keepHigh, 0⟩]⟩
    let d' : Dice := ⟨1, 6, none, [⟨.keepHigh, 1⟩]⟩
    (Roll.ofText d.text).messages = [] ∧
    (Roll.ofText d.text).exprs = [⟨[(.plus, .dice d')]⟩] ∧
    (Source.run (.script [3]) d.roll).ending =
      .value ⟨d, [⟨3, [3], some ⟨.keepHigh, 0⟩⟩]⟩ ∧
    (Source.run (.script [3]) d'.roll).ending = .value ⟨d', [⟨3, [3], none⟩]⟩ ∧
    RolledDice.total ⟨d, [⟨3, [3], some ⟨.keepHigh, 0⟩⟩]⟩ = .ok 0 ∧
    RolledDice.total ⟨d', [⟨3, [3], none⟩]⟩ = .ok 3 := by
  intro d d'
  exact ⟨by cbv, by cbv, by cbv, by cbv, rfl, rfl⟩

end TabletopDice
