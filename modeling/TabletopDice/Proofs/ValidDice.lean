import TabletopDice.Proofs.FaultlessDice

/-!
# Valid dice

Groups of dice and expressions that roll text can name. Main statement: the text of a valid group
spells this group (`spells_text`).
-/

namespace TabletopDice

/-! ## Valid groups -/

/-- The selections that a group of `count` dice can have side by side. -/
inductive ValidSelections (count : Nat) : List Selection → Prop where
  | none : ValidSelections count []
  | keep {kind : Kind} {k : Nat} (keeps : kind.isKeep) (pos : 1 ≤ k) (le : k ≤ count) :
      ValidSelections count [⟨kind, k⟩]
  | drop {kind : Kind} {k : Nat} (drops : kind.isKeep = false) (pos : 1 ≤ k) (lt : k < count) :
      ValidSelections count [⟨kind, k⟩]
  | dropBoth {h l : Nat} (high_pos : 1 ≤ h) (low_pos : 1 ≤ l) (lt : h + l < count) :
      ValidSelections count [⟨.dropHigh, h⟩, ⟨.dropLow, l⟩]

/-- A group of dice respects the bounds of roll text. A threshold of its own is below the sides. -/
structure Dice.Valid (d : Dice) : Prop where
  count : 1 ≤ d.count ∧ d.count ≤ Dice.maxCount
  sides : Dice.minSides ≤ d.sides ∧ d.sides ≤ Dice.maxSides
  threshold : ∀ e ∈ d.explosion, ∀ t ∈ e.threshold, Dice.minSides ≤ t ∧ t < d.sides
  selections : ValidSelections d.count d.selections

/-- A number that is not negative and within the range of totals, or a valid group of dice. -/
def Term.Valid : Term → Prop
  | .number n => 0 ≤ n ∧ n ≤ maxTotal
  | .dice d => d.Valid

/-- An expression has terms, and all of them are valid. -/
structure Expr.Valid (e : Expr) : Prop where
  nonempty : e.terms ≠ []
  terms : ∀ p ∈ e.terms, p.2.Valid

namespace ValidSelections

variable {count : Nat} {xs : List Selection}

theorem pos (h : ValidSelections count xs) : ∀ s ∈ xs, 1 ≤ s.count := by
  cases h <;> simp_all

theorem kept (h : ValidSelections count xs) : ∀ s ∈ xs, s.kind.isKeep → s.count ≤ count := by
  cases h <;> simp_all [Kind.isKeep]

/-- A selection that drops dice leaves at least one. -/
theorem dropped (h : ValidSelections count xs) :
    ∀ s ∈ xs, s.kind.isKeep = false → s.count < count := by
  cases h with
  | none => simp
  | keep keeps pos le => simp [keeps]
  | drop drops pos lt => simp [lt]
  | dropBoth high_pos low_pos lt =>
    simp only [List.mem_cons, List.not_mem_nil, or_false, forall_eq_or_imp, forall_eq]
    omega

theorem one (h : ValidSelections count xs) (kind : Kind) :
    (xs.filter fun s => s.kind = kind).length ≤ 1 := by
  cases h with
  | none => simp
  | keep => exact List.length_filter_le _ _
  | drop => exact List.length_filter_le _ _
  | dropBoth => cases kind <;> simp

/-- A selection that keeps dice stands alone. -/
theorem keep_or_drop (h : ValidSelections count xs) :
    (∃ kind k, xs = [⟨kind, k⟩] ∧ kind.isKeep) ∨
      ∀ s ∈ xs, s.kind ≠ .keepHigh ∧ s.kind ≠ .keepLow := by
  cases h with
  | none => simp
  | keep keeps => exact .inl ⟨_, _, rfl, keeps⟩
  | @drop kind k drops =>
    right
    cases kind <;> simp_all [Kind.isKeep]
  | dropBoth => simp

/-- Selections that drop dice from both ends leave at least one. -/
theorem drop_sum {a b : Nat} (h : ValidSelections count xs) (ha : ⟨.dropHigh, a⟩ ∈ xs)
    (hb : ⟨.dropLow, b⟩ ∈ xs) : a + b < count := by
  cases h with
  | none => simp at ha
  | keep =>
    simp only [List.mem_singleton, Selection.mk.injEq] at ha hb
    exact absurd (ha.1.trans hb.1.symm) (by decide)
  | drop =>
    simp only [List.mem_singleton, Selection.mk.injEq] at ha hb
    exact absurd (ha.1.trans hb.1.symm) (by decide)
  | dropBoth high_pos low_pos lt => simp_all

end ValidSelections

namespace Written

/-! ## Groups as they are written -/

/-- The numeral of a number. -/
theorem isNumeral_ofNat (n : Nat) : IsNumeral (Numeral.ofNat n) :=
  ⟨Numeral.ofNat_ne_nil n, fun _ => Numeral.isDigit_of_mem_ofNat⟩

/-- An explosion as it is written. -/
def explosionSuffix (e : Explosion) : Suffix :=
  .explosion e.recursive (e.threshold.map Numeral.ofNat)

/-- A selection as it is written. A count of one is left out. -/
def selectionSuffix (s : Selection) : Suffix :=
  .selection s.kind (if 1 < s.count then some (Numeral.ofNat s.count) else none)

/-- A group of dice as it is written. -/
def writtenDice (d : Dice) : WrittenDice where
  count := some (Numeral.ofNat d.count)
  sides := Numeral.ofNat d.sides
  suffixes := d.explosion.toList.map explosionSuffix ++ d.selections.map selectionSuffix

theorem toList_toString (n : Nat) : (toString n).toList = Numeral.ofNat n := by
  simp [toString, Nat.repr, Numeral.ofNat]

theorem toList_explosionText (e : Explosion) : e.text.toList = (explosionSuffix e).chars := by
  obtain ⟨threshold, recursive⟩ := e
  cases threshold <;> cases recursive <;>
    simp [Explosion.text, explosionSuffix, Suffix.chars, thresholdChars, ← toList_toString]

theorem toList_selectionText (s : Selection) : s.text.toList = (selectionSuffix s).chars := by
  unfold Selection.text selectionSuffix
  split <;> simp [Suffix.chars, ← toList_toString]

/-- The text of a group of dice consists of the characters that it is written with. -/
theorem toList_diceText (d : Dice) : d.text.toList = (writtenDice d).chars := by
  unfold Dice.text WrittenDice.chars writtenDice suffixChars
  cases d.explosion <;>
    simp [toList_explosionText, String.toList_join, List.flatMap_map,
      toList_selectionText, ← toList_toString]

/-! ## Spellings of valid groups -/

theorem numberOrOne_ofNat (n : Nat) : numberOrOne (some (Numeral.ofNat n)) = n :=
  Numeral.value_ofNat n

/-- The count that is left out is one. -/
theorem numberOrOne_selectionSuffix {n : Nat} (h : 1 ≤ n) :
    numberOrOne (if 1 < n then some (Numeral.ofNat n) else none) = n := by
  split
  · exact numberOrOne_ofNat n
  · show 1 = n
    omega

theorem explosions_writtenDice (d : Dice) :
    explosions (writtenDice d).suffixes =
      d.explosion.toList.map fun e => (e.recursive, e.threshold.map Numeral.ofNat) := by
  obtain ⟨count, sides, explosion, selections⟩ := d
  cases explosion <;> simp [writtenDice, explosions, explosionSuffix, selectionSuffix]

/-- The counts that are written for a kind are those of its selections. -/
theorem countsOf_writtenDice (d : Dice) (kind : Kind) :
    countsOf kind (writtenDice d).suffixes =
      (d.selections.filter fun s => s.kind = kind).map fun s =>
        if 1 < s.count then some (Numeral.ofNat s.count) else none := by
  have hselections : ∀ xs : List Selection, countsOf kind (xs.map selectionSuffix) =
      (xs.filter fun s => s.kind = kind).map fun s =>
        if 1 < s.count then some (Numeral.ofNat s.count) else none := by
    intro xs
    induction xs with
    | nil => rfl
    | cons x xs ih =>
      rw [List.map_cons, selectionSuffix, countsOf_selection, ih, List.filter_cons]
      by_cases hkind : x.kind = kind <;> simp [hkind]
  obtain ⟨count, sides, explosion, selections⟩ := d
  cases explosion with
  | none => exact hselections selections
  | some e => exact hselections selections

/-- No count is written for a kind exactly when there is no selection of it. -/
theorem countsOf_writtenDice_eq_nil_iff {d : Dice} {kind : Kind} :
    countsOf kind (writtenDice d).suffixes = [] ↔ ∀ s ∈ d.selections, s.kind ≠ kind := by
  simp [countsOf_writtenDice]

/-- Every count that is written stands for the one of a selection. -/
theorem exists_selection_of_mem_countsOf {d : Dice} {kind : Kind} {n : Option (List Char)}
    (hpos : ∀ s ∈ d.selections, 1 ≤ s.count) (h : n ∈ countsOf kind (writtenDice d).suffixes) :
    ⟨kind, numberOrOne n⟩ ∈ d.selections := by
  rw [countsOf_writtenDice, List.mem_map] at h
  obtain ⟨s, hs, rfl⟩ := h
  obtain ⟨hmem, hkind⟩ := List.mem_filter.1 hs
  rw [numberOrOne_selectionSuffix (hpos s hmem), ← of_decide_eq_true hkind]
  exact hmem

/-- The suffixes of a valid group are without a fault. -/
theorem faultlessSuffixes_writtenDice {d : Dice} (h : d.Valid) :
    FaultlessSuffixes d.count d.sides (writtenDice d).suffixes := by
  obtain ⟨-, -, hthreshold, hselections⟩ := h
  constructor
  case one_explosion =>
    rw [explosions_writtenDice]
    cases d.explosion <;> simp
  case threshold =>
    rw [explosions_writtenDice]
    intro p hp ds hds
    obtain ⟨e, he, rfl⟩ := List.mem_map.1 hp
    obtain ⟨t, ht, rfl⟩ := Option.map_eq_some_iff.1 hds
    obtain ⟨hlow, hhigh⟩ := hthreshold e (Option.mem_toList.1 he) t ht
    rw [Numeral.value_ofNat]
    exact ⟨hlow, Nat.le_of_lt hhigh⟩
  case one_selection =>
    intro kind
    rw [countsOf_writtenDice, List.length_map]
    exact hselections.one kind
  case kept =>
    intro kind hkind n hn
    have hmem := exists_selection_of_mem_countsOf hselections.pos hn
    exact ⟨hselections.pos _ hmem, hselections.kept _ hmem hkind⟩
  case dropped =>
    intro kind hkind n hn
    have hmem := exists_selection_of_mem_countsOf hselections.pos hn
    exact ⟨hselections.pos _ hmem, hselections.dropped _ hmem hkind⟩
  case one_keep =>
    simp only [countsOf_writtenDice_eq_nil_iff]
    rcases hselections.keep_or_drop with ⟨kind, k, hsingle, -⟩ | hdrop
    · rw [hsingle]
      cases kind <;> simp
    · exact .inl fun s hs => (hdrop s hs).1
  case keep_or_drop =>
    simp only [countsOf_writtenDice_eq_nil_iff]
    rcases hselections.keep_or_drop with ⟨kind, k, hsingle, hkeep⟩ | hdrop
    · right
      rw [hsingle]
      cases kind <;> simp_all [Kind.isKeep]
    · exact .inl ⟨fun s hs => (hdrop s hs).1, fun s hs => (hdrop s hs).2⟩
  case drop_sum =>
    intro a ha b hb
    exact hselections.drop_sum (exists_selection_of_mem_countsOf hselections.pos ha)
      (exists_selection_of_mem_countsOf hselections.pos hb)

/-- A valid group is written without a fault. -/
theorem faultless_writtenDice {d : Dice} (h : d.Valid) : (writtenDice d).Faultless where
  count := by
    rw [show numberOrOne (writtenDice d).count = d.count from numberOrOne_ofNat _]
    exact h.count
  sides := by
    rw [show Numeral.value (writtenDice d).sides = d.sides from Numeral.value_ofNat _]
    exact h.sides
  suffixes := by
    rw [show numberOrOne (writtenDice d).count = d.count from numberOrOne_ofNat _,
      show Numeral.value (writtenDice d).sides = d.sides from Numeral.value_ofNat _]
    exact faultlessSuffixes_writtenDice h

/-- The first count that is written for a kind is that of its first selection. -/
theorem head?_countsOf_writtenDice {d : Dice} (hpos : ∀ s ∈ d.selections, 1 ≤ s.count)
    (kind : Kind) :
    ((countsOf kind (writtenDice d).suffixes).head?.map fun n =>
      (⟨kind, numberOrOne n⟩ : Selection)) =
      (d.selections.filter fun s => s.kind = kind).head? := by
  rw [countsOf_writtenDice, List.head?_map, Option.map_map]
  cases hfilter : d.selections.filter fun s => s.kind = kind with
  | nil => rfl
  | cons s ss =>
    have hs : s ∈ d.selections.filter fun s => s.kind = kind := by
      rw [hfilter]
      exact .head _
    obtain ⟨hmem, hkind⟩ := List.mem_filter.1 hs
    have hkind : s.kind = kind := of_decide_eq_true hkind
    simp [numberOrOne_selectionSuffix (hpos s hmem), ← hkind]

/-- Valid selections stand in the order of their kinds. -/
theorem filterMap_selections {count : Nat} {xs : List Selection} (h : ValidSelections count xs) :
    (Kind.all.filterMap fun kind => (xs.filter fun s => s.kind = kind).head?) = xs := by
  cases h with
  | none => rfl
  | @keep kind k keeps => cases kind <;> rfl
  | @drop kind k drops => cases kind <;> rfl
  | dropBoth => rfl

/-- A valid group is what it is written as. -/
theorem toDice_writtenDice {d : Dice} (h : d.Valid) : (writtenDice d).toDice = d := by
  have hcount : numberOrOne (writtenDice d).count = d.count := numberOrOne_ofNat _
  have hsides : Numeral.value (writtenDice d).sides = d.sides := Numeral.value_ofNat _
  have hexplosion : (explosions (writtenDice d).suffixes).head?.map (explosionOf d.sides) =
      d.explosion := by
    rw [explosions_writtenDice]
    cases he : d.explosion with
    | none => rfl
    | some e =>
      obtain ⟨threshold, recursive⟩ := e
      cases threshold with
      | none => rfl
      | some t =>
        -- A threshold below the sides is not mistaken for none at all.
        have ht : t ≠ d.sides := Nat.ne_of_lt (h.threshold _ he t rfl).2
        simp [explosionOf, ht]
  have hselections : (Kind.all.filterMap fun kind =>
      (countsOf kind (writtenDice d).suffixes).head?.map fun n =>
        (⟨kind, numberOrOne n⟩ : Selection)) = d.selections := by
    simp only [head?_countsOf_writtenDice h.selections.pos]
    exact filterMap_selections h.selections
  unfold WrittenDice.toDice
  rw [hcount, hsides, hexplosion, hselections]

/-- The characters of selections start with a letter. -/
theorem apart_selections (xs : List Selection) : Apart (xs.map selectionSuffix) := by
  induction xs with
  | nil => trivial
  | cons x xs ih => exact ⟨noDigitAhead_suffixChars _, ih⟩

theorem apart_writtenDice (d : Dice) : Apart (writtenDice d).suffixes := by
  unfold writtenDice
  cases d.explosion with
  | none => exact apart_selections d.selections
  | some e =>
    refine ⟨(endsBefore_suffixChars_iff _ _).2 ?_, apart_selections d.selections⟩
    intro y hy _
    obtain ⟨s, -, rfl⟩ := List.mem_map.1 (List.mem_of_mem_head? hy)
    rfl

theorem wellSpelled_writtenDice (d : Dice) : (writtenDice d).WellSpelled where
  count := by
    rintro ds ⟨⟩
    exact isNumeral_ofNat d.count
  sides := isNumeral_ofNat d.sides
  suffixes := by
    intro x hx
    rcases List.mem_append.1 hx with hx | hx
    · obtain ⟨e, -, rfl⟩ := List.mem_map.1 hx
      intro ds hds
      obtain ⟨t, -, rfl⟩ := Option.map_eq_some_iff.1 hds
      exact isNumeral_ofNat t
    · obtain ⟨s, -, rfl⟩ := List.mem_map.1 hx
      intro ds hds
      by_cases hs : 1 < s.count
      · simp only [selectionSuffix, Suffix.digits, if_pos hs, Option.mem_some_iff] at hds
        rw [← hds]
        exact isNumeral_ofNat s.count
      · simp [selectionSuffix, Suffix.digits, hs] at hds
  apart := apart_writtenDice d

/-- The text of a valid group spells it. -/
theorem spells_text {d : Dice} (h : d.Valid) : Spells d.text.toList (.dice d) := by
  have hspells := Spells.dice (wellSpelled_writtenDice d) (faultless_writtenDice h)
  rwa [← toList_diceText, toDice_writtenDice h] at hspells

end Written

end TabletopDice
