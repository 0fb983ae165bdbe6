import TabletopDice.Proofs.TermSpelling
import TabletopDice.Written.Dice

/-!
# Dice without a fault

What a written group of dice must respect for no message to be written about it, and the group that
it then stands for. Main statements: the check of a group is silent exactly when the group is
without a fault, and then its value is that group (`notes_check_eq_nil_iff`, `check_of_faultless`);
and the same for the term that a fragment spells (`notes_checkTerm_eq_nil_iff`,
`checkTerm_of_spells`).
-/

namespace TabletopDice.Written

/-! ## The suffixes of one kind -/

/-- The explosions among some suffixes, in order. -/
def explosions (xs : List Suffix) : List (Bool × Option (List Char)) :=
  xs.filterMap fun
    | .explosion recursive t => some (recursive, t)
    | .selection _ _ => none

/-- The counts written for one kind of selection, in order. -/
def countsOf (kind : Kind) (xs : List Suffix) : List (Option (List Char)) :=
  xs.filterMap fun
    | .explosion _ _ => none
    | .selection k n => if k = kind then some n else none

@[simp] theorem explosions_nil : explosions [] = [] := rfl

@[simp] theorem countsOf_nil (kind : Kind) : countsOf kind [] = [] := rfl

@[simp] theorem explosions_explosion (b : Bool) (t : Option (List Char)) (xs : List Suffix) :
    explosions (.explosion b t :: xs) = (b, t) :: explosions xs := rfl

@[simp] theorem explosions_selection (k : Kind) (n : Option (List Char)) (xs : List Suffix) :
    explosions (.selection k n :: xs) = explosions xs := rfl

@[simp] theorem countsOf_explosion (kind : Kind) (b : Bool) (t : Option (List Char))
    (xs : List Suffix) : countsOf kind (.explosion b t :: xs) = countsOf kind xs := rfl

/-- A selection is listed with those of its own kind. -/
theorem countsOf_selection (kind k : Kind) (n : Option (List Char)) (xs : List Suffix) :
    countsOf kind (.selection k n :: xs) =
      if k = kind then n :: countsOf kind xs else countsOf kind xs := by
  unfold countsOf
  rw [List.filterMap_cons]
  split <;> split <;> simp_all

/-- The number of an optional numeral. One that is not written stands for one. -/
def numberOrOne : Option (List Char) → Nat
  | some ds => Numeral.value ds
  | none => 1

/-! ## Faults -/

/-- The suffixes of `count` dice with so many sides are without a fault. -/
structure FaultlessSuffixes (count sides : Nat) (xs : List Suffix) : Prop where
  one_explosion : (explosions xs).length ≤ 1
  threshold : ∀ p ∈ explosions xs, ∀ ds ∈ p.2,
    Dice.minSides ≤ Numeral.value ds ∧ Numeral.value ds ≤ sides
  one_selection : ∀ kind, (countsOf kind xs).length ≤ 1
  kept : ∀ kind, kind.isKeep → ∀ n ∈ countsOf kind xs, 1 ≤ numberOrOne n ∧ numberOrOne n ≤ count
  dropped : ∀ kind, kind.isKeep = false → ∀ n ∈ countsOf kind xs,
    1 ≤ numberOrOne n ∧ numberOrOne n < count
  one_keep : countsOf .keepHigh xs = [] ∨ countsOf .keepLow xs = []
  keep_or_drop : (countsOf .keepHigh xs = [] ∧ countsOf .keepLow xs = []) ∨
    (countsOf .dropHigh xs = [] ∧ countsOf .dropLow xs = [])
  drop_sum : ∀ h ∈ countsOf .dropHigh xs, ∀ l ∈ countsOf .dropLow xs,
    numberOrOne h + numberOrOne l < count

/-- A written group of dice is without a fault. -/
structure WrittenDice.Faultless (w : WrittenDice) : Prop where
  count : 1 ≤ numberOrOne w.count ∧ numberOrOne w.count ≤ Dice.maxCount
  sides : Dice.minSides ≤ Numeral.value w.sides ∧ Numeral.value w.sides ≤ Dice.maxSides
  suffixes : FaultlessSuffixes (numberOrOne w.count) (Numeral.value w.sides) w.suffixes

/-- The explosion that is written as these. A threshold equal to the sides is none at all. -/
def explosionOf (sides : Nat) (p : Bool × Option (List Char)) : Explosion where
  threshold := p.2.bind fun ds =>
    if Numeral.value ds = sides then none else some (Numeral.value ds)
  recursive := p.1

/-- The group that is written without a fault. -/
def WrittenDice.toDice (w : WrittenDice) : Dice where
  count := numberOrOne w.count
  sides := Numeral.value w.sides
  explosion := (explosions w.suffixes).head?.map (explosionOf (Numeral.value w.sides))
  selections := Kind.all.filterMap fun kind =>
    (countsOf kind w.suffixes).head?.map fun n => ⟨kind, numberOrOne n⟩

/-! ## Numbers that are checked -/

theorem le_maxNumber_of_count {n : Nat} (h : 1 ≤ n ∧ n ≤ Dice.maxCount) : n ≤ Noted.maxNumber :=
  Nat.le_trans h.2 (by decide)

theorem le_maxNumber_of_sides {n : Nat} (h : Dice.minSides ≤ n ∧ n ≤ Dice.maxSides) :
    n ≤ Noted.maxNumber :=
  Nat.le_trans h.2 (by decide)

/-- The quantity is taken silently exactly when it is in range. -/
theorem notes_checkCount_eq_nil_iff (o : Option (List Char)) :
    (checkCount o).notes = [] ↔ 1 ≤ numberOrOne o ∧ numberOrOne o ≤ Dice.maxCount := by
  cases o with
  | none => simp [checkCount, numberOrOne, Dice.maxCount]
  | some ds => exact Noted.notes_number_chain_ite_eq_nil_iff (fun _ => le_maxNumber_of_count) _ _

/-- A quantity in range is used. -/
theorem checkCount_of_mem {o : Option (List Char)}
    (h : 1 ≤ numberOrOne o ∧ numberOrOne o ≤ Dice.maxCount) :
    checkCount o = pure (some (numberOrOne o)) := by
  cases o with
  | none => rfl
  | some ds => exact Noted.number_chain_ite_of (fun _ => le_maxNumber_of_count) _ _ h

/-- The sides are taken silently exactly when they are in range. -/
theorem notes_checkSides_eq_nil_iff (ds : List Char) :
    (checkSides ds).notes = [] ↔
      Dice.minSides ≤ Numeral.value ds ∧ Numeral.value ds ≤ Dice.maxSides :=
  Noted.notes_number_chain_ite_eq_nil_iff (fun _ => le_maxNumber_of_sides) _ _

/-- Sides in range are used. -/
theorem checkSides_of_mem {ds : List Char}
    (h : Dice.minSides ≤ Numeral.value ds ∧ Numeral.value ds ≤ Dice.maxSides) :
    checkSides ds = pure (some (Numeral.value ds)) :=
  Noted.number_chain_ite_of (fun _ => le_maxNumber_of_sides) _ _ h

/-- The threshold of an explosion, if there is one, lies between two and the sides. -/
def ThresholdFits (sides : Nat) (t : Option (List Char)) : Prop :=
  ∀ ds ∈ t, Dice.minSides ≤ Numeral.value ds ∧ Numeral.value ds ≤ sides

/-- A threshold that fits is used. -/
theorem checkExplosion_of_fits {sides : Nat} (hsides : sides ≤ Dice.maxSides)
    {p : Bool × Option (List Char)} (h : ThresholdFits sides p.2) :
    checkExplosion sides p.1 p.2 = pure (some (explosionOf sides p)) := by
  obtain ⟨b, t⟩ := p
  cases t with
  | none => rfl
  | some ds =>
    obtain ⟨hmin, hle⟩ := h ds rfl
    have hmax := le_maxNumber_of_sides ⟨hmin, Nat.le_trans hle hsides⟩
    simp only [checkExplosion, Noted.number_chain, if_pos hmax, explosionOf, Option.bind_some]
    split
    · rfl
    · next hne => rw [if_pos ⟨hmin, Nat.lt_of_le_of_ne hle hne⟩]

/-- An explosion is taken silently exactly when its threshold fits. -/
theorem notes_checkExplosion_eq_nil_iff {sides : Nat}
    (hsides : Dice.minSides ≤ sides ∧ sides ≤ Dice.maxSides) (p : Bool × Option (List Char)) :
    (checkExplosion sides p.1 p.2).notes = [] ↔ ThresholdFits sides p.2 := by
  constructor
  · obtain ⟨b, t⟩ := p
    rintro h ds ⟨⟩
    simp only [checkExplosion, Noted.number_chain] at h
    split at h
    · split at h
      · next heq => exact ⟨heq.symm ▸ hsides.1, Nat.le_of_eq heq⟩
      · have hmem := (Noted.notes_ite_eq_nil_iff _ _).1 h
        exact ⟨hmem.1, Nat.le_of_lt hmem.2⟩
    · simp [Noted.refuse] at h
  · intro h
    rw [checkExplosion_of_fits hsides.2 h, Noted.notes_pure]

/-- The count of a selection fits: every die can be kept, but not every die can be dropped. -/
def SelectionFits (count : Nat) (kind : Kind) (n : Nat) : Prop :=
  1 ≤ n ∧ n ≤ maxSelected count kind

instance (count : Nat) (kind : Kind) : DecidablePred (SelectionFits count kind) :=
  fun _ => inferInstanceAs (Decidable (_ ∧ _))

/-- All dice of a group can be kept. -/
theorem selectionFits_of_isKeep {count n : Nat} {kind : Kind} (h : kind.isKeep) :
    SelectionFits count kind n ↔ 1 ≤ n ∧ n ≤ count := by
  simp [SelectionFits, maxSelected, h]

/-- One die of a group must be left by a drop. -/
theorem selectionFits_of_not_isKeep {count n : Nat} {kind : Kind} (h : kind.isKeep = false) :
    SelectionFits count kind n ↔ 1 ≤ n ∧ n < count := by
  simp only [SelectionFits, maxSelected, h, Bool.false_eq_true, if_false]
  omega

theorem le_maxNumber_of_fits {count n : Nat} {kind : Kind} (hcount : count ≤ Dice.maxCount)
    (h : SelectionFits count kind n) : n ≤ Noted.maxNumber := by
  have hle : maxSelected count kind ≤ count := by
    unfold maxSelected
    split
    · exact Nat.le_refl _
    · exact Nat.sub_le _ _
  exact Nat.le_trans (Nat.le_trans h.2 hle) (Nat.le_trans hcount (by decide))

/-- A selection is taken silently exactly when its count fits. -/
theorem notes_checkSelection_eq_nil_iff {count : Nat} (hcount : count ≤ Dice.maxCount)
    (kind : Kind) (o : Option (List Char)) :
    (checkSelection count kind o).notes = [] ↔ SelectionFits count kind (numberOrOne o) := by
  cases o with
  | none => exact Noted.notes_ite_eq_nil_iff _ _
  | some ds =>
    exact Noted.notes_number_chain_ite_eq_nil_iff (fun _ => le_maxNumber_of_fits hcount) _ _

/-- A number of selected dice that fits is used. -/
theorem checkSelection_of_fits {count : Nat} (hcount : count ≤ Dice.maxCount) {kind : Kind}
    {o : Option (List Char)} (h : SelectionFits count kind (numberOrOne o)) :
    checkSelection count kind o = pure (some (numberOrOne o)) := by
  cases o with
  | none => exact if_pos h
  | some ds => exact Noted.number_chain_ite_of (fun _ => le_maxNumber_of_fits hcount) _ _ h

/-! ## Suffixes that are checked in a row -/

/-- At most one entry, none if there was one before, and every entry good. -/
def OnceAndGood {α : Type} (seen : Bool) (good : α → Prop) (xs : List α) : Prop :=
  (∀ a ∈ xs, good a) ∧ xs.length + seen.toNat ≤ 1

theorem onceAndGood_nil {α : Type} (seen : Bool) (good : α → Prop) :
    OnceAndGood seen good [] := by
  cases seen <;> simp [OnceAndGood]

/-- An entry may stand in front only if there was none before, and it closes the row. -/
theorem onceAndGood_cons {α : Type} {seen : Bool} {good : α → Prop} {a : α} {xs : List α} :
    OnceAndGood seen good (a :: xs) ↔ seen = false ∧ good a ∧ OnceAndGood true good xs := by
  cases seen <;> cases xs <;> simp [OnceAndGood]

namespace Choices

variable {count sides : Nat}

/-- The first explosion is checked. -/
theorem add_explosion_first {c : Choices} {b : Bool} {t : Option (List Char)}
    (h : c.explosion = none) :
    add count sides c (.explosion b t) =
      ⟨{ c with explosion := some (checkExplosion sides b t).value },
        (checkExplosion sides b t).notes⟩ := by
  simp only [add, h]
  exact congrArg _ (List.append_nil _)

/-- Any other explosion is a duplicate. -/
theorem add_explosion_again {c : Choices} {b : Bool} {t : Option (List Char)}
    {e : Option Explosion} (h : c.explosion = some e) :
    add count sides c (.explosion b t) = ⟨c, [.duplicate .explosion]⟩ := by
  simp only [add, h]

/-- The first selection of a kind is checked. -/
theorem add_selection_first {c : Choices} {kind : Kind} {n : Option (List Char)}
    (h : c.selected kind = none) :
    add count sides c (.selection kind n) =
      ⟨{ c with selected := fun k =>
          if k = kind then some (checkSelection count kind n).value else c.selected k },
        (checkSelection count kind n).notes⟩ := by
  simp only [add, h]
  exact congrArg _ (List.append_nil _)

/-- Any other selection of this kind is a duplicate. -/
theorem add_selection_again {c : Choices} {kind : Kind} {n : Option (List Char)}
    {m : Option Nat} (h : c.selected kind = some m) :
    add count sides c (.selection kind n) = ⟨c, [.duplicate (.selection kind)]⟩ := by
  simp only [add, h]

/-- Of the explosions the first one is used. -/
theorem explosion_foldlM_add (c : Choices) (xs : List Suffix) :
    (xs.foldlM (add count sides) c).value.explosion =
      c.explosion.or ((explosions xs).head?.map fun p =>
        (checkExplosion sides p.1 p.2).value) := by
  induction xs generalizing c with
  | nil => simp
  | cons x xs ih =>
    rw [List.foldlM_cons, Noted.value_bind, ih]
    cases x with
    | explosion b t =>
      cases h : c.explosion with
      | none => simp [add_explosion_first h]
      | some e => simp [add_explosion_again h, h]
    | selection kind n =>
      cases h : c.selected kind with
      | none => simp [add_selection_first h]
      | some m => simp [add_selection_again h]

/-- Of the selections of one kind the first one is used. -/
theorem selected_foldlM_add (c : Choices) (xs : List Suffix) (kind : Kind) :
    (xs.foldlM (add count sides) c).value.selected kind =
      (c.selected kind).or ((countsOf kind xs).head?.map fun n =>
        (checkSelection count kind n).value) := by
  induction xs generalizing c with
  | nil => simp
  | cons x xs ih =>
    rw [List.foldlM_cons, Noted.value_bind, ih]
    cases x with
    | explosion b t =>
      cases h : c.explosion with
      | none => simp [add_explosion_first h]
      | some e => simp [add_explosion_again h]
    | selection k n =>
      rw [countsOf_selection]
      by_cases hk : k = kind
      · subst hk
        cases h : c.selected k with
        | none => simp [add_selection_first h]
        | some m => simp [add_selection_again h, h]
      · cases h : c.selected k with
        | none => simp [add_selection_first h, hk, Ne.symm hk]
        | some m => simp [add_selection_again h, hk]

/-- Each kind is given at most once with a selection in front: the selection is the first of its
kind and also the last, and the other kinds do not see it. -/
theorem forall_onceAndGood_selection {seen : Kind → Bool}
    {good : Kind → Option (List Char) → Prop} {k : Kind} {n : Option (List Char)}
    {xs : List Suffix} :
    (∀ kind, OnceAndGood (seen kind) (good kind) (countsOf kind (.selection k n :: xs))) ↔
      seen k = false ∧ good k n ∧
        ∀ kind, OnceAndGood (seen kind || k = kind) (good kind) (countsOf kind xs) := by
  constructor
  · intro h
    have hself := h k
    rw [countsOf_selection, if_pos rfl, onceAndGood_cons] at hself
    obtain ⟨hseen, hgood, hrest⟩ := hself
    refine ⟨hseen, hgood, fun kind => ?_⟩
    by_cases hk : k = kind
    · subst hk
      simpa using hrest
    · have hkind := h kind
      rw [countsOf_selection, if_neg hk] at hkind
      simpa [hk] using hkind
  · rintro ⟨hseen, hgood, hrest⟩ kind
    have hkind := hrest kind
    rw [countsOf_selection]
    by_cases hk : k = kind
    · subst hk
      rw [if_pos rfl, onceAndGood_cons]
      exact ⟨hseen, hgood, by simpa using hkind⟩
    · rw [if_neg hk]
      simpa [hk] using hkind

/-- Suffixes are taken silently exactly when each kind is given at most once, with a number that is
in range. -/
theorem notes_foldlM_add_eq_nil_iff (c : Choices) (xs : List Suffix) :
    (xs.foldlM (add count sides) c).notes = [] ↔
      OnceAndGood c.explosion.isSome
        (fun p => (checkExplosion sides p.1 p.2).notes = []) (explosions xs) ∧
      ∀ kind, OnceAndGood (c.selected kind).isSome
        (fun n => (checkSelection count kind n).notes = []) (countsOf kind xs) := by
  induction xs generalizing c with
  | nil => simp [onceAndGood_nil]
  | cons x xs ih =>
    rw [List.foldlM_cons, Noted.notes_bind, List.append_eq_nil_iff, ih]
    cases x with
    | explosion b t =>
      rw [explosions_explosion, onceAndGood_cons]
      cases h : c.explosion with
      | none => simp [add_explosion_first h, and_assoc]
      | some e => simp [add_explosion_again h]
    | selection k n =>
      rw [explosions_selection, forall_onceAndGood_selection]
      cases h : c.selected k with
      | none =>
        -- only the kind of the new selection counts as seen from now on
        have hseen : ∀ kind v, (if kind = k then some v else c.selected kind).isSome =
            ((c.selected kind).isSome || decide (k = kind)) := by
          intro kind v
          by_cases hk : kind = k
          · simp [hk]
          · simp [hk, Ne.symm hk]
        simp only [add_selection_first h, hseen, Option.isSome_none, true_and]
        exact and_left_comm
      | some m => simp [add_selection_again h]

/-- The explosion chosen from some suffixes. -/
theorem explosion_ofSuffixes (xs : List Suffix) :
    (ofSuffixes count sides xs).value.explosion.join =
      (explosions xs).head?.bind fun p => (checkExplosion sides p.1 p.2).value := by
  rw [ofSuffixes, explosion_foldlM_add]
  cases (explosions xs).head? <;> rfl

/-- The count chosen from some suffixes for a kind of selection. -/
theorem usable_ofSuffixes (xs : List Suffix) (kind : Kind) :
    (ofSuffixes count sides xs).value.usable kind =
      (countsOf kind xs).head?.bind fun n => (checkSelection count kind n).value := by
  rw [usable, ofSuffixes, selected_foldlM_add]
  cases (countsOf kind xs).head? <;> rfl

end Choices

/-! ## Selections that go together -/

/-- The selections that are usable do not get in the way of each other. -/
structure Compatible (count : Nat) (usable : Kind → Option Nat) : Prop where
  one_keep : usable .keepHigh = none ∨ usable .keepLow = none
  keep_or_drop : (usable .keepHigh = none ∧ usable .keepLow = none) ∨
    (usable .dropHigh = none ∧ usable .dropLow = none)
  drop_sum : ∀ h ∈ usable .dropHigh, ∀ l ∈ usable .dropLow, h + l < count

/-- No drop is overridden exactly if none can be used. -/
theorem overriddenDrops_eq_nil_iff {usable : Kind → Option Nat} :
    overriddenDrops usable = [] ↔ usable .dropHigh = none ∧ usable .dropLow = none := by
  simp [overriddenDrops]

/-- Beside a selection that keeps dice, none may drop any. -/
theorem compatible_iff_of_keep {count : Nat} {usable : Kind → Option Nat}
    (hone : usable .keepHigh = none ∨ usable .keepLow = none)
    (hkeep : ¬ (usable .keepHigh = none ∧ usable .keepLow = none)) :
    Compatible count usable ↔ usable .dropHigh = none ∧ usable .dropLow = none := by
  constructor
  · rintro ⟨-, h, -⟩
    exact h.resolve_left hkeep
  · rintro ⟨hdh, hdl⟩
    exact ⟨hone, .inr ⟨hdh, hdl⟩, by simp [hdh]⟩

/-- Without a selection that keeps dice, those that drop dice must leave one. -/
theorem compatible_iff_of_not_keep {count : Nat} {usable : Kind → Option Nat}
    (hkh : usable .keepHigh = none) (hkl : usable .keepLow = none) :
    Compatible count usable ↔
      ∀ h ∈ usable .dropHigh, ∀ l ∈ usable .dropLow, h + l < count := by
  constructor
  · rintro ⟨-, -, h⟩
    exact h
  · intro h
    exact ⟨.inl hkh, .inl ⟨hkh, hkl⟩, h⟩

/-- Selections are settled silently exactly when they go together. -/
theorem notes_resolve_eq_nil_iff (count : Nat) (usable : Kind → Option Nat) :
    (resolve count usable).notes = [] ↔ Compatible count usable := by
  unfold resolve
  cases hkh : usable .keepHigh with
  | some h =>
    cases hkl : usable .keepLow with
    | some l =>
      refine ⟨fun hn => by simp at hn, fun hc => ?_⟩
      simpa [hkh, hkl] using hc.one_keep
    | none =>
      rw [compatible_iff_of_keep (.inr hkl) (by simp [hkh])]
      exact overriddenDrops_eq_nil_iff
  | none =>
    cases hkl : usable .keepLow with
    | some l =>
      rw [compatible_iff_of_keep (.inl hkh) (by simp [hkl])]
      exact overriddenDrops_eq_nil_iff
    | none =>
      rw [compatible_iff_of_not_keep hkh hkl]
      cases hdh : usable .dropHigh with
      | none => cases hdl : usable .dropLow <;> simp
      | some h =>
        cases hdl : usable .dropLow with
        | none => simp
        | some l =>
          by_cases hle : count ≤ h + l
          · simp [hle]
          · simp [hle, Nat.lt_of_not_le hle]

/-- Selections that go together are all applied. -/
theorem value_resolve {count : Nat} {usable : Kind → Option Nat} (h : Compatible count usable) :
    (resolve count usable).value =
      Kind.all.filterMap fun kind => (usable kind).map (⟨kind, ·⟩) := by
  obtain ⟨hone, hor, hsum⟩ := h
  unfold resolve Kind.all
  cases hkh : usable .keepHigh with
  | some h =>
    obtain ⟨hdh, hdl⟩ := hor.resolve_left (by simp [hkh])
    have hkl : usable .keepLow = none := hone.resolve_left (by simp [hkh])
    simp [hkh, hkl, hdh, hdl]
  | none =>
    cases hkl : usable .keepLow with
    | some l =>
      obtain ⟨hdh, hdl⟩ := hor.resolve_left (by simp [hkl])
      simp [hkh, hkl, hdh, hdl]
    | none =>
      cases hdh : usable .dropHigh with
      | none => cases hdl : usable .dropLow <;> simp [hkh, hkl, hdh, hdl]
      | some h =>
        cases hdl : usable .dropLow with
        | none => simp [hkh, hkl, hdh, hdl]
        | some l =>
          have hlt := hsum h hdh l hdl
          simp [hkh, hkl, hdh, hdl, Nat.not_le.2 hlt]

/-! ## Groups of dice -/

/-- The count written first for a kind of selection. -/
def firstCount (xs : List Suffix) (kind : Kind) : Option Nat :=
  (countsOf kind xs).head?.map numberOrOne

theorem firstCount_eq_none_iff {xs : List Suffix} {kind : Kind} :
    firstCount xs kind = none ↔ countsOf kind xs = [] := by
  simp [firstCount]

/-- Of a kind that is given at most once, the first count is the only one. -/
theorem mem_firstCount_iff {xs : List Suffix} {kind : Kind}
    (hone : (countsOf kind xs).length ≤ 1) {m : Nat} :
    m ∈ firstCount xs kind ↔ ∃ n ∈ countsOf kind xs, numberOrOne n = m := by
  unfold firstCount
  cases h : countsOf kind xs with
  | nil => simp
  | cons n ns =>
    rw [h, List.length_cons] at hone
    obtain rfl : ns = [] := List.length_eq_zero_iff.1 (by omega)
    simp [eq_comm]

/-- Every selection fits exactly when the kept ones are within the dice and the dropped ones leave
one. -/
theorem forall_selectionFits_iff {count : Nat} {xs : List Suffix} :
    (∀ kind, ∀ n ∈ countsOf kind xs, SelectionFits count kind (numberOrOne n)) ↔
      (∀ kind, kind.isKeep → ∀ n ∈ countsOf kind xs, 1 ≤ numberOrOne n ∧ numberOrOne n ≤ count) ∧
      (∀ kind, kind.isKeep = false → ∀ n ∈ countsOf kind xs,
        1 ≤ numberOrOne n ∧ numberOrOne n < count) := by
  constructor
  · intro h
    exact ⟨fun kind hk n hn => (selectionFits_of_isKeep hk).1 (h kind n hn),
      fun kind hk n hn => (selectionFits_of_not_isKeep hk).1 (h kind n hn)⟩
  · rintro ⟨hkept, hdropped⟩ kind n hn
    cases hk : kind.isKeep with
    | true => exact (selectionFits_of_isKeep hk).2 (hkept kind hk n hn)
    | false => exact (selectionFits_of_not_isKeep hk).2 (hdropped kind hk n hn)

variable {count sides : Nat}

/-- The first counts go together exactly when the suffixes are without a conflict. -/
theorem compatible_firstCount_iff {xs : List Suffix}
    (hone : ∀ kind, (countsOf kind xs).length ≤ 1) :
    Compatible count (firstCount xs) ↔
      (countsOf .keepHigh xs = [] ∨ countsOf .keepLow xs = []) ∧
      ((countsOf .keepHigh xs = [] ∧ countsOf .keepLow xs = []) ∨
        (countsOf .dropHigh xs = [] ∧ countsOf .dropLow xs = [])) ∧
      ∀ h ∈ countsOf .dropHigh xs, ∀ l ∈ countsOf .dropLow xs,
        numberOrOne h + numberOrOne l < count := by
  have hsum : (∀ h ∈ firstCount xs .dropHigh, ∀ l ∈ firstCount xs .dropLow, h + l < count) ↔
      ∀ h ∈ countsOf .dropHigh xs, ∀ l ∈ countsOf .dropLow xs,
        numberOrOne h + numberOrOne l < count := by
    simp only [mem_firstCount_iff (hone _)]
    constructor
    · intro h a ha b hb
      exact h _ ⟨a, ha, rfl⟩ _ ⟨b, hb, rfl⟩
    · rintro h _ ⟨a, ha, rfl⟩ _ ⟨b, hb, rfl⟩
      exact h a ha b hb
  simp only [← firstCount_eq_none_iff, ← hsum]
  exact ⟨fun ⟨h₁, h₂, h₃⟩ => ⟨h₁, h₂, h₃⟩, fun ⟨h₁, h₂, h₃⟩ => ⟨h₁, h₂, h₃⟩⟩

/-- When every selection fits, the usable counts are those written first. -/
theorem usable_ofSuffixes_of_fits (hcount : count ≤ Dice.maxCount) {xs : List Suffix}
    (h : ∀ kind, ∀ n ∈ countsOf kind xs, SelectionFits count kind (numberOrOne n)) :
    (Choices.ofSuffixes count sides xs).value.usable = firstCount xs := by
  funext kind
  rw [Choices.usable_ofSuffixes, firstCount]
  cases hxs : countsOf kind xs with
  | nil => rfl
  | cons n ns =>
    have hn := h kind n (by rw [hxs]; exact List.mem_cons_self)
    simp [checkSelection_of_fits hcount hn]

/-- Suffixes are taken silently exactly when each kind is given at most once and its number fits. -/
theorem notes_ofSuffixes_eq_nil_iff (hcount : count ≤ Dice.maxCount)
    (hsides : Dice.minSides ≤ sides ∧ sides ≤ Dice.maxSides) (xs : List Suffix) :
    (Choices.ofSuffixes count sides xs).notes = [] ↔
      ((∀ p ∈ explosions xs, ThresholdFits sides p.2) ∧ (explosions xs).length ≤ 1) ∧
      ∀ kind, (∀ n ∈ countsOf kind xs, SelectionFits count kind (numberOrOne n)) ∧
        (countsOf kind xs).length ≤ 1 := by
  rw [Choices.ofSuffixes, Choices.notes_foldlM_add_eq_nil_iff]
  simp only [OnceAndGood, notes_checkExplosion_eq_nil_iff hsides,
    notes_checkSelection_eq_nil_iff hcount, Option.isSome_none, Bool.toNat_false, Nat.add_zero]

/-- A group with quantity and sides in range is made silently exactly when its suffixes are without
a fault. -/
theorem notes_assemble_eq_nil_iff (hcount : count ≤ Dice.maxCount)
    (hsides : Dice.minSides ≤ sides ∧ sides ≤ Dice.maxSides) (xs : List Suffix) :
    (assemble count sides xs).notes = [] ↔ FaultlessSuffixes count sides xs := by
  have hnotes : (assemble count sides xs).notes = [] ↔
      (Choices.ofSuffixes count sides xs).notes = [] ∧
        Compatible count (Choices.ofSuffixes count sides xs).value.usable := by
    simp [assemble, notes_resolve_eq_nil_iff]
  rw [hnotes, notes_ofSuffixes_eq_nil_iff hcount hsides]
  constructor
  · rintro ⟨⟨⟨hthreshold, hexplosion⟩, hkinds⟩, hcompatible⟩
    rw [usable_ofSuffixes_of_fits hcount fun kind => (hkinds kind).1,
      compatible_firstCount_iff fun kind => (hkinds kind).2] at hcompatible
    obtain ⟨hkept, hdropped⟩ := forall_selectionFits_iff.1 fun kind => (hkinds kind).1
    exact ⟨hexplosion, hthreshold, fun kind => (hkinds kind).2, hkept, hdropped,
      hcompatible.1, hcompatible.2.1, hcompatible.2.2⟩
  · intro h
    have hfits := forall_selectionFits_iff.2 ⟨h.kept, h.dropped⟩
    refine ⟨⟨⟨h.threshold, h.one_explosion⟩, fun kind => ⟨hfits kind, h.one_selection kind⟩⟩, ?_⟩
    rw [usable_ofSuffixes_of_fits hcount hfits, compatible_firstCount_iff h.one_selection]
    exact ⟨h.one_keep, h.keep_or_drop, h.drop_sum⟩

/-- The group that is made of suffixes without a fault. -/
theorem value_assemble (hcount : count ≤ Dice.maxCount) (hsides : sides ≤ Dice.maxSides)
    {xs : List Suffix} (h : FaultlessSuffixes count sides xs) :
    (assemble count sides xs).value =
      { count, sides
        explosion := (explosions xs).head?.map (explosionOf sides)
        selections := Kind.all.filterMap fun kind =>
          (countsOf kind xs).head?.map fun n => ⟨kind, numberOrOne n⟩ } := by
  have hfits := forall_selectionFits_iff.2 ⟨h.kept, h.dropped⟩
  have husable : (Choices.ofSuffixes count sides xs).value.usable = firstCount xs :=
    usable_ofSuffixes_of_fits hcount hfits
  have hcompatible := (compatible_firstCount_iff h.one_selection).2
    ⟨h.one_keep, h.keep_or_drop, h.drop_sum⟩
  have hexplosion : (Choices.ofSuffixes count sides xs).value.explosion.join =
      (explosions xs).head?.map (explosionOf sides) := by
    rw [Choices.explosion_ofSuffixes]
    cases hxs : explosions xs with
    | nil => rfl
    | cons p ps =>
      have hp : ThresholdFits sides p.2 := h.threshold p (by rw [hxs]; exact List.mem_cons_self)
      simp [checkExplosion_of_fits hsides hp]
  have hselections : (resolve count (firstCount xs)).value =
      Kind.all.filterMap fun kind =>
        (countsOf kind xs).head?.map fun n => ⟨kind, numberOrOne n⟩ := by
    rw [value_resolve hcompatible]
    simp only [firstCount, Option.map_map]
    rfl
  rw [assemble, Noted.value_bind, Noted.value_bind, Noted.value_pure, hexplosion, husable,
    hselections]

/-- A group of dice is taken silently exactly when it is without a fault. -/
theorem notes_check_eq_nil_iff (w : WrittenDice) : w.check.notes = [] ↔ w.Faultless := by
  constructor
  · intro h
    simp only [WrittenDice.check, Noted.notes_bind, List.append_eq_nil_iff] at h
    obtain ⟨hcount, hsides, hrest⟩ := h
    rw [notes_checkCount_eq_nil_iff] at hcount
    rw [notes_checkSides_eq_nil_iff] at hsides
    rw [checkCount_of_mem hcount, checkSides_of_mem hsides] at hrest
    simp only [Noted.value_pure, Noted.notes_map] at hrest
    exact ⟨hcount, hsides, (notes_assemble_eq_nil_iff hcount.2 hsides _).1 hrest⟩
  · rintro ⟨hcount, hsides, hsuffixes⟩
    rw [WrittenDice.check, checkCount_of_mem hcount, checkSides_of_mem hsides]
    simp [notes_assemble_eq_nil_iff hcount.2 hsides, hsuffixes]

/-- A group of dice without a fault is taken as it is written. -/
theorem value_check {w : WrittenDice} (h : w.Faultless) : w.check.value = some w.toDice := by
  obtain ⟨hcount, hsides, hsuffixes⟩ := h
  rw [WrittenDice.check, checkCount_of_mem hcount, checkSides_of_mem hsides]
  simp only [Noted.value_bind, Noted.value_pure, Noted.value_map]
  rw [value_assemble hcount.2 hsides.2 hsuffixes]
  rfl

/-! ## Terms -/

/-- A text spells a term: a numeral that is a total, or dice without a fault. -/
inductive Spells : List Char → Term → Prop where
  | number {ds : List Char} (numeral : IsNumeral ds)
      (fits : (Numeral.value ds : Int) ≤ maxTotal) : Spells ds (.number (Numeral.value ds))
  | dice {w : WrittenDice} (spelled : w.WellSpelled) (faultless : w.Faultless) :
      Spells w.chars (.dice w.toDice)

/-- A fragment that spells a term is taken silently. -/
theorem checkTerm_of_spells {cs : List Char} {t : Term} (h : Spells cs t) :
    checkTerm cs = pure (some t) := by
  cases h with
  | number numeral fits =>
    simp only [checkTerm, ofText?_eq_number_iff.2 ⟨rfl, numeral⟩, checkLiteral, if_pos fits]
  | @dice w spelled faultless =>
    simp only [checkTerm, ofText?_eq_dice_iff.2 ⟨rfl, spelled⟩]
    have hnotes := (notes_check_eq_nil_iff w).2 faultless
    have hvalue := value_check faultless
    show (⟨Option.map Term.dice w.check.value, w.check.notes ++ []⟩ : Noted (Option Term)) = _
    rw [hnotes, hvalue]
    rfl

/-- A fragment is taken silently exactly when it spells a term. -/
theorem notes_checkTerm_eq_nil_iff (cs : List Char) :
    (checkTerm cs).notes = [] ↔ ∃ t, Spells cs t := by
  constructor
  · intro h
    unfold checkTerm at h
    split at h
    · next ds hds =>
      obtain ⟨rfl, hnumeral⟩ := ofText?_eq_number_iff.1 hds
      exact ⟨_, .number hnumeral ((Noted.notes_ite_eq_nil_iff _ _).1 h)⟩
    · next w hw =>
      obtain ⟨rfl, hspelled⟩ := ofText?_eq_dice_iff.1 hw
      rw [Noted.notes_map, notes_check_eq_nil_iff] at h
      exact ⟨_, .dice hspelled h⟩
    · simp [Noted.refuse] at h
  · rintro ⟨t, ht⟩
    rw [checkTerm_of_spells ht, Noted.notes_pure]

/-- A text spells at most one term. -/
theorem Spells.unique {cs : List Char} {t t' : Term} (h : Spells cs t) (h' : Spells cs t') :
    t = t' := by
  have heq := (checkTerm_of_spells h).symm.trans (checkTerm_of_spells h')
  exact Option.some.inj (congrArg Noted.value heq)

end TabletopDice.Written
