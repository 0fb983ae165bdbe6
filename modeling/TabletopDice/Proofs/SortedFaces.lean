import Mathlib
import TabletopDice.Proofs.BoundedRoll
import TabletopDice.Proofs.ExplodedDice
import TabletopDice.Proofs.SelectedRanks

/-!
# Totals by sorted values

What selections leave of a group is a span of ranks that depends on the number of its dice alone. So
the sum of the dice that count is that of a slice of the sorted values (`keptSum_of_applyAll`), and
it grows with them. Main statement: the total of dice that do not explode depends on the sorted
faces only, and never falls when these rise (`roll_total_mono`).
-/

namespace TabletopDice

open Rolling

/-! ## Sorted lists that lie below each other -/

section Sorted

variable {xs ys : List Nat} {a b : Nat}

theorem pairwise_mergeSort_le (xs : List Nat) : xs.mergeSort.Pairwise (· ≤ ·) := by
  have h : xs.mergeSort.Pairwise fun a b => decide (a ≤ b) = true :=
    List.pairwise_mergeSort (by simp only [decide_eq_true_eq]; omega)
      (by simp only [Bool.or_eq_true, decide_eq_true_eq]; omega) xs
  simpa only [decide_eq_true_eq] using h

/-- A list in ascending order is the sorted form of all its rearrangements. -/
theorem eq_mergeSort_of_perm (hsorted : ys.Pairwise (· ≤ ·)) (hperm : ys.Perm xs) :
    ys = xs.mergeSort :=
  (hperm.trans (List.mergeSort_perm xs _).symm).eq_of_pairwise
    (fun _ _ _ _ => Nat.le_antisymm) hsorted (pairwise_mergeSort_le xs)

theorem orderedInsert_of_pairwise_cons (h : (a :: xs).Pairwise (· ≤ ·)) :
    xs.orderedInsert (· ≤ ·) a = a :: xs := by
  cases xs with
  | nil => rfl
  | cons x xs => exact if_pos (List.rel_of_pairwise_cons h (.head _))

/-- Where a number is inserted and where a greater one is inserted, the lists still lie below each
other: up to the first of the two places nothing changes, and between them the entries move up by
one. -/
theorem forall₂_orderedInsert (h : List.Forall₂ (· ≤ ·) xs ys) (hxs : xs.Pairwise (· ≤ ·))
    (hys : ys.Pairwise (· ≤ ·)) (hab : a ≤ b) :
    List.Forall₂ (· ≤ ·) (xs.orderedInsert (· ≤ ·) a) (ys.orderedInsert (· ≤ ·) b) := by
  induction h generalizing a b with
  | nil => exact .cons hab .nil
  | @cons x y xs ys hxy hrest ih =>
    have ih := fun {a b : Nat} => ih (a := a) (b := b) hxs.of_cons hys.of_cons
    rw [List.orderedInsert, List.orderedInsert]
    by_cases hax : a ≤ x
    · by_cases hby : b ≤ y
      · rw [if_pos hax, if_pos hby]
        exact .cons hab (.cons hxy hrest)
      · rw [if_pos hax, if_neg hby, ← orderedInsert_of_pairwise_cons hxs]
        exact .cons (hax.trans hxy) (ih (by omega))
    · by_cases hby : b ≤ y
      · rw [if_neg hax, if_pos hby, ← orderedInsert_of_pairwise_cons hys]
        exact .cons (by omega) (ih (hab.trans hby))
      · rw [if_neg hax, if_neg hby]
        exact .cons hxy (ih hab)

/-- Raising the entries of a list raises those of its sorted form. -/
theorem forall₂_mergeSort (h : List.Forall₂ (· ≤ ·) xs ys) :
    List.Forall₂ (· ≤ ·) xs.mergeSort ys.mergeSort := by
  rw [List.mergeSort_eq_insertionSort (· ≤ ·), List.mergeSort_eq_insertionSort (· ≤ ·)]
  induction h with
  | nil => exact .nil
  | cons hxy _ ih =>
    exact forall₂_orderedInsert ih (List.pairwise_insertionSort _ _)
      (List.pairwise_insertionSort _ _) hxy

/-- An operation that keeps the order can come before or after sorting. -/
theorem mergeSort_map {f : Nat → Nat} (hf : Monotone f) (xs : List Nat) :
    (xs.map f).mergeSort = xs.mergeSort.map f := by
  refine (eq_mergeSort_of_perm ?_ ((List.mergeSort_perm xs _).map f)).symm
  rw [List.pairwise_map]
  exact (pairwise_mergeSort_le xs).imp fun h => hf h

theorem Span.sum_slice_le (w : Span) (h : List.Forall₂ (· ≤ ·) xs ys) :
    (w.slice xs).sum ≤ (w.slice ys).sum :=
  (List.forall₂_drop _ (List.forall₂_take _ h)).sum_le_sum

theorem Span.map_slice {α β : Type} (w : Span) (f : α → β) (xs : List α) :
    (w.slice xs).map f = w.slice (xs.map f) := by
  rw [slice, slice, List.map_drop, List.map_take]

end Sorted

/-! ## Values in ascending order -/

namespace RolledDice

/-- The value of the die at a position. -/
def valueAt (rolls : List Die) (i : Nat) : Nat :=
  (rolls.map Die.value).getD i 0

/-- The values of the dice that count, in ascending order. -/
def sortedValues (r : RolledDice) : List Nat :=
  (r.kept.map Die.value).mergeSort

variable {rolls : List Die} {order : List Nat} {r r' : RolledDice}

theorem valueAt_of_getElem? {i : Nat} {d : Die} (h : rolls[i]? = some d) :
    valueAt rolls i = d.value := by
  rw [valueAt, List.getD_eq_getElem?_getD, List.getElem?_map, h]
  rfl

/-- The key of a die that counts is its value. -/
theorem eq_valueAt_of_keyAt {i : Nat} {k : Int} (h : keyAt rankKey rolls i = some k) :
    k = valueAt rolls i := by
  obtain ⟨d, hd, hk⟩ := Option.bind_eq_some_iff.1 h
  unfold rankKey at hk
  split at hk
  · rw [valueAt_of_getElem? hd]
    exact (Option.some.inj hk).symm
  · cases hk

/-- In ascending order of the dice their values do not fall. -/
theorem pairwise_map_valueAt (h : Ascending rankKey rolls order) :
    (order.map (valueAt rolls)).Pairwise (· ≤ ·) := by
  rw [List.pairwise_map]
  refine h.sorted.imp ?_
  rintro i j ⟨k, l, hk, hl, hkl⟩
  have hi := eq_valueAt_of_keyAt hk
  have hj := eq_valueAt_of_keyAt hl
  omega

/-- The positions that are ranked are those of the dice that count. -/
theorem map_valueAt_keyedPositions (rolls : List Die) :
    ((keyedPositions rankKey rolls).map Prod.snd).map (valueAt rolls) =
      (rolls.filter Die.isKept).map Die.value := by
  have hkey : ∀ p ∈ rolls.zipIdx,
      (((rankKey p.1).map (·, p.2)).map Prod.snd).map (valueAt rolls) =
        if p.1.isKept then some p.1.value else none := by
    rintro ⟨d, i⟩ hp
    have hvalue := valueAt_of_getElem? (List.mem_zipIdx_iff_getElem?.1 hp)
    unfold rankKey
    dsimp only
    split
    · simp only [Option.map_some, hvalue]
    · rfl
  rw [keyedPositions, List.map_filterMap, List.map_filterMap, List.filterMap_congr hkey]
  have hfst : rolls.zipIdx.filterMap (fun p => if p.1.isKept then some p.1.value else none) =
      (rolls.zipIdx.map Prod.fst).filterMap
        fun d => if d.isKept then some d.value else none := by
    rw [List.filterMap_map]
    rfl
  rw [hfst, List.zipIdx_map_fst, ← List.filterMap_filter, List.filterMap_eq_map']

theorem map_valueAt_perm (h : Ascending rankKey r.rolls order) :
    (order.map (valueAt r.rolls)).Perm (r.kept.map Die.value) := by
  rw [h.unique (ascending_ranking rankKey r.rolls), kept, ← map_valueAt_keyedPositions]
  exact (ranking_perm rankKey r.rolls).map _

theorem map_valueAt_eq_sortedValues (h : Ascending rankKey r.rolls order) :
    order.map (valueAt r.rolls) = r.sortedValues :=
  eq_mergeSort_of_perm (pairwise_map_valueAt h) (map_valueAt_perm h)

theorem keptSum_eq_sum (r : RolledDice) : r.keptSum = (r.kept.map Die.value).sum := by
  rw [keptSum, List.sum, List.foldr_map]

theorem keptSum_of_ascending (h : Ascending rankKey r.rolls order) :
    r.keptSum = (order.map (valueAt r.rolls)).sum := by
  rw [keptSum_eq_sum, (map_valueAt_perm h).sum_nat]

/-- The dice that selections leave are, in ascending order, those of the span that is left. -/
theorem ascending_of_applyAll {ss : List Selection} (h : r.applyAll ss = .ok r') :
    Ascending rankKey r'.rolls
      ((Span.after ⟨0, r.kept.length⟩ ss).slice (ranking rankKey r.rolls)) := by
  have hranked := ascending_ranking rankKey r.rolls
  have hlength := length_kept_of_ascending hranked
  have hwhole : Ascending rankKey r.rolls
      (Span.slice ⟨0, r.kept.length⟩ (ranking rankKey r.rolls)) := by
    rw [hlength, Span.slice, List.take_length]
    exact hranked
  obtain ⟨r'', hr'', hleft, -⟩ := @exists_applyAll_span _ hranked.nodup ss _ _ hwhole
    (Nat.zero_le _) (Nat.le_of_eq hlength)
  rw [h] at hr''
  cases hr''
  exact hleft

/-- The sum of the dice that selections leave is the sum of the sorted values in their span. -/
theorem keptSum_of_applyAll {ss : List Selection} (h : r.applyAll ss = .ok r') :
    r'.keptSum = ((Span.after ⟨0, r.kept.length⟩ ss).slice r.sortedValues).sum := by
  have hvalues : valueAt r'.rolls = valueAt r.rolls := by
    funext i
    rw [valueAt, map_rolls_of_applyAll (f := Die.value) (fun _ _ => rfl) h, valueAt]
  rw [keptSum_of_ascending (ascending_of_applyAll h), hvalues, Span.map_slice,
    map_valueAt_eq_sortedValues (ascending_ranking rankKey r.rolls)]

/-- Of groups with the same selections the one with the higher values has the higher sum, whatever
dice are selected of each. -/
theorem keptSum_le_of_sortedValues {s s' : RolledDice} {ss : List Selection}
    (h : List.Forall₂ (· ≤ ·) r.sortedValues s.sortedValues) (hr : r.applyAll ss = .ok r')
    (hs : s.applyAll ss = .ok s') : r'.keptSum ≤ s'.keptSum := by
  have hlength := h.length_eq
  simp only [sortedValues, List.length_mergeSort, List.length_map] at hlength
  rw [keptSum_of_applyAll hr, keptSum_of_applyAll hs, hlength]
  exact Span.sum_slice_le _ h

/-- Dice that have just been rolled all count, with the sums of their faces up to the greatest
value. -/
theorem sortedValues_ofDraws (d : Dice) (cuts : List (List Nat)) :
    sortedValues ⟨d, cuts.map Die.ofDraws⟩ =
      (cuts.map fun faces => min maxDieValue faces.sum).mergeSort := by
  have hkept : kept ⟨d, cuts.map Die.ofDraws⟩ = cuts.map Die.ofDraws := by
    refine List.filter_eq_self.2 fun die hdie => ?_
    obtain ⟨faces, -, rfl⟩ := List.mem_map.1 hdie
    rw [Die.isKept, Die.ofDraws, Die.droppedBy_foldl_push]
    rfl
  have hvalue : Die.value ∘ Die.ofDraws = fun faces => min maxDieValue faces.sum := by
    funext faces
    have hsums := Die.sums_ofDraws faces
    rwa [Die.Sums, Die.draws_ofDraws] at hsums
  rw [sortedValues, hkept, List.map_map, hvalue]

/-- One total is at most another one. A total that is too large is beyond all that are not. -/
def TotalLe (r s : RolledDice) : Prop :=
  ∀ n, s.total = .ok n → ∃ m, r.total = .ok m ∧ m ≤ n

theorem total_eq_ok_iff {n : Nat} : r.total = .ok n ↔ n = r.keptSum ∧ n ≤ maxGroupTotal := by
  unfold total
  split
  · next hle =>
    rw [Except.ok.injEq, eq_comm]
    exact ⟨fun h => ⟨h, h ▸ hle⟩, And.left⟩
  · next hlt =>
    simp only [reduceCtorEq, false_iff]
    rintro ⟨rfl, hle⟩
    exact hlt hle

theorem TotalLe.of_keptSum {s : RolledDice} (h : r.keptSum ≤ s.keptSum) : r.TotalLe s := by
  intro n hn
  obtain ⟨rfl, hle⟩ := total_eq_ok_iff.1 hn
  exact ⟨r.keptSum, total_eq_ok_iff.2 ⟨rfl, h.trans hle⟩, h⟩

end RolledDice

/-! ## Dice that do not explode -/

namespace Dice

variable {d : Dice} {faces : List Nat}

/-- Without an explosion each answer is a die of its own. -/
theorem path_roll_of_plain (hsides : 1 ≤ d.sides) (hplain : d.explosion = none)
    (hfaces : faces.length = d.count) :
    Path d.roll faces (RolledDice.applyAll d.selections ⟨d, faces.map Die.single⟩) := by
  have hmost : d.maxDraws = 1 := by rw [maxDraws, hplain]
  refine (path_roll_iff hsides).2 ⟨faces.map fun v => [v], ⟨?_, ?_⟩, ?_, ?_⟩
  · rw [List.length_map, hfaces]
  · intro cut hcut
    obtain ⟨v, -, rfl⟩ := List.mem_map.1 hcut
    rw [hmost]
    exact ⟨nofun, Nat.le_refl 1, nofun, .inr rfl⟩
  · rw [← List.flatMap_def, List.flatMap_singleton']
  · rw [List.map_map]
    rfl

/-- Without an explosion the dice have their faces as values, up to the greatest value. -/
theorem sortedValues_single (d : Dice) (faces : List Nat) :
    RolledDice.sortedValues ⟨d, faces.map Die.single⟩ = faces.mergeSort.map (min maxDieValue) := by
  have hmono : Monotone (min maxDieValue) := fun _ _ h => min_le_min_left _ h
  have hcuts : faces.map Die.single = (faces.map fun v => [v]).map Die.ofDraws := by
    rw [List.map_map]
    rfl
  rw [hcuts, RolledDice.sortedValues_ofDraws, List.map_map, ← mergeSort_map hmono]
  simp only [Function.comp_def, List.sum_singleton]

/-- An answer for each die leads to a group that selections make of these faces. -/
theorem exists_path_of_plain (hsides : 1 ≤ d.sides) (hplain : d.explosion = none)
    (hfaces : faces.length = d.count) :
    ∃ r, Path d.roll faces (.ok r) ∧
      RolledDice.applyAll d.selections ⟨d, faces.map Die.single⟩ = .ok r := by
  obtain ⟨r, hr⟩ := RolledDice.exists_applyAll d.selections ⟨d, faces.map Die.single⟩
  have hpath := path_roll_of_plain hsides hplain hfaces
  rw [hr] at hpath
  exact ⟨r, hpath, hr⟩

/-- The sum of the dice that count grows with the sorted faces. -/
theorem keptSum_le_of_faces {p q : List Nat} {r s : RolledDice}
    (h : List.Forall₂ (· ≤ ·) p.mergeSort q.mergeSort)
    (hr : RolledDice.applyAll d.selections ⟨d, p.map Die.single⟩ = .ok r)
    (hs : RolledDice.applyAll d.selections ⟨d, q.map Die.single⟩ = .ok s) :
    r.keptSum ≤ s.keptSum := by
  refine RolledDice.keptSum_le_of_sortedValues ?_ hr hs
  rw [sortedValues_single, sortedValues_single, List.forall₂_map_left_iff,
    List.forall₂_map_right_iff]
  exact h.imp fun _ _ hle => min_le_min_left _ hle

/-- A group has a total as long as so many dice cannot exceed the greatest one. -/
theorem total_eq_of_path {vs : List Nat} {r : RolledDice} (hsides : 1 ≤ d.sides)
    (hcount : d.count * maxDieValue ≤ maxGroupTotal) (h : Path d.roll vs (.ok r)) :
    r.total = .ok r.keptSum := by
  obtain ⟨r', heq, hsum⟩ := ensures_roll hsides vs _ h
  cases heq
  rw [Nat.mul_comm] at hcount
  exact RolledDice.total_eq_ok_iff.2 ⟨rfl, hsum.trans hcount⟩

end Dice

/-- Dice that do not explode are rolled from two scripts that have a face for each of them, and any
selections are applied. If the sorted faces of the one script lie below those of the other, so do
the totals, whichever dice are selected. So the order of the faces makes no difference, and raising
some of them never lowers the total. There are totals as long as so many dice cannot exceed the
greatest one. -/
theorem roll_total_mono {d : Dice} (hsides : 1 ≤ d.sides) (hplain : d.explosion = none)
    {p q : List Nat} (hp : p.length = d.count) (hq : q.length = d.count) :
    ∃ r s, Source.run (.script p) d.roll = ⟨.value r, p, .script []⟩ ∧
      Source.run (.script q) d.roll = ⟨.value s, q, .script []⟩ ∧
      (List.Forall₂ (· ≤ ·) p.mergeSort q.mergeSort → r.TotalLe s) ∧
      (p.Perm q → r.total = s.total) ∧
      (List.Forall₂ (· ≤ ·) p q → r.TotalLe s) ∧
      (d.count * maxDieValue ≤ maxGroupTotal → ∃ m n, r.total = .ok m ∧ s.total = .ok n) := by
  obtain ⟨r, hpath, hr⟩ := Dice.exists_path_of_plain hsides hplain hp
  obtain ⟨s, hpath', hs⟩ := Dice.exists_path_of_plain hsides hplain hq
  have hsorted : List.Forall₂ (· ≤ ·) p.mergeSort q.mergeSort → r.TotalLe s :=
    fun h => .of_keptSum (Dice.keptSum_le_of_faces h hr hs)
  refine ⟨r, s, run_script_self hpath, run_script_self hpath', hsorted, fun h => ?_,
    fun h => hsorted (forall₂_mergeSort h), fun hcount => ⟨_, _,
      Dice.total_eq_of_path hsides hcount hpath, Dice.total_eq_of_path hsides hcount hpath'⟩⟩
  have hsame : p.mergeSort = q.mergeSort :=
    eq_mergeSort_of_perm (pairwise_mergeSort_le p) ((List.mergeSort_perm p _).trans h)
  have hsum : r.keptSum = s.keptSum :=
    Nat.le_antisymm (Dice.keptSum_le_of_faces (hsame ▸ List.forall₂_refl _) hr hs)
      (Dice.keptSum_le_of_faces (hsame ▸ List.forall₂_refl _) hs hr)
  rw [RolledDice.total, RolledDice.total, hsum]

/-- Of four dice the lowest is dropped and the two highest of the others are kept. Raising the die
that was dropped makes another one the lowest, and the order of the faces makes no difference. -/
theorem roll_total_mono_raised :
    (∃ r s, Source.run (.script [2, 5, 3, 4])
        (Dice.roll ⟨4, 6, none, [⟨.dropLow, 1⟩, ⟨.keepHigh, 2⟩]⟩) =
          ⟨.value r, [2, 5, 3, 4], .script []⟩ ∧
      Source.run (.script [6, 5, 3, 4])
        (Dice.roll ⟨4, 6, none, [⟨.dropLow, 1⟩, ⟨.keepHigh, 2⟩]⟩) =
          ⟨.value s, [6, 5, 3, 4], .script []⟩ ∧ r.TotalLe s) ∧
    ∃ r s, Source.run (.script [2, 5, 3, 4])
        (Dice.roll ⟨4, 6, none, [⟨.dropLow, 1⟩, ⟨.keepHigh, 2⟩]⟩) =
          ⟨.value r, [2, 5, 3, 4], .script []⟩ ∧
      Source.run (.script [3, 4, 5, 2])
        (Dice.roll ⟨4, 6, none, [⟨.dropLow, 1⟩, ⟨.keepHigh, 2⟩]⟩) =
          ⟨.value s, [3, 4, 5, 2], .script []⟩ ∧ r.total = s.total := by
  have hsides : 1 ≤ (⟨4, 6, none, [⟨.dropLow, 1⟩, ⟨.keepHigh, 2⟩]⟩ : Dice).sides := by decide
  obtain ⟨r, s, hr, hs, -, -, hraised, -⟩ :=
    roll_total_mono hsides rfl (p := [2, 5, 3, 4]) (q := [6, 5, 3, 4]) rfl rfl
  obtain ⟨r', s', hr', hs', -, hperm, -⟩ :=
    roll_total_mono hsides rfl (p := [2, 5, 3, 4]) (q := [3, 4, 5, 2]) rfl rfl
  exact ⟨⟨r, s, hr, hs, hraised (by decide)⟩, r', s', hr', hs', hperm (by decide)⟩

end TabletopDice
