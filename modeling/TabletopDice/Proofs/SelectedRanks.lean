import TabletopDice.Proofs.Selecting

/-!
# Selections as spans of ranks

The dice of a group that count, in ascending order, have the ranks from zero on. Whatever selections
are applied, the dice that are left are those of a span of these ranks, and each selection narrows
the span at one end by its count. Main statement: the span is computed from the number of dice and
the selections alone, and each die that is dropped bears the selection that excluded its rank
(`applyAll_spans`).
-/

namespace TabletopDice

/-! ## Spans -/

/-- A span of ranks: those from `lo` on that are below `hi`. -/
structure Span where
  lo : Nat
  hi : Nat

namespace Span

/-- The span has a rank. -/
def Has (w : Span) (k : Nat) : Prop :=
  w.lo ≤ k ∧ k < w.hi

instance (w : Span) : DecidablePred w.Has :=
  fun _ => inferInstanceAs (Decidable (_ ∧ _))

/-- The entries of a list whose ranks are in the span. -/
def slice {α : Type} (w : Span) (xs : List α) : List α :=
  (xs.take w.hi).drop w.lo

/-- A selection keeps or drops so many ranks at one end of the span, but not more than there are. -/
def narrow (w : Span) (s : Selection) : Span :=
  match s.kind with
  | .keepHigh => { w with lo := max w.lo (w.hi - s.count) }
  | .keepLow => { w with hi := min w.hi (w.lo + s.count) }
  | .dropHigh => { w with hi := max w.lo (w.hi - s.count) }
  | .dropLow => { w with lo := min w.hi (w.lo + s.count) }

/-- The span after some selections, one after the other. -/
def after (w : Span) (ss : List Selection) : Span :=
  ss.foldl narrow w

/-- The first of some selections that excludes a rank: the span has the rank up to there, and has it
no more after this step. -/
def FirstToExclude (w : Span) (k : Nat) (ss : List Selection) (s : Selection) : Prop :=
  ∃ before later, ss = before ++ s :: later ∧ (∀ us, us <+: before → (w.after us).Has k) ∧
    ¬ (w.after (before ++ [s])).Has k

variable {α : Type} {w : Span} {xs : List α}

theorem getElem?_slice (j : Nat) :
    (w.slice xs)[j]? = if w.lo + j < w.hi then xs[w.lo + j]? else none := by
  rw [slice, List.getElem?_drop, List.getElem?_take]

theorem mem_slice_iff {x : α} : x ∈ w.slice xs ↔ ∃ k, w.Has k ∧ xs[k]? = some x := by
  rw [List.mem_iff_getElem?]
  simp only [getElem?_slice]
  constructor
  · rintro ⟨j, hj⟩
    split at hj
    · next hlt => exact ⟨w.lo + j, ⟨Nat.le_add_right _ _, hlt⟩, hj⟩
    · cases hj
  · rintro ⟨k, ⟨hlo, hhi⟩, hk⟩
    refine ⟨k - w.lo, ?_⟩
    rw [Nat.add_sub_cancel' hlo, if_pos hhi, hk]

theorem length_slice (hhi : w.hi ≤ xs.length) : (w.slice xs).length = w.hi - w.lo := by
  rw [slice, List.length_drop, List.length_take, Nat.min_eq_left hhi]

/-- A span within another one has a part of its entries, in the same order. -/
theorem slice_sublist {w' : Span} (hlo : w.lo ≤ w'.lo) (hhi : w'.hi ≤ w.hi) :
    List.Sublist (w'.slice xs) (w.slice xs) := by
  have hsplit : w'.slice xs = ((w.slice xs).take (w'.hi - w.lo)).drop (w'.lo - w.lo) := by
    unfold slice
    rw [← List.drop_take, List.drop_drop, List.take_take, Nat.min_eq_left hhi,
      Nat.add_sub_cancel' hlo]
  rw [hsplit]
  exact (List.drop_sublist _ _).trans (List.take_sublist _ _)

/-! ## Narrowing a span -/

/-- A selection moves the ends of a span towards each other, but not past each other. -/
theorem narrow_bounds (h : w.lo ≤ w.hi) (s : Selection) :
    w.lo ≤ (w.narrow s).lo ∧ (w.narrow s).lo ≤ (w.narrow s).hi ∧ (w.narrow s).hi ≤ w.hi := by
  unfold narrow
  cases s.kind <;> dsimp only <;> omega

theorem after_bounds (h : w.lo ≤ w.hi) (ss : List Selection) :
    w.lo ≤ (w.after ss).lo ∧ (w.after ss).lo ≤ (w.after ss).hi ∧ (w.after ss).hi ≤ w.hi := by
  induction ss generalizing w with
  | nil => exact ⟨Nat.le_refl _, h, Nat.le_refl _⟩
  | cons s ss ih =>
    obtain ⟨hlo, hw, hhi⟩ := narrow_bounds h s
    obtain ⟨hlo', hw', hhi'⟩ := ih hw
    exact ⟨Nat.le_trans hlo hlo', hw', Nat.le_trans hhi' hhi⟩

/-- The ranks of a span that a selection excludes are those of its window, counted from the lower
end of the span. -/
theorem not_has_narrow_iff {s : Selection} {k : Nat} (hk : w.Has k) :
    ¬ (w.narrow s).Has k ↔ Has ⟨s.first (w.hi - w.lo), s.last (w.hi - w.lo)⟩ (k - w.lo) := by
  unfold narrow Has Selection.first Selection.last at *
  cases s.kind <;> dsimp only <;> omega

theorem firstToExclude_head {k : Nat} {s : Selection} {ss : List Selection} (h : w.Has k)
    (hs : ¬ (w.narrow s).Has k) : w.FirstToExclude k (s :: ss) s := by
  refine ⟨[], ss, rfl, fun us hus => ?_, hs⟩
  rw [List.prefix_nil.1 hus]
  exact h

theorem FirstToExclude.tail {k : Nat} {s s' : Selection} {ss : List Selection} (h : w.lo ≤ w.hi)
    (hss : (w.narrow s).FirstToExclude k ss s') : w.FirstToExclude k (s :: ss) s' := by
  obtain ⟨before, later, rfl, hbefore, hexcluded⟩ := hss
  refine ⟨s :: before, later, rfl, fun us hus => ?_, hexcluded⟩
  cases us with
  | nil =>
    obtain ⟨hlo, -, hhi⟩ := narrow_bounds h s
    have hk := hbefore [] List.nil_prefix
    exact ⟨Nat.le_trans hlo hk.1, Nat.lt_of_lt_of_le hk.2 hhi⟩
  | cons u us =>
    obtain ⟨rfl, hrest⟩ := List.cons_prefix_cons.1 hus
    exact hbefore us hrest

end Span

/-! ## Dropping the dice of a window -/

namespace RolledDice

/-- Dice are marked at these positions and nowhere else. -/
theorem getElem?_of_foldlM_dropAt {s : Selection} {is : List Nat} {rolls rolls' : Array Die}
    (hnodup : is.Nodup) (hkept : ∀ i ∈ is, ∃ d, rolls[i]? = some d ∧ d.isKept)
    (h : is.foldlM (dropAt s) rolls = .ok rolls') (j : Nat) :
    rolls'[j]? = rolls[j]?.map fun d => if j ∈ is then { d with droppedBy := some s } else d := by
  induction is generalizing rolls with
  | nil =>
    cases h
    simp
  | cons i is ih =>
    obtain ⟨hi, hnodup⟩ := List.nodup_cons.1 hnodup
    obtain ⟨d, hd, hdkept⟩ := hkept i (.head _)
    rw [List.foldlM_cons, dropAt_of_isKept hd hdkept] at h
    have hrest := exists_isKept_of_drop hi { d with droppedBy := some s }
      fun j hj => hkept j (.tail _ hj)
    rw [ih hnodup hrest h]
    by_cases hij : i = j
    · subst hij
      have hbound := (Array.getElem?_eq_some_iff.1 hd).1
      rw [Array.getElem?_setIfInBounds_self_of_lt hbound, hd]
      simp [hi]
    · have hji : j ≠ i := fun heq => hij heq.symm
      rw [Array.getElem?_setIfInBounds_ne hij]
      simp [hji]

/-- A selection marks the dice of its window and leaves the others as they are. -/
theorem getElem?_of_apply {s : Selection} {r r' : RolledDice} (h : r.apply s = .ok r') (j : Nat) :
    r'.rolls[j]? =
      r.rolls[j]?.map fun d =>
        if j ∈ window s r.rolls then { d with droppedBy := some s } else d := by
  obtain ⟨rolls, hfold, rfl⟩ := exists_rolls_of_apply h
  have hget := getElem?_of_foldlM_dropAt (nodup_window s r.rolls)
    (fun _ => isKept_of_mem_window) hfold j
  rwa [List.getElem?_toArray, ← Array.getElem?_toList] at hget

/-! ## One selection -/

section Narrowing

variable {order : List Nat} {w : Span} {s : Selection} {r r' : RolledDice}

/-- The window of a selection has the ranks that narrowing the span excludes. -/
theorem mem_window_iff (h : Ascending rankKey r.rolls (w.slice order)) (hhi : w.hi ≤ order.length)
    {i : Nat} :
    i ∈ window s r.rolls ↔ ∃ k, order[k]? = some i ∧ w.Has k ∧ ¬ (w.narrow s).Has k := by
  have hranked : ranking rankKey r.rolls = w.slice order := (ascending_ranking _ _).unique h
  have hwindow : window s r.rolls =
      Span.slice ⟨s.first (w.hi - w.lo), s.last (w.hi - w.lo)⟩ (w.slice order) := by
    unfold window
    rw [hranked, ← Span.length_slice hhi]
    rfl
  rw [hwindow, Span.mem_slice_iff]
  simp only [Span.getElem?_slice]
  constructor
  · rintro ⟨j, hhas, hj⟩
    split at hj
    · next hlt =>
      have hk : w.Has (w.lo + j) := ⟨Nat.le_add_right _ _, hlt⟩
      refine ⟨w.lo + j, hj, hk, (Span.not_has_narrow_iff hk).2 ?_⟩
      rwa [Nat.add_sub_cancel_left]
    · cases hj
  · rintro ⟨k, hget, hk, hexcluded⟩
    refine ⟨k - w.lo, (Span.not_has_narrow_iff hk).1 hexcluded, ?_⟩
    rw [Nat.add_sub_cancel' hk.1, if_pos hk.2, hget]

/-- A die that a selection drops is ranked no more, and the other dice keep their keys. -/
theorem keyAt_of_apply (hr : r.apply s = .ok r') (i : Nat) :
    keyAt rankKey r'.rolls i =
      if i ∈ window s r.rolls then none else keyAt rankKey r.rolls i := by
  unfold keyAt
  rw [getElem?_of_apply hr]
  split
  · cases r.rolls[i]? <;> rfl
  · cases r.rolls[i]? <;> rfl

/-- After a selection the dice that count are those of the narrower span. -/
theorem ascending_of_apply (hnodup : order.Nodup) (h : Ascending rankKey r.rolls (w.slice order))
    (hw : w.lo ≤ w.hi) (hhi : w.hi ≤ order.length) (hr : r.apply s = .ok r') :
    Ascending rankKey r'.rolls ((w.narrow s).slice order) := by
  obtain ⟨hlo', -, hhi'⟩ := Span.narrow_bounds hw s
  have hout : ∀ i ∈ (w.narrow s).slice order, i ∉ window s r.rolls := by
    intro i hi hwindow
    obtain ⟨k, hhas, hk⟩ := Span.mem_slice_iff.1 hi
    obtain ⟨k', hk', -, hexcluded⟩ := (mem_window_iff h hhi).1 hwindow
    -- a position has one rank only
    have hbound := (List.getElem?_eq_some_iff.1 hk).1
    have hkk' : k = k' := (List.getElem?_inj hbound hnodup).1 (hk.trans hk'.symm)
    exact hexcluded (hkk' ▸ hhas)
  have hsub : List.Sublist ((w.narrow s).slice order) (w.slice order) :=
    Span.slice_sublist hlo' hhi'
  constructor
  · intro i
    rw [keyAt_of_apply hr]
    constructor
    · intro hi
      rw [if_neg (hout i hi)]
      exact (h.mem_iff i).1 (hsub.subset hi)
    · intro hi
      split at hi
      · cases hi
      · next hnot =>
        obtain ⟨k, hhas, hk⟩ := Span.mem_slice_iff.1 ((h.mem_iff i).2 hi)
        refine Span.mem_slice_iff.2 ⟨k, Decidable.byContradiction fun hexcluded => ?_, hk⟩
        exact hnot ((mem_window_iff h hhi).2 ⟨k, hk, hhas, hexcluded⟩)
  · refine (h.sorted.sublist hsub).imp_of_mem fun {i j} hi hj hij => ?_
    unfold ComesBefore at hij ⊢
    rwa [keyAt_of_apply hr, keyAt_of_apply hr, if_neg (hout i hi), if_neg (hout j hj)]

end Narrowing

/-! ## Selections one after the other -/

/-- The mark of a die after some selections: the mark that it had, or for a die that counted the
first selection that excludes its rank. -/
def Marks (order : List Nat) (w : Span) (ss : List Selection) (i : Nat) (d : Die)
    (mark : Option Selection) : Prop :=
  mark = d.droppedBy ∨
    d.isKept ∧ ∃ k s, order[k]? = some i ∧ w.FirstToExclude k ss s ∧ mark = some s

/-- Selections narrow the span one after the other. What holds of the first one's result is carried
on by the others, since a die that is dropped keeps its mark. -/
theorem exists_applyAll_span {order : List Nat} (hnodup : order.Nodup) {ss : List Selection}
    {w : Span} {r : RolledDice} (h : Ascending rankKey r.rolls (w.slice order)) (hw : w.lo ≤ w.hi)
    (hhi : w.hi ≤ order.length) :
    ∃ r', r.applyAll ss = .ok r' ∧
      Ascending rankKey r'.rolls ((w.after ss).slice order) ∧
      ∀ i d, r.rolls[i]? = some d → ∃ mark,
        r'.rolls[i]? = some { d with droppedBy := mark } ∧ Marks order w ss i d mark := by
  induction ss generalizing w r with
  | nil => exact ⟨r, rfl, h, fun i d hd => ⟨d.droppedBy, hd, .inl rfl⟩⟩
  | cons s ss ih =>
    obtain ⟨r₁, hr₁⟩ := exists_apply s r
    have h₁ := ascending_of_apply hnodup h hw hhi hr₁
    obtain ⟨-, hw₁, hhi₁⟩ := Span.narrow_bounds hw s
    obtain ⟨r₂, hr₂, hspan, hmarks⟩ := ih h₁ hw₁ (Nat.le_trans hhi₁ hhi)
    refine ⟨r₂, ?_, hspan, fun i d hd => ?_⟩
    · unfold applyAll at hr₂ ⊢
      rw [List.foldlM_cons, hr₁]
      exact hr₂
    have hget := getElem?_of_apply hr₁ i
    rw [hd, Option.map_some] at hget
    split at hget
    · next hwindow =>
      obtain ⟨mark, hmark, hcases⟩ := hmarks i _ hget
      refine ⟨mark, hmark, .inr ?_⟩
      obtain ⟨k, hk, hhas, hexcluded⟩ := (mem_window_iff h hhi).1 hwindow
      obtain ⟨d', hd', hkept⟩ := isKept_of_mem_window hwindow
      rw [List.getElem?_toArray, hd] at hd'
      cases hd'
      rcases hcases with rfl | ⟨hdropped, -⟩
      · exact ⟨hkept, k, s, hk, Span.firstToExclude_head hhas hexcluded, rfl⟩
      · cases hdropped
    · obtain ⟨mark, hmark, hcases⟩ := hmarks i _ hget
      refine ⟨mark, hmark, ?_⟩
      rcases hcases with rfl | ⟨hkept, k, s', hk, hfirst, rfl⟩
      · exact .inl rfl
      · exact .inr ⟨hkept, k, s', hk, hfirst.tail hw, rfl⟩

/-- The number of dice that count is the length of their ascending order. -/
theorem length_kept_of_ascending {r : RolledDice} {order : List Nat}
    (h : Ascending rankKey r.rolls order) : r.kept.length = order.length := by
  rw [h.unique (ascending_ranking rankKey r.rolls), length_kept, length_ranking_rankKey]

/-- Whatever dice a group has and whatever selections are applied to it one after the other, none of
them fails. Let the dice that count at first have the ranks from zero on, in ascending order of
value and, of equal values, of position. Then the dice that count in the end are those of the span
that is left of these ranks, so that their number depends on the number of dice alone. Each die
stays in its place with its value and its faces, a die that was dropped before keeps its mark, and a
die that is dropped bears the first selection that excludes its rank. -/
theorem applyAll_spans (ss : List Selection) (r : RolledDice) :
    ∃ order, Ascending rankKey r.rolls order ∧ order.length = r.kept.length ∧
      let left := Span.after ⟨0, order.length⟩ ss
      left.lo ≤ left.hi ∧ left.hi ≤ order.length ∧
      ∃ r', r.applyAll ss = .ok r' ∧ r'.dice = r.dice ∧ r'.rolls.length = r.rolls.length ∧
        Ascending rankKey r'.rolls (left.slice order) ∧ r'.kept.length = left.hi - left.lo ∧
        ∀ i d, r.rolls[i]? = some d → ∃ mark,
          r'.rolls[i]? = some { d with droppedBy := mark } ∧
            Marks order ⟨0, order.length⟩ ss i d mark := by
  have h := ascending_ranking rankKey r.rolls
  refine ⟨ranking rankKey r.rolls, h, (length_kept_of_ascending h).symm, ?_⟩
  generalize ranking rankKey r.rolls = order at h
  have hwhole : Span.slice ⟨0, order.length⟩ order = order := List.take_length
  have hspan : Ascending rankKey r.rolls (Span.slice ⟨0, order.length⟩ order) := by
    rw [hwhole]
    exact h
  obtain ⟨-, hle, hhi⟩ := Span.after_bounds (w := ⟨0, order.length⟩) (Nat.zero_le _) ss
  obtain ⟨r', hr', hleft, hmarks⟩ :=
    exists_applyAll_span h.nodup hspan (Nat.zero_le _) (Nat.le_refl _)
  have hlength := congrArg List.length (map_rolls_of_applyAll (f := Die.value) (fun _ _ => rfl) hr')
  rw [List.length_map, List.length_map] at hlength
  refine ⟨hle, hhi, r', hr', dice_of_applyAll hr', hlength, hleft, ?_, hmarks⟩
  rw [length_kept_of_ascending hleft, Span.length_slice hhi]

/-- Of six dice the lowest is dropped and the three highest are kept, until nine are dropped. -/
example : Span.after ⟨0, 6⟩ [⟨.dropLow, 1⟩, ⟨.keepHigh, 3⟩, ⟨.dropHigh, 9⟩] = ⟨3, 3⟩ := rfl

end RolledDice

end TabletopDice
