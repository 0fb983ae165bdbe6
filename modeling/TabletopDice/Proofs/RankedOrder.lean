import TabletopDice.Ranking

/-!
# Ascending order

What a ranking is, said without sorting. Main statements: a ranking lists the positions of the
entries that have a key in ascending order (`ascending_ranking`), and there is only one such list
(`Ascending.unique`).
-/

namespace TabletopDice

variable {α : Type} {key : α → Option Int} {xs : List α}

/-- The key of the entry at a position, if there is an entry and it has one. -/
def keyAt (key : α → Option Int) (xs : List α) (i : Nat) : Option Int :=
  xs[i]?.bind key

/-- One position comes before another: its key is smaller, or of equal keys it is the earlier
position. -/
def ComesBefore (key : α → Option Int) (xs : List α) (i j : Nat) : Prop :=
  ∃ k l, keyAt key xs i = some k ∧ keyAt key xs j = some l ∧ (k < l ∨ (k = l ∧ i < j))

/-- A list of positions has those of all entries with a key, in ascending order. -/
structure Ascending (key : α → Option Int) (xs : List α) (order : List Nat) : Prop where
  mem_iff : ∀ i, i ∈ order ↔ (keyAt key xs i).isSome
  sorted : order.Pairwise (ComesBefore key xs)

/-! ## The order is strict -/

/-- No two positions come before each other. -/
theorem ComesBefore.asymm {i j : Nat} (h : ComesBefore key xs i j) : ¬ ComesBefore key xs j i := by
  rintro ⟨k', l', hk', hl', hlt'⟩
  obtain ⟨k, l, hk, hl, hlt⟩ := h
  rw [hl] at hk'
  rw [hk] at hl'
  cases hk'
  cases hl'
  omega

theorem Ascending.nodup {order : List Nat} (h : Ascending key xs order) : order.Nodup :=
  h.sorted.imp fun hij heq => (heq ▸ hij).asymm (heq ▸ hij)

/-- There is only one ascending order of the positions. -/
theorem Ascending.unique {order order' : List Nat} (h : Ascending key xs order)
    (h' : Ascending key xs order') : order = order' := by
  have hperm : order.Perm order' := by
    refine (List.perm_ext_iff_of_nodup h.nodup h'.nodup).2 fun i => ?_
    rw [h.mem_iff, h'.mem_iff]
  exact hperm.eq_of_pairwise (fun i j _ _ hij hji => absurd hji hij.asymm) h.sorted h'.sorted

/-! ## Rankings -/

/-- The positions with a key are listed with it. -/
theorem mem_keyedPositions_iff {p : Int × Nat} :
    p ∈ keyedPositions key xs ↔ keyAt key xs p.2 = some p.1 := by
  obtain ⟨k, i⟩ := p
  constructor
  · intro h
    obtain ⟨⟨x, j⟩, hx, hkey⟩ := List.mem_filterMap.1 h
    obtain ⟨l, hl, heq⟩ := Option.map_eq_some_iff.1 hkey
    cases heq
    show xs[i]?.bind key = some k
    rw [List.mem_zipIdx_iff_getElem?.1 hx, Option.bind_some]
    exact hl
  · intro h
    obtain ⟨x, hx, hk⟩ := Option.bind_eq_some_iff.1 h
    refine List.mem_filterMap.2 ⟨(x, i), List.mem_zipIdx_iff_getElem?.2 hx, ?_⟩
    rw [Option.map_eq_some_iff]
    exact ⟨k, hk, rfl⟩

/-- A position has a rank exactly if it has a key. -/
theorem mem_ranking_iff {i : Nat} : i ∈ ranking key xs ↔ (keyAt key xs i).isSome := by
  rw [(ranking_perm key xs).mem_iff, List.mem_map, Option.isSome_iff_exists]
  constructor
  · rintro ⟨⟨k, j⟩, hmem, rfl⟩
    exact ⟨k, mem_keyedPositions_iff.1 hmem⟩
  · rintro ⟨k, hk⟩
    exact ⟨(k, i), mem_keyedPositions_iff.2 hk, rfl⟩

/-- No position is ranked twice. -/
theorem nodup_ranking (key : α → Option Int) (xs : List α) : (ranking key xs).Nodup := by
  have hpositions : (xs.zipIdx.map Prod.snd).Nodup := by
    rw [List.zipIdx_map_snd]
    exact List.nodup_range'
  have hpairs : xs.zipIdx.Pairwise fun p q => p.2 ≠ q.2 := List.pairwise_map.1 hpositions
  have hkeyed : (keyedPositions key xs).Pairwise fun p q => p.2 ≠ q.2 := by
    refine List.Pairwise.filterMap _ (fun p q hpq p' hp q' hq => ?_) hpairs
    obtain ⟨k, -, rfl⟩ := Option.map_eq_some_iff.1 hp
    obtain ⟨l, -, rfl⟩ := Option.map_eq_some_iff.1 hq
    exact hpq
  exact (ranking_perm key xs).nodup_iff.2 (List.pairwise_map.2 hkeyed)

/-- A ranking is sorted by key, and by position where keys are equal. -/
theorem pairwise_ranking (key : α → Option Int) (xs : List α) :
    (ranking key xs).Pairwise (ComesBefore key xs) := by
  have hsorted := List.pairwise_mergeSort rankedBefore_trans rankedBefore_total
    (keyedPositions key xs)
  -- no position is ranked twice, so the order of equal keys is strict
  have hdistinct : ((keyedPositions key xs).mergeSort rankedBefore).Pairwise
      fun p q => p.2 ≠ q.2 :=
    List.pairwise_map.1 (nodup_ranking key xs)
  unfold ranking
  rw [List.pairwise_map]
  refine (hsorted.and hdistinct).imp_of_mem ?_
  rintro ⟨k, i⟩ ⟨l, j⟩ hp hq ⟨hle, hne⟩
  refine ⟨k, l, mem_keyedPositions_iff.1 (List.mem_mergeSort.1 hp),
    mem_keyedPositions_iff.1 (List.mem_mergeSort.1 hq), ?_⟩
  simp only [rankedBefore, Bool.or_eq_true, Bool.and_eq_true, decide_eq_true_eq, beq_iff_eq] at hle
  omega

/-- The ranking lists the positions with a key from the lowest to the highest. -/
theorem ascending_ranking (key : α → Option Int) (xs : List α) :
    Ascending key xs (ranking key xs) where
  mem_iff := fun _ => mem_ranking_iff
  sorted := pairwise_ranking key xs

end TabletopDice
