/-!
# Ranking

The positions of a list in ascending order of a key. Entries without a key are left out, and of
two entries with the same key the earlier one comes first.
-/

namespace TabletopDice

variable {α : Type}

/-- The order of ranked positions: by key, then by position. -/
def rankedBefore (a b : Int × Nat) : Bool :=
  a.1 < b.1 || (a.1 == b.1 && a.2 ≤ b.2)

/-- The keys of a list together with their positions, for those entries that have a key. -/
def keyedPositions (key : α → Option Int) (xs : List α) : List (Int × Nat) :=
  xs.zipIdx.filterMap fun (x, i) => (key x).map (·, i)

/-- The positions of the entries that have a key, in ascending order of key and position. -/
def ranking (key : α → Option Int) (xs : List α) : List Nat :=
  ((keyedPositions key xs).mergeSort rankedBefore).map Prod.snd

/-- The order of ranks is transitive. -/
theorem rankedBefore_trans (a b c : Int × Nat) (h : rankedBefore a b) (h' : rankedBefore b c) :
    rankedBefore a c := by
  simp [rankedBefore] at *
  omega

/-- Of two positions one comes before the other. -/
theorem rankedBefore_total (a b : Int × Nat) : rankedBefore a b || rankedBefore b a := by
  simp [rankedBefore]
  omega

/-- Ranking only rearranges the positions. -/
theorem ranking_perm (key : α → Option Int) (xs : List α) :
    (ranking key xs).Perm ((keyedPositions key xs).map Prod.snd) :=
  (List.mergeSort_perm _ _).map _

/-- The number of ranked positions is the number of entries that have a key. -/
theorem length_ranking (key : α → Option Int) (xs : List α) :
    (ranking key xs).length = xs.countP fun x => (key x).isSome := by
  rw [(ranking_perm key xs).length_eq, keyedPositions, List.length_map]
  suffices ∀ n, ((xs.zipIdx n).filterMap fun (x, i) => (key x).map (·, i)).length
      = xs.countP fun x => (key x).isSome from this 0
  induction xs with
  | nil => simp
  | cons x xs ih =>
    intro n
    cases h : key x <;> simp [h, ih]

end TabletopDice
