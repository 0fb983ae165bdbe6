import TabletopDice.Proofs.Replay
import TabletopDice.Proofs.ValidDice

/-!
# The groups of a roll

Every group of dice in the result of a roll was rolled for a group of one of its expressions. A
selection drops the dice of a window of ranks, and how wide the window is depends on the number of
dice alone, so it is known beforehand how many dice of a group will count. Main statements: a group
has the dice that its selections leave (`length_kept_of_path`), valid selections leave at least one
(`one_le_leftOf_of_valid`), and the groups of a result are those that were rolled
(`exists_dice_of_mem_groups`, `exists_expr_of_mem_exprs`).
-/

namespace TabletopDice

open Rolling

/-! ## Dice that are left -/

/-- The number of dice that a selection leaves of `n` dice. -/
def Selection.left (n : Nat) (s : Selection) : Nat :=
  match s.kind with
  | .keepHigh | .keepLow => min s.count n
  | .dropHigh | .dropLow => n - s.count

/-- The number of dice that some selections, one after the other, leave of `n` dice. -/
def leftOf (n : Nat) (ss : List Selection) : Nat :=
  ss.foldl Selection.left n

/-- The dice in the window of ranks and the dice that are left are all the dice. -/
theorem Selection.window_add_left (s : Selection) (n : Nat) :
    (min (s.last n) n - s.first n) + s.left n = n := by
  obtain ⟨kind, count⟩ := s
  cases kind
  case keepHigh =>
    show (min (n - count) n - 0) + min count n = n
    omega
  case keepLow =>
    show (min n n - count) + min count n = n
    omega
  case dropHigh =>
    show (min n n - (n - count)) + (n - count) = n
    omega
  case dropLow =>
    show (min count n - 0) + (n - count) = n
    omega

/-- Selections that can stand side by side leave at least one die. -/
theorem one_le_leftOf_of_valid {count : Nat} {ss : List Selection} (hcount : 1 ≤ count)
    (h : ValidSelections count ss) : 1 ≤ leftOf count ss := by
  cases h with
  | none => exact hcount
  | @keep kind k keeps pos le =>
    cases kind
    case keepHigh =>
      show 1 ≤ min k count
      omega
    case keepLow =>
      show 1 ≤ min k count
      omega
    all_goals cases keeps
  | @drop kind k drops pos lt =>
    cases kind
    case dropHigh =>
      show 1 ≤ count - k
      omega
    case dropLow =>
      show 1 ≤ count - k
      omega
    all_goals cases drops
  | @dropBoth a b high_pos low_pos lt =>
    show 1 ≤ count - a - b
    omega

namespace RolledDice

/-! ## Dice that are dropped -/

/-- The window of a selection is as wide as the number of dice that count makes it. -/
theorem length_window (s : Selection) (rolls : List Die) :
    (window s rolls).length + s.left (rolls.countP Die.isKept) = rolls.countP Die.isKept := by
  unfold window
  dsimp only
  rw [List.length_drop, List.length_take, length_ranking_rankKey]
  exact s.window_add_left _

/-- Dropping a die that counts leaves one die less that does. -/
theorem countP_dropAt {s : Selection} {rolls rolls' : Array Die} {i : Nat} {d : Die}
    (hd : rolls[i]? = some d) (hkept : d.isKept) (h : dropAt s rolls i = .ok rolls') :
    rolls'.toList.countP Die.isKept + 1 = rolls.toList.countP Die.isKept := by
  rw [dropAt_of_isKept hd hkept] at h
  cases h
  obtain ⟨hi, hget⟩ := Array.getElem?_eq_some_iff.1 hd
  have hlist : i < rolls.toList.length := hi
  have hpos : 0 < rolls.toList.countP Die.isKept := by
    refine List.countP_pos_iff.2 ⟨d, ?_, hkept⟩
    rw [← hget]
    exact Array.getElem_mem_toList hi
  have hat : rolls.toList[i].isKept := by
    rw [Array.getElem_toList, hget]
    exact hkept
  rw [Array.toList_setIfInBounds, List.countP_set hlist, if_pos hat]
  simp only [Die.isKept, Option.isNone_some, Bool.false_eq_true, if_false]
  omega

/-- Dropping dice at different positions leaves as many less that count. -/
theorem countP_foldlM_dropAt {s : Selection} {is : List Nat} {rolls rolls' : Array Die}
    (hnodup : is.Nodup) (hkept : ∀ i ∈ is, ∃ d, rolls[i]? = some d ∧ d.isKept)
    (h : is.foldlM (dropAt s) rolls = .ok rolls') :
    rolls'.toList.countP Die.isKept + is.length = rolls.toList.countP Die.isKept := by
  induction is generalizing rolls with
  | nil =>
    cases h
    rfl
  | cons i is ih =>
    obtain ⟨hi, hnodup⟩ := List.nodup_cons.1 hnodup
    obtain ⟨d, hd, hdkept⟩ := hkept i (.head _)
    have hdrop := dropAt_of_isKept (s := s) hd hdkept
    have hone := countP_dropAt hd hdkept hdrop
    rw [List.foldlM_cons, hdrop] at h
    have hrest := exists_isKept_of_drop hi { d with droppedBy := some s }
      fun j hj => hkept j (.tail _ hj)
    have hmany := ih hnodup hrest h
    rw [List.length_cons]
    omega

/-! ## Selections -/

/-- A selection leaves its number of dice, whatever their values are. -/
theorem length_kept_of_apply {s : Selection} {r r' : RolledDice} (h : r.apply s = .ok r') :
    r'.kept.length = s.left r.kept.length := by
  obtain ⟨rolls, hfold, rfl⟩ := exists_rolls_of_apply h
  have hcount : rolls.toList.countP Die.isKept + (window s r.rolls).length =
      r.rolls.countP Die.isKept :=
    countP_foldlM_dropAt (nodup_window s r.rolls) (fun _ => isKept_of_mem_window) hfold
  have hwindow := length_window s r.rolls
  rw [length_kept, length_kept]
  show rolls.toList.countP Die.isKept = _
  omega

theorem length_kept_of_applyAll {ss : List Selection} {r r' : RolledDice}
    (h : r.applyAll ss = .ok r') : r'.kept.length = leftOf r.kept.length ss := by
  induction ss generalizing r with
  | nil =>
    cases h
    rfl
  | cons s ss ih =>
    obtain ⟨r₁, hr₁⟩ := exists_apply s r
    unfold applyAll at h
    rw [List.foldlM_cons, hr₁] at h
    rw [ih h, length_kept_of_apply hr₁]
    rfl

end RolledDice

/-! ## Rolling a group -/

/-- A die counts when it has just been rolled. -/
theorem isKept_of_path_rollDie {d : Dice} {die : Die} {vs : List Nat}
    (h : Path d.rollDie vs (.ok die)) : die.isKept := by
  obtain ⟨v, more, -, hmore⟩ := Dice.parts_of_path_rollDie h
  have hsingle : (Die.single v).isKept := rfl
  rw [Die.isKept, eq_foldl_push_of_path_explodeFrom hmore, Die.droppedBy_foldl_push]
  exact hsingle

/-- Before any selection every die counts. -/
theorem countP_isKept_of_path {d : Dice} {rolls : List Die} {vs : List Nat}
    (h : Path ((List.replicate d.count d).mapM Dice.rollDie) vs (.ok rolls)) :
    rolls.countP Die.isKept = d.count := by
  rw [List.countP_eq_length.2, ← (forall₂_of_path_mapM h).length_eq, List.length_replicate]
  intro die hdie
  obtain ⟨x, -, us, hpath⟩ := exists_path_of_mem_mapM h hdie
  exact isKept_of_path_rollDie hpath

/-- A group that is rolled has as many dice that count as its selections leave of all its dice. -/
theorem length_kept_of_path {d : Dice} {r : RolledDice} {vs : List Nat}
    (h : Path d.roll vs (.ok r)) : r.kept.length = leftOf d.count d.selections := by
  obtain ⟨rolls, hrolls, happly⟩ := Dice.parts_of_path h
  rw [RolledDice.length_kept_of_applyAll happly, RolledDice.length_kept,
    countP_isKept_of_path hrolls]

/-- Of a valid group at least one die counts. -/
theorem kept_ne_nil_of_path {d : Dice} {r : RolledDice} {vs : List Nat} (hd : d.Valid)
    (h : Path d.roll vs (.ok r)) : r.kept ≠ [] := by
  have hleft := one_le_leftOf_of_valid hd.count.1 hd.selections
  rw [← length_kept_of_path h] at hleft
  exact List.ne_nil_of_length_pos hleft

/-! ## Groups of a result -/

/-- Every group of a rolled expression was rolled for one of its terms. -/
theorem exists_dice_of_mem_groups {e : Expr} {rolled : RolledExpr} {vs : List Nat}
    (h : Path e.roll vs (.ok rolled)) {g : RolledDice} (hg : g ∈ rolled.groups) :
    ∃ p ∈ e.terms, ∃ d us, p.2 = .dice d ∧ Path d.roll us (.ok g) := by
  obtain ⟨q, hq, hgroup⟩ := List.mem_filterMap.1 hg
  obtain ⟨p, hp, us, hpath⟩ := exists_path_of_mem_mapM (Expr.parts_of_path h) hq
  refine ⟨p, hp, ?_⟩
  rcases parts_of_path_rollSigned hpath with ⟨s, n, -, rfl, -⟩ | ⟨s, d, g', rfl, rfl, hdice⟩
  · cases hgroup
  · cases hgroup
    exact ⟨d, us, rfl, hdice⟩

/-- Every result of a roll is that of one of its expressions. -/
theorem exists_expr_of_mem_exprs {r : Roll} {result : RollResult} {vs : List Nat}
    (h : Path r.roll vs (.ok result)) {x : ExprResult} (hx : x ∈ result.exprs) :
    ∃ e ∈ r.exprs, ∃ us, Path e.roll us (.ok x.rolled) := by
  obtain ⟨results, hresults, rfl⟩ := Roll.parts_of_path h
  -- ranking changes only outcomes, so the rolled expression is that of an unranked result
  have hrolled : x.rolled ∈ results.map ExprResult.rolled := by
    rw [← r.map_rank (f := ExprResult.rolled) (fun _ _ => rfl) results]
    exact List.mem_map_of_mem hx
  obtain ⟨y, hy, heq⟩ := List.mem_map.1 hrolled
  obtain ⟨e, he, us, hpath⟩ := exists_path_of_mem_mapM hresults hy
  rw [← heq]
  exact ⟨e, he, us, (Roll.parts_of_path_rollExpr hpath).1⟩

end TabletopDice
