import TabletopDice.Proofs.OutcomeMargins
import TabletopDice.Proofs.RankedOrder
import TabletopDice.Proofs.Replay

/-!
# The highest results

With a target number a roll can compare only its highest results with it. Main statements: exactly
the highest results keep their outcome (`keepsHighest_keepHighest`), those of them that succeed are
the ones that are counted (`countP_keepHighest`), and all the rest of the roll is as without this
limit (`roll_highest`).
-/

namespace TabletopDice

/-! ## Rankings of all positions -/

section Ranking

variable {α : Type} {key : α → Int} {xs : List α}

theorem mem_ranking_some_iff {i : Nat} :
    i ∈ ranking (fun x => some (key x)) xs ↔ i < xs.length := by
  rw [mem_ranking_iff, keyAt]
  cases hx : xs[i]? with
  | none => exact iff_of_false nofun (Nat.not_lt.2 (List.getElem?_eq_none_iff.1 hx))
  | some x => exact iff_of_true rfl (List.getElem?_eq_some_iff.1 hx).1

theorem length_ranking_some (key : α → Int) (xs : List α) :
    (ranking (fun x => some (key x)) xs).length = xs.length := by
  rw [length_ranking]
  exact List.countP_eq_length.2 fun _ _ => rfl

/-- With a key for every entry a ranking is an arrangement of all positions. -/
theorem ranking_some_perm (key : α → Int) (xs : List α) :
    (ranking (fun x => some (key x)) xs).Perm (List.range xs.length) := by
  refine (List.perm_ext_iff_of_nodup (nodup_ranking _ xs) List.nodup_range).2 fun i => ?_
  rw [mem_ranking_some_iff, List.mem_range]

/-- What holds of some entries can be counted by their positions, in any arrangement. -/
theorem countP_eq_of_perm {p : α → Bool} {order : List Nat}
    (h : order.Perm (List.range xs.length)) :
    xs.countP p = order.countP fun i => xs[i]?.any p := by
  have hentries : (List.range xs.length).map (fun i => xs[i]?) = xs.map some := by
    refine List.ext_getElem (by simp) fun i hi hi' => ?_
    rw [List.length_map, List.length_range] at hi
    simp [hi]
  rw [h.countP_eq]
  calc xs.countP p = (xs.map some).countP (Option.any p) := by
        rw [List.countP_map]
        rfl
    _ = ((List.range xs.length).map fun i => xs[i]?).countP (Option.any p) := by rw [hentries]
    _ = (List.range xs.length).countP fun i => xs[i]?.any p := List.countP_map

end Ranking

/-! ## Results that keep their outcome -/

/-- Of some results those at the positions `top` are the highest `h`, and they keep their outcome.
They are above all others: their totals are greater, or as great and earlier in the list. All others
lose their outcome, and nothing else changes. -/
structure KeepsHighest (h : Nat) (all ranked : List ExprResult) (top : List Nat) : Prop where
  nodup : top.Nodup
  length_top : top.length = min h all.length
  lt_length : ∀ i ∈ top, i < all.length
  length_eq : ranked.length = all.length
  kept : ∀ i ∈ top, ranked[i]? = all[i]?
  demoted : ∀ j, j ∉ top → ranked[j]? = all[j]?.map fun e => { e with outcome := .notApplicable }
  above : ∀ i ∈ top, ∀ j, j ∉ top → ∀ x ∈ all[i]?, ∀ y ∈ all[j]?,
    y.modifiedTotal < x.modifiedTotal ∨ y.modifiedTotal = x.modifiedTotal ∧ i < j

namespace Roll

/-- All positions of some results, those of higher results first. -/
def fromHighest (results : List ExprResult) : List Nat :=
  ranking (fun e => some (-e.modifiedTotal)) results

variable {h h' : Nat} {results : List ExprResult}

theorem nodup_fromHighest (results : List ExprResult) : (fromHighest results).Nodup :=
  nodup_ranking _ results

theorem mem_fromHighest_iff {i : Nat} : i ∈ fromHighest results ↔ i < results.length :=
  mem_ranking_some_iff

/-- The positions beyond the highest are those that do not belong to the highest. -/
theorem mem_beyondHighest_iff {j : Nat} (hj : j < results.length) :
    j ∈ beyondHighest h results ↔ j ∉ (fromHighest results).take h := by
  have hsplit : (fromHighest results).take h ++ beyondHighest h results = fromHighest results :=
    List.take_append_drop h _
  have hnodup := nodup_fromHighest results
  have hmem : j ∈ fromHighest results := mem_fromHighest_iff.2 hj
  rw [← hsplit] at hnodup hmem
  constructor
  · intro hbeyond htop
    exact List.disjoint_of_nodup_append hnodup htop hbeyond
  · intro htop
    exact (List.mem_append.1 hmem).resolve_left htop

/-- A position among the highest is above one that is beyond them. -/
theorem above_of_mem {i j : Nat} (hi : i ∈ (fromHighest results).take h)
    (hj : j ∈ beyondHighest h results) {x y : ExprResult} (hx : results[i]? = some x)
    (hy : results[j]? = some y) :
    y.modifiedTotal < x.modifiedTotal ∨ y.modifiedTotal = x.modifiedTotal ∧ i < j := by
  have hsorted := pairwise_ranking (fun e : ExprResult => some (-e.modifiedTotal)) results
  rw [← List.take_append_drop h (ranking _ results), List.pairwise_append] at hsorted
  obtain ⟨k, l, hk, hl, hlt⟩ := hsorted.2.2 i hi j hj
  rw [keyAt, hx] at hk
  rw [keyAt, hy] at hl
  cases hk
  cases hl
  omega

theorem getElem?_keepHighest (h : Nat) (results : List ExprResult) (i : Nat) :
    (keepHighest h results)[i]? = results[i]?.map fun e =>
      if i ∈ beyondHighest h results then { e with outcome := .notApplicable } else e :=
  List.getElem?_mapIdx

/-- Exactly the highest results keep their outcome. -/
theorem keepsHighest_keepHighest (h : Nat) (results : List ExprResult) :
    KeepsHighest h results (keepHighest h results) ((fromHighest results).take h) where
  nodup := (List.take_sublist h _).nodup (nodup_fromHighest results)
  length_top := by
    rw [List.length_take, fromHighest, length_ranking_some]
  lt_length := fun i hi => mem_fromHighest_iff.1 (List.mem_of_mem_take hi)
  length_eq := List.length_mapIdx
  kept := by
    intro i hi
    have hlt : i < results.length := mem_fromHighest_iff.1 (List.mem_of_mem_take hi)
    have hnot : ¬ i ∈ beyondHighest h results :=
      fun hbeyond => (mem_beyondHighest_iff hlt).1 hbeyond hi
    rw [getElem?_keepHighest]
    simp only [if_neg hnot, Option.map_id']
  demoted := by
    intro j hj
    rw [getElem?_keepHighest]
    cases hy : results[j]? with
    | none => rfl
    | some y =>
      have hlt := (List.getElem?_eq_some_iff.1 hy).1
      rw [Option.map_some, Option.map_some, if_pos ((mem_beyondHighest_iff hlt).2 hj)]
  above := by
    intro i hi j hj x hx y hy
    have hlt := (List.getElem?_eq_some_iff.1 hy).1
    exact above_of_mem hi ((mem_beyondHighest_iff hlt).2 hj) hx hy

/-! ## Successes that are counted -/

/-- The successes of the highest results are those of the roll before the others lost theirs. -/
theorem countP_keepHighest (h : Nat) (results : List ExprResult) :
    ((keepHighest h results).countP fun e => e.outcome.isSuccess) =
      ((fromHighest results).take h).countP fun i =>
        results[i]?.any fun e => e.outcome.isSuccess := by
  have hkeeps := keepsHighest_keepHighest h results
  have hperm : (fromHighest results).Perm (List.range (keepHighest h results).length) := by
    rw [hkeeps.length_eq]
    exact ranking_some_perm _ results
  have hbeyond : ((fromHighest results).drop h).countP (fun i =>
      (keepHighest h results)[i]?.any fun e => e.outcome.isSuccess) = 0 := by
    refine List.countP_eq_zero.2 fun j hj => ?_
    rw [getElem?_keepHighest]
    simp only [if_pos (show j ∈ beyondHighest h results from hj)]
    cases results[j]? <;> exact Bool.false_ne_true
  rw [countP_eq_of_perm hperm, ← List.take_append_drop h (fromHighest results),
    List.countP_append, hbeyond, Nat.add_zero, List.take_append_drop]
  refine List.countP_congr fun i hi => ?_
  rw [hkeeps.kept i hi]

/-- The successes of all results, counted in the order of the results. -/
theorem countP_fromHighest (results : List ExprResult) :
    (results.countP fun e => e.outcome.isSuccess) =
      (fromHighest results).countP fun i => results[i]?.any fun e => e.outcome.isSuccess :=
  countP_eq_of_perm (ranking_some_perm _ results)

theorem countP_take_le (p : Nat → Bool) (h : Nat) (results : List ExprResult) :
    ((fromHighest results).take h).countP p ≤ min h results.length := by
  rw [← (keepsHighest_keepHighest h results).length_top]
  exact List.countP_le_length

/-- More results that are compared are no fewer successes. -/
theorem countP_take_mono (p : Nat → Bool) (hle : h ≤ h') (results : List ExprResult) :
    ((fromHighest results).take h).countP p ≤ ((fromHighest results).take h').countP p := by
  have hsublist : ((fromHighest results).take h).Sublist ((fromHighest results).take h') := by
    rw [← Nat.min_eq_left hle, ← List.take_take]
    exact List.take_sublist h _
  exact hsublist.countP_le

/-! ## Rolls with and without a limit -/

/-- With a target number and a limit only the highest results are compared. -/
theorem rank_of_some {r : Roll} {target : Int} (htarget : r.target = some target)
    (hhighest : r.targetHighest = some h) (results : List ExprResult) :
    r.rank results = keepHighest h results := by
  unfold rank
  rw [htarget, hhighest]

/-- The same roll with another limit for how many of its results are compared, or with none. -/
def withHighest (r : Roll) (limit : Option Nat) : Roll :=
  { r with targetHighest := limit }

section Runs

variable {σ : Type} {roller : Roller σ} {s : σ} {r : Roll} {target : Int} {result : RollResult}

/-- Whatever the limit, the same expressions are rolled, and only then are their results ranked. -/
theorem run_withHighest
    (hresults : (roller.run (r.exprs.mapM r.rollExpr) s).ending = .value results)
    (limit : Option Nat) :
    roller.run (r.withHighest limit).roll s =
      ⟨.value ⟨r.comment, (r.withHighest limit).rank results⟩,
        (roller.run (r.exprs.mapM r.rollExpr) s).draws,
        (roller.run (r.exprs.mapM r.rollExpr) s).state⟩ := by
  have hroll : (r.withHighest limit).roll = (r.exprs.mapM r.rollExpr >>= fun results =>
      .done { comment := r.comment, exprs := (r.withHighest limit).rank results }) := rfl
  rw [hroll, Roller.run_bind, hresults]
  simp only [Roller.run_done, List.append_nil]

theorem exists_results_of_value (h : (roller.run r.roll s).ending = .value result) :
    ∃ results, (roller.run (r.exprs.mapM r.rollExpr) s).ending = .value results := by
  unfold roll at h
  rw [Roller.run_bind] at h
  cases hending : (roller.run (r.exprs.mapM r.rollExpr) s).ending with
  | value results => exact ⟨results, rfl⟩
  | failed e =>
    rw [hending] at h
    cases h
  | exhausted =>
    rw [hending] at h
    cases h

/-- A roll with a target number succeeds that compares its highest `h` results. Without the limit it
succeeds as well and draws the same, and with it the results are the same apart from outcomes: all
of them have one without the limit, and exactly the highest keep it. The successes that are counted
are those of the highest results. They are at most as many as these, no fewer with a greater limit,
and all successes if the limit is not below the number of results. The limit makes no difference to
whether the whole roll is a critical failure. -/
theorem roll_highest (htarget : r.target = some target) (hhighest : r.targetHighest = some h)
    (hrun : (roller.run r.roll s).ending = .value result) :
    ∃ plain top,
      roller.run (r.withHighest none).roll s =
        ⟨.value plain, (roller.run r.roll s).draws, (roller.run r.roll s).state⟩ ∧
      plain.exprs.length = r.exprs.length ∧
      (∀ x ∈ plain.exprs, x.outcome ≠ .notApplicable) ∧
      KeepsHighest h plain.exprs result.exprs top ∧
      (result.exprs.map fun x => (x.rolled, x.total, x.modifiedTotal)) =
        plain.exprs.map (fun x => (x.rolled, x.total, x.modifiedTotal)) ∧
      result.successes =
        (top.countP fun i => plain.exprs[i]?.any fun x =>
          x.outcome = .success ∨ x.outcome = .raise) ∧
      result.successes ≤ min h plain.exprs.length ∧
      (∀ h', h ≤ h' → ∃ result',
        (roller.run (r.withHighest (some h')).roll s).ending = .value result' ∧
          result.successes ≤ result'.successes) ∧
      (plain.exprs.length ≤ h → result.successes = plain.successes) ∧
      result.criticalFailure = plain.criticalFailure := by
  obtain ⟨results, hresults⟩ := exists_results_of_value hrun
  have hruns := run_withHighest hresults
  have hranked : ∀ h', (r.withHighest (some h')).rank results = keepHighest h' results :=
    fun h' => rank_of_some (r := r.withHighest (some h')) htarget rfl results
  have hself : r.withHighest (some h) = r := by
    rw [← hhighest]
    rfl
  have hown := hruns (some h)
  rw [hranked, hself] at hown
  rw [hown] at hrun ⊢
  cases hrun
  have hmap {γ : Type} {f : ExprResult → γ} (hf : ∀ e o, f { e with outcome := o } = f e) :
      (keepHighest h results).map f = results.map f := by
    rw [← hranked]
    exact map_rank hf results
  simp only [← Outcome.isSuccess_iff, Bool.decide_eq_true]
  refine ⟨⟨r.comment, results⟩, (fromHighest results).take h, ?_, ?_, ?_,
    keepsHighest_keepHighest h results, hmap fun _ _ => rfl, countP_keepHighest h results, ?_, ?_,
    ?_, ?_⟩
  · rw [hruns none, rank_of_none rfl]
  · exact (Rolling.forall₂_of_path_mapM (Rolling.path_of_value hresults)).length_eq.symm
  · intro x hx
    have hjudged := judged_of_path (Rolling.path_of_value hresults) x hx
    rw [hjudged.outcome, htarget]
    exact Outcome.classify_ne_notApplicable _ _ _
  · exact (countP_keepHighest h results).trans_le (countP_take_le _ h results)
  · intro h' hle
    refine ⟨⟨r.comment, keepHighest h' results⟩, ?_, ?_⟩
    · rw [hruns (some h'), hranked]
    · show (keepHighest h results).countP _ ≤ (keepHighest h' results).countP _
      rw [countP_keepHighest, countP_keepHighest]
      exact countP_take_mono _ hle results
  · intro hlength
    show (keepHighest h results).countP _ = results.countP _
    rw [countP_keepHighest, countP_fromHighest, List.take_of_length_le]
    rw [fromHighest, length_ranking_some]
    exact hlength
  · have hrolled := congrArg (List.flatMap RolledExpr.groups)
      (hmap (f := ExprResult.rolled) fun _ _ => rfl)
    rw [List.flatMap_map, List.flatMap_map] at hrolled
    exact congrArg isCriticalFailure hrolled

/-- Three dice of which the two highest are compared. The second is the highest; the others are
equal, so that the first of them keeps its outcome and the last one loses it. -/
theorem roll_highest_tie :
    ∃ (result plain : RollResult) (top : List Nat),
      (Source.run (.script [5, 6, 5]) (Roll.roll {
        exprs := List.replicate 3 ⟨[(.plus, .dice .standard)]⟩
        target := some 4
        targetHighest := some 2 })).ending = .value result ∧
      result.exprs.map ExprResult.outcome = [.success, .success, .notApplicable] ∧
      KeepsHighest 2 plain.exprs result.exprs top ∧ plain.exprs.length = 3 ∧
      result.successes ≤ min 2 3 := by
  have hrun : ∃ result, (Source.run (.script [5, 6, 5]) (Roll.roll {
      exprs := List.replicate 3 ⟨[(.plus, .dice .standard)]⟩
      target := some 4
      targetHighest := some 2 })).ending = .value result ∧
      result.exprs.map ExprResult.outcome = [.success, .success, .notApplicable] :=
    ⟨_, by cbv, by cbv⟩
  obtain ⟨result, hending, houtcomes⟩ := hrun
  obtain ⟨plain, top, -, hlength, -, hkeeps, -, -, hle, -⟩ := roll_highest rfl rfl hending
  rw [hlength] at hle
  exact ⟨result, plain, top, hending, houtcomes, hkeeps, hlength, hle⟩

end Runs

end Roll

end TabletopDice
