import TabletopDice.Written.Roll
import TabletopDice.Proofs.ExactTotal
import TabletopDice.Proofs.RolledParts

/-!
# Margins

The outcome of a total is a matter of its margin, which is how far it lies above the target number.
Main statements: the margin decides, except that the greatest total is a raise by any margin
(`capped_classify`), and so it is in the results of rolls and trait rolls (`outcomes_capped`).
-/

namespace TabletopDice

open Rolling

/-! ## Outcomes of a total -/

namespace Outcome

/-- The outcome is the one for this margin. -/
structure ByMargin (margin : Int) (o : Outcome) : Prop where
  raise : o = .raise ↔ 4 ≤ margin
  success : o = .success ↔ 0 ≤ margin ∧ margin < 4
  failed : o = .failed ↔ margin < 0

/-- The outcome is the one of a total whose distance from the target number cannot grow beyond the
greatest total: that one is a raise even if its margin is that of a success. -/
structure Capped (total target : Int) (o : Outcome) : Prop where
  raise : o = .raise ↔ 4 ≤ total - target ∨ total = maxTotal
  success : o = .success ↔ 0 ≤ total - target ∧ total - target < 4 ∧ total ≠ maxTotal
  failed : o = .failed ↔ total - target < 0

variable {total target : Int} {critical : Bool} {o : Outcome}

/-- Only at the greatest total is the margin not all that counts. -/
theorem Capped.byMargin_iff (h : o.Capped total target) :
    o.ByMargin (total - target) ↔ (total = maxTotal → 4 ≤ total - target) := by
  constructor
  · intro hmargin hmax
    exact hmargin.raise.1 (h.raise.2 (.inr hmax))
  · intro hmax
    refine ⟨h.raise.trans ?_, h.success.trans ?_, h.failed⟩
    · exact ⟨fun hraise => hraise.elim id hmax, .inl⟩
    · exact ⟨fun ⟨hle, hlt, _⟩ => ⟨hle, hlt⟩, fun ⟨hle, hlt⟩ => ⟨hle, hlt, fun heq =>
        Int.not_lt.2 (hmax heq) hlt⟩⟩

theorem raiseFrom_le_iff (htotal : total ≤ maxTotal) :
    raiseFrom target ≤ total ↔ 4 ≤ total - target ∨ total = maxTotal := by
  unfold raiseFrom raiseMargin
  omega

theorem classify_eq_criticalFailure_iff {target : Option Int} :
    classify total target critical = .criticalFailure ↔ critical = true := by
  unfold classify
  cases critical with
  | true => exact iff_of_true rfl rfl
  | false =>
    refine iff_of_false (fun h => ?_) nofun
    rw [if_neg Bool.false_ne_true] at h
    split at h
    · cases h
    · split at h
      · cases h
      · split at h <;> cases h

/-- With a target number every total has an outcome. -/
theorem classify_ne_notApplicable (total target : Int) (critical : Bool) :
    classify total (some target) critical ≠ .notApplicable := by
  unfold classify
  split
  · nofun
  dsimp only
  split
  · nofun
  split <;> nofun

/-- Against a target number in range, the outcome of a total in range is a matter of its margin, up
to the greatest total. -/
theorem capped_classify (htotal : total ≤ maxTotal) (htarget : target ≤ maxTotal)
    (h : classify total (some target) critical ≠ .criticalFailure) :
    (classify total (some target) critical).Capped total target := by
  have hcritical : critical = false := by
    rw [Ne, classify_eq_criticalFailure_iff] at h
    exact Bool.eq_false_of_not_eq_true h
  rw [hcritical]
  unfold classify
  rw [if_neg Bool.false_ne_true]
  show Capped total target
    (if raiseFrom target ≤ total then .raise else if target ≤ total then .success else .failed)
  by_cases hraise : raiseFrom target ≤ total
  · rw [if_pos hraise]
    rw [raiseFrom_le_iff htotal] at hraise
    exact ⟨iff_of_true rfl hraise, iff_of_false nofun (by omega), iff_of_false nofun (by omega)⟩
  · rw [if_neg hraise]
    rw [raiseFrom_le_iff htotal] at hraise
    by_cases hsuccess : target ≤ total
    · rw [if_pos hsuccess]
      exact ⟨iff_of_false nofun hraise, iff_of_true rfl (by omega), iff_of_false nofun (by omega)⟩
    · rw [if_neg hsuccess]
      exact ⟨iff_of_false nofun hraise, iff_of_false nofun (by omega), iff_of_true rfl (by omega)⟩

end Outcome

/-! ## Results -/

/-- A result is what its rolled dice make of it: its total is theirs, the modifier is added within
the range of totals, and the outcome is the one of this sum. -/
structure Roll.Judged (r : Roll) (x : ExprResult) : Prop where
  total : x.rolled.total = .ok x.total
  modifiedTotal : x.modifiedTotal = x.total + r.modifier.getD 0
  isTotal : IsTotal x.modifiedTotal
  outcome : x.outcome = .classify x.modifiedTotal r.target (isCriticalFailure x.rolled.groups)

namespace Roll

variable {r : Roll}

theorem judged_of_judge {rolled : RolledExpr} {x : ExprResult} (h : r.judge rolled = .ok x) :
    r.Judged x := by
  obtain ⟨total, modifiedTotal, htotal, hmodified, rfl⟩ := eq_of_judge h
  obtain ⟨rfl, hrange⟩ := total?_eq_some_iff.1 hmodified
  exact ⟨htotal, rfl, hrange, rfl⟩

theorem judged_of_path {results : List ExprResult} {vs : List Nat}
    (h : Path (r.exprs.mapM r.rollExpr) vs (.ok results)) : ∀ x ∈ results, r.Judged x := by
  intro x hx
  obtain ⟨e, -, us, hpath⟩ := exists_path_of_mem_mapM h hx
  exact judged_of_judge (parts_of_path_rollExpr hpath).2

/-- Without a limit for how many results are compared they stay as they are. -/
theorem rank_of_none (hhighest : r.targetHighest = none) (results : List ExprResult) :
    r.rank results = results := by
  unfold rank
  rw [hhighest]
  cases r.target <;> rfl

/-- Unless only the highest results are compared, every result has the outcome of its total. -/
theorem judged_of_roll (hhighest : r.targetHighest = none) {result : RollResult} {vs : List Nat}
    (h : Path r.roll vs (.ok result)) : ∀ x ∈ result.exprs, r.Judged x := by
  obtain ⟨results, hresults, rfl⟩ := parts_of_path h
  rw [rank_of_none hhighest]
  exact judged_of_path hresults

end Roll

namespace TraitRoll

variable {t : TraitRoll}

theorem isTotal_of_modifiedTotal {m n : Int} {g : RolledDice} (h : modifiedTotal m g = .ok n) :
    IsTotal n := by
  obtain ⟨sum, -, hn⟩ := bind_eq_ok_iff.1 h
  split at hn
  · next hsum =>
    cases hn
    obtain ⟨total, -, htotal⟩ := Option.bind_eq_some_iff.1 hsum
    obtain ⟨rfl, hrange⟩ := total?_eq_some_iff.1 htotal
    exact hrange
  · cases hn

/-- The total that counts is within the range of totals, and it is compared with the target number
of the roll. -/
theorem isTotal_of_trait_path {result : TraitResult} {vs : List Nat}
    (h : Path t.roll vs (.ok result)) : IsTotal result.total ∧ result.target = t.target := by
  obtain ⟨us, ws, -, -, -, hjudge⟩ := parts_of_path h
  obtain ⟨traitTotal, wildTotal, htrait, hwild, hresult⟩ := eq_of_judge hjudge
  rw [hresult]
  refine ⟨?_, rfl⟩
  unfold TraitResult.total
  split
  · exact isTotal_of_modifiedTotal htrait
  · exact isTotal_of_modifiedTotal hwild

end TraitRoll

/-- Whatever the roller, the outcomes of a roll that compares all of its results and of a
trait roll are those of the margins, critical failures apart, with one exception: the greatest
total is a raise even if it lies above the target number by less than four, which makes it a
success by its margin. -/
theorem outcomes_capped {σ : Type} (roller : Roller σ) (s : σ) :
    (∀ (r : Roll) (target : Int) (result : RollResult), r.target = some target →
      IsTotal target → r.targetHighest = none → (roller.run r.roll s).ending = .value result →
      ∀ x ∈ result.exprs, x.outcome ≠ .criticalFailure →
        x.outcome.Capped x.modifiedTotal target ∧
        (x.outcome.ByMargin (x.modifiedTotal - target) ↔
          (x.modifiedTotal = maxTotal → 4 ≤ x.modifiedTotal - target))) ∧
    (∀ (t : TraitRoll) (result : TraitResult), IsTotal t.target →
      (roller.run t.roll s).ending = .value result → result.outcome ≠ .criticalFailure →
        result.outcome.Capped result.total t.target ∧
        (result.outcome.ByMargin (result.total - t.target) ↔
          (result.total = maxTotal → 4 ≤ result.total - t.target))) := by
  constructor
  · intro r target result htarget hrange hhighest hending x hx hcritical
    have hjudged := Roll.judged_of_roll hhighest (path_of_value hending) x hx
    have houtcome := hjudged.outcome
    rw [htarget] at houtcome
    rw [houtcome] at hcritical ⊢
    have hcapped := Outcome.capped_classify hjudged.isTotal.2 hrange.2 hcritical
    exact ⟨hcapped, hcapped.byMargin_iff⟩
  · intro t result hrange hending hcritical
    obtain ⟨htotal, htarget⟩ := TraitRoll.isTotal_of_trait_path (path_of_value hending)
    have houtcome : result.outcome =
        .classify result.total (some t.target) result.criticalFailure := by
      rw [← htarget]
      rfl
    rw [houtcome] at hcritical ⊢
    have hcapped := Outcome.capped_classify htotal.2 hrange.2 hcritical
    exact ⟨hcapped, hcapped.byMargin_iff⟩

/-- A number one below the greatest total is a success by three, and a trait roll is a raise by
four. -/
theorem outcomes_capped_below_greatest :
    (∃ x, (Source.run (.script []) (Roll.roll
        { exprs := [⟨[(.plus, .number 2147483646)]⟩], target := some 2147483643 })).ending =
          .value ⟨none, [x]⟩ ∧ x.outcome.ByMargin 3) ∧
    ∃ result, (Source.run (.script [3, 5]) (TraitRoll.roll { target := 1 })).ending =
      .value result ∧ result.outcome.ByMargin 4 := by
  constructor
  · refine ⟨⟨⟨[(.plus, .number 2147483646)]⟩, 2147483646, 2147483646, .success⟩, rfl, ?_⟩
    have hmargin := ((outcomes_capped Source.roller (.script [])).1
      { exprs := [⟨[(.plus, .number 2147483646)]⟩], target := some 2147483643 } 2147483643 _
      rfl (by decide) rfl rfl _ (.head _) nofun).2
    exact hmargin.2 (by decide)
  · refine ⟨⟨⟨.exploding 4, [⟨3, [3], none⟩]⟩, ⟨.exploding 6, [⟨5, [5], none⟩]⟩, 3, 5, 1⟩, rfl, ?_⟩
    have hmargin := ((outcomes_capped Source.roller (.script [3, 5])).2 { target := 1 } _
      (by decide) rfl (by decide)).2
    exact hmargin.2 (by decide)

/-- The greatest total is a raise against a target number that it lies above by two only. -/
theorem greatest_total_not_byMargin :
    (∃ x, (Roll.ofText "2147483647 t2147483645").target = some 2147483645 ∧
      (Roll.ofText "2147483647 t2147483645").targetHighest = none ∧
      (Source.run (.constant 1) (Roll.ofText "2147483647 t2147483645").roll).ending =
        .value ⟨none, [x]⟩ ∧
      x.outcome = .raise ∧ x.modifiedTotal - 2147483645 = 2 ∧ ¬ x.outcome.ByMargin 2) ∧
    ∃ result, (Source.run (.script [3, 2]) (TraitRoll.roll
        { target := 2147483647, modifier := some 2147483644 })).ending = .value result ∧
      result.outcome = .raise ∧ result.total - 2147483647 = 0 ∧ ¬ result.outcome.ByMargin 0 := by
  constructor
  · refine ⟨⟨⟨[(.plus, .number 2147483647)]⟩, 2147483647, 2147483647, .raise⟩, ?_, ?_, ?_, rfl, rfl,
      fun h => ?_⟩
    · cbv
    · cbv
    · cbv
    · exact absurd (h.raise.1 rfl) (by decide)
  · refine ⟨⟨⟨.exploding 4, [⟨3, [3], none⟩]⟩, ⟨.exploding 6, [⟨2, [2], none⟩]⟩, 2147483647,
      2147483646, 2147483647⟩, rfl, by decide, rfl, fun h => ?_⟩
    exact absurd (h.raise.1 (by decide)) (by decide)

end TabletopDice
