import TabletopDice.Proofs.BoundedRoll
import TabletopDice.Proofs.OutcomeMargins
import TabletopDice.Proofs.RolledGroups

/-!
# Trait rolls as rolls of two expressions

A trait roll and a roll of its two dice as expressions of their own, of which the highest is
compared with the target number, are the same game. The one takes the greater total and looks at
first faces, the other ranks its results and looks at values. Main statement: from the same state of
the roller both fail, or both succeed and say the same (`roll_asRoll`).
-/

namespace TabletopDice

open Rolling

/-! ## Single dice -/

/-- A group that is a single die. The die counts, and it is worth one exactly when its first face is
a one. -/
structure RolledDice.Lone (g : RolledDice) (d : Die) : Prop where
  rolls : g.rolls = [d]
  kept : d.isKept
  one_iff : d.value = 1 ↔ d.natural = 1
  value_le : d.value ≤ maxDieValue

namespace RolledDice.Lone

variable {g g' : RolledDice} {d d' : Die}

/-- The die is the only one that counts. -/
theorem kept_eq (h : g.Lone d) : g.kept = [d] := by
  unfold RolledDice.kept
  rw [h.rolls, List.filter_cons_of_pos h.kept, List.filter_nil]

/-- The sum of the group is the value of its die. -/
theorem keptSum_eq (h : g.Lone d) : g.keptSum = d.value := by
  unfold RolledDice.keptSum
  rw [h.kept_eq]
  rfl

/-- The first face is a one exactly if the value is. -/
theorem isNaturalOne_eq (h : g.Lone d) : g.isNaturalOne = (d.value == 1) := by
  unfold RolledDice.isNaturalOne
  rw [h.rolls, Bool.eq_iff_iff]
  simp [h.one_iff]

theorem fits (h : g.Lone d) : (RolledTerm.dice g).Fits := by
  have hsum : g.keptSum ≤ maxDieValue * 1 := by
    rw [h.keptSum_eq]
    exact h.value_le
  exact RolledTerm.fits_dice (by decide) hsum

/-- The value of a single die is never too large for a total. -/
theorem total_eq (h : g.Lone d) : g.total = .ok g.keptSum := by
  refine if_pos ?_
  rw [h.keptSum_eq]
  exact Nat.le_trans h.value_le (by decide)

/-- A single die is no critical failure by itself, since it takes two dice. -/
theorem isCriticalFailure_eq (h : g.Lone d) : isCriticalFailure [g] = false := by
  simp [isCriticalFailure, h.kept_eq]

/-- Two single dice are a critical failure by their values exactly when they are one by their first
faces. -/
theorem isCriticalFailure_pair (h : g.Lone d) (h' : g'.Lone d') :
    isCriticalFailure [g, g'] = isTraitCriticalFailure g g' := by
  simp [isCriticalFailure, isTraitCriticalFailure, h.kept_eq, h'.kept_eq, h.isNaturalOne_eq,
    h'.isNaturalOne_eq]

end RolledDice.Lone

/-! ## Dice that explode -/

/-- A die that is worth more than one stays so with every face. -/
theorem two_le_value_foldl_push {d : Die} (hd : 2 ≤ d.value) (faces : List Nat) :
    2 ≤ (faces.foldl Die.push d).value := by
  induction faces generalizing d with
  | nil => exact hd
  | cons face faces ih =>
    refine ih ?_
    -- the greatest value of a die is far above two, so stopping there does no harm
    show 2 ≤ min maxDieValue (d.value + face)
    unfold maxDieValue
    omega

/-- A first face of one does not reach the threshold, and any greater one makes the die worth more
than one. -/
theorem value_eq_one_iff_of_path_explodeFrom {threshold sides room v : Nat} {d : Die}
    {vs : List Nat} (hthreshold : 2 ≤ threshold)
    (h : Path ((Die.single v).explodeFrom threshold sides room v) vs (.ok d)) :
    d.value = 1 ↔ v = 1 := by
  have hsingle : (Die.single v).value = min maxDieValue v := by
    simp [Die.single, Die.ofDraws, Die.push, Die.blank]
  have hone : (Die.single v).value = 1 ↔ v = 1 := by
    rw [hsingle]
    unfold maxDieValue
    omega
  -- a first face above one may explode or not, but the value never falls back to one
  by_cases hv : 2 ≤ v
  · have htwo : 2 ≤ (Die.single v).value := by
      rw [hsingle]
      unfold maxDieValue
      omega
    have hd := two_le_value_foldl_push htwo vs
    rw [← eq_foldl_push_of_path_explodeFrom h] at hd
    omega
  · have hlow : v < threshold := by omega
    have hd : d = Die.single v := by
      cases room with
      | zero =>
        obtain ⟨-, hdone⟩ := path_done_iff.1 h
        cases hdone
        rfl
      | succ room =>
        unfold Die.explodeFrom at h
        rw [if_pos hlow] at h
        obtain ⟨-, hdone⟩ := path_done_iff.1 h
        cases hdone
        rfl
    rw [hd, hone]

/-- An exploding die is worth one exactly when its first face is a one. -/
theorem value_eq_one_iff_of_path_rollDie {sides : Nat} (hsides : 2 ≤ sides) {die : Die}
    {vs : List Nat} (h : Path (Dice.exploding sides).rollDie vs (.ok die)) :
    die.value = 1 ↔ die.natural = 1 := by
  obtain ⟨v, more, -, hmore⟩ := Dice.parts_of_path_rollDie h
  have hfaces := draws_of_path_explodeFrom hmore
  have hnatural : die.natural = v := by
    unfold Die.natural
    rw [hfaces]
    rfl
  rw [hnatural]
  exact value_eq_one_iff_of_path_explodeFrom hsides hmore

/-- A single exploding die is a group of one die that counts. -/
theorem exists_lone_of_path_exploding {sides : Nat} (hsides : 2 ≤ sides) {g : RolledDice}
    {vs : List Nat} (h : Path (Dice.exploding sides).roll vs (.ok g)) : ∃ d, g.Lone d := by
  obtain ⟨rolls, hrolls, happly⟩ := Dice.parts_of_path h
  -- there are no selections, so the group is what was rolled: one die
  cases happly
  cases forall₂_of_path_mapM hrolls with
  | @cons x die xs dice hfirst hrest =>
    cases hrest
    obtain ⟨us, hdie⟩ := hfirst
    have hvalue := Dice.ensures_rollDie (d := .exploding sides) (Nat.le_of_succ_le hsides) _ _ hdie
    obtain ⟨d, hd, hle⟩ := hvalue
    cases hd
    exact ⟨die, rfl, isKept_of_path_rollDie hdie, value_eq_one_iff_of_path_rollDie hsides hdie, hle⟩

/-- With a roller that answers, an exploding die is always rolled. -/
theorem exists_run_exploding {σ : Type} {roller : Roller σ} (hr : Answers roller) {sides : Nat}
    (hsides : 2 ≤ sides) (s : σ) :
    ∃ g d, (roller.run (Dice.exploding sides).roll s).ending = .value g ∧ g.Lone d := by
  obtain ⟨x, hpath, hending⟩ := exists_path_of_answers hr (Dice.exploding sides).proper_roll s
  obtain ⟨g, rfl, -⟩ := Dice.ensures_roll (Nat.le_of_succ_le hsides) _ _ hpath
  obtain ⟨d, hlone⟩ := exists_lone_of_path_exploding hsides hpath
  exact ⟨g, d, hending, hlone⟩

/-! ## The highest of two results -/

/-- Two entries are ranked by their keys, and in their order if the keys are equal. -/
theorem ranking_pair {α : Type} (key : α → Int) (x y : α) :
    ranking (fun e => some (key e)) [x, y] = if key x ≤ key y then [0, 1] else [1, 0] := by
  have hkeyed : keyedPositions (fun e => some (key e)) [x, y] = [(key x, 0), (key y, 1)] := rfl
  have hsort : [(key x, 0), (key y, 1)].mergeSort rankedBefore =
      if key x ≤ key y then [(key x, 0), (key y, 1)] else [(key y, 1), (key x, 0)] := by
    simp [List.mergeSort, List.MergeSort.Internal.splitInTwo, List.merge, rankedBefore,
      Int.le_iff_lt_or_eq]
  unfold ranking
  rw [hkeyed, hsort]
  split <;> rfl

namespace Roll

/-- Of two results the greater one keeps its outcome, and of equal ones the first. -/
theorem keepHighest_pair (x y : ExprResult) :
    keepHighest 1 [x, y] =
      if y.modifiedTotal ≤ x.modifiedTotal then [x, { y with outcome := .notApplicable }]
      else [{ x with outcome := .notApplicable }, y] := by
  unfold keepHighest beyondHighest
  rw [ranking_pair (fun e : ExprResult => -e.modifiedTotal) x y]
  by_cases h : y.modifiedTotal ≤ x.modifiedTotal
  · rw [if_pos (Int.neg_le_neg h), if_pos h]
    rfl
  · rw [if_neg (by omega), if_neg h]
    rfl

end Roll

/-! ## Rolling two expressions -/

/-- An expression of one group is rolled like the group. -/
theorem Expr.run_roll_single {σ : Type} {roller : Roller σ} {d : Dice} {g : RolledDice} {s : σ}
    (h : (roller.run d.roll s).ending = .value g) :
    roller.run (Expr.roll ⟨[(.plus, .dice d)]⟩) s =
      ⟨.value ⟨[(.plus, .dice g)]⟩, (roller.run d.roll s).draws, (roller.run d.roll s).state⟩ := by
  simp [Expr.roll, rollSigned, Term.roll, Roller.run_bind, Roller.run_mapError, Ending.mapError, h]

namespace Roll

variable {σ : Type} {r : Roll} {roller : Roller σ} {s : σ} {d d' : Dice} {g g' : RolledDice}
  {die die' : Die}

theorem signedSum_single (g : RolledDice) : signedSum [(.plus, .dice g)] = g.keptSum := by
  simp [signedSum, RolledTerm.exact]

/-- A single die by itself is in range, so only the modifier can lead out of it. -/
theorem fits_single_iff (h : g.Lone die) :
    r.Fits ⟨[(.plus, .dice g)]⟩ ↔ IsTotal (g.keptSum + r.modifier.getD 0) := by
  have hstays : RolledExpr.Stays ⟨[(.plus, .dice g)]⟩ := by
    rw [RolledExpr.stays_iff, staysFrom_cons, staysFrom_nil, Int.zero_add]
    exact ⟨RolledExpr.isTotal_zero, h.fits.2⟩
  unfold Fits
  rw [signedSum_single]
  exact ⟨fun h => h.2, fun h => ⟨hstays, h⟩⟩

/-- An expression of one die is judged by its value and the modifier. -/
theorem judge_single (h : g.Lone die) :
    r.judge ⟨[(.plus, .dice g)]⟩ =
      if IsTotal (g.keptSum + r.modifier.getD 0) then .ok (r.exactResult ⟨[(.plus, .dice g)]⟩)
      else .error (.overflow ⟨[(.plus, .dice g)]⟩) := by
  have hterms : ∀ p ∈ [(Sign.plus, RolledTerm.dice g)], p.2.Fits := by
    intro p hp
    rw [List.mem_singleton.1 hp]
    exact h.fits
  by_cases hsum : IsTotal (g.keptSum + r.modifier.getD 0)
  · rw [if_pos hsum]
    exact judge_of_fits hterms ((fits_single_iff h).2 hsum)
  · rw [if_neg hsum]
    exact judge_of_not_fits hterms fun hfits => hsum ((fits_single_iff h).1 hfits)

theorem run_rollExpr_single (h : (roller.run d.roll s).ending = .value g) (hg : g.Lone die) :
    roller.run (r.rollExpr ⟨[(.plus, .dice d)]⟩) s =
      ⟨.ofExcept (if IsTotal (g.keptSum + r.modifier.getD 0) then
          .ok (r.exactResult ⟨[(.plus, .dice g)]⟩)
        else .error (.overflow ⟨[(.plus, .dice g)]⟩)),
        (roller.run d.roll s).draws, (roller.run d.roll s).state⟩ := by
  have hexpr := Expr.run_roll_single h
  rw [run_rollExpr (congrArg Run.ending hexpr), judge_single hg, hexpr]

/-- Two single dice as expressions are rolled one after the other, and their results are ranked
unless one of them is an overflow. -/
theorem run_roll_pair (hr : r.exprs = [⟨[(.plus, .dice d)]⟩, ⟨[(.plus, .dice d')]⟩])
    (h : (roller.run d.roll s).ending = .value g) (hg : g.Lone die)
    (h' : (roller.run d'.roll (roller.run d.roll s).state).ending = .value g')
    (hg' : g'.Lone die') :
    if IsTotal (g.keptSum + r.modifier.getD 0) ∧ IsTotal (g'.keptSum + r.modifier.getD 0) then
      roller.run r.roll s =
        ⟨.value { comment := r.comment, exprs := r.rank [r.exactResult ⟨[(.plus, .dice g)]⟩,
            r.exactResult ⟨[(.plus, .dice g')]⟩] },
          (roller.run d.roll s).draws ++ (roller.run d'.roll (roller.run d.roll s).state).draws,
          (roller.run d'.roll (roller.run d.roll s).state).state⟩
    else ∃ e, (roller.run r.roll s).ending = .failed e := by
  have hfirst := run_rollExpr_single (r := r) h hg
  have hsecond := run_rollExpr_single (r := r) h' hg'
  by_cases hsum : IsTotal (g.keptSum + r.modifier.getD 0)
  · rw [if_pos hsum] at hfirst
    by_cases hsum' : IsTotal (g'.keptSum + r.modifier.getD 0)
    · rw [if_pos hsum'] at hsecond
      rw [if_pos ⟨hsum, hsum'⟩]
      simp [roll, hr, Roller.run_bind, hfirst, hsecond, Ending.ofExcept]
    · rw [if_neg hsum'] at hsecond
      rw [if_neg fun h => hsum' h.2]
      simp [roll, hr, Roller.run_bind, hfirst, hsecond, Ending.ofExcept]
  · -- the first overflow ends the roll, so the second die is not even drawn
    rw [if_neg hsum] at hfirst
    rw [if_neg fun h => hsum h.1]
    simp [roll, hr, Roller.run_bind, hfirst, Ending.ofExcept]

end Roll

/-! ## Rolling a trait die and a wild die -/

namespace TraitRoll

variable {σ : Type} {t : TraitRoll} {roller : Roller σ} {s : σ} {g g' : RolledDice} {die die' : Die}

/-- The total of a die is its value and the modifier, if that is in range. -/
theorem modifiedTotal_lone (h : g.Lone die) (m : Int) :
    modifiedTotal m g =
      if IsTotal (g.keptSum + m) then .ok (g.keptSum + m) else .error .overflow := by
  have hsum : total? (g.keptSum : Int) = some (g.keptSum : Int) := total?_of_isTotal h.fits.2
  unfold modifiedTotal
  rw [h.total_eq]
  simp only [bind, Except.bind, hsum, Option.bind_some]
  by_cases hm : IsTotal (g.keptSum + m)
  · rw [total?_of_isTotal hm, if_pos hm]
    rfl
  · rw [total?_of_not_isTotal hm, if_neg hm]

/-- The result of two dice from their exact sums. -/
def exactResult (t : TraitRoll) (trait wild : RolledDice) : TraitResult where
  trait := trait
  wild := wild
  traitTotal := trait.keptSum + t.modifier.getD 0
  wildTotal := wild.keptSum + t.modifier.getD 0
  target := t.target

/-- A trait roll of two single dice is judged by their values. -/
theorem judge_lone (h : g.Lone die) (h' : g'.Lone die') :
    t.judge g g' =
      if IsTotal (g.keptSum + t.modifier.getD 0) ∧ IsTotal (g'.keptSum + t.modifier.getD 0) then
        .ok (t.exactResult g g')
      else .error .overflow := by
  unfold judge
  rw [modifiedTotal_lone h, modifiedTotal_lone h']
  by_cases hsum : IsTotal (g.keptSum + t.modifier.getD 0)
  · by_cases hsum' : IsTotal (g'.keptSum + t.modifier.getD 0)
    · rw [if_pos hsum, if_pos hsum', if_pos ⟨hsum, hsum'⟩]
      rfl
    · simp only [if_pos hsum, hsum', and_false, if_false]
      rfl
  · simp only [hsum, false_and, if_false]
    rfl

/-- Both dice are rolled before either of them is totalled. -/
theorem run_roll (h : (roller.run t.traitDie.roll s).ending = .value g)
    (h' : (roller.run t.wildDie.roll (roller.run t.traitDie.roll s).state).ending = .value g') :
    roller.run t.roll s =
      ⟨(Ending.ofExcept (t.judge g g')).mapError .dice,
        (roller.run t.traitDie.roll s).draws ++
          (roller.run t.wildDie.roll (roller.run t.traitDie.roll s).state).draws,
        (roller.run t.wildDie.roll (roller.run t.traitDie.roll s).state).state⟩ := by
  simp [roll, rollDice, Roller.run_mapError, Roller.run_bind, Roller.run_ofExcept, h, h']

/-- The two dice as expressions of their own, of which the highest is compared with the target
number. -/
def asRoll (t : TraitRoll) : Roll where
  exprs := [⟨[(.plus, .dice t.traitDie)]⟩, ⟨[(.plus, .dice t.wildDie)]⟩]
  target := some t.target
  targetHighest := some 1
  modifier := t.modifier

end TraitRoll

/-- The result of a trait roll and that of its dice as expressions say the same. `x` and `y` are the
results of the expressions; the one of the chosen die is the only one with an outcome. -/
structure TraitResult.Agrees (a : TraitResult) (b : RollResult) (x y : ExprResult) : Prop where
  exprs : b.exprs = [x, y]
  trait : x.rolled.groups = [a.trait]
  wild : y.rolled.groups = [a.wild]
  traitTotal : a.traitTotal = x.modifiedTotal
  wildTotal : a.wildTotal = y.modifiedTotal
  total : a.total = max x.modifiedTotal y.modifiedTotal
  chosen : a.chosen = .trait ↔ y.modifiedTotal ≤ x.modifiedTotal
  trait_retained : x.outcome ≠ .notApplicable ↔ a.chosen = .trait
  wild_retained : y.outcome ≠ .notApplicable ↔ a.chosen = .wild
  criticalFailure : a.criticalFailure = b.criticalFailure
  outcome : a.outcome =
    if b.criticalFailure then .criticalFailure
    else match a.chosen with
      | .trait => x.outcome
      | .wild => y.outcome

namespace TraitResult

/-- The trait die is chosen unless the wild die is higher. -/
theorem chosen_eq_trait_iff (a : TraitResult) : a.chosen = .trait ↔ a.wildTotal ≤ a.traitTotal := by
  unfold chosen
  split <;> simp_all

theorem chosen_eq_wild_iff (a : TraitResult) : a.chosen = .wild ↔ ¬ a.wildTotal ≤ a.traitTotal := by
  unfold chosen
  split <;> simp_all

/-- The total that counts is the higher one. -/
theorem total_eq_max (a : TraitResult) : a.total = max a.traitTotal a.wildTotal := by
  unfold total
  by_cases hle : a.wildTotal ≤ a.traitTotal
  · rw [a.chosen_eq_trait_iff.2 hle]
    exact (max_eq_left hle).symm
  · rw [a.chosen_eq_wild_iff.2 hle]
    exact (max_eq_right (Int.le_of_not_le hle)).symm

/-- The outcome that the ranking leaves to the expression of a die with this total. -/
def retained (a : TraitResult) (die : TraitDie) (total : Int) : Outcome :=
  if a.chosen = die then .classify total (some a.target) false else .notApplicable

/-- Only the chosen die keeps an outcome. -/
theorem retained_ne_notApplicable_iff (a : TraitResult) (die : TraitDie) (total : Int) :
    a.retained die total ≠ .notApplicable ↔ a.chosen = die := by
  unfold retained
  split
  · next hchosen =>
    exact iff_of_true (Outcome.classify_ne_notApplicable _ _ _) hchosen
  · next hother => exact iff_of_false (fun h => h rfl) hother

/-- Unless it is a critical failure, the outcome is the one that the ranking leaves. -/
theorem outcome_eq_retained (a : TraitResult) :
    a.outcome =
      if a.criticalFailure then .criticalFailure
      else match a.chosen with
        | .trait => a.retained .trait a.traitTotal
        | .wild => a.retained .wild a.wildTotal := by
  unfold outcome
  cases a.criticalFailure with
  | true => rfl
  | false =>
    unfold total retained
    cases hchosen : a.chosen <;> simp

end TraitResult

namespace TraitRoll

variable {t : TraitRoll} {g g' : RolledDice} {die die' : Die}

/-- The result of a single die as an expression of its own. -/
def exprResult (t : TraitRoll) (g : RolledDice) (outcome : Outcome) : ExprResult where
  rolled := ⟨[(.plus, .dice g)]⟩
  total := g.keptSum
  modifiedTotal := g.keptSum + t.modifier.getD 0
  outcome := outcome

/-- As an expression a die has the outcome of its own total. -/
theorem exactResult_asRoll (h : g.Lone die) :
    t.asRoll.exactResult ⟨[(.plus, .dice g)]⟩ =
      t.exprResult g (.classify (g.keptSum + t.modifier.getD 0) (some t.target) false) := by
  have hgroups : RolledExpr.groups ⟨[(.plus, .dice g)]⟩ = [g] := rfl
  unfold Roll.exactResult
  rw [Roll.signedSum_single, hgroups, h.isCriticalFailure_eq]
  rfl

/-- Ranking leaves its outcome to the expression of the chosen die alone. -/
theorem rank_asRoll (h : g.Lone die) (h' : g'.Lone die') :
    t.asRoll.rank [t.asRoll.exactResult ⟨[(.plus, .dice g)]⟩,
        t.asRoll.exactResult ⟨[(.plus, .dice g')]⟩] =
      [t.exprResult g ((t.exactResult g g').retained .trait (g.keptSum + t.modifier.getD 0)),
        t.exprResult g'
          ((t.exactResult g g').retained .wild (g'.keptSum + t.modifier.getD 0))] := by
  have hrank : ∀ x y, t.asRoll.rank [x, y] = Roll.keepHighest 1 [x, y] := fun _ _ => rfl
  rw [exactResult_asRoll h, exactResult_asRoll h', hrank, Roll.keepHighest_pair]
  unfold TraitResult.retained
  by_cases hle : (t.exactResult g g').wildTotal ≤ (t.exactResult g g').traitTotal
  · rw [(TraitResult.chosen_eq_trait_iff _).2 hle]
    exact if_pos hle
  · rw [(TraitResult.chosen_eq_wild_iff _).2 hle]
    exact if_neg hle

/-- The values of the dice of both expressions say what their first faces say. -/
theorem criticalFailure_pair (h : g.Lone die) (h' : g'.Lone die') (o o' : Outcome) :
    RollResult.criticalFailure ⟨none, [t.exprResult g o, t.exprResult g' o']⟩ =
      (t.exactResult g g').criticalFailure :=
  h.isCriticalFailure_pair h'

/-- The exact results of two single dice say the same. -/
theorem exists_agrees (h : g.Lone die) (h' : g'.Lone die') :
    ∃ x y, (t.exactResult g g').Agrees
      ⟨none, t.asRoll.rank [t.asRoll.exactResult ⟨[(.plus, .dice g)]⟩,
        t.asRoll.exactResult ⟨[(.plus, .dice g')]⟩]⟩ x y := by
  rw [rank_asRoll h h']
  refine ⟨_, _, ⟨rfl, rfl, rfl, rfl, rfl, TraitResult.total_eq_max _,
    TraitResult.chosen_eq_trait_iff _, TraitResult.retained_ne_notApplicable_iff _ _ _,
    TraitResult.retained_ne_notApplicable_iff _ _ _, (criticalFailure_pair h h' _ _).symm, ?_⟩⟩
  rw [criticalFailure_pair h h']
  exact TraitResult.outcome_eq_retained _

/-- Two exploding dice are rolled as a trait roll and as expressions of a roll, from the same state
of a roller that answers. Either the modifier leads one of them out of range and both rolls fail, or
both succeed with the same draws, leave the roller in the same state, and say the same. -/
theorem roll_asRoll {σ : Type} {roller : Roller σ} (hr : Answers roller)
    {traitSides wildSides : Nat} (htrait : 2 ≤ traitSides) (hwild : 2 ≤ wildSides) (target : Int)
    (modifier : Option Int) (s : σ) :
    let t : TraitRoll := { ofSides traitSides wildSides with target, modifier }
    ((∃ e, (roller.run t.roll s).ending = .failed e) ∧
      ∃ e, (roller.run t.asRoll.roll s).ending = .failed e) ∨
    ∃ a b, (roller.run t.roll s).ending = .value a ∧
      (roller.run t.asRoll.roll s).ending = .value b ∧
      (roller.run t.roll s).draws = (roller.run t.asRoll.roll s).draws ∧
      (roller.run t.roll s).state = (roller.run t.asRoll.roll s).state ∧
      ∃ x y, a.Agrees b x y := by
  intro t
  obtain ⟨g, die, h, hg⟩ := exists_run_exploding hr htrait s
  obtain ⟨g', die', h', hg'⟩ := exists_run_exploding hr hwild
    (roller.run (Dice.exploding traitSides).roll s).state
  have htraitRun := run_roll (t := t) h h'
  have hpairRun := Roll.run_roll_pair (r := t.asRoll) rfl h hg h' hg'
  rw [judge_lone hg hg'] at htraitRun
  -- `asRoll` has the modifier of the trait roll, so one condition decides both
  by_cases hsums : IsTotal (g.keptSum + t.modifier.getD 0) ∧
      IsTotal (g'.keptSum + t.modifier.getD 0)
  · right
    rw [if_pos hsums] at htraitRun
    have hpairRun := Eq.mp (if_pos hsums) hpairRun
    refine ⟨t.exactResult g g', _, ?_, congrArg Run.ending hpairRun, ?_, ?_, exists_agrees hg hg'⟩
    · rw [htraitRun]
      rfl
    · rw [htraitRun, hpairRun]
    · rw [htraitRun, hpairRun]
  · left
    rw [if_neg hsums] at htraitRun
    refine ⟨⟨.dice .overflow, ?_⟩, Eq.mp (if_neg hsums) hpairRun⟩
    rw [htraitRun]
    rfl

/-- A three on the trait die against a wild die that explodes, with one taken away from both. -/
theorem roll_asRoll_wild :
    ∃ a b x y,
      ((Roller.mk fun (faces : List Nat) lo _ => some (faces.headD lo, faces.tail)).run
        { ofSides 8 6 with target := 4, modifier := some (-1) }.roll [3, 6, 2]).ending = .value a ∧
      a.Agrees b x y ∧ a.total = 7 ∧ x.outcome = .notApplicable ∧ y.outcome = .success := by
  have hr : Answers (Roller.mk fun (faces : List Nat) lo _ => some (faces.headD lo, faces.tail)) :=
    fun _ _ _ _ => rfl
  have hvalue : ((Roller.mk fun (faces : List Nat) lo _ => some (faces.headD lo, faces.tail)).run
      { ofSides 8 6 with target := 4, modifier := some (-1) }.roll [3, 6, 2]).ending =
      .value ⟨⟨.exploding 8, [⟨3, [3], none⟩]⟩, ⟨.exploding 6, [⟨8, [6, 2], none⟩]⟩, 2, 7, 4⟩ := rfl
  rcases roll_asRoll hr (show 2 ≤ 8 by decide) (show 2 ≤ 6 by decide) 4 (some (-1)) [3, 6, 2] with
    ⟨⟨e, he⟩, -⟩ | ⟨a, b, ha, -, -, -, x, y, hagrees⟩
  · rw [hvalue] at he
    cases he
  · rw [hvalue] at ha
    cases ha
    have houtcome := hagrees.outcome
    rw [← hagrees.criticalFailure] at houtcome
    refine ⟨_, b, x, y, hvalue, hagrees, rfl, ?_, houtcome.symm⟩
    exact not_not.1 fun hx => absurd (hagrees.trait_retained.1 hx) (by decide)

end TraitRoll

end TabletopDice
