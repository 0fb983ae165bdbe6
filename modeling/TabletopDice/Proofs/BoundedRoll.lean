import Mathlib
import TabletopDice.Proofs.ExactTotal
import TabletopDice.Proofs.PrintedRoll
import TabletopDice.Proofs.Replay
import TabletopDice.Proofs.RollRules

/-!
# Rolls of text are bounded

A roll that is read from text draws a bounded number of faces, and fails in no other way than by a
total that leaves its range. Main statements: the dice of valid expressions are always rolled, with
totals that are far from their bounds (`ensures_expr`), and a whole roll ends as its exact sums say
(`roll_ofText_bounded`).
-/

namespace TabletopDice

open Rolling

/-! ## The number of dice -/

/-- The number of dice of a term. -/
def Term.diceCount : Term → Nat
  | number _ => 0
  | dice d => d.count

/-- The number of dice of an expression. -/
def Expr.diceCount (e : Expr) : Nat :=
  (e.terms.map fun p => p.2.diceCount).sum

/-- The number of dice of all expressions. -/
def Roll.diceCount (r : Roll) : Nat :=
  (r.exprs.map Expr.diceCount).sum

/-- A valid group has no more dice than roll text allows. -/
theorem Term.diceCount_le {t : Term} (h : t.Valid) :
    t.diceCount ≤ Dice.maxCount * if t.isDice then 1 else 0 := by
  cases t with
  | number n => exact Nat.zero_le _
  | dice d => exact h.count.2

/-- A valid expression has at most as many dice as its groups can hold. -/
theorem Expr.diceCount_le {e : Expr} (h : ∀ p ∈ e.terms, p.2.Valid) :
    e.diceCount ≤ Dice.maxCount * e.diceGroups := by
  obtain ⟨terms⟩ := e
  unfold diceCount diceGroups
  dsimp only at h ⊢
  induction terms with
  | nil => exact Nat.le_refl 0
  | cons p ps ih =>
    have ih := ih fun p hp => h p (.tail _ hp)
    have hp := Term.diceCount_le (h p (.head _))
    rw [List.map_cons, List.sum_cons, List.countP_cons, Nat.mul_add]
    omega

/-- A roll of valid expressions has at most as many dice as its groups can hold. -/
theorem Roll.diceCount_le {r : Roll} (h : ∀ e ∈ r.exprs, e.Valid) :
    r.diceCount ≤ Dice.maxCount * Expr.totalGroups r.exprs := by
  unfold diceCount
  generalize r.exprs = es at h ⊢
  induction es with
  | nil => exact Nat.le_refl 0
  | cons e es ih =>
    have ih := ih fun e he => h e (.tail _ he)
    have he := Expr.diceCount_le (h e (.head _)).terms
    rw [List.map_cons, List.sum_cons]
    show _ ≤ Dice.maxCount * (e.diceGroups + Expr.totalGroups es)
    rw [Nat.mul_add]
    exact Nat.add_le_add he ih

/-! ## Dice -/

/-- The most faces of a die. -/
def maxFaces : Nat := 10

theorem Explosion.maxDraws_le (e : Explosion) : e.maxDraws ≤ maxFaces := by
  unfold maxDraws maxFaces
  split <;> omega

/-- No die has more faces than an explosion allows. -/
theorem Dice.maxDraws_le (d : Dice) : d.maxDraws ≤ maxFaces := by
  unfold maxDraws
  split
  · next e _ => exact e.maxDraws_le
  · decide

/-- An explosion asks for faces only. -/
theorem proper_explodeFrom (threshold sides room latest : Nat) (d : Die) :
    (d.explodeFrom threshold sides room latest).Proper := by
  induction room generalizing latest d with
  | zero => trivial
  | succ room ih =>
    unfold Die.explodeFrom
    split
    · trivial
    · exact (proper_int 1 sides).bind fun v => ih v (d.push v)

/-- An explosion draws no more faces than it has room for. -/
theorem drawsAtMost_explodeFrom (threshold sides room latest : Nat) (d : Die) :
    DrawsAtMost room (d.explodeFrom threshold sides room latest) := by
  induction room generalizing latest d with
  | zero => exact drawsAtMost_done d
  | succ room ih =>
    unfold Die.explodeFrom
    split
    · exact (drawsAtMost_done d).mono (Nat.zero_le _)
    · rw [Nat.add_comm]
      exact (drawsAtMost_int 1 sides).bind fun v => ih v (d.push v)

/-- However a die explodes, its value stays at the greatest one. -/
theorem ensures_explodeFrom {threshold sides room latest : Nat} {d : Die} (hsides : 1 ≤ sides)
    (hd : d.value ≤ maxDieValue) :
    Ensures (fun d' => d'.value ≤ maxDieValue) (d.explodeFrom threshold sides room latest) := by
  induction room generalizing latest d with
  | zero => exact ensures_done hd
  | succ room ih =>
    unfold Die.explodeFrom
    split
    · exact ensures_done hd
    · exact (ensures_int hsides).bind fun v _ => ih (Nat.min_le_left _ _)

/-- Selecting dice makes the sum of those that count no greater than the sum of all. -/
theorem RolledDice.keptSum_le (r : RolledDice) (h : ∀ v ∈ r.rolls.map Die.value, v ≤ maxDieValue) :
    r.keptSum ≤ maxDieValue * r.rolls.length := by
  unfold keptSum kept
  generalize r.rolls = rolls at h ⊢
  induction rolls with
  | nil => exact Nat.le_refl 0
  | cons die rolls ih =>
    have hdie : die.value ≤ maxDieValue := h _ (.head _)
    have ih := ih fun v hv => h v (.tail _ hv)
    rw [List.length_cons, Nat.mul_add, Nat.mul_one]
    by_cases hkept : die.isKept
    · rw [List.filter_cons_of_pos hkept, List.foldr_cons]
      omega
    · rw [List.filter_cons_of_neg hkept]
      omega

namespace Dice

variable {d : Dice}

theorem proper_rollDie (d : Dice) : d.rollDie.Proper := by
  rw [rollDie_eq]
  exact (proper_int 1 d.sides).bind fun v => proper_explodeFrom _ _ _ _ _

/-- A die draws one face, and when it explodes not more than an explosion allows. -/
theorem drawsAtMost_rollDie (d : Dice) : DrawsAtMost maxFaces d.rollDie := by
  have hfaces : maxFaces = 1 + (maxFaces - 1) := rfl
  rw [hfaces, rollDie_eq]
  refine (drawsAtMost_int 1 d.sides).bind fun v => ?_
  exact (drawsAtMost_explodeFrom _ _ _ _ _).mono (Nat.sub_le_sub_right d.maxDraws_le 1)

/-- A die with sides is always rolled, and its value stays at the greatest one. -/
theorem ensures_rollDie (hsides : 1 ≤ d.sides) :
    Ensures (fun die => die.value ≤ maxDieValue) d.rollDie := by
  rw [rollDie_eq]
  refine (ensures_int hsides).bind fun v _ => ?_
  have hsingle : (Die.single v).value ≤ maxDieValue := Nat.min_le_left _ _
  exact ensures_explodeFrom hsides hsingle

theorem proper_roll (d : Dice) : d.roll.Proper := by
  unfold roll
  refine (proper_mapM proper_rollDie _).bind fun rolls => ?_
  exact proper_ofExcept _

theorem drawsAtMost_roll (d : Dice) : DrawsAtMost (maxFaces * d.count) d.roll := by
  unfold roll
  have hdie : ∀ x ∈ List.replicate d.count d, DrawsAtMost maxFaces x.rollDie :=
    fun x _ => drawsAtMost_rollDie x
  have hrolls := drawsAtMost_mapM hdie
  refine (hrolls.bind fun rolls => drawsAtMost_ofExcept _).mono ?_
  simp [Nat.mul_comm]

/-- A group of dice with sides is always rolled, and its sum is bounded by its count. -/
theorem ensures_roll (hsides : 1 ≤ d.sides) :
    Ensures (fun r => r.keptSum ≤ maxDieValue * d.count) d.roll := by
  unfold roll
  have hdie : ∀ x ∈ List.replicate d.count d,
      Ensures (fun die => die.value ≤ maxDieValue) x.rollDie := by
    intro x hx
    rw [(List.mem_replicate.1 hx).2]
    exact ensures_rollDie hsides
  refine (ensures_mapM hdie).bind fun rolls hbound => ?_
  obtain ⟨hlength, hvalues⟩ := hbound
  rw [List.length_replicate] at hlength
  obtain ⟨r, hr⟩ := RolledDice.exists_applyAll d.selections { dice := d, rolls }
  rw [hr]
  refine ensures_ofExcept ?_
  have hmap := RolledDice.map_rolls_of_applyAll (f := Die.value) (fun _ _ => rfl) hr
  have hcount : r.rolls.length = d.count := by
    rw [← hlength, ← List.length_map (f := Die.value), hmap, List.length_map]
  rw [← hcount]
  refine RolledDice.keptSum_le r fun v hv => ?_
  rw [hmap] at hv
  obtain ⟨die, hmem, rfl⟩ := List.mem_map.1 hv
  exact hvalues die hmem

end Dice

/-! ## Expressions -/

theorem proper_rollSigned (p : Sign × Term) : (rollSigned p).Proper := by
  obtain ⟨sign, t⟩ := p
  refine Proper.bind ?_ fun t => trivial
  cases t with
  | number n => trivial
  | dice d => exact d.proper_roll.bind fun r => trivial

theorem drawsAtMost_rollSigned (p : Sign × Term) :
    DrawsAtMost (maxFaces * p.2.diceCount) (rollSigned p) := by
  obtain ⟨sign, t⟩ := p
  have hterm : DrawsAtMost (maxFaces * t.diceCount) t.roll := by
    cases t with
    | number n => exact drawsAtMost_done _
    | dice d => exact d.drawsAtMost_roll.bind fun r => drawsAtMost_done _
  exact hterm.bind fun t => drawsAtMost_done _

/-- The sum of a group with no more dice than roll text allows is far below the bounds of totals. -/
theorem RolledTerm.fits_dice {count : Nat} {r : RolledDice} (hcount : count ≤ Dice.maxCount)
    (h : r.keptSum ≤ maxDieValue * count) : (RolledTerm.dice r).Fits := by
  have hsum : r.keptSum ≤ maxDieValue * Dice.maxCount :=
    Nat.le_trans h (Nat.mul_le_mul_left _ hcount)
  unfold maxDieValue Dice.maxCount at hsum
  refine ⟨?_, ?_⟩
  · have htotal : r.total = .ok r.keptSum := by
      refine if_pos ?_
      unfold maxGroupTotal
      omega
    rw [value, htotal]
    rfl
  · show minTotal ≤ (r.keptSum : Int) ∧ (r.keptSum : Int) ≤ maxTotal
    unfold minTotal maxTotal
    omega

/-- A valid term is always rolled, and its value is a total by itself. -/
theorem ensures_rollSigned {p : Sign × Term} (h : p.2.Valid) :
    Ensures (fun q => q.2.Fits) (rollSigned p) := by
  obtain ⟨sign, t⟩ := p
  have hterm : Ensures RolledTerm.Fits t.roll := by
    cases t with
    | number n =>
      obtain ⟨hpos, hle⟩ := h
      refine ensures_done ⟨rfl, ?_, hle⟩
      show minTotal ≤ n
      unfold minTotal
      omega
    | dice d =>
      have hsides : 1 ≤ d.sides := Nat.le_trans (by decide) h.sides.1
      refine (Dice.ensures_roll hsides).bind fun r hr => ?_
      exact ensures_done (RolledTerm.fits_dice h.count.2 hr)
  exact hterm.bind fun t ht => ensures_done ht

namespace Expr

theorem proper_roll (e : Expr) : e.roll.Proper :=
  ((proper_mapM proper_rollSigned e.terms).mapError _).bind fun _ => trivial

theorem drawsAtMost_roll (e : Expr) : DrawsAtMost (maxFaces * e.diceCount) e.roll := by
  have hterm : ∀ p ∈ e.terms, DrawsAtMost (maxFaces * p.2.diceCount) (rollSigned p) :=
    fun p _ => drawsAtMost_rollSigned p
  have hterms := drawsAtMost_mapM hterm
  rw [List.sum_map_mul_left] at hterms
  exact (hterms.mapError _).bind fun _ => drawsAtMost_done _

/-- A valid expression is always rolled, and the values of its terms are totals by themselves. -/
theorem ensures_roll {e : Expr} (h : e.Valid) :
    Ensures (fun rolled => ∀ p ∈ rolled.terms, p.2.Fits) e.roll := by
  have hterms := (ensures_mapM fun p hp => ensures_rollSigned (h.terms p hp)).mapError
    (RollError.evaluating e)
  exact hterms.bind fun terms hall => ensures_done hall.2

end Expr

/-! ## Rolls -/

namespace Roll

variable {σ : Type} {r : Roll}

theorem proper_rollExpr (r : Roll) (e : Expr) : (r.rollExpr e).Proper :=
  e.proper_roll.bind fun _ => proper_ofExcept _

theorem proper_roll (r : Roll) : r.roll.Proper :=
  (proper_mapM r.proper_rollExpr r.exprs).bind fun _ => trivial

/-- A roll of valid expressions fails by an overflow or not at all: its dice are always rolled, and
what comes after them is the total alone. -/
theorem failsBy_roll (h : ∀ e ∈ r.exprs, e.Valid) :
    r.roll.FailsBy fun err => ∃ rolled, err = .overflow rolled := by
  have hexpr : ∀ e ∈ r.exprs,
      (r.rollExpr e).FailsBy fun err => ∃ rolled, err = .overflow rolled := by
    intro e he
    refine (Expr.ensures_roll (h e he)).bind_failsBy fun rolled hfits => ?_
    refine failsBy_ofExcept fun err hjudge => ?_
    by_cases hrange : r.Fits rolled
    · rw [judge_of_fits hfits hrange] at hjudge
      cases hjudge
    · rw [judge_of_not_fits hfits hrange] at hjudge
      cases hjudge
      exact ⟨rolled, rfl⟩
  exact (failsBy_mapM hexpr).bind fun _ _ _ => failsBy_done _

/-- A roll draws at most ten faces for each of its dice. -/
theorem drawsAtMost_roll (r : Roll) : DrawsAtMost (maxFaces * r.diceCount) r.roll := by
  have hexpr : ∀ e ∈ r.exprs, DrawsAtMost (maxFaces * e.diceCount) (r.rollExpr e) :=
    fun e _ => e.drawsAtMost_roll.bind fun _ => drawsAtMost_ofExcept _
  have hexprs := drawsAtMost_mapM hexpr
  rw [List.sum_map_mul_left] at hexprs
  exact hexprs.bind fun _ => drawsAtMost_done _

/-- With a roller that answers, a valid expression is rolled to a value. -/
theorem exists_rolled {roller : Roller σ} (hr : Answers roller) {e : Expr} (he : e.Valid) (s : σ) :
    ∃ rolled, (roller.run e.roll s).ending = .value rolled ∧
      (∀ p ∈ rolled.terms, p.2.Fits) ∧ rolled.draws = (roller.run e.roll s).draws := by
  obtain ⟨x, hpath, hending⟩ := exists_path_of_answers hr e.proper_roll s
  obtain ⟨rolled, rfl, hfits⟩ := Expr.ensures_roll he _ _ hpath
  exact ⟨rolled, hending, hfits, draws_of_path_expr hpath⟩

/-- Once its dice are rolled an expression draws nothing more. -/
theorem run_rollExpr {roller : Roller σ} {e : Expr} {s : σ} {rolled : RolledExpr}
    (h : (roller.run e.roll s).ending = .value rolled) :
    roller.run (r.rollExpr e) s =
      ⟨.ofExcept (r.judge rolled), (roller.run e.roll s).draws, (roller.run e.roll s).state⟩ := by
  unfold rollExpr
  rw [Roller.run_bind, h]
  simp only [Roller.run_ofExcept, List.append_nil]

/-- Of some expressions with their dice rolled the first ones stay in range and the next one, which
is the last one reached, overflows. -/
def Overflows {α : Type} (r : Roll) (rolled : List RolledExpr) (run : Run σ RollError α) : Prop :=
  ∃ before e after, rolled = before ++ e :: after ∧ (∀ x ∈ before, r.Fits x) ∧ ¬ r.Fits e ∧
    run.ending = .failed (.overflow e) ∧ run.draws = (before ++ [e]).flatMap RolledExpr.draws

/-- Expressions are rolled and totalled one after the other: up to the first one that leaves the
range, or all of them if none does. -/
theorem run_rollExprs {roller : Roller σ} (hr : Answers roller) {es : List Expr}
    (hes : ∀ e ∈ es, e.Valid) (s : σ) :
    ∃ rolled, (roller.run (es.mapM Expr.roll) s).ending = .value rolled ∧
      (r.Overflows rolled (roller.run (es.mapM r.rollExpr) s) ∨
        ((∀ e ∈ rolled, r.Fits e) ∧
          (roller.run (es.mapM r.rollExpr) s).ending = .value (rolled.map r.exactResult) ∧
          (roller.run (es.mapM r.rollExpr) s).draws = rolled.flatMap RolledExpr.draws)) := by
  induction es generalizing s with
  | nil => exact ⟨[], rfl, .inr ⟨List.forall_mem_nil _, rfl, rfl⟩⟩
  | cons e es ih =>
    obtain ⟨x, hx, hfits, hdraws⟩ := exists_rolled hr (hes e (.head _)) s
    obtain ⟨rolled, hall, hcases⟩ :=
      ih (fun e he => hes e (.tail _ he)) (roller.run e.roll s).state
    refine ⟨x :: rolled, ?_, ?_⟩
    · rw [List.mapM_cons, Roller.run_bind, hx]
      simp only [Roller.run_bind, hall]
      rfl
    rw [List.mapM_cons, Roller.run_bind, run_rollExpr hx]
    -- the roll goes on after this expression only if its sums stay in range
    by_cases hxfits : r.Fits x
    · rw [judge_of_fits hfits hxfits]
      simp only [Ending.ofExcept, Roller.run_bind]
      rcases hcases with ⟨before, e', after, rfl, hbefore, he', hending, hlater⟩ |
        ⟨hall, hending, hlater⟩
      · left
        refine ⟨x :: before, e', after, rfl, List.forall_mem_cons.2 ⟨hxfits, hbefore⟩, he', ?_, ?_⟩
        · rw [hending]
        · rw [hending, hlater, ← hdraws]
          rfl
      · right
        refine ⟨List.forall_mem_cons.2 ⟨hxfits, hall⟩, ?_, ?_⟩
        · rw [hending]
          rfl
        · rw [hending]
          simp only [Rolling.pure_eq, Roller.run_done, List.append_nil, hlater, ← hdraws]
          rfl
    · left
      refine ⟨[], x, rolled, rfl, List.forall_mem_nil _, hxfits, ?_, ?_⟩
      · rw [judge_of_not_fits hfits hxfits]
        rfl
      · rw [judge_of_not_fits hfits hxfits]
        simp [Ending.ofExcept, hdraws]

/-- The results of expressions by their exact sums keep these sums, whichever outcomes are taken. -/
theorem totals_of_mem_rank {rolled : List RolledExpr} {e : ExprResult}
    (h : e ∈ r.rank (rolled.map r.exactResult)) :
    e.total = signedSum e.rolled.terms ∧
      e.modifiedTotal = signedSum e.rolled.terms + r.modifier.getD 0 := by
  have hmap := r.map_rank (f := fun e => (e.rolled, e.total, e.modifiedTotal)) (fun _ _ => rfl)
    (rolled.map r.exactResult)
  have hmem : (e.rolled, e.total, e.modifiedTotal) ∈
      (rolled.map r.exactResult).map fun e => (e.rolled, e.total, e.modifiedTotal) := by
    rw [← hmap]
    exact List.mem_map_of_mem h
  rw [List.map_map] at hmem
  obtain ⟨x, -, hx⟩ := List.mem_map.1 hmem
  simp only [Function.comp_apply, exactResult, Prod.mk.injEq] at hx
  obtain ⟨hrolled, htotal, hmodified⟩ := hx
  rw [← hrolled]
  exact ⟨htotal.symm, hmodified.symm⟩

/-- The roll of valid expressions ends as their exact sums say. -/
theorem run_roll_of_valid {roller : Roller σ} (hr : Answers roller) (h : ∀ e ∈ r.exprs, e.Valid)
    (s : σ) :
    ∃ rolled, (roller.run (r.exprs.mapM Expr.roll) s).ending = .value rolled ∧
      (r.Overflows rolled (roller.run r.roll s) ∨
        ((∀ e ∈ rolled, r.Fits e) ∧ ∃ result, (roller.run r.roll s).ending = .value result ∧
          result.exprs.map ExprResult.rolled = rolled ∧
          ∀ e ∈ result.exprs, e.total = signedSum e.rolled.terms ∧
            e.modifiedTotal = signedSum e.rolled.terms + r.modifier.getD 0)) := by
  obtain ⟨rolled, hall, hcases⟩ := run_rollExprs (r := r) hr h s
  refine ⟨rolled, hall, ?_⟩
  unfold roll
  rw [Roller.run_bind]
  rcases hcases with ⟨before, e, after, hrolled, hbefore, he, hending, hdraws⟩ | ⟨hfits, hending, -⟩
  · left
    rw [hending]
    exact ⟨before, e, after, hrolled, hbefore, he, rfl, hdraws⟩
  · right
    rw [hending]
    refine ⟨hfits, _, rfl, ?_, fun e he => totals_of_mem_rank he⟩
    have hmap := r.map_rank (f := ExprResult.rolled) (fun _ _ => rfl) (rolled.map r.exactResult)
    rw [List.map_map] at hmap
    rw [hmap]
    exact List.map_id rolled

/-- Whatever the answers are, the roll of a text fails by an overflow or not at all, so that no
inverted range is asked for and no die is dropped twice. It draws at most ten faces for each of at
most ten thousand dice. If the exact sums of some expression leave the range of totals, the first
such expression is reached and is the overflow that the roll fails by. Otherwise the roll succeeds
and every total is exact. -/
theorem roll_ofText_bounded {roller : Roller σ} (hr : Answers roller) (text : String) (s : σ) :
    ((ofText text).roll.FailsBy fun err => ∃ rolled, err = .overflow rolled) ∧
    (roller.run (ofText text).roll s).draws.length ≤ 10 * (ofText text).diceCount ∧
    10 * (ofText text).diceCount ≤ 100000 ∧
    ∃ rolled, (roller.run ((ofText text).exprs.mapM Expr.roll) s).ending = .value rolled ∧
      ((ofText text).Overflows rolled (roller.run (ofText text).roll s) ∨
        ((∀ e ∈ rolled, (ofText text).Fits e) ∧
          ∃ result, (roller.run (ofText text).roll s).ending = .value result ∧
            result.exprs.map ExprResult.rolled = rolled ∧
            ∀ e ∈ result.exprs, e.total = signedSum e.rolled.terms ∧
              e.modifiedTotal = signedSum e.rolled.terms + (ofText text).modifier.getD 0)) := by
  have hvalid : ∀ e ∈ (ofText text).exprs, e.Valid := fun e => valid_of_mem_ofText
  refine ⟨failsBy_roll hvalid, ?_, ?_, run_roll_of_valid hr hvalid s⟩
  · obtain ⟨x, hpath, -⟩ := exists_path_of_answers hr (proper_roll (ofText text)) s
    exact drawsAtMost_roll _ _ x hpath
  · have hcount := diceCount_le hvalid
    have hgroups := totalGroups_ofText_le text
    unfold Dice.maxCount at hcount
    unfold maxDiceGroups at hgroups
    omega

/-- A die and a number that is as large as a total can be: rolled as high as possible they are an
overflow. -/
theorem roll_ofText_bounded_overflow :
    ∃ e, ((Roller.mk fun (_ : Unit) _ hi => some (hi, ())).run
      (ofText "1d6 + 2147483647").roll ()).ending = .failed (.overflow e) := by
  have hvalid : ∀ e ∈ ([⟨[(.plus, .dice .standard), (.plus, .number 2147483647)]⟩] : List Expr),
      e.Valid := by
    intro e he
    rw [List.mem_singleton.1 he]
    refine ⟨List.cons_ne_nil _ _, ?_⟩
    intro p hp
    rcases List.mem_cons.1 hp with rfl | hp
    · exact Written.valid_standardExpr.terms _ (.head _)
    · rw [List.mem_singleton.1 hp]
      exact ⟨by decide, by decide⟩
  have htext : blockText [⟨[(.plus, .dice .standard), (.plus, .number 2147483647)]⟩] =
      "1d6 + 2147483647" := by decide
  have hread := ofText_blockText (List.cons_ne_nil _ _) hvalid (by decide)
  rw [htext] at hread
  have hr : Answers (Roller.mk fun (_ : Unit) _ hi => some (hi, ())) := fun _ _ _ _ => rfl
  obtain ⟨-, -, -, rolled, -, hcases⟩ := roll_ofText_bounded hr "1d6 + 2147483647" ()
  rcases hcases with ⟨before, e, after, -, -, -, hending, -⟩ | ⟨-, result, hending, -⟩
  · exact ⟨e, hending⟩
  · rw [hread] at hending
    cases hending

end Roll

end TabletopDice
