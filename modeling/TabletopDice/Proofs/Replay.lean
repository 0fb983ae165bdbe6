import TabletopDice.Proofs.RolledParts
import TabletopDice.Proofs.Selecting

/-!
# Replaying a roll

A result records every answer that was drawn for it. Main statements: read in order, the record is
what was drawn (`draws_of_path`, `draws_of_trait_path`), and a script of it repeats the roll
(`rolls_replay`).
-/

namespace TabletopDice

/-! ## Records -/

/-- The faces of a group: those of its dice in order. -/
def RolledDice.draws (r : RolledDice) : List Nat :=
  r.rolls.flatMap Die.draws

/-- The faces of a term. A number has none. -/
def RolledTerm.draws : RolledTerm → List Nat
  | number _ => []
  | dice r => r.draws

/-- The faces of an expression: those of its terms in order. -/
def RolledExpr.draws (e : RolledExpr) : List Nat :=
  e.terms.flatMap fun p => p.2.draws

/-- The faces of a result: those of its expressions in order. -/
def RollResult.draws (r : RollResult) : List Nat :=
  r.exprs.flatMap fun e => e.rolled.draws

/-- The faces of a trait roll: those of the trait die and then those of the wild die. -/
def TraitResult.draws (r : TraitResult) : List Nat :=
  r.trait.draws ++ r.wild.draws

open Rolling

/-! ## Explosions -/

/-- A die that explodes has the faces pushed that are drawn for it, one after the other. -/
theorem eq_foldl_push_of_path_explodeFrom {threshold sides room latest : Nat} {d d' : Die}
    {vs : List Nat} (h : Path (d.explodeFrom threshold sides room latest) vs (.ok d')) :
    d' = vs.foldl Die.push d := by
  induction room generalizing latest d vs with
  | zero =>
    obtain ⟨rfl, hd⟩ := path_done_iff.1 h
    cases hd
    rfl
  | succ room ih =>
    unfold Die.explodeFrom at h
    split at h
    · obtain ⟨rfl, hd⟩ := path_done_iff.1 h
      cases hd
      rfl
    · obtain ⟨v, us, ws, rfl, hface, hlater⟩ := path_bind_ok_iff.1 h
      obtain ⟨-, rfl⟩ := path_int_ok_iff.1 hface
      rw [ih hlater]
      rfl

theorem draws_of_path_explodeFrom {threshold sides room latest : Nat} {d d' : Die} {vs : List Nat}
    (h : Path (d.explodeFrom threshold sides room latest) vs (.ok d')) :
    d'.draws = d.draws ++ vs := by
  rw [eq_foldl_push_of_path_explodeFrom h, Die.draws_foldl_push]

/-- The faces of a die are those that are drawn for it. -/
theorem draws_of_path_rollDie {d : Dice} {die : Die} {vs : List Nat}
    (h : Path d.rollDie vs (.ok die)) : die.draws = vs := by
  obtain ⟨v, more, rfl, hmore⟩ := Dice.parts_of_path_rollDie h
  rw [draws_of_path_explodeFrom hmore, Die.draws_single]
  rfl

/-! ## Rolls -/

/-- Selections leave the faces of a group as they are. -/
theorem RolledDice.draws_of_applyAll {ss : List Selection} {r r' : RolledDice}
    (h : r.applyAll ss = .ok r') : r'.draws = r.draws := by
  have hmap := map_rolls_of_applyAll (f := Die.draws) (fun _ _ => rfl) h
  unfold draws
  rw [List.flatMap_def, List.flatMap_def, hmap]

/-- A group records what is drawn for it. -/
theorem draws_of_path_dice {d : Dice} {r : RolledDice} {vs : List Nat}
    (h : Path d.roll vs (.ok r)) : r.draws = vs := by
  obtain ⟨rolls, hrolls, happly⟩ := Dice.parts_of_path h
  rw [RolledDice.draws_of_applyAll happly]
  exact flatMap_of_path_mapM (fun x hx vs die hdie => draws_of_path_rollDie hdie) hrolls

/-- A signed term records what is drawn for it. -/
theorem draws_of_path_rollSigned {p : Sign × Term} {q : Sign × RolledTerm} {vs : List Nat}
    (h : Path (rollSigned p) vs (.ok q)) : q.2.draws = vs := by
  rcases parts_of_path_rollSigned h with ⟨s, n, -, rfl, rfl⟩ | ⟨s, d, g, -, rfl, hdice⟩
  · rfl
  · exact draws_of_path_dice hdice

/-- An expression records what is drawn for it. -/
theorem draws_of_path_expr {e : Expr} {rolled : RolledExpr} {vs : List Nat}
    (h : Path e.roll vs (.ok rolled)) : rolled.draws = vs :=
  flatMap_of_path_mapM (fun _ _ _ _ hq => draws_of_path_rollSigned hq) (Expr.parts_of_path h)

namespace Roll

variable {r : Roll}

/-- Telling the highest results apart changes nothing but outcomes. -/
theorem map_rank {γ : Type} {f : ExprResult → γ} (hf : ∀ e o, f { e with outcome := o } = f e)
    (results : List ExprResult) : (r.rank results).map f = results.map f := by
  unfold rank
  split
  · unfold keepHighest
    refine List.ext_getElem? fun i => ?_
    simp only [List.getElem?_map, List.getElem?_mapIdx, Option.map_map]
    cases results[i]? with
    | none => rfl
    | some e =>
      simp only [Option.map_some, Function.comp_apply]
      split
      · rw [hf]
      · rfl
  · rfl

/-- A roll records what is drawn for it. -/
theorem draws_of_path {result : RollResult} {vs : List Nat} (h : Path r.roll vs (.ok result)) :
    result.draws = vs := by
  obtain ⟨results, hresults, rfl⟩ := parts_of_path h
  have hrecord : results.flatMap (fun x => x.rolled.draws) = vs := by
    refine flatMap_of_path_mapM (fun e he vs x hx => ?_) hresults
    exact draws_of_path_expr (parts_of_path_rollExpr hx).1
  have hrank : (r.rank results).flatMap (fun e => e.rolled.draws) =
      results.flatMap fun e => e.rolled.draws := by
    have hmap := congrArg (List.flatMap RolledExpr.draws)
      (r.map_rank (f := ExprResult.rolled) (fun _ _ => rfl) results)
    rwa [List.flatMap_map, List.flatMap_map] at hmap
  exact hrank.trans hrecord

end Roll

namespace TraitRoll

variable {t : TraitRoll}

/-- A trait roll records what is drawn for it. -/
theorem draws_of_trait_path {result : TraitResult} {vs : List Nat}
    (h : Path t.roll vs (.ok result)) : result.draws = vs := by
  obtain ⟨us, ws, rfl, htrait, hwild, -⟩ := parts_of_path h
  rw [TraitResult.draws, draws_of_path_dice htrait, draws_of_path_dice hwild]

end TraitRoll

/-! ## Replaying -/

/-- A script of these answers, with or without further ones, repeats a roll to this value and leaves
the further ones. A script of only some of them is used up before the roll ends. -/
structure Replays {ε α : Type} (t : Rolling ε α) (answers : List Nat) (a : α) : Prop where
  again : ∀ later, Source.run (.script (answers ++ later)) t = ⟨.value a, answers, .script later⟩
  short : ∀ ds, ds <+: answers → ds ≠ answers →
    Source.run (.script ds) t = ⟨.exhausted, ds, .script []⟩

theorem replays_of_path {ε α : Type} {t : Rolling ε α} {vs : List Nat} {a : α}
    (h : Path t vs (.ok a)) : Replays t vs a where
  again := run_script_of_path h
  short := fun _ => run_script_of_short h

/-- Whatever the roller, the result of a roll and that of a trait roll record the answers that were
drawn, in order, and a script of these answers replays the roll. -/
theorem rolls_replay {σ : Type} (r : Roller σ) (s : σ) :
    (∀ (roll : Roll) (result : RollResult), (r.run roll.roll s).ending = .value result →
      result.draws = (r.run roll.roll s).draws ∧
        Replays roll.roll (r.run roll.roll s).draws result) ∧
    (∀ (roll : TraitRoll) (result : TraitResult), (r.run roll.roll s).ending = .value result →
      result.draws = (r.run roll.roll s).draws ∧
        Replays roll.roll (r.run roll.roll s).draws result) := by
  constructor
  · intro roll result h
    have hpath := path_of_value h
    exact ⟨Roll.draws_of_path hpath, replays_of_path hpath⟩
  · intro roll result h
    have hpath := path_of_value h
    exact ⟨TraitRoll.draws_of_trait_path hpath, replays_of_path hpath⟩

/-- Two dice of which the first explodes, with a number taken away, and a trait roll. -/
theorem rolls_replay_script :
    Replays (Roll.roll { exprs := [⟨[(.plus, .dice ⟨2, 6, some ⟨none, true⟩, []⟩),
        (.minus, .number 1)]⟩] }) [6, 3, 2]
      { comment := none
        exprs := [{
          rolled := ⟨[(.plus, .dice ⟨⟨2, 6, some ⟨none, true⟩, []⟩, [⟨9, [6, 3], none⟩,
            ⟨2, [2], none⟩]⟩), (.minus, .number 1)]⟩
          total := 10, modifiedTotal := 10, outcome := .notApplicable }] } ∧
    Replays (TraitRoll.ofSides 4 6).roll [3, 6, 1]
      { trait := ⟨.exploding 4, [⟨3, [3], none⟩]⟩
        wild := ⟨.exploding 6, [⟨7, [6, 1], none⟩]⟩
        traitTotal := 3, wildTotal := 7, target := 4 } :=
  ⟨((rolls_replay Source.roller (.script [6, 3, 2])).1 _ _ rfl).2,
    ((rolls_replay Source.roller (.script [3, 6, 1])).2 _ _ rfl).2⟩

end TabletopDice
