import TabletopDice.Roll
import TabletopDice.TraitRoll
import TabletopDice.Proofs.RollPaths

/-!
# Parts of a roll

A roll that succeeds consists of parts that succeed, and its answers are theirs in order. Here it is
said once what the parts of a die, a group, an expression, a roll and a trait roll are, and what
their results are made of.
-/

namespace TabletopDice

open Rolling

variable {vs : List Nat}

/-! ## Dice -/

namespace Dice

variable {d : Dice}

/-- The face from which on a die of the group is drawn again, as long as its explosion allows it. -/
def threshold (d : Dice) : Nat :=
  d.explosionThreshold.getD d.sides

/-- A die without an explosion is rolled like one that has no room for more faces. -/
theorem rollDie_eq (d : Dice) :
    d.rollDie = (face d.sides >>= fun v =>
      (Die.single v).explodeFrom d.threshold d.sides (d.maxDraws - 1) v) := by
  unfold rollDie threshold explosionThreshold maxDraws
  cases d.explosion with
  | none => rfl
  | some e => rfl

/-- A die takes its first face, and then those that it explodes to. -/
theorem parts_of_path_rollDie {die : Die} (h : Path d.rollDie vs (.ok die)) :
    ∃ v more, vs = v :: more ∧
      Path ((Die.single v).explodeFrom d.threshold d.sides (d.maxDraws - 1) v) more (.ok die) := by
  rw [rollDie_eq] at h
  obtain ⟨v, us, more, rfl, hface, hmore⟩ := path_bind_ok_iff.1 h
  obtain ⟨-, rfl⟩ := path_int_ok_iff.1 hface
  exact ⟨v, more, rfl, hmore⟩

/-- A group takes the answers of its dice one after the other, and its selections take none. -/
theorem parts_of_path {g : RolledDice} (h : Path d.roll vs (.ok g)) :
    ∃ rolls, Path ((List.replicate d.count d).mapM rollDie) vs (.ok rolls) ∧
      RolledDice.applyAll d.selections { dice := d, rolls } = .ok g := by
  obtain ⟨rolls, us, ws, rfl, hrolls, happly⟩ := path_bind_ok_iff.1 h
  obtain ⟨rfl, hg⟩ := path_ofExcept_iff.1 happly
  rw [List.append_nil]
  exact ⟨rolls, hrolls, hg.symm⟩

end Dice

/-! ## Expressions -/

/-- A number stands for itself, and for dice there is a group. -/
theorem parts_of_path_rollSigned {p : Sign × Term} {q : Sign × RolledTerm}
    (h : Path (rollSigned p) vs (.ok q)) :
    (∃ s n, p = (s, .number n) ∧ q = (s, .number n) ∧ vs = []) ∨
      ∃ s d g, p = (s, .dice d) ∧ q = (s, .dice g) ∧ Path d.roll vs (.ok g) := by
  obtain ⟨s, term⟩ := p
  obtain ⟨t, us, ws, rfl, hterm, hpair⟩ := path_bind_ok_iff.1 h
  obtain ⟨rfl, hq⟩ := path_done_iff.1 hpair
  cases hq
  rw [List.append_nil]
  cases term with
  | number n =>
    obtain ⟨rfl, ht⟩ := path_done_iff.1 hterm
    cases ht
    exact .inl ⟨s, n, rfl, rfl, rfl⟩
  | dice d =>
    obtain ⟨g, us, ws, rfl, hdice, hdone⟩ := path_bind_ok_iff.1 hterm
    obtain ⟨rfl, ht⟩ := path_done_iff.1 hdone
    cases ht
    rw [List.append_nil]
    exact .inr ⟨s, d, g, rfl, rfl, hdice⟩

/-- An expression is rolled term by term. -/
theorem Expr.parts_of_path {e : Expr} {rolled : RolledExpr} (h : Path e.roll vs (.ok rolled)) :
    Path (e.terms.mapM rollSigned) vs (.ok rolled.terms) := by
  obtain ⟨terms, us, ws, rfl, hterms, hdone⟩ := path_bind_ok_iff.1 h
  obtain ⟨rfl, hrolled⟩ := path_done_iff.1 hdone
  cases hrolled
  rw [List.append_nil]
  exact path_mapError_ok_iff.1 hterms

/-! ## Rolls -/

namespace Roll

variable {r : Roll}

/-- An expression that is judged has a total, with and without the modifier. -/
theorem eq_of_judge {rolled : RolledExpr} {x : ExprResult} (h : r.judge rolled = .ok x) :
    ∃ total modifiedTotal, rolled.total = .ok total ∧
      total? (total + r.modifier.getD 0) = some modifiedTotal ∧
      x = { rolled, total, modifiedTotal
            outcome := .classify modifiedTotal r.target (isCriticalFailure rolled.groups) } := by
  obtain ⟨total, htotal, hresult⟩ := bind_eq_ok_iff.1 h
  split at hresult
  · next modifiedTotal hmodified =>
    cases hresult
    exact ⟨total, modifiedTotal, htotal, hmodified, rfl⟩
  · cases hresult

/-- An expression is rolled and then judged. -/
theorem parts_of_path_rollExpr {e : Expr} {x : ExprResult} (h : Path (r.rollExpr e) vs (.ok x)) :
    Path e.roll vs (.ok x.rolled) ∧ r.judge x.rolled = .ok x := by
  obtain ⟨rolled, us, ws, rfl, hexpr, hjudge⟩ := path_bind_ok_iff.1 h
  obtain ⟨rfl, hx⟩ := path_ofExcept_iff.1 hjudge
  obtain ⟨total, modifiedTotal, -, -, rfl⟩ := eq_of_judge hx.symm
  rw [List.append_nil]
  exact ⟨hexpr, hx.symm⟩

/-- A roll takes the answers of its expressions, and then ranks what they come to. -/
theorem parts_of_path {result : RollResult} (h : Path r.roll vs (.ok result)) :
    ∃ results, Path (r.exprs.mapM r.rollExpr) vs (.ok results) ∧
      result = { comment := r.comment, exprs := r.rank results } := by
  obtain ⟨results, us, ws, rfl, hresults, hdone⟩ := path_bind_ok_iff.1 h
  obtain ⟨rfl, hresult⟩ := path_done_iff.1 hdone
  cases hresult
  rw [List.append_nil]
  exact ⟨results, hresults, rfl⟩

end Roll

/-! ## Trait rolls -/

namespace TraitRoll

variable {t : TraitRoll}

/-- Dice that are judged both have a total with the modifier. -/
theorem eq_of_judge {trait wild : RolledDice} {result : TraitResult}
    (h : t.judge trait wild = .ok result) :
    ∃ traitTotal wildTotal, modifiedTotal (t.modifier.getD 0) trait = .ok traitTotal ∧
      modifiedTotal (t.modifier.getD 0) wild = .ok wildTotal ∧
      result = { trait, wild, traitTotal, wildTotal, target := t.target } := by
  obtain ⟨traitTotal, htrait, hlater⟩ := bind_eq_ok_iff.1 h
  obtain ⟨wildTotal, hwild, hresult⟩ := bind_eq_ok_iff.1 hlater
  cases hresult
  exact ⟨traitTotal, wildTotal, htrait, hwild, rfl⟩

/-- A trait roll takes the answers of the trait die and then those of the wild die. -/
theorem parts_of_path {result : TraitResult} (h : Path t.roll vs (.ok result)) :
    ∃ us ws, vs = us ++ ws ∧ Path t.traitDie.roll us (.ok result.trait) ∧
      Path t.wildDie.roll ws (.ok result.wild) ∧ t.judge result.trait result.wild = .ok result := by
  have hdice : Path t.rollDice vs (.ok result) := path_mapError_ok_iff.1 h
  obtain ⟨trait, us, vs', rfl, htrait, hlater⟩ := path_bind_ok_iff.1 hdice
  obtain ⟨wild, ws, ws', rfl, hwild, hjudge⟩ := path_bind_ok_iff.1 hlater
  obtain ⟨rfl, hok⟩ := path_ofExcept_iff.1 hjudge
  obtain ⟨traitTotal, wildTotal, -, -, rfl⟩ := eq_of_judge hok.symm
  rw [List.append_nil]
  exact ⟨us, ws, rfl, htrait, hwild, hok.symm⟩

end TraitRoll

end TabletopDice
