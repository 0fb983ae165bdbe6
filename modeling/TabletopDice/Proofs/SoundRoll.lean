import TabletopDice.Proofs.BoundedRoll
import TabletopDice.Proofs.ParsedRoll
import TabletopDice.Proofs.RolledGroups

/-!
# Rolls of text are sound

What can be relied on in a roll that was read, whatever the text was and however many faults it had.
Main statement: every part that is left of the text can be used as it is, and each of its groups
has a die that counts when it is rolled (`sound_ofText`).
-/

namespace TabletopDice

open Rolling

/-! ## Parts given once -/

namespace Written

/-- A number that is taken for a total is not negative. -/
theorem nonneg_of_total {ds : List Char} {n : Int} (h : (Noted.total ds).value = some n) :
    0 ≤ n := by
  obtain ⟨m, hm⟩ := Noted.exists_of_value_number_chain h
  obtain ⟨-, rfl⟩ := Noted.of_value_ite hm
  exact Int.natCast_nonneg m

theorem nonneg_of_readTarget {slots : Slots} {n : Int} (h : (readTarget slots).value = some n) :
    0 ≤ n := by
  unfold readTarget at h
  split at h
  · exact nonneg_of_total h
  · cases h

/-- The number of highest results is taken only with a target number, and only if it is not zero. -/
theorem fits_of_readTargetHighest {slots : Slots} {target : Option Int} {n : Nat}
    (h : (readTargetHighest slots target).value = some n) : 1 ≤ n ∧ target.isSome := by
  unfold readTargetHighest at h
  split at h
  · obtain ⟨m, hm⟩ := Noted.exists_of_value_number_chain h
    split at hm
    · cases hm
    · next hzero =>
      split at hm
      · cases hm
      · next hsome =>
        cases hm
        exact ⟨Nat.pos_of_ne_zero hzero, by simpa [Option.isSome_iff_ne_none] using hsome⟩
  · cases h

/-! ## Comments -/

/-- A comment is not empty, and it is a part of the text without the quotes. -/
theorem Commented.mem_of_mem {s rest : List Char} {comment : Option String}
    (h : Commented s rest comment) {c : String} (hc : c ∈ comment) :
    c ≠ "" ∧ ∀ x ∈ c.toList, x ∈ s ∧ x ≠ '"' := by
  cases h with
  | @quoted before inside after before_open inside_quotes =>
    split at hc
    · cases hc
    · next hne =>
      cases hc
      rw [String.toList_ofList]
      refine ⟨?_, fun x hx => ⟨?_, inside_quotes x hx⟩⟩
      · intro hempty
        exact hne (String.ofList_injective hempty)
      · exact List.mem_append_right _ (.tail _ (List.mem_append_left _ hx))
  | plain unpaired => cases hc

end Written

/-! ## Groups -/

/-- Whatever the roller, rolling the group does not fail, and at least one of its dice counts
unless the roller runs out of answers. -/
def Dice.LeavesDie (d : Dice) : Prop :=
  ∀ (σ : Type) (roller : Roller σ) (s : σ), (roller.run d.roll s).ending = .exhausted ∨
    ∃ r, (roller.run d.roll s).ending = .value r ∧ r.kept ≠ []

theorem Dice.Valid.leavesDie {d : Dice} (h : d.Valid) : d.LeavesDie := by
  intro σ roller s
  have hsides : 1 ≤ d.sides := Nat.le_trans (by decide) h.sides.1
  cases hending : (roller.run d.roll s).ending with
  | value r => exact .inr ⟨r, rfl, kept_ne_nil_of_path h (path_of_value hending)⟩
  | failed e =>
    obtain ⟨r, hr, -⟩ := Dice.ensures_roll hsides _ _ (path_of_run (x := .error e) hending)
    cases hr
  | exhausted => exact .inl rfl

/-! ## Whole rolls -/

namespace Roll

open Written

/-- A roll that can be used as it is. Its expressions are valid, it has not too many groups of dice,
it compares results with a target number only if there is one, and its comment, if it has one, is
neither empty nor broken by blanks or quotes. -/
structure Sound (r : Roll) : Prop where
  exprs : ∀ e ∈ r.exprs, e.Valid
  groups : r.diceGroups ≤ maxDiceGroups
  target : ∀ t ∈ r.target, 0 ≤ t
  targetHighest : ∀ n ∈ r.targetHighest, 1 ≤ n ∧ r.target.isSome
  comment : ∀ c ∈ r.comment, c ≠ "" ∧ ∀ x ∈ c.toList, Text.isBlank x = false ∧ x ≠ '"'

/-- Every group of a roll with valid expressions has a die that counts. -/
theorem kept_ne_nil_of_run {σ : Type} {r : Roll} {result : RollResult} {roller : Roller σ} {s : σ}
    (hr : ∀ e ∈ r.exprs, e.Valid) (h : (roller.run r.roll s).ending = .value result)
    {x : ExprResult} (hx : x ∈ result.exprs) {g : RolledDice} (hg : g ∈ x.rolled.groups) :
    g.kept ≠ [] := by
  obtain ⟨e, he, us, hexpr⟩ := exists_expr_of_mem_exprs (path_of_value h) hx
  obtain ⟨p, hp, d, vs, hd, hdice⟩ := exists_dice_of_mem_groups hexpr hg
  have hvalid := (hr e he).terms p hp
  rw [hd] at hvalid
  exact kept_ne_nil_of_path hvalid hdice

/-- What is read is sound, and the groups in it have a die that counts whenever they are rolled:
each of them by itself, and all of them in the result of the roll. -/
theorem sound_ofText (text : String) :
    (ofText text).Sound ∧
    (∀ e ∈ (ofText text).exprs, ∀ p ∈ e.terms, ∀ d, p.2 = .dice d → d.LeavesDie) ∧
    ∀ (σ : Type) (roller : Roller σ) (s : σ) (result : RollResult),
      (roller.run (ofText text).roll s).ending = .value result →
        ∀ x ∈ result.exprs, ∀ g ∈ x.rolled.groups, g.kept ≠ [] := by
  have hvalid : ∀ e ∈ (ofText text).exprs, e.Valid := fun e => valid_of_mem_ofText
  have hgroups : (ofText text).diceGroups ≤ maxDiceGroups := totalGroups_ofText_le text
  refine ⟨?_, ?_, ?_⟩
  · rcases ofText_cases text with hlong | ⟨rest, body, n, comment, -, hcommented, hread⟩
    · -- nothing is read of a text that is too long
      rw [hlong]
      exact ⟨nofun, Nat.zero_le _, nofun, nofun, nofun⟩
    · rw [hread] at hvalid hgroups ⊢
      refine ⟨hvalid, hgroups, fun t => nonneg_of_readTarget, fun n => fits_of_readTargetHighest,
        fun c hc => ?_⟩
      obtain ⟨hne, hmem⟩ := hcommented.mem_of_mem hc
      exact ⟨hne, fun x hx => ⟨Text.isBlank_of_mem_normal (hmem x hx).1, (hmem x hx).2⟩⟩
  · intro e he p hp d hd
    have hterm := (hvalid e he).terms p hp
    rw [hd] at hterm
    exact Dice.Valid.leavesDie hterm
  · intro σ roller s result hresult x hx g hg
    exact kept_ne_nil_of_run hvalid hresult hx hg

/-- Drops that together leave no die, a threshold beyond the sides and a second count for what is
kept: without these faults the groups of the text are sound, and dice of each count. -/
theorem sound_ofText_of_conflicts :
    (ofText "4d6dh3dl2!>9 + 3d8kl5kh2dh t5 th2 \"a b\" x2").exprs =
      List.replicate 2 ⟨[(.plus, .dice ⟨4, 6, none, []⟩),
        (.plus, .dice ⟨3, 8, none, [⟨.keepHigh, 2⟩]⟩)]⟩ ∧
    (ofText "4d6dh3dl2!>9 + 3d8kl5kh2dh t5 th2 \"a b\" x2").Sound ∧
    Dice.LeavesDie ⟨3, 8, none, [⟨.keepHigh, 2⟩]⟩ ∧
    ∃ result, (Source.run (.constant 1)
        (ofText "4d6dh3dl2!>9 + 3d8kl5kh2dh t5 th2 \"a b\" x2").roll).ending = .value result ∧
      ∀ x ∈ result.exprs, ∀ g ∈ x.rolled.groups, g.kept ≠ [] := by
  have hread : (ofText "4d6dh3dl2!>9 + 3d8kl5kh2dh t5 th2 \"a b\" x2").exprs =
      List.replicate 2 ⟨[(.plus, .dice ⟨4, 6, none, []⟩),
        (.plus, .dice ⟨3, 8, none, [⟨.keepHigh, 2⟩]⟩)]⟩ := by cbv
  have hroll : ∃ result, (Source.run (.constant 1)
      (ofText "4d6dh3dl2!>9 + 3d8kl5kh2dh t5 th2 \"a b\" x2").roll).ending = .value result :=
    ⟨_, by cbv⟩
  obtain ⟨hsound, hgroups, hresult⟩ :=
    sound_ofText "4d6dh3dl2!>9 + 3d8kl5kh2dh t5 th2 \"a b\" x2"
  obtain ⟨result, hending⟩ := hroll
  refine ⟨hread, hsound, ?_, result, hending, hresult _ _ _ result hending⟩
  rw [hread] at hgroups
  exact hgroups _ (.head _) _ (.tail _ (.head _)) _ rfl

end Roll

end TabletopDice
