import Mathlib.Data.List.Forall2
import TabletopDice.Proofs.ExplodedDice
import TabletopDice.Proofs.OutcomeMargins
import TabletopDice.Proofs.SoundRoll

/-!
# Critical failures

Dice are a critical failure when at least two of them count and all that do show a one, and it does
not matter which groups they belong to. A die that exploded shows more than a one, since no face
that is drawn from text explodes below two. Main statements: the ones may be counted die by die
until one shows something else (`isCriticalFailure_eq_foldlM`), and the dice that count decide alone
(`isCriticalFailure_kept`).
-/

namespace TabletopDice

open Rolling

/-! ## Dice that count -/

/-- The dice of some groups that count, in order. -/
def keptDice (groups : List RolledDice) : List Die :=
  groups.flatMap RolledDice.kept

/-- The same die as far as it counts: the values of a dropped die may differ. -/
structure Die.SameKept (d d' : Die) : Prop where
  isKept : d'.isKept = d.isKept
  value : d.isKept → d'.value = d.value

section Groups

variable {groups groups' added whole : List RolledDice} {parts : List (List RolledDice)}

theorem keptDice_eq_filter (groups : List RolledDice) :
    keptDice groups = (groups.flatMap RolledDice.rolls).filter Die.isKept := by
  rw [List.filter_flatMap]
  rfl

theorem keptDice_append (groups groups' : List RolledDice) :
    keptDice (groups ++ groups') = keptDice groups ++ keptDice groups' :=
  List.flatMap_append

theorem keptDice_flatten (parts : List (List RolledDice)) :
    keptDice parts.flatten = parts.flatMap keptDice := by
  induction parts with
  | nil => rfl
  | cons p parts ih => rw [List.flatten_cons, keptDice_append, ih, List.flatMap_cons]

/-- Dropped dice may differ in value, since they are not looked at. -/
theorem map_value_filter_isKept {ds ds' : List Die} (h : List.Forall₂ Die.SameKept ds ds') :
    (ds'.filter Die.isKept).map Die.value = (ds.filter Die.isKept).map Die.value := by
  induction h with
  | nil => rfl
  | @cons d d' ds ds' hd _ ih =>
    rw [List.filter_cons, List.filter_cons, hd.isKept]
    split
    · next hkept => rw [List.map_cons, List.map_cons, ih, hd.value hkept]
    · exact ih

theorem map_value_keptDice
    (h : List.Forall₂ (fun g g' => List.Forall₂ Die.SameKept g.rolls g'.rolls) groups groups') :
    (keptDice groups').map Die.value = (keptDice groups).map Die.value := by
  induction h with
  | nil => rfl
  | @cons g g' groups groups' hg _ ih =>
    have hkept : g'.kept.map Die.value = g.kept.map Die.value := map_value_filter_isKept hg
    unfold keptDice at ih ⊢
    rw [List.flatMap_cons, List.flatMap_cons, List.map_append, List.map_append, hkept, ih]

/-! ## Critical failures by values -/

/-- All dice that count show a one, and there are at least two of them. -/
theorem isCriticalFailure_iff :
    isCriticalFailure groups ↔
      2 ≤ (keptDice groups).length ∧ ∀ d ∈ keptDice groups, d.value = 1 := by
  show ((keptDice groups).all (fun d => d.value == 1) &&
    decide (2 ≤ (keptDice groups).length)) = true ↔ _
  rw [Bool.and_eq_true, List.all_eq_true, decide_eq_true_eq, and_comm]
  simp only [beq_iff_eq]

/-- The number of ones with one more die, unless the die shows something else. -/
def countOne (ones : Nat) (d : Die) : Option Nat :=
  if d.value = 1 then some (ones + 1) else none

/-- Ones are counted up to the first die that shows something else. -/
theorem foldlM_countOne (dice : List Die) (ones : Nat) :
    dice.foldlM countOne ones =
      if ∀ d ∈ dice, d.value = 1 then some (ones + dice.length) else none := by
  induction dice generalizing ones with
  | nil => rfl
  | cons d dice ih =>
    rw [List.foldlM_cons, countOne]
    by_cases hd : d.value = 1
    · rw [if_pos hd, Option.bind_eq_bind, Option.bind_some, ih]
      simp only [List.forall_mem_cons, hd, true_and, List.length_cons, Nat.add_assoc,
        Nat.add_comm 1]
    · rw [if_neg hd, if_neg fun hall => hd (hall d (.head _))]
      rfl

/-- A critical failure is found die by die: the ones are counted, and the first die that shows
something else ends the count without a result. -/
theorem isCriticalFailure_eq_foldlM (groups : List RolledDice) :
    isCriticalFailure groups = ((keptDice groups).foldlM countOne 0).any (2 ≤ ·) := by
  rw [foldlM_countOne, Nat.zero_add, Bool.eq_iff_iff, isCriticalFailure_iff]
  split
  · next hones => rw [Option.any_some, decide_eq_true_eq, and_iff_left hones]
  · next hones => simp [hones]

/-- A single die that counts and shows no one rules it out. -/
theorem isCriticalFailure_eq_false {d : Die} (hd : d ∈ keptDice groups) (hvalue : d.value ≠ 1) :
    isCriticalFailure groups = false := by
  rw [Bool.eq_false_iff, Ne, isCriticalFailure_iff]
  exact fun h => hvalue (h.2 d hd)

/-- Neither the order of the values that count nor their groups matter. -/
theorem isCriticalFailure_of_perm
    (h : ((keptDice groups).map Die.value).Perm ((keptDice groups').map Die.value)) :
    isCriticalFailure groups' = isCriticalFailure groups := by
  have hlength : (keptDice groups).length = (keptDice groups').length := by
    simpa using h.length_eq
  have hvalues : ∀ ds : List Die, (∀ d ∈ ds, d.value = 1) ↔ ∀ v ∈ ds.map Die.value, v = 1 :=
    fun ds => (List.forall_mem_map (P := fun v => v = 1)).symm
  have hones : (∀ d ∈ keptDice groups, d.value = 1) ↔ ∀ d ∈ keptDice groups', d.value = 1 := by
    rw [hvalues, hvalues]
    exact forall_congr' fun v => by rw [h.mem_iff]
  rw [Bool.eq_iff_iff, isCriticalFailure_iff, isCriticalFailure_iff, hlength, hones]

/-- Dice can change places within and between groups. -/
theorem isCriticalFailure_rearranged
    (h : (groups.flatMap RolledDice.rolls).Perm (groups'.flatMap RolledDice.rolls)) :
    isCriticalFailure groups' = isCriticalFailure groups := by
  apply isCriticalFailure_of_perm
  rw [keptDice_eq_filter, keptDice_eq_filter]
  exact (h.filter _).map _

/-- Groups without a die that counts can be added anywhere. -/
theorem isCriticalFailure_added (hadded : ∀ g ∈ added, g.kept = [])
    (hwhole : whole.Perm (groups ++ added)) :
    isCriticalFailure whole = isCriticalFailure groups := by
  have hnone : keptDice added = [] := List.flatMap_eq_nil_iff.2 hadded
  have hperm : (keptDice whole).Perm (keptDice (groups ++ added)) := hwhole.flatMap_right _
  rw [keptDice_append, hnone, List.append_nil] at hperm
  exact isCriticalFailure_of_perm (hperm.symm.map _)

/-- Parts that could be critical failures by themselves are one together if each of them is, and if
there are any. -/
theorem isCriticalFailure_flatten (h : ∀ p ∈ parts, 2 ≤ (keptDice p).length) :
    isCriticalFailure parts.flatten ↔ parts ≠ [] ∧ ∀ p ∈ parts, isCriticalFailure p := by
  rw [isCriticalFailure_iff, keptDice_flatten]
  constructor
  · rintro ⟨hlength, hones⟩
    constructor
    · rintro rfl
      exact absurd hlength (by decide)
    · intro p hp
      exact isCriticalFailure_iff.2 ⟨h p hp, fun d hd => hones d (List.mem_flatMap.2 ⟨p, hp, hd⟩)⟩
  · rintro ⟨hne, hall⟩
    constructor
    · obtain ⟨p, hp⟩ := List.exists_mem_of_ne_nil parts hne
      rw [List.flatMap_def]
      exact Nat.le_trans (h p hp)
        (List.sublist_flatten_of_mem (List.mem_map_of_mem hp)).length_le
    · intro d hd
      obtain ⟨p, hp, hd⟩ := List.mem_flatMap.1 hd
      exact (isCriticalFailure_iff.1 (hall p hp)).2 d hd

end Groups

/-! ## Exploded dice -/

/-- From text no face below two explodes. -/
theorem Dice.Valid.two_le_threshold {d : Dice} (h : d.Valid) : 2 ≤ d.threshold := by
  have hsides : 2 ≤ d.sides := h.sides.1
  unfold Dice.threshold Dice.explosionThreshold
  cases hexplosion : d.explosion with
  | none => exact hsides
  | some e =>
    cases hthreshold : e.threshold with
    | none => simpa [hthreshold] using hsides
    | some t =>
      have ht : 2 ≤ t := (h.threshold e hexplosion t hthreshold).1
      simpa [hthreshold] using ht

/-- The first face of an exploded die reached the threshold, and so does its value unless that is
the greatest one. -/
theorem Die.two_le_value {d : Die} {threshold most : Nat} (hsums : d.Sums)
    (hcomplete : Complete threshold most d.draws) (hthreshold : 2 ≤ threshold)
    (hexploded : d.isExploded) : 2 ≤ d.value := by
  have hlength : 1 < d.draws.length := of_decide_eq_true hexploded
  obtain ⟨v, w, more, hdraws⟩ : ∃ v w more, d.draws = v :: w :: more := by
    match d.draws, hlength with
    | v :: w :: more, _ => exact ⟨v, w, more, rfl⟩
  have hfirst : threshold ≤ v := hcomplete.reaches v (by rw [hdraws]; exact .head _)
  have hsum : v ≤ d.draws.sum := by
    rw [hdraws, List.sum_cons]
    omega
  rw [hsums]
  show 2 ≤ min 65535 _
  omega

/-- In a group of text that is rolled no exploded die shows a one. -/
theorem two_le_value_of_path {d : Dice} {g : RolledDice} {vs : List Nat} (hd : d.Valid)
    (h : Path d.roll vs (.ok g)) {die : Die} (hdie : die ∈ g.rolls) (hexploded : die.isExploded) :
    2 ≤ die.value := by
  have hsides : 1 ≤ d.sides := Nat.le_trans (by decide) hd.sides.1
  obtain ⟨cuts, hcuts, -, happly⟩ := (path_roll_iff hsides).1 h
  obtain ⟨hcomplete, hsums, -⟩ := (RolledDice.of_cuts hcuts happly.symm).2 die hdie
  exact Die.two_le_value hsums hcomplete hd.two_le_threshold hexploded

namespace Roll

/-- Ranked results have the dice of the results before, and their outcomes or none. -/
theorem exists_of_mem_rank {r : Roll} {results : List ExprResult} {x : ExprResult}
    (hx : x ∈ r.rank results) : ∃ y ∈ results, x.rolled = y.rolled ∧
      (x.outcome = y.outcome ∨ x.outcome = .notApplicable) := by
  unfold rank at hx
  split at hx
  · obtain ⟨i, hi, hget⟩ := List.mem_mapIdx.1 hx
    refine ⟨results[i], List.getElem_mem hi, ?_⟩
    rw [← hget]
    split
    · exact ⟨rfl, .inr rfl⟩
    · exact ⟨rfl, .inl rfl⟩
  · exact ⟨x, hx, rfl, .inl rfl⟩

/-- Only dice that are a critical failure give an expression this outcome. -/
theorem outcome_ne_criticalFailure {r : Roll} {result : RollResult} {vs : List Nat}
    (h : Path r.roll vs (.ok result)) {x : ExprResult} (hx : x ∈ result.exprs)
    (hgroups : isCriticalFailure x.rolled.groups = false) : x.outcome ≠ .criticalFailure := by
  obtain ⟨results, hresults, rfl⟩ := parts_of_path h
  obtain ⟨y, hy, hrolled, houtcome | houtcome⟩ := exists_of_mem_rank hx
  · rw [houtcome, (judged_of_path hresults y hy).outcome, Ne,
      Outcome.classify_eq_criticalFailure_iff, ← hrolled, hgroups]
    exact Bool.false_ne_true
  · rw [houtcome]
    nofun

/-- An exploded die in the result of a roll with valid expressions shows more than a one. -/
theorem two_le_value_of_run {σ : Type} {r : Roll} {result : RollResult} {roller : Roller σ} {s : σ}
    (hr : ∀ e ∈ r.exprs, e.Valid) (h : (roller.run r.roll s).ending = .value result)
    {x : ExprResult} (hx : x ∈ result.exprs) {g : RolledDice} (hg : g ∈ x.rolled.groups) {d : Die}
    (hd : d ∈ g.rolls) (hexploded : d.isExploded) : 2 ≤ d.value := by
  obtain ⟨e, he, us, hexpr⟩ := exists_expr_of_mem_exprs (path_of_value h) hx
  obtain ⟨p, hp, dice, vs, hdice, hgroup⟩ := exists_dice_of_mem_groups hexpr hg
  have hvalid := (hr e he).terms p hp
  rw [hdice] at hvalid
  exact two_le_value_of_path hvalid hgroup hd hexploded

end Roll

/-- Some groups of dice are a critical failure if at least two of their dice count and all that do
show a one. So only the values that count matter: dice can change places within and between groups,
groups without a die that counts can be added, and dropped dice can have any values. Groups that are
split into parts with at least two such dice each are a critical failure if there is a part and each
of them is one. In the result of a roll that was read from text, whatever the roller answered, a die
that counts and exploded rules it out for the whole roll and for its expression. -/
theorem isCriticalFailure_kept :
    (∀ groups : List RolledDice,
      (isCriticalFailure groups ↔
        2 ≤ (keptDice groups).length ∧ ∀ d ∈ keptDice groups, d.value = 1) ∧
      (∀ groups', ((keptDice groups).map Die.value).Perm ((keptDice groups').map Die.value) →
        isCriticalFailure groups' = isCriticalFailure groups) ∧
      (∀ groups' : List RolledDice,
        (groups.flatMap RolledDice.rolls).Perm (groups'.flatMap RolledDice.rolls) →
          isCriticalFailure groups' = isCriticalFailure groups) ∧
      (∀ added whole : List RolledDice, (∀ g ∈ added, g.kept = []) →
        whole.Perm (groups ++ added) → isCriticalFailure whole = isCriticalFailure groups) ∧
      (∀ groups', List.Forall₂ (fun g g' => List.Forall₂ Die.SameKept g.rolls g'.rolls)
        groups groups' → isCriticalFailure groups' = isCriticalFailure groups) ∧
      ∀ parts : List (List RolledDice), parts.flatten.Perm groups →
        (∀ p ∈ parts, 2 ≤ (keptDice p).length) →
          (isCriticalFailure groups ↔ parts ≠ [] ∧ ∀ p ∈ parts, isCriticalFailure p)) ∧
    ∀ (text : String) (σ : Type) (roller : Roller σ) (s : σ) (result : RollResult),
      (roller.run (Roll.ofText text).roll s).ending = .value result →
        ∀ x ∈ result.exprs, ∀ g ∈ x.rolled.groups, ∀ d ∈ g.kept, d.isExploded →
          result.criticalFailure = false ∧ x.outcome ≠ .criticalFailure := by
  constructor
  · intro groups
    refine ⟨isCriticalFailure_iff, fun groups' => isCriticalFailure_of_perm,
      fun groups' => isCriticalFailure_rearranged, fun added whole => isCriticalFailure_added,
      fun groups' h => isCriticalFailure_of_perm (by rw [map_value_keptDice h]), ?_⟩
    intro parts hparts htwo
    have hperm : (keptDice parts.flatten).Perm (keptDice groups) := hparts.flatMap_right _
    rw [isCriticalFailure_of_perm (hperm.map _)]
    exact isCriticalFailure_flatten htwo
  · intro text σ roller s result hending x hx g hg d hd hexploded
    have htwo : 2 ≤ d.value := Roll.two_le_value_of_run (fun e => Roll.valid_of_mem_ofText)
      hending hx hg (List.mem_of_mem_filter hd) hexploded
    have hgroups : d ∈ keptDice x.rolled.groups := List.mem_flatMap.2 ⟨g, hg, hd⟩
    have hall : d ∈ keptDice (result.exprs.flatMap fun e => e.rolled.groups) :=
      List.mem_flatMap.2 ⟨g, List.mem_flatMap.2 ⟨x, hx, hg⟩, hd⟩
    have hvalue : d.value ≠ 1 := by omega
    exact ⟨isCriticalFailure_eq_false hall hvalue, Roll.outcome_ne_criticalFailure
      (path_of_value hending) hx (isCriticalFailure_eq_false hgroups hvalue)⟩

/-- Two single dice and a pair that show ones, with a dropped die among them, and a die that
explodes on a two, whereupon the roller answers with a zero. -/
theorem isCriticalFailure_kept_of_ones :
    let one : RolledDice := ⟨⟨1, 6, none, []⟩, [.single 1]⟩
    let pair : RolledDice := ⟨⟨2, 6, none, []⟩, [.single 1, .single 1]⟩
    let dropped : Nat → RolledDice := fun v =>
      ⟨⟨1, 6, none, [⟨.dropLow, 1⟩]⟩, [⟨v, [v], some ⟨.dropLow, 1⟩⟩]⟩
    isCriticalFailure [one, dropped 5, pair, one] ∧ isCriticalFailure [one, dropped 1, pair, one] ∧
      isCriticalFailure [pair, pair] ∧
      ∃ x, (Source.run (.script [2, 0, 1, 1, 1]) (Roll.ofText "3d4!>2dl + 1d6 t1").roll).ending =
        .value ⟨none, [x]⟩ ∧ RollResult.criticalFailure ⟨none, [x]⟩ = false ∧
          x.modifiedTotal = 4 ∧ x.outcome ≠ .criticalFailure := by
  intro one pair dropped
  obtain ⟨-, -, hrearranged, hadded, -, hparts⟩ := isCriticalFailure_kept.1 [one, one, pair]
  obtain ⟨-, -, -, -, hdropped, -⟩ := isCriticalFailure_kept.1 [one, dropped 5, pair, one]
  have hones : isCriticalFailure [one, one, pair] :=
    (hparts [[pair], [one, one]] (by decide) (by decide)).2 ⟨nofun, by decide⟩
  have hwhole : isCriticalFailure [one, dropped 5, pair, one] := by
    rw [hadded [dropped 5] _ (by decide) (by decide), hones]
  have hvalue : isCriticalFailure [one, dropped 1, pair, one] := by
    have hsame : ∀ g : RolledDice, List.Forall₂ Die.SameKept g.rolls g.rolls :=
      fun g => List.forall₂_same.2 fun d _ => ⟨rfl, fun _ => rfl⟩
    rw [hdropped _ (.cons (hsame one) (.cons (.cons ⟨rfl, nofun⟩ .nil)
      (.cons (hsame pair) (.cons (hsame one) .nil)))), hwhole]
  have hpairs : isCriticalFailure [pair, pair] := by
    rw [hrearranged [pair, pair] (by decide), hones]
  refine ⟨hwhole, hvalue, hpairs, ?_⟩
  -- the die that exploded, one die dropped and one die kept, and the other group
  let group : RolledDice := ⟨⟨3, 4, some ⟨some 2, false⟩, [⟨.dropLow, 1⟩]⟩,
    [⟨2, [2, 0], none⟩, ⟨1, [1], some ⟨.dropLow, 1⟩⟩, ⟨1, [1], none⟩]⟩
  let x : ExprResult := ⟨⟨[(.plus, .dice group), (.plus, .dice one)]⟩, 4, 4, .success⟩
  have hending : (Source.run (.script [2, 0, 1, 1, 1])
      (Roll.ofText "3d4!>2dl + 1d6 t1").roll).ending = .value ⟨none, [x]⟩ := by cbv
  obtain ⟨hroll, hexpr⟩ := isCriticalFailure_kept.2 _ _ _ _ _ hending x (.head _) group (.head _)
    ⟨2, [2, 0], none⟩ (.head _) rfl
  exact ⟨x, hending, hroll, rfl, hexpr⟩

end TabletopDice
