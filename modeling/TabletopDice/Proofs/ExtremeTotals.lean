import Mathlib
import TabletopDice.Proofs.RolledGroups
import TabletopDice.Proofs.SortedFaces
import TabletopDice.Proofs.SoundTrait

/-!
# The highest and the lowest total

A die whose faces lie in the range that is asked for is worth at most as much as one that always
shows its highest face, and a die that can be read at least as much as one that always shows a one.
Selections leave the same number of dice in each case. Main statement: so the totals lie between
those of dice that always show a one and of dice that always show their highest face
(`roll_between_extremes`).
-/

namespace TabletopDice

open Rolling

/-! ## Faces of a whole die -/

section Faces

variable {threshold most v sides : Nat} {faces : List Nat}

/-- The number of faces of a die that always shows the same one. It explodes as often as it can, or
never. -/
def timesShown (threshold most v : Nat) : Nat :=
  if threshold ≤ v then most else 1

/-- Faces that all stay below the threshold are not followed by others. -/
theorem Complete.length_eq_one (h : Complete threshold most faces)
    (hlow : ∀ w ∈ faces, w < threshold) : faces.length = 1 := by
  obtain ⟨before, last, rfl⟩ := (List.eq_nil_or_concat' faces).resolve_left h.ne_nil
  cases before with
  | nil => rfl
  | cons w before =>
    have hw := h.reaches w (by rw [List.dropLast_concat]; exact .head _)
    have hlt := hlow w (.head _)
    omega

/-- A die that always shows the same face. -/
theorem Complete.eq_replicate (h : Complete threshold most faces) (hv : ∀ w ∈ faces, w = v) :
    faces = List.replicate (timesShown threshold most v) v := by
  refine List.eq_replicate_iff.2 ⟨?_, hv⟩
  unfold timesShown
  split
  · next hle =>
    refine h.ends.resolve_left fun hlow => ?_
    have hmem := List.getLast_mem h.ne_nil
    have hlt := hlow _ (List.getLast?_eq_some_getLast h.ne_nil)
    rw [hv _ hmem] at hlt
    omega
  · next hlt => exact h.length_eq_one fun w hw => by rw [hv w hw]; omega

/-- Faces within the range are not more than those of a die that always shows the highest one. -/
theorem Complete.length_le_timesShown (h : Complete threshold most faces)
    (hrange : ∀ w ∈ faces, w ≤ sides) : faces.length ≤ timesShown threshold most sides := by
  unfold timesShown
  split
  · exact h.length_le
  · next hlt =>
    refine Nat.le_of_eq (h.length_eq_one fun w hw => ?_)
    have hle := hrange w hw
    omega

/-- A die is worth at most as many highest faces as it can show. -/
theorem Complete.sum_le (h : Complete threshold most faces) (hrange : ∀ w ∈ faces, w ≤ sides) :
    faces.sum ≤ timesShown threshold most sides * sides :=
  (List.sum_le_card_nsmul faces sides hrange).trans
    (Nat.mul_le_mul_right _ (h.length_le_timesShown hrange))

/-- A die is worth one at least. -/
theorem Complete.one_le_sum (h : Complete threshold most faces) (hrange : ∀ w ∈ faces, 1 ≤ w) :
    1 ≤ faces.sum := by
  obtain ⟨v, more, rfl⟩ := List.exists_cons_of_ne_nil h.ne_nil
  have hv := hrange v (.head _)
  rw [List.sum_cons]
  omega

end Faces

/-! ## The range of a face -/

theorem asks_explodeFrom (threshold sides room latest : Nat) (d : Die) :
    (d.explodeFrom threshold sides room latest).Asks 1 sides := by
  induction room generalizing latest d with
  | zero => trivial
  | succ room ih =>
    unfold Die.explodeFrom
    split
    · trivial
    · exact (asks_int 1 sides).bind fun v => ih v (d.push v)

namespace Dice

variable {d : Dice} {vs : List Nat} {r : RolledDice}

/-- All faces of a die are asked for within its sides. -/
theorem asks_rollDie (d : Dice) : d.rollDie.Asks 1 d.sides := by
  rw [rollDie_eq]
  exact (asks_int 1 d.sides).bind fun v => asks_explodeFrom _ _ _ _ _

/-- Whatever its explosion is, a group asks for nothing but faces. -/
theorem asks_roll (d : Dice) : d.roll.Asks 1 d.sides := by
  unfold roll
  refine (asks_mapM fun x hx => ?_).bind fun rolls => asks_ofExcept _ _ _
  rw [(List.mem_replicate.1 hx).2]
  exact asks_rollDie d

/-! ## Dice within the range -/

/-- The number of faces of a die of the group that always shows the same one. -/
def timesShown (d : Dice) (v : Nat) : Nat :=
  TabletopDice.timesShown d.threshold d.maxDraws v

/-- What holds of the faces of a group holds of those of each die. -/
theorem forall_draws_of_path {P : Nat → Prop} (h : Path d.roll vs (.ok r)) (hvs : ∀ v ∈ vs, P v) :
    ∀ die ∈ r.rolls, ∀ v ∈ die.draws, P v := by
  intro die hdie v hv
  refine hvs v ?_
  rw [← draws_of_path_dice h]
  exact List.mem_flatMap.2 ⟨die, hdie, hv⟩

/-- Every die that is rolled is complete, and its value is the sum of its faces. -/
theorem complete_of_path (hsides : 1 ≤ d.sides) (h : Path d.roll vs (.ok r)) :
    ∀ die ∈ r.rolls, Complete d.threshold d.maxDraws die.draws ∧ die.Sums := by
  obtain ⟨cuts, hcuts, -, happly⟩ := (path_roll_iff hsides).1 h
  intro die hdie
  obtain ⟨hcomplete, hsums, -⟩ := (RolledDice.of_cuts hcuts happly.symm).2 die hdie
  exact ⟨hcomplete, hsums⟩

/-- Every die of a group that always shows the same face. -/
theorem draws_of_path_constant (hsides : 1 ≤ d.sides) {v : Nat} (h : Path d.roll vs (.ok r))
    (hvs : ∀ w ∈ vs, w = v) :
    ∀ die ∈ r.rolls, die.draws = List.replicate (d.timesShown v) v ∧
      die.value = min maxDieValue (d.timesShown v * v) := by
  intro die hdie
  obtain ⟨hcomplete, hsums⟩ := complete_of_path hsides h die hdie
  have hdraws := hcomplete.eq_replicate (forall_draws_of_path h hvs die hdie)
  refine ⟨hdraws, ?_⟩
  rw [hsums, hdraws, List.sum_replicate_nat]
  rfl

/-- A group with faces in the range has no higher sum than one that always shows the highest face,
whichever dice are selected. -/
theorem keptSum_le_of_path {top : RolledDice} {us : List Nat} (hsides : 1 ≤ d.sides)
    (h : Path d.roll vs (.ok r)) (hvs : ∀ v ∈ vs, v ≤ d.sides) (htop : Path d.roll us (.ok top))
    (hus : ∀ v ∈ us, v = d.sides) : r.keptSum ≤ top.keptSum := by
  obtain ⟨cuts, ⟨hlength, hcuts⟩, rfl, happly⟩ := (path_roll_iff hsides).1 h
  obtain ⟨cuts', ⟨hlength', hcuts'⟩, rfl, happly'⟩ := (path_roll_iff hsides).1 htop
  refine RolledDice.keptSum_le_of_sortedValues ?_ happly.symm happly'.symm
  rw [RolledDice.sortedValues_ofDraws, RolledDice.sortedValues_ofDraws]
  refine forall₂_mergeSort ?_
  rw [List.forall₂_map_left_iff, List.forall₂_map_right_iff, List.forall₂_iff_get]
  refine ⟨by rw [hlength, hlength'], fun i hi hi' => min_le_min_left _ ?_⟩
  have hmem := List.get_mem cuts ⟨i, hi⟩
  have hmem' := List.get_mem cuts' ⟨i, hi'⟩
  have hconstant := (hcuts' _ hmem').eq_replicate fun v hv =>
    hus v (List.mem_flatten.2 ⟨_, hmem', hv⟩)
  rw [hconstant, List.sum_replicate_nat]
  exact (hcuts _ hmem).sum_le fun v hv => hvs v (List.mem_flatten.2 ⟨_, hmem, hv⟩)

end Dice

/-! ## Sums of equal dice -/

namespace RolledDice

variable {r : RolledDice}

/-- Where all dice have one value, their sum is their number times this value. -/
theorem keptSum_of_forall_value {c : Nat} (h : ∀ die ∈ r.rolls, die.value = c) :
    r.keptSum = r.kept.length * c := by
  have hvalues : r.kept.map Die.value = List.replicate r.kept.length c := by
    refine List.eq_replicate_iff.2 ⟨List.length_map _, fun v hv => ?_⟩
    obtain ⟨die, hdie, rfl⟩ := List.mem_map.1 hv
    exact h die (List.mem_of_mem_filter hdie)
  rw [keptSum_eq_sum, hvalues, List.sum_replicate_nat]

/-- Dice that are worth one at least add up to their number at least. -/
theorem length_kept_le_keptSum (h : ∀ die ∈ r.rolls, 1 ≤ die.value) :
    r.kept.length ≤ r.keptSum := by
  have hlength : (r.kept.map Die.value).length = r.kept.length := List.length_map _
  rw [keptSum_eq_sum, ← hlength]
  refine List.length_le_sum_of_one_le _ fun v hv => ?_
  obtain ⟨die, hdie, rfl⟩ := List.mem_map.1 hv
  exact h die (List.mem_of_mem_filter hdie)

end RolledDice

/-! ## Groups that can be read -/

namespace Dice

variable {d : Dice}

/-- A group that a text can stand for: one of the groups of a roll, or a die of a trait roll. -/
def Readable (d : Dice) : Prop :=
  (∃ text, ∃ e ∈ (Roll.ofText text).exprs, ∃ p ∈ e.terms, p.2 = .dice d) ∨
    ∃ text, (TraitRoll.ofText text).traitDie = d ∨ (TraitRoll.ofText text).wildDie = d

theorem valid_exploding {sides : Nat} (h : sides ∈ traitSides) : (exploding sides).Valid where
  count := ⟨Nat.le_refl 1, by show 1 ≤ maxCount; decide⟩
  sides := by
    have hall : ∀ n ∈ traitSides, minSides ≤ n ∧ n ≤ maxSides := by decide
    exact hall sides h
  threshold := by
    rintro e ⟨⟩ t ⟨⟩
  selections := .none

theorem Readable.valid (h : d.Readable) : d.Valid := by
  rcases h with ⟨text, e, he, p, hp, hd⟩ | ⟨text, rfl | rfl⟩
  · have hterm := (Roll.valid_of_mem_ofText he).terms p hp
    rwa [hd] at hterm
  · obtain ⟨sides, hsides, htrait⟩ := (TraitRoll.sound_ofText_trait text).trait
    rw [htrait]
    exact valid_exploding hsides
  · obtain ⟨sides, hsides, hwild⟩ := (TraitRoll.sound_ofText_trait text).wild
    rw [hwild]
    exact valid_exploding hsides

/-- A face explodes only from two on, and the highest face does if any does. -/
theorem Valid.threshold_bounds (h : d.Valid) : 2 ≤ d.threshold ∧ d.threshold ≤ d.sides := by
  have hsides := h.sides.1
  unfold Dice.threshold explosionThreshold
  unfold minSides at hsides
  cases he : d.explosion with
  | none => exact ⟨hsides, Nat.le_refl _⟩
  | some e =>
    show 2 ≤ e.threshold.getD d.sides ∧ e.threshold.getD d.sides ≤ d.sides
    cases ht : e.threshold with
    | none => exact ⟨hsides, Nat.le_refl _⟩
    | some t =>
      have hbounds := h.threshold e he t ht
      unfold minSides at hbounds
      exact ⟨hbounds.1, Nat.le_of_lt hbounds.2⟩

/-- A die that always shows its highest face explodes as often as it can. -/
theorem Valid.timesShown_sides (h : d.Valid) : d.timesShown d.sides = d.maxDraws :=
  if_pos h.threshold_bounds.2

/-- A die that always shows a one does not explode. -/
theorem Valid.timesShown_one (h : d.Valid) : d.timesShown 1 = 1 :=
  if_neg (Nat.not_le.2 h.threshold_bounds.1)

/-- The most that a die can show is far below the greatest value. -/
theorem Valid.maxDraws_mul_sides_le (h : d.Valid) : d.maxDraws * d.sides ≤ maxDieValue :=
  (Nat.mul_le_mul d.maxDraws_le h.sides.2).trans (by decide)

theorem Valid.count_mul_le (h : d.Valid) : d.count * maxDieValue ≤ maxGroupTotal :=
  (Nat.mul_le_mul_right _ h.count.2).trans (by decide)

section Totals

variable {vs : List Nat} {r : RolledDice}

/-- As long as the faces are in the range, the value of a die is their exact sum. -/
theorem Valid.value_eq_sum (h : d.Valid) (hpath : Path d.roll vs (.ok r))
    (hvs : ∀ v ∈ vs, v ≤ d.sides) : ∀ die ∈ r.rolls, die.value = die.draws.sum := by
  intro die hdie
  have hsides : 1 ≤ d.sides := Nat.le_trans (by decide) h.sides.1
  obtain ⟨hcomplete, hsums⟩ := complete_of_path hsides hpath die hdie
  have hsum := hcomplete.sum_le (forall_draws_of_path hpath hvs die hdie)
  have hmax := h.maxDraws_mul_sides_le
  rw [← h.timesShown_sides] at hmax
  rw [hsums, Nat.min_eq_right (hsum.trans hmax)]

/-- The total of a valid group is its exact sum. -/
theorem Valid.total_eq (h : d.Valid) (hpath : Path d.roll vs (.ok r)) : r.total = .ok r.keptSum :=
  total_eq_of_path (Nat.le_trans (by decide) h.sides.1) h.count_mul_le hpath

/-- Each die that counts adds at least one. -/
theorem Valid.length_kept_le (h : d.Valid) (hpath : Path d.roll vs (.ok r))
    (hvs : ∀ v ∈ vs, 1 ≤ v ∧ v ≤ d.sides) : r.kept.length ≤ r.keptSum := by
  have hsides : 1 ≤ d.sides := Nat.le_trans (by decide) h.sides.1
  refine RolledDice.length_kept_le_keptSum fun die hdie => ?_
  rw [h.value_eq_sum hpath (fun v hv => (hvs v hv).2) die hdie]
  refine (complete_of_path hsides hpath die hdie).1.one_le_sum ?_
  exact forall_draws_of_path hpath (fun v hv => (hvs v hv).1) die hdie

/-- A one never explodes. -/
theorem Valid.total_of_ones (h : d.Valid) (hpath : Path d.roll vs (.ok r))
    (hvs : ∀ v ∈ vs, v = 1) : r.total = .ok r.kept.length := by
  have hsides : 1 ≤ d.sides := Nat.le_trans (by decide) h.sides.1
  rw [h.total_eq hpath, RolledDice.keptSum_of_forall_value (c := 1), Nat.mul_one]
  intro die hdie
  rw [(draws_of_path_constant hsides hpath hvs die hdie).2, h.timesShown_one]
  rfl

/-- The highest face explodes as often as the explosion allows. -/
theorem Valid.total_of_highest (h : d.Valid) (hpath : Path d.roll vs (.ok r))
    (hvs : ∀ v ∈ vs, v = d.sides) :
    r.total = .ok (r.kept.length * (d.maxDraws * d.sides)) := by
  have hsides : 1 ≤ d.sides := Nat.le_trans (by decide) h.sides.1
  rw [h.total_eq hpath, RolledDice.keptSum_of_forall_value (c := d.maxDraws * d.sides)]
  intro die hdie
  rw [(draws_of_path_constant hsides hpath hvs die hdie).2, h.timesShown_sides,
    Nat.min_eq_right h.maxDraws_mul_sides_le]

end Totals

end Dice

/-! ## The extremes -/

section Extremes

variable {σ : Type} {roller : Roller σ} {s : σ} {d : Dice}

/-- A group with sides is rolled to a value unless its roller has no answer. -/
theorem exists_value_of_answered (hsides : 1 ≤ d.sides)
    (h : (roller.run d.roll s).ending ≠ .exhausted) :
    ∃ r, (roller.run d.roll s).ending = .value r ∧
      Path d.roll (roller.run d.roll s).draws (.ok r) := by
  cases hending : (roller.run d.roll s).ending with
  | value r => exact ⟨r, rfl, path_of_value hending⟩
  | failed e =>
    obtain ⟨r, hr, -⟩ := Dice.ensures_roll hsides _ _ (path_of_run (x := .error e) hending)
    cases hr
  | exhausted => exact absurd hending h

/-- With a roller that always has the same answer a group is rolled of this face only. -/
theorem exists_value_of_constant (hsides : 1 ≤ d.sides) {v : Nat}
    (hs : roller.next s 1 d.sides = some (v, s)) :
    ∃ r us, (roller.run d.roll s).ending = .value r ∧ Path d.roll us (.ok r) ∧
      ∀ w ∈ us, w = v := by
  obtain ⟨x, hpath, hending, hall⟩ := exists_path_of_asks (Dice.asks_roll d) hs
  obtain ⟨r, rfl, -⟩ := Dice.ensures_roll hsides _ _ hpath
  exact ⟨r, _, hending, hpath, hall⟩

/-- A group asks for nothing but its faces. Rolled by any roller that answers within this range, its
total is at most that of the same group with nothing but highest faces, whatever its explosion and
its selections are. If the group can be read, it is at least that of the same group with nothing but
ones, and both are known: each of the dice that count, of which there are as many in each case, is a
one, or shows the highest face as often as it can be drawn. No value is cut off then. -/
theorem roll_between_extremes (hsides : 1 ≤ d.sides)
    (hanswered : (roller.run d.roll s).ending ≠ .exhausted)
    (hrange : ∀ v ∈ (roller.run d.roll s).draws, 1 ≤ v ∧ v ≤ d.sides) :
    d.roll.Asks 1 d.sides ∧
    ∃ r top, (roller.run d.roll s).ending = .value r ∧
      (Source.run .highest d.roll).ending = .value top ∧ r.TotalLe top ∧
      (d.count * maxDieValue ≤ maxGroupTotal → ∃ m n, r.total = .ok m ∧ top.total = .ok n) ∧
      (d.Readable → ∃ bottom total, (Source.run (.constant 1) d.roll).ending = .value bottom ∧
        bottom.kept.length = r.kept.length ∧ top.kept.length = r.kept.length ∧
        bottom.total = .ok r.kept.length ∧
        r.total = .ok total ∧ r.kept.length ≤ total ∧
        top.total = .ok (r.kept.length * (d.maxDraws * d.sides)) ∧
        ∀ g ∈ [bottom, r, top], ∀ die ∈ g.rolls, die.value = die.draws.sum) := by
  obtain ⟨r, hr, hpath⟩ := exists_value_of_answered hsides hanswered
  have htopmost : Source.roller.next .highest 1 d.sides = some (d.sides, .highest) := rfl
  obtain ⟨top, us, htop, htopPath, hus⟩ := exists_value_of_constant hsides htopmost
  have hhigh : ∀ v ∈ (roller.run d.roll s).draws, v ≤ d.sides := fun v hv => (hrange v hv).2
  have hle := Dice.keptSum_le_of_path hsides hpath hhigh htopPath hus
  refine ⟨Dice.asks_roll d, r, top, hr, htop, .of_keptSum hle, fun hcount => ⟨_, _,
    Dice.total_eq_of_path hsides hcount hpath, Dice.total_eq_of_path hsides hcount htopPath⟩, ?_⟩
  intro hreadable
  have hvalid := hreadable.valid
  have hone : Source.roller.next (.constant 1) 1 d.sides = some (1, .constant 1) := by
    show Source.next (.constant 1) 1 d.sides = _
    rw [Source.next, Nat.min_eq_left hsides, Nat.max_self]
  obtain ⟨bottom, ws, hbottom, hbottomPath, hws⟩ := exists_value_of_constant hsides hone
  have hlow : ∀ w ∈ ws, w ≤ d.sides := fun w hw => by rw [hws w hw]; exact hsides
  -- how many dice count depends on the group alone
  have hkept : ∀ {g vs}, Path d.roll vs (.ok g) → g.kept.length = r.kept.length :=
    fun h => (length_kept_of_path h).trans (length_kept_of_path hpath).symm
  have hones := hvalid.total_of_ones hbottomPath hws
  have hhighest := hvalid.total_of_highest htopPath hus
  rw [hkept hbottomPath] at hones
  rw [hkept htopPath] at hhighest
  refine ⟨bottom, r.keptSum, hbottom, hkept hbottomPath, hkept htopPath, hones,
    hvalid.total_eq hpath, hvalid.length_kept_le hpath hrange, hhighest, ?_⟩
  rw [List.forall_mem_cons, List.forall_mem_cons, List.forall_mem_singleton]
  exact ⟨hvalid.value_eq_sum hbottomPath hlow, hvalid.value_eq_sum hpath hhigh,
    hvalid.value_eq_sum htopPath fun w hw => Nat.le_of_eq (hus w hw)⟩

end Extremes

/-- Two of three dice that explode are kept, and a die built by hand explodes on every face: with a
value that is cut off it still has the highest total. -/
theorem roll_between_extremes_exploding :
    (∃ r top bottom total,
      (Source.run (.script [6, 3, 2, 5])
        (Dice.roll ⟨3, 6, some ⟨none, true⟩, [⟨.keepLow, 2⟩]⟩)).ending = .value r ∧
      (Source.run .highest
        (Dice.roll ⟨3, 6, some ⟨none, true⟩, [⟨.keepLow, 2⟩]⟩)).ending = .value top ∧
      (Source.run (.constant 1)
        (Dice.roll ⟨3, 6, some ⟨none, true⟩, [⟨.keepLow, 2⟩]⟩)).ending = .value bottom ∧
      bottom.total = .ok 2 ∧ r.total = .ok total ∧ 2 ≤ total ∧ top.total = .ok 120) ∧
    ∃ r top,
      (Source.run (.constant 9000) (Dice.roll ⟨1, 10000, some ⟨some 0, true⟩, []⟩)).ending =
        .value r ∧
      (Source.run .highest (Dice.roll ⟨1, 10000, some ⟨some 0, true⟩, []⟩)).ending = .value top ∧
      r.TotalLe top := by
  constructor
  · have hread : Dice.Readable ⟨3, 6, some ⟨none, true⟩, [⟨.keepLow, 2⟩]⟩ := by
      have htext : (Roll.ofText "3d6!!kl2").exprs =
          [⟨[(.plus, .dice ⟨3, 6, some ⟨none, true⟩, [⟨.keepLow, 2⟩]⟩)]⟩] := by cbv
      exact .inl ⟨"3d6!!kl2", _, by rw [htext]; exact .head _, _, .head _, rfl⟩
    have hending : (Source.run (.script [6, 3, 2, 5])
        (Dice.roll ⟨3, 6, some ⟨none, true⟩, [⟨.keepLow, 2⟩]⟩)).ending =
          .value ⟨⟨3, 6, some ⟨none, true⟩, [⟨.keepLow, 2⟩]⟩,
            [⟨9, [6, 3], some ⟨.keepLow, 2⟩⟩, ⟨2, [2], none⟩, ⟨5, [5], none⟩]⟩ := by cbv
    have hdraws : (Source.run (.script [6, 3, 2, 5])
        (Dice.roll ⟨3, 6, some ⟨none, true⟩, [⟨.keepLow, 2⟩]⟩)).draws = [6, 3, 2, 5] := by cbv
    have hanswered : (Source.roller.run (Dice.roll ⟨3, 6, some ⟨none, true⟩, [⟨.keepLow, 2⟩]⟩)
        (.script [6, 3, 2, 5])).ending ≠ .exhausted := by
      rw [← Source.run, hending]
      intro h
      cases h
    obtain ⟨-, r, top, hr, htop, -, -, hbounds⟩ := roll_between_extremes (by decide) hanswered
      (by rw [← Source.run, hdraws]; decide)
    obtain ⟨bottom, total, hbottom, -, -, hones, htotal, hle, hhighest, -⟩ := hbounds hread
    have hkept : r.kept.length = 2 := length_kept_of_path (path_of_value hr)
    rw [hkept] at hones hle hhighest
    exact ⟨r, top, bottom, total, hr, htop, hbottom, hones, htotal, hle, hhighest⟩
  · have hanswered : (Source.roller.run (Dice.roll ⟨1, 10000, some ⟨some 0, true⟩, []⟩)
        (.constant 9000)).ending ≠ .exhausted := by decide
    obtain ⟨-, r, top, hr, htop, hle, -⟩ := roll_between_extremes (by decide) hanswered (by decide)
    exact ⟨r, top, hr, htop, hle⟩

end TabletopDice
