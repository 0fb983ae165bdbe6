import TabletopDice.Proofs.SoundRoll
import TabletopDice.Proofs.TraitGrammar
import TabletopDice.Proofs.TraitPair

/-!
# Trait rolls of text are sound

Whatever a text is, and however its parts repeat or contradict each other, a trait roll that is read
from it has two dice with allowed sides, and a modifier that is a total. Main statement: such a roll
draws a few faces, and the only thing that can go wrong is a total beyond the greatest one
(`roll_ofText_sound`).
-/

namespace TabletopDice

open Rolling

namespace Written

/-! ## Dice -/

/-- Sides that were checked are allowed. -/
theorem mem_traitSides_of_check {die : TraitDie} {ds : List Char} {n : Nat}
    (h : (checkTraitSides die ds).value = some n) : n ∈ traitSides := by
  obtain ⟨m, hm⟩ := Noted.exists_of_value_number_chain h
  obtain ⟨hmem, rfl⟩ := Noted.of_value_ite hm
  exact hmem

/-- Sides of a wild die that are used are allowed. -/
theorem mem_traitSides_of_readWildSides {slots : Slots} {n : Nat}
    (h : (readWildSides slots).value = some n) : n ∈ traitSides := by
  unfold readWildSides at h
  split at h
  · exact mem_traitSides_of_check h
  · cases h

/-- The sides of a die that has none given are allowed. -/
theorem defaultSides_mem (die : TraitDie) : die.defaultSides ∈ traitSides := by
  cases die <;> decide

/-- A die with sides that were checked has allowed sides, and so has the one in place of it. -/
theorem exists_traitDice_eq (die : TraitDie) {sides : Option Nat}
    (h : ∀ n ∈ sides, n ∈ traitSides) : ∃ n ∈ traitSides, traitDice die sides = .exploding n := by
  cases sides with
  | none => exact ⟨_, defaultSides_mem die, rfl⟩
  | some n => exact ⟨n, h n rfl, rfl⟩

/-! ## Terms -/

/-- What was met so far can be used: the sides of the die are allowed, and the sum is a total. -/
structure TraitDraft.Sound (d : TraitDraft) : Prop where
  sides : ∀ n ∈ d.sides.join, n ∈ traitSides
  inline : ∀ n ∈ d.inline, IsTotal n

/-- A sign leads to a total or to nothing. -/
theorem isTotal_of_apply {s : Sign} {total n m : Int} (h : s.apply total n = some m) :
    IsTotal m := by
  obtain ⟨rfl, hrange⟩ := total?_eq_some_iff.1 h
  exact hrange

namespace TraitDraft

variable {d : TraitDraft}

/-- A number leads to a sum that is a total, or is left out. -/
theorem Sound.addNumber (h : d.Sound) (s : Sign) (ds : List Char) :
    (d.addNumber s ds).value.Sound := by
  rw [TraitDraft.addNumber, Noted.value_bind]
  split
  · exact h
  · split
    · next sum hsum =>
      refine ⟨h.sides, ?_⟩
      rintro n ⟨⟩
      exact isTotal_of_apply hsum
    · exact h

/-- Dice bring allowed sides, or none. -/
theorem Sound.addDice (h : d.Sound) (f : Fragment) (w : WrittenDice) :
    (d.addDice f w).value.Sound := by
  unfold TraitDraft.addDice
  split
  · exact h
  · exact ⟨fun n => mem_traitSides_of_check, h.inline⟩

/-- A fragment, whatever it is, leaves what was met in order. -/
theorem Sound.add (h : d.Sound) (f : Fragment) : (d.add f).value.Sound := by
  unfold TraitDraft.add
  split
  · exact h.addNumber _ _
  · exact h.addDice _ _
  · exact h

/-- Whatever the terms are, what was met of them can be used. -/
theorem Sound.foldlM_add (h : d.Sound) (fs : List Fragment) :
    (fs.foldlM TraitDraft.add d).value.Sound := by
  induction fs generalizing d with
  | nil => exact h
  | cons f fs ih =>
    rw [List.foldlM_cons, Noted.value_bind]
    exact ih (h.add f)

theorem sound_empty : TraitDraft.Sound {} := by
  constructor
  · rintro n ⟨⟩
  · rintro n ⟨⟩

end TraitDraft

/-! ## The modifier -/

/-- A modifier in parentheses is a total. -/
theorem isTotal_of_readModifier {slots : Slots} {n : Int}
    (h : (readModifier slots).value = some n) : IsTotal n := by
  unfold readModifier at h
  split at h
  · next s ds _ =>
    rw [Noted.chain, Noted.value_bind] at h
    split at h
    · exact isTotal_of_apply h
    · cases h
  · cases h

/-- Whether it is a sum of numbers or stands in parentheses, the modifier is a total. -/
theorem isTotal_of_readTraitModifier {slots : Slots} {inline : Option Int} {n : Int}
    (hinline : ∀ m ∈ inline, IsTotal m) (h : (readTraitModifier slots inline).value = some n) :
    IsTotal n := by
  unfold readTraitModifier at h
  split at h
  · exact hinline n h
  · exact isTotal_of_readModifier h

end Written

/-! ## Dice that explode -/

/-- A single die draws a face at least, and not more than a die can show. -/
theorem length_of_path_exploding {sides : Nat} {g : RolledDice} {vs : List Nat}
    (h : Path (Dice.exploding sides).roll vs (.ok g)) : 1 ≤ vs.length ∧ vs.length ≤ maxFaces := by
  refine ⟨?_, Dice.drawsAtMost_roll _ vs _ h⟩
  obtain ⟨rolls, hrolls, -⟩ := Dice.parts_of_path h
  obtain ⟨die, us, ws, rfl, hdie, -⟩ := path_bind_ok_iff.1 hrolls
  -- the first face is drawn before it is known whether there are others
  obtain ⟨v, more, rfl, -⟩ := Dice.parts_of_path_rollDie hdie
  simp only [List.length_append, List.length_cons]
  omega

theorem two_le_of_mem_traitSides {n : Nat} (h : n ∈ traitSides) : 2 ≤ n := by
  have hall : ∀ n ∈ traitSides, 2 ≤ n := by decide
  exact hall n h

namespace TraitRoll

open Written

/-- A trait roll that can be used as it is. Both dice are single exploding dice with allowed sides,
the target number is not negative, one of the two results counts, and the modifier is a total. -/
structure Sound (t : TraitRoll) : Prop where
  trait : ∃ sides ∈ traitSides, t.traitDie = .exploding sides
  wild : ∃ sides ∈ traitSides, t.wildDie = .exploding sides
  target : 0 ≤ t.target
  targetHighest : t.targetHighest = 1
  modifier : ∀ m ∈ t.modifier, IsTotal m

/-- Whatever body is read, its trait roll can be used. -/
theorem sound_readTraitBody (body : List Char) : (readTraitBody body).value.Sound where
  trait := exists_traitDice_eq .trait (TraitDraft.sound_empty.foldlM_add _).sides
  wild := exists_traitDice_eq .wild fun n => mem_traitSides_of_readWildSides
  target := by
    show 0 ≤ (readTarget _).value.getD defaultTarget
    cases htarget : (readTarget (Outline.ofTokens (tokens body)).value.slots).value with
    | none => decide
    | some n => exact nonneg_of_readTarget htarget
  targetHighest := rfl
  modifier := fun m =>
    isTotal_of_readTraitModifier (TraitDraft.sound_empty.foldlM_add _).inline

/-- Whatever text is read, its trait roll can be used. -/
theorem sound_ofText_trait (text : String) : (ofText text).Sound := by
  by_cases hlong : maxTextLength < (Text.trim text.toList).length
  · have hdefault : 0 ≤ defaultTarget := by decide
    rw [ofText_of_long hlong]
    exact ⟨⟨_, defaultSides_mem .trait, rfl⟩, ⟨_, defaultSides_mem .wild, rfl⟩, hdefault, rfl,
      nofun⟩
  · rw [ofText_of_short (Nat.not_lt.1 hlong) (commented_split _)]
    have h := sound_readTraitBody (splitComment (Text.normal (Text.trim text.toList))).1
    exact ⟨h.trait, h.wild, h.target, h.targetHighest, h.modifier⟩

/-! ## Rolling -/

/-- Only a sum that is too large makes the total of a group fail. -/
theorem eq_overflow_of_total {g : RolledDice} {e : DiceError} (h : g.total = .error e) :
    e = .overflow := by
  unfold RolledDice.total at h
  split at h
  · cases h
  · cases h
    rfl

/-- With a modifier, too, a total fails only where it is too large. -/
theorem eq_overflow_of_modifiedTotal {modifier : Int} {g : RolledDice} {e : DiceError}
    (h : modifiedTotal modifier g = .error e) : e = .overflow := by
  rcases bind_eq_error_iff.1 h with htotal | ⟨sum, -, hsum⟩
  · exact eq_overflow_of_total htotal
  · split at hsum
    · cases hsum
    · cases hsum
      rfl

/-- Both dice with the modifier are judged, or the total of one of them overflows. -/
theorem eq_overflow_of_judge {t : TraitRoll} {trait wild : RolledDice} {e : DiceError}
    (h : t.judge trait wild = .error e) : e = .overflow := by
  rcases bind_eq_error_iff.1 h with htrait | ⟨traitTotal, -, hlater⟩
  · exact eq_overflow_of_modifiedTotal htrait
  · rcases bind_eq_error_iff.1 hlater with hwild | ⟨wildTotal, -, hresult⟩
    · exact eq_overflow_of_modifiedTotal hwild
    · cases hresult

/-- A sound trait roll fails by an overflow or not at all: both dice are always rolled, and what
comes after them is their totals alone. -/
theorem Sound.failsBy_roll {t : TraitRoll} (h : t.Sound) :
    t.roll.FailsBy fun err => err = .dice .overflow := by
  have hsides : 1 ≤ t.traitDie.sides := by
    obtain ⟨sides, hmem, htrait⟩ := h.trait
    rw [htrait]
    exact Nat.le_of_succ_le (two_le_of_mem_traitSides hmem)
  have hsides' : 1 ≤ t.wildDie.sides := by
    obtain ⟨sides, hmem, hwild⟩ := h.wild
    rw [hwild]
    exact Nat.le_of_succ_le (two_le_of_mem_traitSides hmem)
  have hdice : t.rollDice.FailsBy fun err => err = .overflow := by
    refine (Dice.ensures_roll hsides).bind_failsBy fun trait _ => ?_
    refine (Dice.ensures_roll hsides').bind_failsBy fun wild _ => ?_
    exact failsBy_ofExcept fun _ => eq_overflow_of_judge
  exact hdice.mapError fun _ => congrArg RollError.dice

/-- A die is worth nothing less than zero, so no modifier takes it below the least total. -/
theorem Sound.minTotal_le {t : TraitRoll} (h : t.Sound) (n : Nat) :
    minTotal ≤ n + t.modifier.getD 0 := by
  have hmodifier : IsTotal (t.modifier.getD 0) := by
    cases hmod : t.modifier with
    | none => exact RolledExpr.isTotal_zero
    | some m => exact h.modifier m hmod
  have hmin := hmodifier.1
  omega

/-- Two single dice are judged by their values. Only the greatest total can be exceeded. -/
theorem Sound.judge_eq {t : TraitRoll} (h : t.Sound) {g g' : RolledDice} {d d' : Die}
    (hg : g.Lone d) (hg' : g'.Lone d') :
    t.judge g g' =
      if maxTotal < d.value + t.modifier.getD 0 ∨ maxTotal < d'.value + t.modifier.getD 0 then
        .error .overflow
      else .ok {
        trait := g, wild := g'
        traitTotal := d.value + t.modifier.getD 0, wildTotal := d'.value + t.modifier.getD 0
        target := t.target } := by
  have hmin := h.minTotal_le d.value
  have hmin' := h.minTotal_le d'.value
  rw [judge_lone hg hg', hg.keptSum_eq, hg'.keptSum_eq]
  unfold IsTotal
  split
  · rw [if_neg (by omega), exactResult, hg.keptSum_eq, hg'.keptSum_eq]
  · rw [if_pos (by omega)]

/-- The run of a sound trait roll: each die is a group of one die that counts, and if one of them
takes the modifier beyond the greatest total the roll fails, but only then. -/
theorem Sound.run_roll_eq {t : TraitRoll} (ht : t.Sound) {σ : Type} {roller : Roller σ}
    (hr : Answers roller) (s : σ) :
    2 ≤ (roller.run t.roll s).draws.length ∧ (roller.run t.roll s).draws.length ≤ 20 ∧
    ∃ trait wild d d', (roller.run t.traitDie.roll s).ending = .value trait ∧
      (roller.run t.wildDie.roll (roller.run t.traitDie.roll s).state).ending = .value wild ∧
      trait.Lone d ∧ wild.Lone d' ∧
      (roller.run t.roll s).ending =
        if maxTotal < d.value + t.modifier.getD 0 ∨ maxTotal < d'.value + t.modifier.getD 0 then
          .failed (.dice .overflow)
        else .value {
          trait, wild
          traitTotal := d.value + t.modifier.getD 0, wildTotal := d'.value + t.modifier.getD 0
          target := t.target } := by
  obtain ⟨sides, hsides, htrait⟩ := ht.trait
  obtain ⟨sides', hsides', hwild⟩ := ht.wild
  obtain ⟨g, d, h, hg⟩ := exists_run_exploding hr (two_le_of_mem_traitSides hsides) s
  have hdraws := length_of_path_exploding (path_of_value h)
  rw [← htrait] at h hdraws
  obtain ⟨g', d', h', hg'⟩ := exists_run_exploding hr (two_le_of_mem_traitSides hsides')
    (roller.run t.traitDie.roll s).state
  have hdraws' := length_of_path_exploding (path_of_value h')
  rw [← hwild] at h' hdraws'
  unfold maxFaces at hdraws hdraws'
  rw [run_roll h h', List.length_append]
  refine ⟨by omega, by omega, g, g', d, d', h, h', hg, hg', ?_⟩
  rw [ht.judge_eq hg hg']
  split
  · rfl
  · rfl

/-- Whatever the text is, its trait roll can be used, and whatever the answers are, it fails by an
overflow or not at all, so that no inverted range is asked for. With a roller that answers, it draws
from two to twenty faces. Each die is a group of one die that counts, and it makes no difference to
critical failures whether first faces or values are looked at. If the value of either die takes the
modifier beyond the greatest total, the roll fails with an overflow; otherwise it succeeds with
these totals. -/
theorem roll_ofText_sound (text : String) :
    (ofText text).Sound ∧ ((ofText text).roll.FailsBy fun err => err = .dice .overflow) ∧
    ∀ {σ : Type} {roller : Roller σ}, Answers roller → ∀ s : σ,
      let t := ofText text
      let run := roller.run t.roll s
      let m := t.modifier.getD 0
      2 ≤ run.draws.length ∧ run.draws.length ≤ 20 ∧
      ∃ trait wild d d', (roller.run t.traitDie.roll s).ending = .value trait ∧
        (roller.run t.wildDie.roll (roller.run t.traitDie.roll s).state).ending = .value wild ∧
        trait.kept = [d] ∧ wild.kept = [d'] ∧
        isTraitCriticalFailure trait wild = isCriticalFailure [trait, wild] ∧
        minTotal ≤ d.value + m ∧ minTotal ≤ d'.value + m ∧
        run.ending =
          if maxTotal < d.value + m ∨ maxTotal < d'.value + m then .failed (.dice .overflow)
          else .value {
            trait, wild, traitTotal := d.value + m, wildTotal := d'.value + m
            target := t.target } := by
  have hsound := sound_ofText_trait text
  refine ⟨hsound, hsound.failsBy_roll, ?_⟩
  intro σ roller hr s
  obtain ⟨hlow, hhigh, g, g', d, d', h, h', hg, hg', hending⟩ := hsound.run_roll_eq hr s
  exact ⟨hlow, hhigh, g, g', d, d', h, h', hg.kept_eq, hg'.kept_eq,
    (hg.isCriticalFailure_pair hg').symm, hsound.minTotal_le _, hsound.minTotal_le _, hending⟩

/-- Of a text with faults the die and the number are left. Rolled as high as possible, the die
explodes as often as it can, and takes the number one beyond the greatest total. -/
theorem roll_ofText_sound_overflow :
    (ofText "2d8 + 2147483568 - d7; wd9 t t").traitDie = .exploding 8 ∧
    ((Roller.mk fun (_ : Unit) _ hi => some (hi, ())).run
      (ofText "2d8 + 2147483568 - d7; wd9 t t").roll ()).ending = .failed (.dice .overflow) := by
  have hr : Answers (Roller.mk fun (_ : Unit) _ hi => some (hi, ())) := fun _ _ _ _ => rfl
  have hread : ofText "2d8 + 2147483568 - d7; wd9 t t" = {
      ofSides 8 6 with
      modifier := some 2147483568
      raw := "2d8 + 2147483568 - d7; wd9 t t"
      messages := (ofText "2d8 + 2147483568 - d7; wd9 t t").messages } := by cbv
  obtain ⟨-, -, hrolls⟩ := roll_ofText_sound "2d8 + 2147483568 - d7; wd9 t t"
  obtain ⟨-, -, trait, wild, d, d', htrait, -, hd, -, -, -, -, hending⟩ := hrolls hr ()
  refine ⟨by rw [hread]; rfl, ?_⟩
  have htrait' : trait = ⟨.exploding 8, [⟨80, List.replicate 10 8, none⟩]⟩ := by
    rw [hread] at htrait
    cases htrait
    rfl
  rw [htrait'] at hd
  cases hd
  rw [hending, hread]
  exact if_pos (.inl (by decide))

end TraitRoll

end TabletopDice
