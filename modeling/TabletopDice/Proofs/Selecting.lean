import TabletopDice.Proofs.RankedOrder
import TabletopDice.RolledDice

/-!
# Selecting dice

What selections do to the dice of a group. Main statements: a selection drops every die at most once
and only dice that count, so that it never fails (`exists_applyAll`), and nothing of a die changes
but whether it counts (`map_rolls_of_applyAll`).
-/

namespace TabletopDice

/-! ## Dropping at some positions -/

namespace RolledDice

/-- The dice that are ranked are those that count. -/
theorem isSome_keyAt_rankKey_iff {rolls : List Die} {i : Nat} :
    (keyAt rankKey rolls i).isSome ↔ ∃ d, rolls[i]? = some d ∧ d.isKept := by
  unfold keyAt
  cases rolls[i]? with
  | none => simp
  | some d =>
    by_cases hkept : d.isKept
    · simp [rankKey, hkept]
    · simp [rankKey, hkept]

/-- The number of dice that are ranked is the number of dice that count. -/
theorem length_ranking_rankKey (rolls : List Die) :
    (ranking rankKey rolls).length = rolls.countP Die.isKept := by
  rw [length_ranking]
  refine List.countP_congr fun d _ => ?_
  unfold rankKey
  split
  · next hkept => simp [hkept]
  · next hdropped => simp [hdropped]

theorem length_kept (r : RolledDice) : r.kept.length = r.rolls.countP Die.isKept :=
  List.countP_eq_length_filter.symm

/-- Every die that a selection drops still counts. -/
theorem isKept_of_mem_window {s : Selection} {rolls : List Die} {i : Nat}
    (h : i ∈ window s rolls) : ∃ d, rolls.toArray[i]? = some d ∧ d.isKept := by
  have hranked := List.mem_of_mem_take (List.mem_of_mem_drop h)
  rw [List.getElem?_toArray]
  exact isSome_keyAt_rankKey_iff.1 (mem_ranking_iff.1 hranked)

/-- A selection drops no die twice. -/
theorem nodup_window (s : Selection) (rolls : List Die) : (window s rolls).Nodup :=
  ((List.drop_sublist _ _).trans (List.take_sublist _ _)).nodup (nodup_ranking rankKey rolls)

/-- A die that counts can be dropped at its position. -/
theorem dropAt_of_isKept {s : Selection} {rolls : Array Die} {i : Nat} {d : Die}
    (hd : rolls[i]? = some d) (hkept : d.isKept) :
    dropAt s rolls i = .ok (rolls.setIfInBounds i { d with droppedBy := some s }) := by
  simp only [dropAt, hd, Die.drop_of_isKept s hkept]
  rfl

/-- A die that is dropped changes nothing at the other positions, so the dice there still count. -/
theorem exists_isKept_of_drop {rolls : Array Die} {i : Nat} {is : List Nat} (hi : i ∉ is) (d : Die)
    (hkept : ∀ j ∈ is, ∃ d, rolls[j]? = some d ∧ d.isKept) :
    ∀ j ∈ is, ∃ d', (rolls.setIfInBounds i d)[j]? = some d' ∧ d'.isKept := by
  intro j hj
  have hne : i ≠ j := fun heq => hi (heq ▸ hj)
  rw [Array.getElem?_setIfInBounds_ne hne]
  exact hkept j hj

/-- Dice that count can be dropped at different positions, one after the other. -/
theorem exists_foldlM_dropAt {s : Selection} {is : List Nat} {rolls : Array Die}
    (hnodup : is.Nodup) (hkept : ∀ i ∈ is, ∃ d, rolls[i]? = some d ∧ d.isKept) :
    ∃ rolls', is.foldlM (dropAt s) rolls = .ok rolls' := by
  induction is generalizing rolls with
  | nil => exact ⟨rolls, rfl⟩
  | cons i is ih =>
    obtain ⟨hi, hnodup⟩ := List.nodup_cons.1 hnodup
    obtain ⟨d, hd, hdkept⟩ := hkept i (.head _)
    rw [List.foldlM_cons, dropAt_of_isKept hd hdkept]
    exact ih hnodup (exists_isKept_of_drop hi _ fun j hj => hkept j (.tail _ hj))

/-! ## Selections -/

/-- A selection can always be applied. -/
theorem exists_apply (s : Selection) (r : RolledDice) : ∃ r', r.apply s = .ok r' := by
  obtain ⟨rolls, hrolls⟩ := exists_foldlM_dropAt (s := s) (nodup_window s r.rolls)
    fun _ => isKept_of_mem_window
  exact ⟨{ r with rolls := rolls.toList }, by rw [apply, hrolls]; rfl⟩

/-- What a selection makes of a group: the dice of its window are dropped one after the other. -/
theorem exists_rolls_of_apply {s : Selection} {r r' : RolledDice} (h : r.apply s = .ok r') :
    ∃ rolls, (window s r.rolls).foldlM (dropAt s) r.rolls.toArray = .ok rolls ∧
      r' = { r with rolls := rolls.toList } := by
  obtain ⟨rolls, hfold, rfl⟩ := map_eq_ok_iff.1 h
  exact ⟨rolls, hfold, rfl⟩

/-- So can any sequence of selections: no die is ever dropped twice. -/
theorem exists_applyAll (ss : List Selection) (r : RolledDice) :
    ∃ r', r.applyAll ss = .ok r' := by
  induction ss generalizing r with
  | nil => exact ⟨r, rfl⟩
  | cons s ss ih =>
    obtain ⟨r₁, hr₁⟩ := exists_apply s r
    obtain ⟨r₂, hr₂⟩ := ih r₁
    refine ⟨r₂, ?_⟩
    unfold applyAll at hr₂ ⊢
    rw [List.foldlM_cons, hr₁]
    exact hr₂

/-! ## What stays as it is -/

/-- What every step of a computation that may fail leaves as it is, a whole sequence of steps leaves
as it is. -/
theorem eq_of_foldlM_ok {α β γ ε : Type} {f : β → α → Except ε β} (measure : β → γ)
    (h : ∀ b a b', f b a = .ok b' → measure b' = measure b) {as : List α} {b b' : β}
    (hfold : as.foldlM f b = .ok b') : measure b' = measure b := by
  induction as generalizing b with
  | nil =>
    cases hfold
    rfl
  | cons a as ih =>
    rw [List.foldlM_cons] at hfold
    obtain ⟨b₁, hstep, hrest⟩ := bind_eq_ok_iff.1 hfold
    rw [ih hrest, h b a b₁ hstep]

/-- Selections leave it open for which dice a group was rolled. -/
theorem dice_of_applyAll {ss : List Selection} {r r' : RolledDice} (h : r.applyAll ss = .ok r') :
    r'.dice = r.dice := by
  refine eq_of_foldlM_ok RolledDice.dice (fun r s r' hr => ?_) h
  obtain ⟨rolls, -, rfl⟩ := exists_rolls_of_apply hr
  rfl

section Unchanged

variable {γ : Type} {f : Die → γ} (hf : ∀ d o, f { d with droppedBy := o } = f d)
include hf

theorem map_of_dropAt {s : Selection} {rolls rolls' : Array Die} {i : Nat}
    (h : dropAt s rolls i = .ok rolls') : rolls'.toList.map f = rolls.toList.map f := by
  unfold dropAt at h
  split at h
  · next d hd =>
    obtain ⟨d', hdrop, rfl⟩ := map_eq_ok_iff.1 h
    have hd' : f d' = f d := by
      unfold Die.drop at hdrop
      split at hdrop
      · cases hdrop
        exact hf d _
      · cases hdrop
    rw [Array.toList_setIfInBounds, List.map_set, hd']
    refine List.ext_getElem? fun j => ?_
    rw [List.getElem?_set]
    split
    · next hij =>
      subst hij
      have hget : (rolls.toList.map f)[i]? = some (f d) := by
        rw [List.getElem?_map, Array.getElem?_toList, hd, Option.map_some]
      rw [hget, if_pos (List.getElem?_eq_some_iff.1 hget).1]
    · rfl
  · cases h
    rfl

theorem map_rolls_of_apply {s : Selection} {r r' : RolledDice} (h : r.apply s = .ok r') :
    r'.rolls.map f = r.rolls.map f := by
  obtain ⟨rolls, hfold, rfl⟩ := exists_rolls_of_apply h
  exact eq_of_foldlM_ok (fun rolls : Array Die => rolls.toList.map f)
    (fun _ _ _ => map_of_dropAt hf) hfold

/-- Selections leave everything of the dice as it is but whether they count. -/
theorem map_rolls_of_applyAll {ss : List Selection} {r r' : RolledDice}
    (h : r.applyAll ss = .ok r') : r'.rolls.map f = r.rolls.map f :=
  eq_of_foldlM_ok (fun r : RolledDice => r.rolls.map f)
    (fun _ _ _ => map_rolls_of_apply hf) h

end Unchanged

end RolledDice

end TabletopDice
