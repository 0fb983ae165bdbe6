import Mathlib.Data.List.Perm.Basic
import TabletopDice.Proofs.FaultlessDice

/-!
# The order of suffixes

Suffixes of different parts of a group can change places. Main statements: what a row of suffixes
has to say is what the suffixes of each part say by themselves (`notes_foldlM_add_perm`), and so a
group stays the same and has the same messages when its suffixes change places (`check_reordered`).
-/

namespace TabletopDice.Written

/-! ## The parts of suffixes -/

/-- The part of a group that a suffix gives. -/
def Suffix.part : Suffix → SinglePart
  | .explosion _ _ => .explosion
  | .selection kind _ => .selection kind

@[simp] theorem part_explosion (recursive : Bool) (t : Option (List Char)) :
    (Suffix.explosion recursive t).part = .explosion := rfl

@[simp] theorem part_selection (kind : Kind) (n : Option (List Char)) :
    (Suffix.selection kind n).part = .selection kind := rfl

/-- Every part that a suffix can give. -/
def suffixParts : List SinglePart :=
  .explosion :: Kind.all.map .selection

/-- A suffix gives exactly one of the parts. -/
theorem flatMap_part (x : Suffix) (ns : List Message) :
    suffixParts.flatMap (fun part => if x.part = part then ns else []) = ns := by
  cases x with
  | explosion recursive t => simp [suffixParts, Kind.all]
  | selection kind n => cases kind <;> simp [suffixParts, Kind.all]

/-- The suffixes that give one part, in order. -/
def ofPart (part : SinglePart) (xs : List Suffix) : List Suffix :=
  xs.filter fun x => x.part = part

theorem ofPart_cons (part : SinglePart) (x : Suffix) (xs : List Suffix) :
    ofPart part (x :: xs) = if x.part = part then x :: ofPart part xs else ofPart part xs := by
  unfold ofPart
  by_cases h : x.part = part <;> simp [h]

/-- The explosions are those of their own part. -/
theorem explosions_ofPart (xs : List Suffix) :
    explosions (ofPart .explosion xs) = explosions xs := by
  induction xs with
  | nil => rfl
  | cons x xs ih =>
    rw [ofPart_cons]
    cases x with
    | explosion recursive t => simp [ih]
    | selection kind n => simp [ih]

/-- The selections of a kind are those of its part. -/
theorem countsOf_ofPart (kind : Kind) (xs : List Suffix) :
    countsOf kind (ofPart (.selection kind) xs) = countsOf kind xs := by
  induction xs with
  | nil => rfl
  | cons x xs ih =>
    rw [ofPart_cons]
    cases x with
    | explosion recursive t => simp [ih]
    | selection k n => by_cases hk : k = kind <;> simp [countsOf_selection, hk, ih]

/-- The same suffixes in another order, which keeps the order of those that give the same part. -/
structure Reordered (xs ys : List Suffix) : Prop where
  perm : xs.Perm ys
  ofPart : ∀ part, ofPart part xs = ofPart part ys

namespace Reordered

variable {xs ys : List Suffix}

/-- Explosions keep their order. -/
theorem explosions_eq (h : Reordered xs ys) : explosions xs = explosions ys := by
  rw [← explosions_ofPart xs, h.ofPart, explosions_ofPart]

/-- Selections of one kind keep their order. -/
theorem countsOf_eq (h : Reordered xs ys) (kind : Kind) : countsOf kind xs = countsOf kind ys := by
  rw [← countsOf_ofPart kind xs, h.ofPart, countsOf_ofPart]

end Reordered

/-! ## Messages part by part -/

variable {count sides : Nat}

/-- The messages about a suffix that is the first of its part. -/
def Suffix.firstNotes (count sides : Nat) : Suffix → List Message
  | .explosion recursive t => (checkExplosion sides recursive t).notes
  | .selection kind n => (checkSelection count kind n).notes

/-- The messages about a suffix whose part may have been given before. -/
def suffixNotes (count sides : Nat) (given : Bool) (x : Suffix) : List Message :=
  if given then [.duplicate x.part] else x.firstNotes count sides

/-- The messages about suffixes that give the same part: after the first one it has been given. -/
def partNotes (count sides : Nat) : (given : Bool) → List Suffix → List Message
  | _, [] => []
  | given, x :: xs => suffixNotes count sides given x ++ partNotes count sides true xs

namespace Choices

/-- Whether a part has been given. -/
def gives (c : Choices) : SinglePart → Bool
  | .explosion => c.explosion.isSome
  | .selection kind => (c.selected kind).isSome
  | _ => false

/-- What a suffix is told depends on whether its part was given before. -/
theorem notes_add (c : Choices) (x : Suffix) :
    (add count sides c x).notes = suffixNotes count sides (c.gives x.part) x := by
  cases x with
  | explosion recursive t =>
    cases h : c.explosion with
    | none => simp [add_explosion_first h, suffixNotes, gives, h, Suffix.firstNotes]
    | some e => simp [add_explosion_again h, suffixNotes, gives, h]
  | selection kind n =>
    cases h : c.selected kind with
    | none => simp [add_selection_first h, suffixNotes, gives, h, Suffix.firstNotes]
    | some m => simp [add_selection_again h, suffixNotes, gives, h]

/-- A suffix gives its own part and no other. -/
theorem gives_add (c : Choices) (x : Suffix) (part : SinglePart) :
    (add count sides c x).value.gives part = (c.gives part || decide (x.part = part)) := by
  cases x with
  | explosion recursive t =>
    cases h : c.explosion with
    | none => cases part <;> simp [add_explosion_first h, gives]
    | some e => cases part <;> simp [add_explosion_again h, gives, h]
  | selection kind n =>
    cases h : c.selected kind with
    | none =>
      cases part with
      | selection k => by_cases hk : k = kind <;> simp [add_selection_first h, gives, hk, Ne.symm]
      | _ => simp [add_selection_first h, gives]
    | some m =>
      cases part with
      | selection k =>
        by_cases hk : kind = k
        · subst hk
          simp [add_selection_again h, gives, h]
        · simp [add_selection_again h, gives, hk]
      | _ => simp [add_selection_again h, gives]

/-- The messages about a row of suffixes are those about the suffixes of each part by themselves. -/
theorem notes_foldlM_add_perm (count sides : Nat) (c : Choices) (xs : List Suffix) :
    (xs.foldlM (add count sides) c).notes.Perm
      (suffixParts.flatMap fun part => partNotes count sides (c.gives part) (ofPart part xs)) := by
  induction xs generalizing c with
  | nil => exact .refl _
  | cons x xs ih =>
    -- the first suffix has something to say about its own part only
    have hparts : ∀ part, partNotes count sides (c.gives part) (ofPart part (x :: xs)) =
        (if x.part = part then suffixNotes count sides (c.gives x.part) x else []) ++
          partNotes count sides ((add count sides c x).value.gives part) (ofPart part xs) := by
      intro part
      rw [ofPart_cons, gives_add]
      by_cases hx : x.part = part
      · simp [hx, partNotes]
      · simp [hx]
    rw [List.foldlM_cons, Noted.notes_bind, notes_add]
    simp only [hparts]
    refine .trans ?_ (List.flatMap_append_perm suffixParts _ _)
    rw [flatMap_part]
    exact (ih _).append_left _

variable {xs ys : List Suffix}

/-- The same choices are made of suffixes that change places. -/
theorem choices_reordered (count sides : Nat) (h : Reordered xs ys) :
    (ofSuffixes count sides xs).value.explosion.join =
      (ofSuffixes count sides ys).value.explosion.join ∧
    (ofSuffixes count sides xs).value.usable = (ofSuffixes count sides ys).value.usable := by
  refine ⟨?_, funext fun kind => ?_⟩
  · rw [explosion_ofSuffixes, explosion_ofSuffixes, h.explosions_eq]
  · rw [usable_ofSuffixes, usable_ofSuffixes, h.countsOf_eq]

/-- The messages about suffixes in another order are the same in some order. -/
theorem notes_reordered (h : Reordered xs ys) :
    (ofSuffixes count sides xs).notes.Perm (ofSuffixes count sides ys).notes := by
  have hxs := notes_foldlM_add_perm count sides {} xs
  simp only [h.ofPart] at hxs
  exact hxs.trans (notes_foldlM_add_perm count sides {} ys).symm

end Choices

/-! ## Groups -/

/-- Whatever selections are left, they stand in the order in which they are applied. -/
theorem kinds_resolve_sublist (count : Nat) (usable : Kind → Option Nat) :
    ((resolve count usable).value.map Selection.kind).Sublist Kind.all := by
  have hone : ∀ kind, [kind].Sublist Kind.all :=
    fun kind => List.singleton_sublist.2 (Kind.mem_all kind)
  have hdrops : [Kind.dropHigh, Kind.dropLow].Sublist Kind.all := by decide
  have hnone : ([] : List Kind).Sublist Kind.all := List.nil_sublist _
  unfold resolve
  split
  · exact hone .keepHigh
  · exact hone .keepHigh
  · exact hone .keepLow
  · split
    · split
      · exact hnone
      · exact hdrops
    · exact hone .dropHigh
    · exact hone .dropLow
    · exact hnone

/-- From suffixes in another order the same group is put together, with the same messages. -/
theorem assemble_reordered (count sides : Nat) {xs ys : List Suffix} (h : Reordered xs ys) :
    (assemble count sides xs).value = (assemble count sides ys).value ∧
      (assemble count sides xs).notes.Perm (assemble count sides ys).notes := by
  obtain ⟨hexplosion, husable⟩ := Choices.choices_reordered count sides h
  simp only [assemble, Noted.value_bind, Noted.value_pure, Noted.notes_bind, Noted.notes_pure,
    List.append_nil]
  rw [hexplosion, husable]
  exact ⟨rfl, (Choices.notes_reordered h).append_right _⟩

/-- The suffixes of a group change places, but those of the same part keep their order: an explosion
and each kind of selection is a part of its own. The group stays the same, or there is none in
either case, and the messages are the same in some order. The selections of a group always stand in
the order in which they are applied: the highest kept, the lowest kept, the highest dropped, the
lowest dropped. -/
theorem check_reordered (count : Option (List Char)) (sides : List Char) {xs ys : List Suffix}
    (h : Reordered xs ys) :
    let w : WrittenDice := ⟨count, sides, xs⟩
    let w' : WrittenDice := ⟨count, sides, ys⟩
    w.check.value = w'.check.value ∧ w.check.notes.Perm w'.check.notes ∧
      ∀ d, w.check.value = some d →
        (d.selections.map Selection.kind).Sublist [.keepHigh, .keepLow, .dropHigh, .dropLow] := by
  intro w w'
  have hgroup : ∀ n m, (some <$> assemble n m xs : Noted (Option Dice)).value =
        (some <$> assemble n m ys : Noted (Option Dice)).value ∧
      (some <$> assemble n m xs : Noted (Option Dice)).notes.Perm
        (some <$> assemble n m ys : Noted (Option Dice)).notes := by
    intro n m
    obtain ⟨hvalue, hnotes⟩ := assemble_reordered n m h
    rw [Noted.value_map, Noted.value_map, Noted.notes_map, Noted.notes_map, hvalue]
    exact ⟨rfl, hnotes⟩
  simp only [w, w', WrittenDice.check, Noted.value_bind, Noted.notes_bind]
  cases (checkCount count).value with
  | none =>
    refine ⟨rfl, .refl _, fun d hd => ?_⟩
    cases hd
  | some n =>
    cases (checkSides sides).value with
    | none =>
      refine ⟨rfl, .refl _, fun d hd => ?_⟩
      cases hd
    | some m =>
      obtain ⟨hvalue, hnotes⟩ := hgroup n m
      refine ⟨hvalue, (hnotes.append_left _).append_left _, ?_⟩
      rintro d ⟨⟩
      exact kinds_resolve_sublist _ _

/-- The suffixes of `5d6dl2!>9dh1!dl` change places to `5d6dh1dl2dl!>9!`. -/
theorem check_reordered_of_drops :
    let w : WrittenDice := ⟨some ['5'], ['6'], [.selection .dropLow (some ['2']),
      .explosion false (some ['9']), .selection .dropHigh (some ['1']), .explosion false none,
      .selection .dropLow none]⟩
    let w' : WrittenDice := ⟨some ['5'], ['6'], [.selection .dropHigh (some ['1']),
      .selection .dropLow (some ['2']), .selection .dropLow none, .explosion false (some ['9']),
      .explosion false none]⟩
    Reordered w.suffixes w'.suffixes ∧
      w.check.value = some ⟨5, 6, none, [⟨.dropHigh, 1⟩, ⟨.dropLow, 2⟩]⟩ ∧
      w'.check.value = some ⟨5, 6, none, [⟨.dropHigh, 1⟩, ⟨.dropLow, 2⟩]⟩ ∧
      w.check.notes ≠ w'.check.notes ∧ w.check.notes.Perm w'.check.notes := by
  intro w w'
  have h : Reordered w.suffixes w'.suffixes := by
    refine ⟨by decide, fun part => ?_⟩
    cases part with
    | selection kind => cases kind <;> rfl
    | _ => rfl
  obtain ⟨hvalue, hnotes, -⟩ := check_reordered (some ['5']) ['6'] h
  have hw : w.check.value = some ⟨5, 6, none, [⟨.dropHigh, 1⟩, ⟨.dropLow, 2⟩]⟩ := by decide
  exact ⟨h, hw, hvalue.symm.trans hw, by decide, hnotes⟩

end TabletopDice.Written
