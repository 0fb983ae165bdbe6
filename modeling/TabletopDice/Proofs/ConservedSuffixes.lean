import TabletopDice.Proofs.ParsedRoll

/-!
# Suffixes are conserved

Every suffix of a group of dice is used or reported, and never both. Main statements: a step of the
check uses or reports one suffix (`used_add`), and so the group and the messages together account
for all of them, and each message is true of what is written (`suffixes_conserved`).
-/

namespace TabletopDice

/-! ## Reports -/

/-- How many suffixes a message reports as lost. Drops that leave no die are lost together. -/
def Message.lostSuffixes : Message → Nat
  | .dropsEveryDie _ _ _ => 2
  | _ => 1

/-- How many suffixes some messages report as lost. -/
def reported (ms : List Message) : Nat :=
  ms.foldr (fun m n => m.lostSuffixes + n) 0

@[simp] theorem reported_nil : reported [] = 0 := rfl

/-- Every message counts for the suffixes that it tells of. -/
@[simp] theorem reported_cons (m : Message) (ms : List Message) :
    reported (m :: ms) = m.lostSuffixes + reported ms := rfl

/-- Messages in a row tell of what they tell of one by one. -/
@[simp] theorem reported_append (ms ms' : List Message) :
    reported (ms ++ ms') = reported ms + reported ms' := by
  induction ms with
  | nil => exact (Nat.zero_add _).symm
  | cons m ms ih => rw [List.cons_append, reported_cons, reported_cons, ih, Nat.add_assoc]

namespace Noted

variable {α β : Type}

/-- There is either a value or one message about one suffix. -/
def Decided (x : Noted (Option α)) : Prop :=
  (∃ a, x = pure (some a)) ∨ ∃ m : Message, m.lostSuffixes = 1 ∧ x = refuse m

/-- A value without a message loses nothing. -/
theorem decided_pure (a : α) : Decided (pure (some a)) :=
  .inl ⟨a, rfl⟩

/-- A refusal tells of the one suffix that it loses. -/
theorem decided_refuse {m : Message} (h : m.lostSuffixes = 1) :
    (refuse m : Noted (Option α)).Decided :=
  .inr ⟨m, h, rfl⟩

theorem decided_ite {p : Prop} [Decidable p] {x y : Noted (Option α)} (hx : x.Decided)
    (hy : y.Decided) : (if p then x else y).Decided := by
  split
  · exact hx
  · exact hy

/-- A decision after a value is the decision on the whole. -/
theorem Decided.chain {x : Noted (Option α)} {f : α → Noted (Option β)} (hx : x.Decided)
    (hf : ∀ a, (f a).Decided) : (x.chain f).Decided := by
  rcases hx with ⟨a, rfl⟩ | ⟨m, hm, rfl⟩
  · rw [pure_chain]
    exact hf a
  · rw [refuse_chain]
    exact decided_refuse hm

theorem decided_number (digits : List Char) : (number digits).Decided :=
  decided_ite (decided_pure _) (decided_refuse rfl)

/-- A value counts as much as the message in its place. -/
theorem Decided.length_add_reported {x : Noted (Option α)} (h : x.Decided) :
    x.value.toList.length + reported x.notes = 1 := by
  rcases h with ⟨a, rfl⟩ | ⟨m, hm, rfl⟩
  · rfl
  · show 0 + (m.lostSuffixes + 0) = 1
    omega

/-- A message of a loop belongs to one of its steps. -/
theorem exists_step_of_mem_notes {f : β → α → Noted β} {b : β} {as : List α} {m : Message}
    (h : m ∈ (as.foldlM f b).notes) :
    ∃ before a after, as = before ++ a :: after ∧ m ∈ (f (before.foldlM f b).value a).notes := by
  induction as generalizing b with
  | nil => cases h
  | cons a as ih =>
    rw [List.foldlM_cons, notes_bind] at h
    rcases List.mem_append.1 h with hfirst | hlater
    · exact ⟨[], a, as, rfl, hfirst⟩
    · obtain ⟨before, a', after, rfl, hm⟩ := ih hlater
      refine ⟨a :: before, a', after, rfl, ?_⟩
      rw [List.foldlM_cons, value_bind]
      exact hm

end Noted

namespace Written

variable {count sides : Nat}

/-! ## Suffixes one by one -/

theorem decided_checkCount (o : Option (List Char)) : (checkCount o).Decided := by
  cases o with
  | none => exact Noted.decided_pure 1
  | some ds =>
    apply (Noted.decided_number ds).chain
    intro n
    exact Noted.decided_ite (Noted.decided_pure n) (Noted.decided_refuse rfl)

theorem decided_checkSides (ds : List Char) : (checkSides ds).Decided := by
  apply (Noted.decided_number ds).chain
  intro n
  exact Noted.decided_ite (Noted.decided_pure n) (Noted.decided_refuse rfl)

/-- An explosion is used, or one message tells of it. -/
theorem decided_checkExplosion (sides : Nat) (recursive : Bool) (t : Option (List Char)) :
    (checkExplosion sides recursive t).Decided := by
  cases t with
  | none => exact Noted.decided_pure _
  | some ds =>
    apply (Noted.decided_number ds).chain
    intro n
    exact Noted.decided_ite (Noted.decided_pure _)
      (Noted.decided_ite (Noted.decided_pure _) (Noted.decided_refuse rfl))

/-- A selection is used, or one message tells of it. -/
theorem decided_checkSelection (count : Nat) (kind : Kind) (o : Option (List Char)) :
    (checkSelection count kind o).Decided := by
  have hfits : ∀ n, (if SelectionFits count kind n then pure (some n)
      else Noted.refuse (.selectionOutOfRange kind n (maxSelected count kind)) :
        Noted (Option Nat)).Decided :=
    fun n => Noted.decided_ite (Noted.decided_pure n) (Noted.decided_refuse rfl)
  cases o with
  | none => exact (Noted.decided_pure 1).chain hfits
  | some ds => exact (Noted.decided_number ds).chain hfits

/-! ## Suffixes in a row -/

/-- How many kinds of selection have a count that can be used. -/
def usedSelections (usable : Kind → Option Nat) : Nat :=
  Kind.all.foldr (fun kind n => (usable kind).toList.length + n) 0

/-- A kind without a count gets one, or is left without. -/
theorem usedSelections_update {usable : Kind → Option Nat} {kind : Kind}
    (h : usable kind = none) (v : Option Nat) :
    usedSelections (fun k => if k = kind then v else usable k) =
      usedSelections usable + v.toList.length := by
  cases kind <;> simp [usedSelections, Kind.all, h] <;> omega

namespace Choices

/-- How many of the suffixes met so far can be used. -/
def used (c : Choices) : Nat :=
  c.explosion.join.toList.length + usedSelections c.usable

/-- A suffix is used or reported. -/
theorem used_add (c : Choices) (x : Suffix) :
    (add count sides c x).value.used + reported (add count sides c x).notes = c.used + 1 := by
  cases x with
  | explosion recursive t =>
    cases h : c.explosion with
    | some e => rw [add_explosion_again h]; rfl
    | none =>
      have hcheck := (decided_checkExplosion sides recursive t).length_add_reported
      have hbefore : c.used = 0 + usedSelections c.usable := by rw [used, h]; rfl
      rw [add_explosion_first h, hbefore]
      show (checkExplosion sides recursive t).value.toList.length + usedSelections c.usable +
        reported (checkExplosion sides recursive t).notes = _
      omega
  | selection kind n =>
    cases h : c.selected kind with
    | some m => rw [add_selection_again h]; rfl
    | none =>
      have hcheck := (decided_checkSelection count kind n).length_add_reported
      have hnone : c.usable kind = none := by rw [usable, h]; rfl
      have hupdate := usedSelections_update hnone (checkSelection count kind n).value
      rw [add_selection_first h]
      have husable : (fun k => (if k = kind then some (checkSelection count kind n).value
          else c.selected k).join) =
          fun k => if k = kind then (checkSelection count kind n).value else c.usable k := by
        funext k
        split <;> rfl
      show c.explosion.join.toList.length + usedSelections (fun k => (if k = kind then
        some (checkSelection count kind n).value else c.selected k).join) +
          reported (checkSelection count kind n).notes = c.used + 1
      rw [husable, hupdate, used]
      omega

/-- Of some suffixes each one is used or reported. -/
theorem used_foldlM_add (c : Choices) (xs : List Suffix) :
    (xs.foldlM (add count sides) c).value.used + reported (xs.foldlM (add count sides) c).notes =
      c.used + xs.length := by
  induction xs generalizing c with
  | nil => rfl
  | cons x xs ih =>
    have hstep := @used_add count sides c x
    have hrest := ih (add count sides c x).value
    rw [List.foldlM_cons, Noted.value_bind, Noted.notes_bind, reported_append, List.length_cons]
    omega

end Choices

/-! ## Conflicts -/

/-- There is a message for each drop that is overridden. -/
theorem reported_overriddenDrops (usable : Kind → Option Nat) :
    reported (overriddenDrops usable) =
      (usable .dropHigh).toList.length + (usable .dropLow).toList.length := by
  unfold overriddenDrops
  cases usable .dropHigh <;> cases usable .dropLow <;> rfl

/-- A count that can be used is applied, or reported as overridden. -/
theorem length_resolve (count : Nat) (usable : Kind → Option Nat) :
    (resolve count usable).value.length + reported (resolve count usable).notes =
      usedSelections usable := by
  have hdrops := reported_overriddenDrops usable
  unfold resolve usedSelections Kind.all
  cases hkh : usable .keepHigh with
  | some h =>
    cases hkl : usable .keepLow with
    | none => simp [hkh, hkl, hdrops]
    | some l => simp [hkh, hkl, hdrops, Message.lostSuffixes]
  | none =>
    cases hkl : usable .keepLow with
    | some l => simp [hkh, hkl, hdrops]
    | none =>
      cases hdh : usable .dropHigh with
      | none => cases hdl : usable .dropLow <;> simp [hkh, hkl, hdh, hdl]
      | some h =>
        cases hdl : usable .dropLow with
        | none => simp [hkh, hkl, hdh, hdl]
        | some l =>
          by_cases hle : count ≤ h + l <;>
            simp [hkh, hkl, hdh, hdl, hle, Message.lostSuffixes]

/-- The suffixes of a group are its explosion, its selections and those that are reported. -/
theorem length_suffixes (count sides : Nat) (xs : List Suffix) :
    xs.length = (assemble count sides xs).value.explosion.toList.length +
      (assemble count sides xs).value.selections.length +
        reported (assemble count sides xs).notes := by
  have hrun := @Choices.used_foldlM_add count sides {} xs
  have hresolve := length_resolve count (Choices.ofSuffixes count sides xs).value.usable
  have hstart : Choices.used {} = 0 := rfl
  simp only [assemble, Noted.value_bind, Noted.value_pure, Noted.notes_bind, Noted.notes_pure,
    List.append_nil, reported_append]
  rw [Choices.ofSuffixes] at hresolve ⊢
  rw [Choices.used] at hrun
  omega

/-! ## What the messages say -/

/-- How often a part of a group of dice is written. -/
def timesWritten (xs : List Suffix) : SinglePart → Nat
  | .explosion => (explosions xs).length
  | .selection kind => (countsOf kind xs).length
  | _ => 0

/-- A selection that is the first of its kind, with a count in range. -/
def Offered (count : Nat) (xs : List Suffix) (s : Selection) : Prop :=
  firstCount xs s.kind = some s.count ∧ SelectionFits count s.kind s.count

/-- What a message says is true of the suffixes that are written and of the group they are made
into. Other messages are not about suffixes. -/
def TrueOf (xs : List Suffix) (d : Dice) : Message → Prop
  | .duplicate part => 2 ≤ timesWritten xs part
  | .numberTooLarge digits => ∃ x ∈ xs, ∃ ds ∈ x.digits,
      digits = String.ofList ds ∧ Noted.maxNumber < Numeral.value ds
  | .thresholdOutOfRange given sides => sides = d.sides ∧
      ¬ (Dice.minSides ≤ given ∧ given ≤ d.sides) ∧
      ∃ p ∈ explosions xs, ∃ ds ∈ p.2, Numeral.value ds = given
  | .selectionOutOfRange kind given max => max = (if kind.isKeep then d.count else d.count - 1) ∧
      ¬ (1 ≤ given ∧ given ≤ max) ∧ ∃ n ∈ countsOf kind xs, numberOrOne n = given
  | .keepLowOverridden s => s.kind = .keepLow ∧ Offered d.count xs s ∧
      ∃ s' ∈ d.selections, s'.kind = .keepHigh
  | .dropOverridden s => s.kind.isKeep = false ∧ Offered d.count xs s ∧
      ∃ s' ∈ d.selections, s'.kind.isKeep
  | .dropsEveryDie high low count => count = d.count ∧ Offered d.count xs ⟨.dropHigh, high⟩ ∧
      Offered d.count xs ⟨.dropLow, low⟩ ∧ count ≤ high + low
  | _ => False

theorem explosions_append (xs ys : List Suffix) :
    explosions (xs ++ ys) = explosions xs ++ explosions ys :=
  List.filterMap_append

theorem countsOf_append (kind : Kind) (xs ys : List Suffix) :
    countsOf kind (xs ++ ys) = countsOf kind xs ++ countsOf kind ys :=
  List.filterMap_append

/-- Every explosion among the suffixes is listed. -/
theorem mem_explosions {xs : List Suffix} {recursive : Bool} {t : Option (List Char)}
    (h : .explosion recursive t ∈ xs) : (recursive, t) ∈ explosions xs :=
  List.mem_filterMap.2 ⟨_, h, rfl⟩

/-- Every selection of a kind is listed. -/
theorem mem_countsOf {xs : List Suffix} {kind : Kind} {n : Option (List Char)}
    (h : .selection kind n ∈ xs) : n ∈ countsOf kind xs :=
  List.mem_filterMap.2 ⟨_, h, if_pos rfl⟩

variable {xs : List Suffix} {d : Dice} {m : Message}

/-- What is said about a threshold is true of an explosion among the suffixes. -/
theorem trueOf_checkExplosion {recursive : Bool} {t : Option (List Char)}
    (hx : .explosion recursive t ∈ xs) (h : m ∈ (checkExplosion d.sides recursive t).notes) :
    TrueOf xs d m := by
  cases t with
  | none => cases h
  | some ds =>
    simp only [checkExplosion, Noted.number_chain] at h
    split at h
    · split at h
      · cases h
      · next hne =>
        split at h
        · cases h
        · next hrange =>
          rw [List.mem_singleton.1 h]
          refine ⟨rfl, ?_, (recursive, some ds), mem_explosions hx, ds, rfl, rfl⟩
          omega
    · next hlarge =>
      rw [List.mem_singleton.1 h]
      exact ⟨_, hx, ds, rfl, rfl, Nat.lt_of_not_le hlarge⟩

/-- What is said about a number of dice is true of a selection among the suffixes. -/
theorem trueOf_checkSelection {kind : Kind} {n : Option (List Char)}
    (hx : .selection kind n ∈ xs) (h : m ∈ (checkSelection d.count kind n).notes) :
    TrueOf xs d m := by
  -- a count that does not fit is refused, however it is written
  have hrefused : m ∈ (if SelectionFits d.count kind (numberOrOne n) then
        pure (some (numberOrOne n))
      else Noted.refuse (.selectionOutOfRange kind (numberOrOne n) (maxSelected d.count kind)) :
        Noted (Option Nat)).notes → TrueOf xs d m := by
    intro h
    split at h
    · cases h
    · next hfits =>
      rw [List.mem_singleton.1 h]
      exact ⟨rfl, hfits, n, mem_countsOf hx, rfl⟩
  cases n with
  | none => exact hrefused h
  | some ds =>
    simp only [checkSelection, Noted.number_chain] at h
    split at h
    · exact hrefused h
    · next hlarge =>
      rw [List.mem_singleton.1 h]
      exact ⟨_, hx, ds, rfl, rfl, Nat.lt_of_not_le hlarge⟩

/-- A message about suffixes in a row is true of them: a suffix that is reported as given again has
one of its kind before it. -/
theorem trueOf_ofSuffixes (h : m ∈ (Choices.ofSuffixes d.count d.sides xs).notes) :
    TrueOf xs d m := by
  obtain ⟨before, x, after, rfl, hm⟩ := Noted.exists_step_of_mem_notes h
  have hx : x ∈ before ++ x :: after := List.mem_append_right _ (.head _)
  cases x with
  | explosion recursive t =>
    have hseen := @Choices.explosion_foldlM_add d.count d.sides {} before
    cases hc : (before.foldlM (Choices.add d.count d.sides) {}).value.explosion with
    | none =>
      rw [Choices.add_explosion_first hc] at hm
      exact trueOf_checkExplosion hx hm
    | some e =>
      rw [Choices.add_explosion_again hc] at hm
      rw [List.mem_singleton.1 hm]
      show 2 ≤ (explosions _).length
      have hne : explosions before ≠ [] := by
        intro hnil
        rw [hc, hnil] at hseen
        cases hseen
      have hpos := List.length_pos_iff.2 hne
      rw [explosions_append, explosions_explosion, List.length_append, List.length_cons]
      omega
  | selection kind n =>
    have hseen := @Choices.selected_foldlM_add d.count d.sides {} before kind
    cases hc : (before.foldlM (Choices.add d.count d.sides) {}).value.selected kind with
    | none =>
      rw [Choices.add_selection_first hc] at hm
      exact trueOf_checkSelection hx hm
    | some k =>
      rw [Choices.add_selection_again hc] at hm
      rw [List.mem_singleton.1 hm]
      show 2 ≤ (countsOf kind _).length
      have hne : countsOf kind before ≠ [] := by
        intro hnil
        rw [hc, hnil] at hseen
        cases hseen
      have hpos := List.length_pos_iff.2 hne
      rw [countsOf_append, countsOf_selection, if_pos rfl, List.length_append, List.length_cons]
      omega

/-- A count that is taken is the one that is written. -/
theorem checkSelection_eq {kind : Kind} {o : Option (List Char)} {n : Nat}
    (h : (checkSelection count kind o).value = some n) : numberOrOne o = n := by
  cases o with
  | none => exact (Noted.of_value_ite h).2.symm
  | some ds =>
    rw [checkSelection, Noted.number_chain] at h
    split at h
    · exact (Noted.of_value_ite h).2.symm
    · cases h

/-- The count of a kind that can be used is the first one, and in range. -/
theorem offered_of_usable {kind : Kind} {n : Nat}
    (h : (Choices.ofSuffixes count sides xs).value.usable kind = some n) :
    Offered count xs ⟨kind, n⟩ := by
  rw [Choices.usable_ofSuffixes] at h
  obtain ⟨o, ho, hcheck⟩ := Option.bind_eq_some_iff.1 h
  refine ⟨?_, checkSelection_fits hcheck⟩
  rw [firstCount, ho, ← checkSelection_eq hcheck]
  rfl

/-- Only drops that could be used are overridden. -/
theorem exists_of_mem_overriddenDrops {usable : Kind → Option Nat}
    (h : m ∈ overriddenDrops usable) :
    ∃ s : Selection, s.kind.isKeep = false ∧ usable s.kind = some s.count ∧
      m = .dropOverridden s := by
  rcases List.mem_append.1 h with h | h
  · obtain ⟨n, hn, rfl⟩ := Option.map_eq_some_iff.1 (Option.mem_toList.1 h)
    exact ⟨⟨.dropHigh, n⟩, rfl, hn, rfl⟩
  · obtain ⟨n, hn, rfl⟩ := Option.map_eq_some_iff.1 (Option.mem_toList.1 h)
    exact ⟨⟨.dropLow, n⟩, rfl, hn, rfl⟩

/-- A message about a conflict names selections that are offered, and those that win are applied. -/
theorem trueOf_resolve {usable : Kind → Option Nat}
    (hoffered : ∀ kind n, usable kind = some n → Offered d.count xs ⟨kind, n⟩)
    (hd : d.selections = (resolve d.count usable).value)
    (h : m ∈ (resolve d.count usable).notes) : TrueOf xs d m := by
  have hdrop : ∀ s ∈ d.selections, s.kind.isKeep → m ∈ overriddenDrops usable → TrueOf xs d m := by
    intro s hs hkeep hm
    obtain ⟨s', hdrops, husable, rfl⟩ := exists_of_mem_overriddenDrops hm
    exact ⟨hdrops, hoffered _ _ husable, s, hs, hkeep⟩
  unfold resolve at h hd
  cases hkh : usable .keepHigh with
  | some n =>
    cases hkl : usable .keepLow with
    | some l =>
      simp only [hkh, hkl] at h hd
      have hmem : ⟨.keepHigh, n⟩ ∈ d.selections := by rw [hd]; exact .head _
      rcases List.mem_cons.1 h with rfl | h
      · exact ⟨rfl, hoffered _ _ hkl, _, hmem, rfl⟩
      · exact hdrop _ hmem rfl h
    | none =>
      simp only [hkh, hkl] at h hd
      have hmem : ⟨.keepHigh, n⟩ ∈ d.selections := by rw [hd]; exact .head _
      exact hdrop _ hmem rfl h
  | none =>
    cases hkl : usable .keepLow with
    | some l =>
      simp only [hkh, hkl] at h hd
      have hmem : ⟨.keepLow, l⟩ ∈ d.selections := by rw [hd]; exact .head _
      exact hdrop _ hmem rfl h
    | none =>
      simp only [hkh, hkl] at h
      split at h
      · next high low hdh hdl =>
        split at h
        · next hle =>
          rw [List.mem_singleton.1 h]
          exact ⟨rfl, hoffered _ _ hdh, hoffered _ _ hdl, hle⟩
        · cases h
      · cases h
      · cases h
      · cases h

/-! ## Groups -/

/-- Every message about the suffixes of a group is true. -/
theorem trueOf_assemble (h : m ∈ (assemble count sides xs).notes) :
    TrueOf xs (assemble count sides xs).value m := by
  simp only [assemble, Noted.notes_bind, Noted.notes_pure, List.append_nil] at h
  rcases List.mem_append.1 h with h | h
  · exact trueOf_ofSuffixes (d := (assemble count sides xs).value) h
  · exact trueOf_resolve (fun kind n => offered_of_usable) rfl h

/-- A group is refused with a message about its quantity or its sides, or it is made of its suffixes
without any other message. -/
theorem check_cases (w : WrittenDice) :
    (w.check.value = none ∧
      ¬ ((checkCount w.count).notes = [] ∧ (checkSides w.sides).notes = [])) ∨
      ∃ count sides, checkCount w.count = pure (some count) ∧
        checkSides w.sides = pure (some sides) ∧
        w.check = some <$> assemble count sides w.suffixes := by
  rcases decided_checkCount w.count with ⟨count, hcount⟩ | ⟨m, -, hcount⟩
  · rcases decided_checkSides w.sides with ⟨sides, hsides⟩ | ⟨m, -, hsides⟩
    · right
      refine ⟨count, sides, hcount, hsides, ?_⟩
      rw [WrittenDice.check, hcount, hsides, pure_bind, pure_bind]
    · left
      rw [WrittenDice.check, hcount, hsides]
      exact ⟨rfl, fun h => List.cons_ne_nil _ _ h.2⟩
  · left
    rw [WrittenDice.check, hcount]
    exact ⟨rfl, fun h => List.cons_ne_nil _ _ h.1⟩

/-- A group without messages has a quantity and sides without messages. -/
theorem notes_of_check_silent {w : WrittenDice} (h : w.check.notes = []) :
    (checkCount w.count).notes = [] ∧ (checkSides w.sides).notes = [] := by
  rw [WrittenDice.check, Noted.notes_bind, Noted.notes_bind] at h
  obtain ⟨hcount, hrest⟩ := List.append_eq_nil_iff.1 h
  exact ⟨hcount, (List.append_eq_nil_iff.1 hrest).1⟩

/-- Each suffix of a group is used or reported. If the dice are taken, the explosion, the selections
and the suffixes that the messages report add up to those that are written, where drops that leave
no die are two in one message; and every message is true. If no dice are taken, there is a message.
The quantity and the sides alone decide which of the two it is. -/
theorem suffixes_conserved (w : WrittenDice) :
    (∀ d, w.check.value = some d →
      w.suffixes.length =
        (if d.explosion.isSome then 1 else 0) + d.selections.length + reported w.check.notes ∧
      ∀ m ∈ w.check.notes, TrueOf w.suffixes d m) ∧
    (w.check.value = none → w.check.notes ≠ []) ∧
    (w.check.value.isSome ↔ (1 ≤ numberOrOne w.count ∧ numberOrOne w.count ≤ Dice.maxCount) ∧
      Dice.minSides ≤ Numeral.value w.sides ∧ Numeral.value w.sides ≤ Dice.maxSides) := by
  rw [← notes_checkCount_eq_nil_iff, ← notes_checkSides_eq_nil_iff]
  rcases check_cases w with ⟨hnone, hnotes⟩ | ⟨count, sides, hcount, hsides, hcheck⟩
  · rw [hnone]
    refine ⟨nofun, fun _ hsilent => hnotes (notes_of_check_silent hsilent), ?_⟩
    exact iff_of_false Bool.false_ne_true hnotes
  · rw [hcheck, hcount, hsides, Noted.value_map, Noted.notes_map]
    refine ⟨fun d hd => ?_, nofun, iff_of_true rfl ⟨rfl, rfl⟩⟩
    obtain rfl := Option.some.inj hd
    refine ⟨?_, fun m hm => trueOf_assemble hm⟩
    have hlength := length_suffixes count sides w.suffixes
    rw [Option.length_toList] at hlength
    exact hlength

/-- Of the suffixes in `4d6!!dh3dl2!dhkl0` the first one is used. One message reports two drops that
leave no die, and the other three suffixes have a message each. The dice `0d6!` are refused. -/
theorem suffixes_conserved_of_conflicts :
    let w : WrittenDice := ⟨some ['4'], ['6'], [.explosion true none,
      .selection .dropHigh (some ['3']), .selection .dropLow (some ['2']), .explosion false none,
      .selection .dropHigh none, .selection .keepLow (some ['0'])]⟩
    let d : Dice := ⟨4, 6, some ⟨none, true⟩, []⟩
    let refused : WrittenDice := ⟨some ['0'], ['6'], [.explosion false none]⟩
    w.check.value = some d ∧ w.suffixes.length = 1 + 0 + reported w.check.notes ∧
      .dropsEveryDie 3 2 4 ∈ w.check.notes ∧ TrueOf w.suffixes d (.dropsEveryDie 3 2 4) ∧
      refused.check.value = none ∧ refused.check.notes ≠ [] := by
  intro w d refused
  have hd : w.check.value = some d := by decide
  have hm : Message.dropsEveryDie 3 2 4 ∈ w.check.notes := by decide
  have hnone : refused.check.value = none := by decide
  obtain ⟨hlength, htrue⟩ := (suffixes_conserved w).1 d hd
  exact ⟨hd, hlength, hm, htrue _ hm, hnone, (suffixes_conserved refused).2.1 hnone⟩

end Written

end TabletopDice
