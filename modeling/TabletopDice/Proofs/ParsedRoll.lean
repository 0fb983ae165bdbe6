import TabletopDice.Proofs.LayoutSpelling
import TabletopDice.Proofs.ValidDice

/-!
# What is read is valid

Whatever a text is, with or without faults, the roll that is read from it keeps the bounds of roll
text: what lies outside of them has been left out. Main statements: every expression is valid
(`valid_of_mem_ofText`), and there are not too many groups of dice (`totalGroups_ofText_le`).
-/

namespace TabletopDice

namespace Noted

variable {α : Type}

/-- What is taken fulfils the condition that it was checked for. -/
theorem of_value_ite {p : Prop} [Decidable p] {a b : α} {m : Message}
    (h : (if p then pure (some a) else refuse m : Noted (Option α)).value = some b) :
    p ∧ b = a := by
  split at h
  · next hp =>
    cases h
    exact ⟨hp, rfl⟩
  · cases h

/-- A number that is taken fulfils the condition that it was checked for. -/
theorem exists_of_value_number_chain {digits : List Char} {f : Nat → Noted (Option α)} {b : α}
    (h : ((number digits).chain f).value = some b) : ∃ n, (f n).value = some b := by
  rw [number_chain] at h
  split at h
  · exact ⟨_, h⟩
  · cases h

end Noted

namespace Written

/-! ## Parts of a group -/

/-- A quantity that is used is in range. -/
theorem checkCount_mem {o : Option (List Char)} {n : Nat} (h : (checkCount o).value = some n) :
    1 ≤ n ∧ n ≤ Dice.maxCount := by
  cases o with
  | none =>
    cases h
    decide
  | some ds =>
    obtain ⟨m, hm⟩ := Noted.exists_of_value_number_chain h
    obtain ⟨hrange, rfl⟩ := Noted.of_value_ite hm
    exact hrange

/-- Sides that are used are in range. -/
theorem checkSides_mem {ds : List Char} {n : Nat} (h : (checkSides ds).value = some n) :
    Dice.minSides ≤ n ∧ n ≤ Dice.maxSides := by
  obtain ⟨m, hm⟩ := Noted.exists_of_value_number_chain h
  obtain ⟨hrange, rfl⟩ := Noted.of_value_ite hm
  exact hrange

/-- The threshold of an explosion that is used is at least two and below the sides. -/
theorem checkExplosion_mem {sides : Nat} {recursive : Bool} {o : Option (List Char)}
    {e : Explosion} (h : (checkExplosion sides recursive o).value = some e) :
    ∀ t ∈ e.threshold, Dice.minSides ≤ t ∧ t < sides := by
  cases o with
  | none =>
    cases h
    rintro t ⟨⟩
  | some ds =>
    obtain ⟨m, hm⟩ := Noted.exists_of_value_number_chain h
    split at hm
    · cases hm
      rintro t ⟨⟩
    · obtain ⟨hrange, rfl⟩ := Noted.of_value_ite hm
      rintro t ⟨⟩
      exact hrange

/-- A number of selected dice that is used fits the group. -/
theorem checkSelection_fits {count : Nat} {kind : Kind} {o : Option (List Char)} {n : Nat}
    (h : (checkSelection count kind o).value = some n) : SelectionFits count kind n := by
  cases o with
  | none =>
    obtain ⟨hfits, rfl⟩ := Noted.of_value_ite h
    exact hfits
  | some ds =>
    obtain ⟨m, hm⟩ := Noted.exists_of_value_number_chain h
    obtain ⟨hfits, rfl⟩ := Noted.of_value_ite hm
    exact hfits

/-- A selection that fits is valid by itself. -/
theorem validSelections_single {count n : Nat} {kind : Kind} (h : SelectionFits count kind n) :
    ValidSelections count [⟨kind, n⟩] := by
  cases hkind : kind.isKeep with
  | true =>
    obtain ⟨hpos, hle⟩ := (selectionFits_of_isKeep hkind).1 h
    exact .keep hkind hpos hle
  | false =>
    obtain ⟨hpos, hlt⟩ := (selectionFits_of_not_isKeep hkind).1 h
    exact .drop hkind hpos hlt

/-- However conflicts are settled, the selections that are left fit together. -/
theorem validSelections_resolve {count : Nat} {usable : Kind → Option Nat}
    (h : ∀ kind, ∀ n ∈ usable kind, SelectionFits count kind n) :
    ValidSelections count (resolve count usable).value := by
  have hsingle : ∀ kind n, usable kind = some n → ValidSelections count [⟨kind, n⟩] :=
    fun kind n hn => validSelections_single (h kind n hn)
  unfold resolve
  cases hkh : usable .keepHigh with
  | some n =>
    cases usable .keepLow with
    | some _ => exact hsingle .keepHigh n hkh
    | none => exact hsingle .keepHigh n hkh
  | none =>
    cases hkl : usable .keepLow with
    | some n => exact hsingle .keepLow n hkl
    | none =>
      cases hdh : usable .dropHigh with
      | some n =>
        cases hdl : usable .dropLow with
        | some m =>
          dsimp only
          -- both kinds of drops stay only if they leave a die
          split
          · exact .none
          · next hsum =>
            have hn := h .dropHigh n hdh
            have hm := h .dropLow m hdl
            exact .dropBoth hn.1 hm.1 (Nat.lt_of_not_le hsum)
        | none => exact hsingle .dropHigh n hdh
      | none =>
        cases hdl : usable .dropLow with
        | some m => exact hsingle .dropLow m hdl
        | none => exact .none

/-! ## Groups and terms -/

/-- A group that is put together from a quantity and sides in range is valid. -/
theorem valid_assemble {count sides : Nat} (hcount : 1 ≤ count ∧ count ≤ Dice.maxCount)
    (hsides : Dice.minSides ≤ sides ∧ sides ≤ Dice.maxSides) (xs : List Suffix) :
    (assemble count sides xs).value.Valid where
  count := hcount
  sides := hsides
  threshold := by
    intro e he
    have he : (Choices.ofSuffixes count sides xs).value.explosion.join = some e := he
    rw [Choices.explosion_ofSuffixes, Option.bind_eq_some_iff] at he
    obtain ⟨p, -, hp⟩ := he
    exact checkExplosion_mem hp
  selections := by
    refine validSelections_resolve fun kind n hn => ?_
    rw [Option.mem_def, Choices.usable_ofSuffixes, Option.bind_eq_some_iff] at hn
    obtain ⟨o, -, ho⟩ := hn
    exact checkSelection_fits ho

/-- A group of dice that is used is valid. -/
theorem valid_of_check {w : WrittenDice} {d : Dice} (h : w.check.value = some d) : d.Valid := by
  simp only [WrittenDice.check, Noted.value_bind] at h
  split at h
  · next count sides hcount hsides =>
    cases h
    exact valid_assemble (checkCount_mem hcount) (checkSides_mem hsides) w.suffixes
  · cases h

/-- A term that is read from a fragment is valid. -/
theorem valid_of_checkTerm {cs : List Char} {t : Term} (h : (checkTerm cs).value = some t) :
    t.Valid := by
  unfold checkTerm at h
  split at h
  · obtain ⟨hle, rfl⟩ := Noted.of_value_ite h
    exact ⟨Int.natCast_nonneg _, hle⟩
  · rw [Noted.value_map, Option.map_eq_some_iff] at h
    obtain ⟨d, hd, rfl⟩ := h
    exact valid_of_check hd
  · cases h

/-! ## Expressions -/

theorem valid_of_mem_readTerms {fs : List Fragment} {p : Sign × Term}
    (h : p ∈ (readTerms fs).value) : p.2.Valid := by
  induction fs with
  | nil => cases h
  | cons f fs ih =>
    simp only [readTerms, Noted.value_bind, Noted.value_pure, List.mem_append,
      Option.mem_toList, Option.map_eq_some_iff] at h
    rcases h with ⟨t, ht, rfl⟩ | h
    · exact valid_of_checkTerm ht
    · exact ih h

/-- Every expression that is left is valid. -/
theorem valid_of_mem_readExprs {fss : List (List Fragment)} {e : Expr}
    (h : e ∈ (readExprs fss).value) : e.Valid := by
  induction fss with
  | nil => cases h
  | cons fs fss ih =>
    simp only [readExprs, Noted.value_bind, Noted.value_pure] at h
    split at h
    · exact ih h
    · next hne =>
      rcases List.mem_cons.1 h with rfl | h
      · exact ⟨by simpa using hne, fun p => valid_of_mem_readTerms⟩
      · exact ih h

theorem valid_standardExpr : standardExpr.Valid := by
  have hstandard : Dice.standard.Valid := by
    refine ⟨by decide, by decide, ?_, .none⟩
    rintro e ⟨⟩
  refine ⟨by decide, ?_⟩
  intro p hp
  rw [List.mem_singleton.1 hp]
  exact hstandard

/-- Every expression of a block is valid, also the one that stands in for none. -/
theorem valid_of_mem_readBlock {body : List Char} {e : Expr}
    (h : e ∈ (readBlock body).value.exprs) : e.Valid := by
  simp only [readBlock, Noted.value_bind, Noted.value_pure] at h
  split at h
  · exact valid_of_mem_readExprs h
  · rw [List.mem_singleton.1 h]
    exact valid_standardExpr

/-! ## Repetition -/

theorem totalGroups_append (es es' : List Expr) :
    Expr.totalGroups (es ++ es') = Expr.totalGroups es + Expr.totalGroups es' := by
  induction es with
  | nil => exact (Nat.zero_add _).symm
  | cons e es ih =>
    show e.diceGroups + Expr.totalGroups (es ++ es') = _
    rw [ih, ← Nat.add_assoc]
    rfl

/-- A block that is repeated has its groups as many times. -/
theorem totalGroups_flatten_replicate (n : Nat) (block : List Expr) :
    Expr.totalGroups (List.replicate n block).flatten = n * Expr.totalGroups block := by
  induction n with
  | zero => exact (Nat.zero_mul _).symm
  | succ n ih =>
    rw [List.replicate_succ, List.flatten_cons, totalGroups_append, ih, Nat.succ_mul, Nat.add_comm]

/-- However often a block is repeated, there are not too many groups of dice. -/
theorem totalGroups_repeated_le (block : List Expr) (n : Nat) :
    Expr.totalGroups (repeated block n).value ≤ maxDiceGroups := by
  unfold repeated
  dsimp only
  split
  · next hgroups =>
    have hcap : maxDiceGroups < maxReported := by decide
    have hcopies : min n maxCopies * Expr.totalGroups block ≤ Expr.totalGroups block * n := by
      rw [Nat.mul_comm]
      exact Nat.mul_le_mul_left _ (Nat.min_le_left _ _)
    show Expr.totalGroups (List.replicate (min n maxCopies) block).flatten ≤ maxDiceGroups
    rw [totalGroups_flatten_replicate]
    omega
  · exact Nat.zero_le _

/-- Repeating a block adds no other expressions. -/
theorem mem_of_mem_repeated {block : List Expr} {n : Nat} {e : Expr}
    (h : e ∈ (repeated block n).value) : e ∈ block := by
  unfold repeated at h
  dsimp only at h
  split at h
  · obtain ⟨es, hes, he⟩ := List.mem_flatten.1 h
    rwa [(List.mem_replicate.1 hes).2] at he
  · cases h

end Written

namespace Roll

open Written

/-- A text is too long to be read, or it is read from a body without its repetition and comment. -/
theorem ofText_cases (text : String) :
    ofText text = { raw := text, messages := [.inputTooLong] } ∨
      ∃ rest body n comment, Repeats (Text.trim text.toList) rest n ∧
        Commented (Text.normal rest) body comment ∧
        ofText text = { (readBody body n).value with
          comment := comment, raw := text, messages := (readBody body n).notes } := by
  by_cases hlong : maxTextLength < (Text.trim text.toList).length
  · exact .inl (ofText_of_long hlong)
  · have hrepeats := repeats_split (Text.trim text.toList)
    have hcommented := commented_split (Text.normal (splitRepetition (Text.trim text.toList)).1)
    exact .inr ⟨_, _, _, _, hrepeats, hcommented,
      ofText_of_short (Nat.not_lt.1 hlong) hrepeats hcommented⟩

/-- Whatever text is read, all of its expressions are valid. -/
theorem valid_of_mem_ofText {text : String} {e : Expr} (h : e ∈ (ofText text).exprs) :
    e.Valid := by
  rcases ofText_cases text with hlong | ⟨rest, body, n, comment, -, -, hread⟩
  · rw [hlong] at h
    cases h
  · rw [hread] at h
    exact valid_of_mem_readBlock (mem_of_mem_repeated h)

/-- Whatever text is read, there are not too many groups of dice. -/
theorem totalGroups_ofText_le (text : String) :
    Expr.totalGroups (ofText text).exprs ≤ maxDiceGroups := by
  rcases ofText_cases text with hlong | ⟨rest, body, n, comment, -, -, hread⟩
  · rw [hlong]
    exact Nat.zero_le _
  · rw [hread]
    exact totalGroups_repeated_le _ n

end Roll

end TabletopDice
