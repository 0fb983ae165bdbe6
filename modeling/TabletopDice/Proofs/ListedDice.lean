import Mathlib
import TabletopDice.Roll
import TabletopDice.TraitRoll
import TabletopDice.Proofs.LayoutSpelling
import TabletopDice.Proofs.ValidDice

/-!
# Lists of rolled dice

With a limit a group lists only some of its dice, and one more entry counts the others. Main
statement: every description lists its groups like this, except that a group with dice of which none
may be listed has a separator in front of its only entry (`groups_listed`).
-/

namespace TabletopDice

/-! ## Entries -/

/-- Entries in brackets, behind what they belong to. -/
def bracketed (head : String) (entries : List String) : String :=
  head ++ "[" ++ ", ".intercalate entries ++ "]"

/-- An entry in front of others makes the text longer, even if it is empty itself. -/
theorem bracketed_cons_ne (head entry : String) {entries : List String} (h : entries ≠ []) :
    bracketed head (entry :: entries) ≠ bracketed head entries := by
  intro heq
  have hlength := congrArg String.length heq
  unfold bracketed at hlength
  rw [String.intercalate_cons_of_ne_nil h] at hlength
  have hseparator : ", ".length = 2 := rfl
  simp only [String.length_append, hseparator] at hlength
  omega

/-- A text that can be told apart from its neighbours in a list: it is not empty and does not have
the character that entries are separated by. -/
def IsEntry (s : String) : Prop :=
  s ≠ "" ∧ ',' ∉ s.toList

/-- A number is an entry: it is not empty and has no comma. -/
theorem isEntry_toString (n : Nat) : IsEntry (toString n) := by
  refine ⟨fun h => Numeral.ofNat_ne_nil n ?_, fun h => ?_⟩
  · rw [← Written.toList_toString, h]
    rfl
  · rw [Written.toList_toString] at h
    exact absurd (Numeral.isDigit_of_mem_ofNat h) (by decide)

theorem IsEntry.append {s t : String} (hs : IsEntry s) (ht : ',' ∉ t.toList) :
    IsEntry (s ++ t) := by
  refine ⟨fun h => hs.1 (String.append_eq_empty_iff.1 h).1, ?_⟩
  rw [String.toList_append, List.mem_append]
  exact fun h => h.elim hs.2 ht

/-- The text of a die is an entry, since it has no comma. -/
theorem Die.isEntry_text (d : Die) : IsEntry d.text := by
  unfold text
  refine ((isEntry_toString d.value).append ?_).append ?_
  · split <;> simp
  · split <;> simp

namespace RolledDice

/-- The entries of a group: the texts of the first dice, as many as the limit allows, and then the
number of the others, if there are any. -/
def entries (limit : Option Nat) (r : RolledDice) : List String :=
  let shown := min (limit.getD r.rolls.length) r.rolls.length
  (r.rolls.take shown).map Die.text ++
    if shown < r.rolls.length then [toString (r.rolls.length - shown) ++ " more..."] else []

/-- Whatever is listed of a group is an entry. -/
theorem isEntry_of_mem_entries {limit : Option Nat} {r : RolledDice} :
    ∀ s ∈ r.entries limit, IsEntry s := by
  intro s hs
  rcases List.mem_append.1 hs with h | h
  · obtain ⟨d, -, rfl⟩ := List.mem_map.1 h
    exact d.isEntry_text
  · split at h
    · rw [List.mem_singleton.1 h]
      exact (isEntry_toString _).append (by simp)
    · cases h

/-- Whether a group has dice of which none may be listed. -/
def Withheld (limit : Option Nat) (r : RolledDice) : Prop :=
  limit = some 0 ∧ r.rolls ≠ []

instance (limit : Option Nat) (r : RolledDice) : Decidable (r.Withheld limit) :=
  inferInstanceAs (Decidable (_ ∧ _))

/-- What stands between the brackets of a group: its entries, and in front of them an empty text if
it has dice but none may be listed. -/
def listed (limit : Option Nat) (r : RolledDice) : List String :=
  if r.Withheld limit then "" :: r.entries limit else r.entries limit

section

variable {limit : Option Nat} {r : RolledDice}

theorem Withheld.length_pos (h : r.Withheld limit) : 0 < r.rolls.length :=
  List.length_pos_iff.2 h.2

/-- Where every die may be listed none is withheld. -/
theorem not_withheld_of_le (h : r.rolls.length ≤ limit.getD r.rolls.length) :
    ¬ r.Withheld limit := by
  intro hwithheld
  have hpos := hwithheld.length_pos
  rw [hwithheld.1, Option.getD_some] at h
  omega

/-- Where dice are left out they are withheld if the limit is zero. -/
theorem withheld_iff_of_lt (h : limit.getD r.rolls.length < r.rolls.length) :
    r.Withheld limit ↔ limit.getD r.rolls.length = 0 := by
  have hne : r.rolls ≠ [] := List.length_pos_iff.1 (Nat.zero_lt_of_lt h)
  cases limit with
  | none => exact absurd h (Nat.lt_irrefl _)
  | some n => simp [Withheld, hne]

/-- Where every die may be listed the entries are the texts of all dice. -/
theorem entries_of_le (h : r.rolls.length ≤ limit.getD r.rolls.length) :
    r.entries limit = r.rolls.map Die.text := by
  unfold entries
  rw [Nat.min_eq_right h]
  simp

/-- Where dice are left out the last entry is their number. -/
theorem entries_of_lt (h : limit.getD r.rolls.length < r.rolls.length) :
    r.entries limit = (r.rolls.take (limit.getD r.rolls.length)).map Die.text ++
      [toString (r.rolls.length - limit.getD r.rolls.length) ++ " more..."] := by
  unfold entries
  rw [Nat.min_eq_left (Nat.le_of_lt h)]
  dsimp only
  rw [if_pos h]

/-- The text of a group is that of its dice and a list in brackets. -/
theorem describe_eq_bracketed (limit : Option Nat) (r : RolledDice) :
    r.describe limit = bracketed r.dice.text (r.listed limit) := by
  unfold describe bracketed listed
  dsimp only
  by_cases hlt : limit.getD r.rolls.length < r.rolls.length
  · rw [if_pos (Nat.sub_pos_of_lt hlt), entries_of_lt hlt]
    split
    · next hwithheld =>
      rw [(withheld_iff_of_lt hlt).1 hwithheld]
      simp [String.append_assoc]
    · next hwithheld =>
      have hshown : (r.rolls.take (limit.getD r.rolls.length)).map Die.text ≠ [] := by
        rw [Ne, List.map_eq_nil_iff, List.take_eq_nil_iff]
        rintro (hzero | hnil)
        · exact hwithheld ((withheld_iff_of_lt hlt).2 hzero)
        · simp [hnil] at hlt
      rw [String.intercalate_append_of_ne_nil hshown (List.cons_ne_nil _ _)]
      simp [String.append_assoc]
  · have hle := Nat.le_of_not_lt hlt
    rw [if_neg (by omega), if_neg (not_withheld_of_le hle), entries_of_le hle,
      List.take_of_length_le hle]
    simp

/-- Withheld dice have an entry too many, and no others have. -/
theorem describe_eq_bracketed_entries_iff :
    r.describe limit = bracketed r.dice.text (r.entries limit) ↔ ¬ r.Withheld limit := by
  rw [describe_eq_bracketed, listed]
  split
  · next h =>
    have hlt : limit.getD r.rolls.length < r.rolls.length := by
      rw [h.1]
      exact h.length_pos
    have hne : r.entries limit ≠ [] := by
      rw [entries_of_lt hlt]
      exact List.append_ne_nil_of_right_ne_nil _ (List.cons_ne_nil _ _)
    exact iff_of_false (bracketed_cons_ne _ _ hne) (not_not_intro h)
  · next h => exact iff_of_true rfl h

end

/-- A limit that allows for all dice is none. -/
theorem describe_some_of_le {limit : Nat} {r : RolledDice} (h : r.rolls.length ≤ limit) :
    r.describe (some limit) = r.describe none := by
  have hsome : r.rolls.length ≤ (some limit).getD r.rolls.length := h
  have hnone : r.rolls.length ≤ (none : Option Nat).getD r.rolls.length := Nat.le_refl _
  rw [describe_eq_bracketed_entries_iff.2 (not_withheld_of_le hsome),
    describe_eq_bracketed_entries_iff.2 (not_withheld_of_le hnone), entries_of_le hsome,
    entries_of_le hnone]

end RolledDice

/-! ## Groups within other texts -/

/-- The text of a term with a text for its group. -/
def RolledTerm.textWith (f : RolledDice → String) : RolledTerm → String
  | number n => toString n
  | dice r => f r

/-- The text of an expression with a text for each of its groups. -/
def RolledExpr.textWith (f : RolledDice → String) (e : RolledExpr) : String :=
  joinSigned (e.terms.map fun p => (p.1, p.2.textWith f))

/-- The text of the result of an expression with a text for each of its groups. -/
def ExprResult.textWith (f : RolledDice → String) (x : ExprResult) : String :=
  x.rolled.textWith f ++ " = " ++ toString x.modifiedTotal ++
    if x.outcome = .notApplicable then "" else " (" ++ x.outcome.text ++ ")"

/-- The text of the result of a roll with a text for each of its groups. -/
def RollResult.textWith (f : RolledDice → String) (x : RollResult) : String :=
  "\n".intercalate (x.comment.toList ++ x.exprs.map (ExprResult.textWith f))

/-- The text of the result of a trait roll with a text for each of its dice. -/
def TraitResult.textWith (f : RolledDice → String) (x : TraitResult) : String :=
  x.label .trait ++ " " ++ f x.trait ++ " = " ++ toString x.traitTotal ++ ", " ++
    x.label .wild ++ " " ++ f x.wild ++ " = " ++ toString x.wildTotal ++
    " (" ++ x.outcome.text ++ ")"

/-- The groups of the result of a roll. -/
def RollResult.groups (x : RollResult) : List RolledDice :=
  x.exprs.flatMap fun e => e.rolled.groups

section

variable {f g : RolledDice → String}

theorem RolledExpr.textWith_congr {e : RolledExpr} (h : ∀ r ∈ e.groups, f r = g r) :
    e.textWith f = e.textWith g := by
  refine congrArg joinSigned (List.map_congr_left fun p hp => ?_)
  obtain ⟨s, term⟩ := p
  cases term with
  | number n => rfl
  | dice r => rw [RolledTerm.textWith, RolledTerm.textWith, h r (List.mem_filterMap.2 ⟨_, hp, rfl⟩)]

theorem ExprResult.textWith_congr {x : ExprResult} (h : ∀ r ∈ x.rolled.groups, f r = g r) :
    x.textWith f = x.textWith g := by
  rw [textWith, textWith, RolledExpr.textWith_congr h]

theorem RollResult.textWith_congr {x : RollResult} (h : ∀ r ∈ x.groups, f r = g r) :
    x.textWith f = x.textWith g := by
  have hexprs : x.exprs.map (ExprResult.textWith f) = x.exprs.map (ExprResult.textWith g) :=
    List.map_congr_left fun e he => ExprResult.textWith_congr fun r hr =>
      h r (List.mem_flatMap.2 ⟨e, he, hr⟩)
  rw [textWith, textWith, hexprs]

theorem TraitResult.textWith_congr {x : TraitResult} (h : ∀ r ∈ [x.trait, x.wild], f r = g r) :
    x.textWith f = x.textWith g := by
  rw [textWith, textWith, h x.trait (by simp), h x.wild (by simp)]

end

/-- How a description with a limit lists the groups within it, given the same description with a
text of choice for each group. -/
structure ListsGroups (groups : List RolledDice) (textWith : (RolledDice → String) → String)
    (describe : Option Nat → String) (limit : Option Nat) : Prop where
  /-- Each group is written with its list. -/
  listed : describe limit = textWith fun r => bracketed r.dice.text (r.listed limit)
  /-- Unless dice are withheld the list is made of the entries. -/
  entries : (∀ r ∈ groups, ¬ r.Withheld limit) →
    describe limit = textWith fun r => bracketed r.dice.text (r.entries limit)
  /-- A limit that allows for all dice is none. -/
  unlimited : (∀ r ∈ groups, ∀ l ∈ limit, r.rolls.length ≤ l) → describe limit = describe none

/-- A description that depends on nothing but the descriptions of its groups lists them as they are
listed on their own. -/
theorem listsGroups_of_congr {groups : List RolledDice}
    {textWith : (RolledDice → String) → String} (limit : Option Nat)
    (h : ∀ f g, (∀ r ∈ groups, f r = g r) → textWith f = textWith g) :
    ListsGroups groups textWith (fun l => textWith (RolledDice.describe l)) limit where
  listed := h _ _ fun r _ => r.describe_eq_bracketed limit
  entries hshown := h _ _ fun r hr =>
    RolledDice.describe_eq_bracketed_entries_iff.2 (hshown r hr)
  unlimited hle := by
    cases limit with
    | none => rfl
    | some l => exact h _ _ fun r hr => RolledDice.describe_some_of_le (hle r hr l rfl)

/-- A group lists its dice in order up to the limit, and then the number of the others if there are
any, unless it has dice of which none may be listed. Then, and only then, there is a separator
behind an empty text. No entry is empty or has a comma within it. In the same way groups are listed
within an expression, within the result of an expression or of a roll, and within the result of a
trait roll, and in all of them a limit that no group exceeds is none. -/
theorem groups_listed (limit : Option Nat) :
    (∀ r : RolledDice,
      r.describe limit = bracketed r.dice.text (r.entries limit) ↔ ¬ r.Withheld limit) ∧
    (∀ r : RolledDice, ∀ s ∈ r.entries limit, IsEntry s) ∧
    (∀ r : RolledDice, ListsGroups [r] (fun f => f r) (fun l => r.describe l) limit) ∧
    (∀ e : RolledExpr,
      ListsGroups e.groups (fun f => e.textWith f) (fun l => e.describe l) limit) ∧
    (∀ x : ExprResult,
      ListsGroups x.rolled.groups (fun f => x.textWith f) (fun l => x.describe l) limit) ∧
    (∀ x : RollResult,
      ListsGroups x.groups (fun f => x.textWith f) (fun l => x.describe l) limit) ∧
    ∀ x : TraitResult,
      ListsGroups [x.trait, x.wild] (fun f => x.textWith f) (fun l => x.describe l) limit :=
  ⟨fun _ => RolledDice.describe_eq_bracketed_entries_iff,
    fun _ => RolledDice.isEntry_of_mem_entries,
    fun r => listsGroups_of_congr limit fun _ _ h => h r (.head _),
    fun _ => listsGroups_of_congr limit fun _ _ => RolledExpr.textWith_congr,
    fun _ => listsGroups_of_congr limit fun _ _ => ExprResult.textWith_congr,
    fun _ => listsGroups_of_congr limit fun _ _ => RollResult.textWith_congr,
    fun _ => listsGroups_of_congr limit fun _ _ => TraitResult.textWith_congr⟩

/-- Four dice of which two are listed, followed by the number of the others. -/
theorem groups_listed_two :
    let r : RolledDice :=
      { dice := { count := 4, sides := 6, selections := [⟨.keepHigh, 2⟩] }
        rolls := [.single 6, { Die.single 2 with droppedBy := some ⟨.keepHigh, 2⟩ }, .single 5,
          { Die.single 3 with droppedBy := some ⟨.keepHigh, 2⟩ }] }
    ¬ r.Withheld (some 2) ∧
      r.describe (some 2) = bracketed r.dice.text ["6", "2 (d)", "2 more..."] ∧
      (∀ s ∈ ["6", "2 (d)", "2 more..."], IsEntry s) ∧
      r.rolls.length ≤ 4 ∧ r.describe (some 4) = r.describe none := by
  intro r
  obtain ⟨hbracketed, hentries, -⟩ := groups_listed (some 2)
  obtain ⟨-, -, hgroup, -⟩ := groups_listed (some 4)
  have hshown : ¬ r.Withheld (some 2) := by decide
  have hlist : r.entries (some 2) = ["6", "2 (d)", "2 more..."] := by decide
  refine ⟨hshown, ?_, ?_, by decide, ?_⟩
  · rw [← hlist]
    exact (hbracketed r).2 hshown
  · rw [← hlist]
    exact hentries r
  · exact (hgroup r).unlimited (by decide)

/-- Two dice of which none may be listed: the text is not the one with the entries. -/
theorem describe_ne_bracketed_withheld :
    let r : RolledDice :=
      { dice := { count := 2, sides := 6 }, rolls := [.single 3, .single 4] }
    r.describe (some 0) = "2d6[, 2 more...]" ∧ r.entries (some 0) = ["2 more..."] ∧
      r.describe (some 0) ≠ bracketed r.dice.text (r.entries (some 0)) := by
  decide

end TabletopDice
