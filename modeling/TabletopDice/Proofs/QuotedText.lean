import TabletopDice.Proofs.SingleLine
import TabletopDice.Proofs.SoundRoll
import TabletopDice.Proofs.TokenText

/-!
# Messages on a single line

A message repeats parts of the roll text, but only after the blanks are gone. Main statement:
whatever the text, its comment and every message about it are on one line (`Roll.oneLine_ofText`,
`TraitRoll.oneLine_ofText_trait`).
-/

namespace TabletopDice

/-! ## Text without blanks -/

/-- A text without blanks. -/
def Text.Solid (s : List Char) : Prop :=
  ∀ c ∈ s, isBlank c = false

/-- Characters that all come from a text without blanks have no blank among them. -/
theorem Text.Solid.of_subset {s t : List Char} (h : Solid t) (hst : s ⊆ t) : Solid s :=
  fun c hc => h c (hst hc)

/-- Digits are no blanks. -/
theorem solid_of_isNumeral {ds : List Char} (h : Written.IsNumeral ds) : Text.Solid ds :=
  fun c hc => Written.isBlank_eq_false_of_isDigit (h.2 c hc)

namespace Noted

variable {α β γ : Type}

/-! ## Values with messages -/

/-- Every message on the way to a value is on one line. -/
def OneLined (x : Noted α) : Prop :=
  ∀ m ∈ x.notes, OneLine m.text

/-- A value without messages. -/
theorem oneLined_pure (a : α) : (pure a : Noted α).OneLined :=
  List.forall_mem_nil _

/-- A value with one message. -/
theorem oneLined_single {a : α} {m : Message} (h : OneLine m.quoted) :
    (⟨a, [m]⟩ : Noted α).OneLined := by
  intro m' hm
  rw [List.mem_singleton.1 hm]
  exact Message.oneLine_text h

/-- Messages that repeat nothing are on one line. -/
theorem oneLined_of_quoted {x : Noted α} (h : ∀ m ∈ x.notes, m.quoted = "") : x.OneLined := by
  intro m hm
  refine Message.oneLine_text ?_
  rw [h m hm]
  exact oneLine_empty

/-- The messages of a step and those of the next one. -/
theorem OneLined.bind {x : Noted α} {f : α → Noted β} (hx : x.OneLined)
    (hf : (f x.value).OneLined) : (x >>= f).OneLined :=
  fun m hm => (List.mem_append.1 hm).elim (hx m) (hf m)

/-- Changing the value leaves the messages as they are. -/
theorem OneLined.map {x : Noted α} (hx : x.OneLined) (f : α → β) : (f <$> x).OneLined := by
  unfold OneLined
  rw [notes_map]
  exact hx

/-- A step that follows only a value adds its messages, or none. -/
theorem OneLined.chain {x : Noted (Option α)} {f : α → Noted (Option β)} (hx : x.OneLined)
    (hf : ∀ a, (f a).OneLined) : (x.chain f).OneLined := by
  refine hx.bind ?_
  cases x.value with
  | none => exact oneLined_pure _
  | some a => exact hf a

/-- If each step has its messages on one line each, so has a whole run of steps. -/
theorem oneLined_foldlM {f : β → α → Noted β} {as : List α}
    (h : ∀ b, ∀ a ∈ as, (f b a).OneLined) (b : β) : (as.foldlM f b).OneLined := by
  induction as generalizing b with
  | nil => exact oneLined_pure b
  | cons a as ih =>
    rw [List.foldlM_cons]
    exact (h b a (.head _)).bind (ih (fun b a ha => h b a (.tail _ ha)) _)

/-- A value that must fulfil a condition. -/
theorem oneLined_ite {p : Prop} [Decidable p] {x y : Noted α} (hx : x.OneLined)
    (hy : y.OneLined) : (if p then x else y).OneLined := by
  split
  · exact hx
  · exact hy

/-! ## Numbers -/

/-- A number that is too large is repeated with its digits, which have no blanks. -/
theorem oneLined_number {ds : List Char} (h : Text.Solid ds) : (number ds).OneLined :=
  oneLined_ite (oneLined_pure _) (oneLined_single (oneLine_of_noBlank h))

/-- A total that is too large is written anew, on one line. -/
theorem oneLined_total {ds : List Char} (h : Text.Solid ds) : (total ds).OneLined := by
  refine (oneLined_number h).chain fun n => oneLined_ite (oneLined_pure _) (oneLined_single ?_)
  exact oneLine_repr n

end Noted

namespace Written

open Noted

/-! ## Dice -/

/-- A quantity of dice is repeated only if it is too large. -/
theorem oneLined_checkCount {o : Option (List Char)} (h : ∀ ds ∈ o, IsNumeral ds) :
    (checkCount o).OneLined := by
  cases o with
  | none => exact oneLined_pure _
  | some ds =>
    refine (oneLined_number (solid_of_isNumeral (h ds rfl))).chain fun n => ?_
    exact oneLined_ite (oneLined_pure _) (oneLined_single oneLine_empty)

/-- The sides of dice are repeated only if they are too large. -/
theorem oneLined_checkSides {ds : List Char} (h : IsNumeral ds) : (checkSides ds).OneLined :=
  (oneLined_number (solid_of_isNumeral h)).chain fun _ =>
    oneLined_ite (oneLined_pure _) (oneLined_single oneLine_empty)

/-- A threshold is repeated only if it is too large. -/
theorem oneLined_checkExplosion {sides : Nat} {recursive : Bool} {o : Option (List Char)}
    (h : ∀ ds ∈ o, IsNumeral ds) : (checkExplosion sides recursive o).OneLined := by
  cases o with
  | none => exact oneLined_pure _
  | some ds =>
    refine (oneLined_number (solid_of_isNumeral (h ds rfl))).chain fun n => ?_
    exact oneLined_ite (oneLined_pure _)
      (oneLined_ite (oneLined_pure _) (oneLined_single oneLine_empty))

/-- A number of selected dice is repeated only if it is too large. -/
theorem oneLined_checkSelection {count : Nat} {kind : Kind} {o : Option (List Char)}
    (h : ∀ ds ∈ o, IsNumeral ds) : (checkSelection count kind o).OneLined := by
  cases o with
  | none =>
    exact (oneLined_pure _).chain fun n =>
      oneLined_ite (oneLined_pure _) (oneLined_single oneLine_empty)
  | some ds =>
    exact (oneLined_number (solid_of_isNumeral (h ds rfl))).chain fun n =>
      oneLined_ite (oneLined_pure _) (oneLined_single oneLine_empty)

/-- A suffix is checked if it is the first of its kind, and a duplicate otherwise. -/
theorem oneLined_addSuffix {count sides : Nat} {c : Choices} {x : Suffix} (h : x.WellSpelled) :
    (c.add count sides x).OneLined := by
  cases x with
  | explosion recursive threshold =>
    cases hfirst : c.explosion with
    | none =>
      rw [Choices.add_explosion_first hfirst]
      exact oneLined_checkExplosion h
    | some e =>
      rw [Choices.add_explosion_again hfirst]
      exact oneLined_single oneLine_empty
  | selection kind given =>
    cases hfirst : c.selected kind with
    | none =>
      rw [Choices.add_selection_first hfirst]
      exact oneLined_checkSelection h
    | some n =>
      rw [Choices.add_selection_again hfirst]
      exact oneLined_single oneLine_empty

/-- A message about an overridden drop names the selection and repeats no text. -/
theorem quoted_of_mem_overriddenDrops {usable : Kind → Option Nat} {m : Message}
    (h : m ∈ overriddenDrops usable) : m.quoted = "" := by
  rcases List.mem_append.1 h with h | h
  · obtain ⟨n, -, rfl⟩ := Option.map_eq_some_iff.1 (Option.mem_toList.1 h)
    rfl
  · obtain ⟨n, -, rfl⟩ := Option.map_eq_some_iff.1 (Option.mem_toList.1 h)
    rfl

/-- The messages about selections in conflict repeat nothing. -/
theorem oneLined_resolve (count : Nat) (usable : Kind → Option Nat) :
    (resolve count usable).OneLined := by
  refine oneLined_of_quoted fun m hm => ?_
  unfold resolve at hm
  split at hm
  · rcases List.mem_cons.1 hm with rfl | hm
    · rfl
    · exact quoted_of_mem_overriddenDrops hm
  · exact quoted_of_mem_overriddenDrops hm
  · exact quoted_of_mem_overriddenDrops hm
  split at hm
  · split at hm
    · rw [List.mem_singleton.1 hm]
      rfl
    · cases hm
  all_goals cases hm

/-- Whatever faults a group of dice has, the messages about it are on one line each. -/
theorem oneLined_check {w : WrittenDice} (h : w.WellSpelled) : w.check.OneLined := by
  refine (oneLined_checkCount h.count).bind ((oneLined_checkSides h.sides).bind ?_)
  split
  · refine OneLined.map ?_ _
    refine (oneLined_foldlM (fun c x hx => oneLined_addSuffix (h.suffixes x hx)) _).bind ?_
    exact (oneLined_resolve _ _).bind (oneLined_pure _)
  · exact oneLined_pure _

/-- Whatever fault a fragment has, the messages about it are on one line each. -/
theorem oneLined_checkTerm {cs : List Char} (h : Text.Solid cs) : (checkTerm cs).OneLined := by
  unfold checkTerm
  split
  · next ds hread =>
    obtain ⟨rfl, -⟩ := ofText?_eq_number_iff.1 hread
    exact oneLined_ite (oneLined_pure _) (oneLined_single (oneLine_of_noBlank h))
  · next w hread => exact (oneLined_check (ofText?_eq_dice_iff.1 hread).2).map _
  · exact oneLined_single (oneLine_of_noBlank h)

/-- Each fragment has its messages, one fragment after the other. -/
theorem oneLined_readTerms {fs : List Fragment} (h : ∀ f ∈ fs, Text.Solid f.chars) :
    (readTerms fs).OneLined := by
  induction fs with
  | nil => exact oneLined_pure _
  | cons f fs ih =>
    refine (oneLined_checkTerm (h f (.head _))).bind ?_
    exact (ih fun f hf => h f (.tail _ hf)).bind (oneLined_pure _)

/-- Each expression has its messages, one expression after the other. -/
theorem oneLined_readExprs {fss : List (List Fragment)}
    (h : ∀ f ∈ fss.flatten, Text.Solid f.chars) : (readExprs fss).OneLined := by
  induction fss with
  | nil => exact oneLined_pure _
  | cons fs fss ih =>
    refine (oneLined_readTerms fun f hf => h f (List.mem_append_left _ hf)).bind ?_
    exact (ih fun f hf => h f (List.mem_append_right _ hf)).bind (oneLined_pure _)

/-! ## Outlines -/

theorem oneLined_fill {α : Type} (part : SinglePart) (slot : Option α) (a : α) :
    (fill part slot a).OneLined := by
  cases slot with
  | none => exact oneLined_pure _
  | some old => exact oneLined_single oneLine_empty

/-- A sign without a term is named, and nothing is repeated. -/
theorem oneLined_closeTerm (d : Draft) : d.closeTerm.OneLined := by
  unfold Draft.closeTerm
  split
  · exact oneLined_pure _
  · exact oneLined_single oneLine_empty
  · exact oneLined_pure _

theorem oneLined_closeExpr (d : Draft) : d.closeExpr.OneLined :=
  (oneLined_closeTerm d).bind (oneLined_ite (oneLined_pure _) (oneLined_pure _))

/-- A token is a duplicate of a part or ends a term, and its text is not repeated. -/
theorem oneLined_addToken (o : Outline) (t : Token) : (o.add t).OneLined := by
  cases t with
  | text cs => exact oneLined_pure _
  | sign s => exact ((oneLined_closeTerm _).bind (oneLined_pure _)).bind (oneLined_pure _)
  | separator => exact (oneLined_closeExpr _).bind (oneLined_pure _)
  | _ => exact (oneLined_fill _ _ _).bind (oneLined_pure _)

/-- The messages about an outline repeat nothing. -/
theorem oneLined_ofTokens (ts : List Token) : (Outline.ofTokens ts).OneLined :=
  (oneLined_foldlM (fun o t _ => oneLined_addToken o t) _).bind
    ((oneLined_closeExpr _).bind (oneLined_pure _))

/-! ## Parts given once -/

section Slots

variable {slots : Slots} {cs : List Char} (h : slots.All fun ds => ds ⊆ cs) (hcs : Text.Solid cs)

include h hcs

/-- A target number is repeated only if it is too large. -/
theorem oneLined_readTarget : (readTarget slots).OneLined := by
  unfold readTarget
  split
  · next ds hds => exact oneLined_total (hcs.of_subset (h.target ds hds))
  · exact oneLined_pure _

/-- A number of highest results is repeated only if it is too large. -/
theorem oneLined_readTargetHighest (target : Option Int) :
    (readTargetHighest slots target).OneLined := by
  unfold readTargetHighest
  split
  · next ds hds =>
    refine (oneLined_number (hcs.of_subset (h.targetHighest ds hds))).chain fun n => ?_
    exact oneLined_ite (oneLined_single oneLine_empty)
      (oneLined_ite (oneLined_single oneLine_empty) (oneLined_pure _))
  · exact oneLined_pure _

/-- A modifier is repeated only if it is too large. -/
theorem oneLined_readModifier : (readModifier slots).OneLined := by
  unfold readModifier
  split
  · next s ds hds =>
    exact (oneLined_total (hcs.of_subset (h.modifier (s, ds) hds))).chain fun _ => oneLined_pure _
  · exact oneLined_pure _

/-- The sides of a wild die are repeated only if they are too large. -/
theorem oneLined_readWildSides : (readWildSides slots).OneLined := by
  unfold readWildSides
  split
  · next ds hds =>
    refine (oneLined_number (hcs.of_subset (h.wildDie ds hds))).chain fun n => ?_
    exact oneLined_ite (oneLined_pure _) (oneLined_single oneLine_empty)
  · exact oneLined_pure _

/-- A number of highest results in a trait roll is repeated with its letters. -/
theorem oneLined_refuseTargetHighest : (refuseTargetHighest slots).OneLined := by
  unfold refuseTargetHighest
  split
  · next ds hds =>
    have hletters : OneLine "th" := oneLine_ofList (by decide)
    have hdigits := oneLine_of_noBlank (hcs.of_subset (h.targetHighest ds hds))
    exact oneLined_single (oneLine_append.2 ⟨hletters, hdigits⟩)
  · exact oneLined_pure _

end Slots

theorem oneLined_refuseWildDie (slots : Slots) : (refuseWildDie slots).OneLined :=
  oneLined_ite (oneLined_single oneLine_empty) (oneLined_pure _)

theorem oneLined_repeated (block : List Expr) (n : Nat) : (repeated block n).OneLined :=
  oneLined_ite (oneLined_pure _) (oneLined_single oneLine_empty)

/-! ## Terms of trait rolls -/

theorem oneLined_checkTraitSides {die : TraitDie} {ds : List Char} (h : Text.Solid ds) :
    (checkTraitSides die ds).OneLined :=
  (oneLined_number h).chain fun _ => oneLined_ite (oneLined_pure _) (oneLined_single oneLine_empty)

/-- A quantity of trait dice is repeated with its digits. -/
theorem oneLined_checkTraitQuantity {o : Option (List Char)} (h : ∀ ds ∈ o, IsNumeral ds) :
    (checkTraitQuantity o).OneLined := by
  cases o with
  | none => exact oneLined_pure _
  | some ds =>
    have hdigits := oneLine_of_noBlank (solid_of_isNumeral (h ds rfl))
    exact oneLined_ite (oneLined_pure _) (oneLined_single hdigits)

/-- A fragment without blanks is on one line, its sign included. -/
theorem oneLine_fragmentText {f : Fragment} (h : Text.Solid f.chars) : OneLine f.text := by
  refine oneLine_of_noBlank fun c hc => ?_
  rcases List.mem_cons.1 hc with rfl | hc
  · cases f.sign <;> rfl
  · exact h c hc

/-- A number among the terms of a trait roll is repeated only if it is too large. -/
theorem oneLined_addNumber (d : TraitDraft) (s : Sign) {ds : List Char} (h : Text.Solid ds) :
    (d.addNumber s ds).OneLined := by
  refine (oneLined_total h).bind ?_
  split
  · exact oneLined_pure _
  · split
    · exact oneLined_pure _
    · exact oneLined_single (oneLine_of_noBlank h)

/-- Further dice of a trait roll are repeated as they are written. -/
theorem oneLined_addDice (d : TraitDraft) {f : Fragment} {w : WrittenDice}
    (hf : Text.Solid f.chars) (hw : w.WellSpelled) : (d.addDice f w).OneLined := by
  unfold TraitDraft.addDice
  split
  · exact oneLined_single (oneLine_fragmentText hf)
  · refine (oneLined_checkTraitQuantity hw.count).bind ?_
    exact (oneLined_checkTraitSides (solid_of_isNumeral hw.sides)).bind (oneLined_pure _)

/-- A term of a trait roll is a number, dice or unknown, and repeated as it is written. -/
theorem oneLined_addFragment (d : TraitDraft) {f : Fragment} (h : Text.Solid f.chars) :
    (d.add f).OneLined := by
  unfold TraitDraft.add
  split
  · next ds hread =>
    rw [(ofText?_eq_number_iff.1 hread).1] at h
    exact oneLined_addNumber d f.sign h
  · next w hread => exact oneLined_addDice d h (ofText?_eq_dice_iff.1 hread).2
  · exact oneLined_single (oneLine_of_noBlank h)

/-- Further expressions of a trait roll are repeated fragment by fragment. -/
theorem oneLined_refuseExprs {fss : List (List Fragment)}
    (h : ∀ f ∈ fss.flatten, Text.Solid f.chars) : (refuseExprs fss).OneLined := by
  intro m hm
  obtain ⟨fs, hfs, rfl⟩ := List.mem_map.1 hm
  refine Message.oneLine_text (oneLine_join (List.forall_mem_map.2 fun f hf => ?_))
  exact oneLine_fragmentText (h f (List.mem_flatten.2 ⟨fs, hfs, hf⟩))

/-! ## Bodies -/

section Bodies

variable {body : List Char} (h : Text.Solid body)

include h

/-- The fragments of a body without blanks have none either. -/
theorem solid_of_mem_exprs {f : Fragment}
    (hf : f ∈ (Outline.ofTokens (tokens body)).value.exprs.flatten) : Text.Solid f.chars := by
  rw [Outline.exprs_ofTokens] at hf
  intro c hc
  exact h c (tokenChars_tokens_subset body (chars_subset_of_mem_expressions hf hc))

omit h in
/-- The parts given once are made of characters of the tokens. -/
theorem within_outline (body : List Char) :
    (Outline.ofTokens (tokens body)).value.slots.All fun ds => ds ⊆ tokenChars (tokens body) := by
  rw [Outline.slots_ofTokens]
  exact within_ofTokens (tokens body)

/-- A body without blanks is read with messages on one line each. -/
theorem oneLined_readBlock : (readBlock body).OneLined := by
  have hchars := h.of_subset (tokenChars_tokens_subset body)
  have hslots := within_outline body
  refine (oneLined_ofTokens _).bind ?_
  refine (oneLined_refuseWildDie _).bind ?_
  refine (oneLined_readTarget hslots hchars).bind ?_
  refine (oneLined_readTargetHighest hslots hchars _).bind ?_
  refine (oneLined_readModifier hslots hchars).bind ?_
  refine (oneLined_readExprs fun f hf => solid_of_mem_exprs h hf).bind ?_
  exact oneLined_pure _

theorem oneLined_readBody (n : Nat) : (readBody body n).OneLined :=
  (oneLined_readBlock h).bind ((oneLined_repeated _ _).bind (oneLined_pure _))

/-- A body without blanks is read as a trait roll with messages on one line each. -/
theorem oneLined_readTraitBody : (readTraitBody body).OneLined := by
  have hchars := h.of_subset (tokenChars_tokens_subset body)
  have hslots := within_outline body
  have hfirst : ∀ f ∈ (Outline.ofTokens (tokens body)).value.exprs.head?.getD [],
      Text.Solid f.chars := by
    intro f hf
    cases hhead : (Outline.ofTokens (tokens body)).value.exprs.head? with
    | none =>
      rw [hhead] at hf
      cases hf
    | some fs =>
      rw [hhead] at hf
      exact solid_of_mem_exprs h (List.mem_flatten.2 ⟨fs, List.mem_of_mem_head? hhead, hf⟩)
  have hlater : ∀ f ∈ (Outline.ofTokens (tokens body)).value.exprs.tail.flatten,
      Text.Solid f.chars := by
    intro f hf
    obtain ⟨fs, hfs, hf⟩ := List.mem_flatten.1 hf
    exact solid_of_mem_exprs h (List.mem_flatten.2 ⟨fs, List.mem_of_mem_tail hfs, hf⟩)
  refine (oneLined_ofTokens _).bind ?_
  refine (oneLined_readTarget hslots hchars).bind ?_
  refine (oneLined_refuseTargetHighest hslots hchars).bind ?_
  refine (oneLined_readWildSides hslots hchars).bind ?_
  refine (oneLined_foldlM (fun d f hf => oneLined_addFragment d (hfirst f hf)) _).bind ?_
  refine (oneLined_refuseExprs hlater).bind ?_
  refine OneLined.bind ?_ (oneLined_pure _)
  -- a modifier in parentheses is read only if there are no numbers among the terms
  unfold readTraitModifier
  split
  · exact oneLined_pure _
  · exact oneLined_readModifier hslots hchars

end Bodies

/-! ## Whole texts -/

/-- What is left of a text without blanks has none either, and neither has its comment. -/
theorem Commented.solid {s rest : List Char} {comment : Option String}
    (h : Commented s rest comment) (hs : Text.Solid s) :
    Text.Solid rest ∧ ∀ c ∈ comment, OneLine c := by
  constructor
  · cases h with
    | quoted =>
      refine hs.of_subset (List.append_subset.2 ⟨List.subset_append_left _ _, fun c hc => ?_⟩)
      exact List.mem_append_right _ (.tail _ (List.mem_append_right _ (.tail _ hc)))
    | plain => exact hs
  · intro c hc x hx
    exact isLineBreak_eq_false (hs x ((h.mem_of_mem hc).2 x hx).1)

end Written

namespace Roll

open Written

/-- Whatever the text, its comment and every message about it are on one line. -/
theorem oneLine_ofText (text : String) :
    (∀ c ∈ (ofText text).comment, OneLine c) ∧ ∀ m ∈ (ofText text).messages, OneLine m.text := by
  rcases ofText_cases text with hlong | ⟨rest, body, n, comment, -, hcommented, hread⟩
  · rw [hlong]
    exact ⟨nofun, Noted.oneLined_single oneLine_empty (a := ())⟩
  · obtain ⟨hbody, hcomment⟩ := hcommented.solid fun c => Text.isBlank_of_mem_normal
    rw [hread]
    exact ⟨hcomment, oneLined_readBody hbody n⟩

end Roll

namespace TraitRoll

open Written

/-- The messages of a trait roll are on one line each. -/
theorem oneLine_ofText_trait (text : String) :
    (∀ c ∈ (ofText text).comment, OneLine c) ∧ ∀ m ∈ (ofText text).messages, OneLine m.text := by
  by_cases hlong : maxTextLength < (Text.trim text.toList).length
  · rw [ofText_of_long hlong]
    exact ⟨nofun, Noted.oneLined_single oneLine_empty (a := ())⟩
  · have hcommented := commented_split (Text.normal (Text.trim text.toList))
    obtain ⟨hbody, hcomment⟩ := hcommented.solid fun c => Text.isBlank_of_mem_normal
    rw [ofText_of_short (Nat.not_lt.1 hlong) hcommented]
    exact ⟨hcomment, oneLined_readTraitBody hbody⟩

end TraitRoll

end TabletopDice
