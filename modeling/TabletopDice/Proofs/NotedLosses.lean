import TabletopDice.Proofs.Grammar
import TabletopDice.Proofs.ParsedRoll
import TabletopDice.Proofs.TokenText

/-!
# Losses are noted

Whatever is left out of a roll leaves a message: a fragment that is no term, and a sign that no text
follows. Main statements: the terms that are read are those that the fragments yield one by one
(`value_readExprs`), every sign without text is noted (`filterMap_missingSign?_ofTokens`), and a
roll without expressions explains itself (`losses_noted`).
-/

namespace TabletopDice

/-- The sign that a message misses a term behind. -/
def Message.missingSign? : Message → Option Sign
  | .missingTerm s => some s
  | _ => none

namespace Written

/-! ## Fragments -/

namespace Fragment

/-- The term that a fragment yields by itself, with the sign of the fragment. -/
def term? (f : Fragment) : Option (Sign × Term) :=
  (checkTerm f.chars).value.map (f.sign, ·)

/-- The messages about a fragment by itself. -/
def notes (f : Fragment) : List Message :=
  (checkTerm f.chars).notes

/-- A fragment that yields no term has a message of its own. -/
theorem notes_ne_nil_of_term? {f : Fragment} (h : f.term? = none) : f.notes ≠ [] := by
  intro hsilent
  obtain ⟨t, ht⟩ := (notes_checkTerm_eq_nil_iff f.chars).1 hsilent
  rw [term?, checkTerm_of_spells ht] at h
  cases h

end Fragment

/-- The fragments that yield no term. -/
def lost (fs : List Fragment) : List Fragment :=
  fs.filter fun f => f.term?.isNone

/-- There are at least as many messages about fragments as fragments that yield no term. -/
theorem length_lost_le (fs : List Fragment) :
    (lost fs).length ≤ (fs.flatMap Fragment.notes).length := by
  induction fs with
  | nil => exact Nat.le_refl 0
  | cons f fs ih =>
    rw [List.flatMap_cons, List.length_append, lost, List.filter_cons]
    unfold lost at ih
    split
    · next hnone =>
      have hnotes := Fragment.notes_ne_nil_of_term? (Option.isNone_iff_eq_none.1 hnone)
      have hpos := List.length_pos_of_ne_nil hnotes
      rw [List.length_cons]
      omega
    · omega

/-! ## Expressions -/

/-- The expressions of the terms that lists of fragments yield, where they yield any. -/
def usableExprs (fss : List (List Fragment)) : List Expr :=
  ((fss.map (List.filterMap Fragment.term?)).filter fun ps => !ps.isEmpty).map Expr.mk

/-- The terms that are read are those of the fragments that have one. -/
theorem value_readTerms (fs : List Fragment) :
    (readTerms fs).value = fs.filterMap Fragment.term? := by
  induction fs with
  | nil => rfl
  | cons f fs ih =>
    simp only [readTerms, Noted.value_bind, Noted.value_pure, ih]
    rw [List.filterMap_cons, Fragment.term?]
    cases (checkTerm f.chars).value <;> rfl

/-- The messages about terms are those about the fragments. -/
theorem notes_readTerms (fs : List Fragment) :
    (readTerms fs).notes = fs.flatMap Fragment.notes := by
  induction fs with
  | nil => rfl
  | cons f fs ih =>
    simp only [readTerms, Noted.notes_bind, Noted.notes_pure, List.append_nil, ih]
    rfl

theorem usableExprs_cons (fs : List Fragment) (fss : List (List Fragment)) :
    usableExprs (fs :: fss) =
      if (fs.filterMap Fragment.term?).isEmpty then usableExprs fss
      else ⟨fs.filterMap Fragment.term?⟩ :: usableExprs fss := by
  unfold usableExprs
  rw [List.map_cons, List.filter_cons]
  split <;> simp_all

/-- The expressions that are read are those that have a term. -/
theorem value_readExprs (fss : List (List Fragment)) :
    (readExprs fss).value = usableExprs fss := by
  induction fss with
  | nil => rfl
  | cons fs fss ih =>
    rw [usableExprs_cons]
    simp only [readExprs, Noted.value_bind, Noted.value_pure, value_readTerms, ih]

/-- The messages about expressions are those about all of their fragments. -/
theorem notes_readExprs (fss : List (List Fragment)) :
    (readExprs fss).notes = fss.flatten.flatMap Fragment.notes := by
  induction fss with
  | nil => rfl
  | cons fs fss ih =>
    simp only [readExprs, Noted.notes_bind, Noted.notes_pure, List.append_nil, notes_readTerms, ih]
    rw [List.flatten_cons, List.flatMap_append]

/-- No term is lost or changed on the way from the fragments to the expressions. -/
theorem flatMap_terms_usableExprs (fss : List (List Fragment)) :
    (usableExprs fss).flatMap Expr.terms = fss.flatten.filterMap Fragment.term? := by
  induction fss with
  | nil => rfl
  | cons fs fss ih =>
    rw [usableExprs_cons, List.flatten_cons, List.filterMap_append, ← ih]
    split
    · next hempty => rw [List.isEmpty_iff.1 hempty, List.nil_append]
    · rfl

/-- There are no expressions exactly if no fragment yields a term. -/
theorem usableExprs_eq_nil_iff (fss : List (List Fragment)) :
    usableExprs fss = [] ↔ ∀ f ∈ fss.flatten, f.term? = none := by
  rw [← List.filterMap_eq_nil_iff, ← flatMap_terms_usableExprs]
  constructor
  · intro h
    rw [h]
    rfl
  · intro h
    refine List.eq_nil_iff_forall_not_mem.2 fun e he => ?_
    -- an expression is only made of terms that there are
    obtain ⟨ps, hps, rfl⟩ := List.mem_map.1 he
    have hne : ps ≠ [] := by simpa using (List.mem_filter.1 hps).2
    exact hne (List.flatMap_eq_nil_iff.1 h _ he)

/-! ## Signs without text -/

/-- The signs of the fragments that have no text. -/
def bareSigns (fs : List Fragment) : List Sign :=
  (fs.filter fun f => f.chars.isEmpty).map Fragment.sign

/-- The signs among some tokens that no text follows up to the next sign, separator or end. -/
def missingSigns (ts : List Token) : List Sign :=
  bareSigns ((phrases ts).flatMap signedTexts)

/-- A sign, if there is one, that has only this text behind it. -/
def bare (sign : Option Sign) (cs : List Char) : List Sign :=
  if cs = [] then sign.toList else []

theorem bareSigns_cons (s : Sign) (cs : List Char) (fs : List Fragment) :
    bareSigns (⟨s, cs⟩ :: fs) = bare (some s) cs ++ bareSigns fs := by
  cases cs <;> rfl

theorem bare_none (cs : List Char) : bare none cs = [] := by
  cases cs <;> rfl

namespace Draft

/-- A sign without text is noted when its term ends. -/
theorem filterMap_missingSign?_closeTerm (d : Draft) :
    d.closeTerm.notes.filterMap Message.missingSign? = bare d.sign d.chars := by
  obtain ⟨exprs, fragments, sign, chars, hadContent⟩ := d
  cases chars <;> cases sign <;> rfl

theorem filterMap_missingSign?_closeExpr (d : Draft) :
    d.closeExpr.notes.filterMap Message.missingSign? = bare d.sign d.chars := by
  rw [← filterMap_missingSign?_closeTerm]
  unfold closeExpr
  rw [Noted.notes_bind]
  split <;> simp

theorem filterMap_missingSign?_startTerm (d : Draft) (s : Sign) :
    (d.startTerm s).notes.filterMap Message.missingSign? = bare d.sign d.chars := by
  rw [← filterMap_missingSign?_closeTerm]
  simp [startTerm]

end Draft

theorem filterMap_missingSign?_fill {α : Type} (part : SinglePart) (slot : Option α) (a : α) :
    (fill part slot a).notes.filterMap Message.missingSign? = [] := by
  cases slot <;> rfl

namespace Outline

/-- A token that ends a term notes the sign before it if there was no text. -/
theorem filterMap_missingSign?_add (o : Outline) (t : Token) :
    (add o t).notes.filterMap Message.missingSign? =
      if t.endsTerm then bare o.draft.sign o.draft.chars else [] := by
  cases t <;>
    simp [add, Token.endsTerm, filterMap_missingSign?_fill, Draft.filterMap_missingSign?_closeExpr,
      Draft.filterMap_missingSign?_startTerm]

/-- The signs noted from here on: the one in progress, if no text follows it, and those of the
tokens. -/
theorem filterMap_missingSign?_foldlM_add (o : Outline) {ts p : List Token} {ps : List (List Token)}
    (h : phrases ts = p :: ps) :
    (ts.foldlM add o).notes.filterMap Message.missingSign? ++
        (ts.foldlM add o).value.draft.closeExpr.notes.filterMap Message.missingSign? =
      bare o.draft.sign (o.draft.chars ++ textToSign p) ++
        bareSigns ((p :: ps).flatMap signedTexts) := by
  induction ts generalizing o p ps with
  | nil =>
    rw [phrases_nil] at h
    cases h
    simp [Draft.filterMap_missingSign?_closeExpr, textToSign, signedTexts, bareSigns]
  | cons t ts ih =>
    obtain ⟨q, qs, hq⟩ := exists_phrases_eq_cons ts
    rw [List.foldlM_cons, Noted.notes_bind, Noted.value_bind, List.filterMap_append,
      List.append_assoc, ih _ hq, filterMap_missingSign?_add]
    cases t with
    | separator =>
      rw [phrases_separator, hq] at h
      cases h
      -- the sign in progress has no more text, and the next phrase begins without a sign
      simp [add, Token.endsTerm, Draft.value_closeExpr, textToSign, signedTexts, bare_none]
    | sign s =>
      rw [phrases_cons rfl hq] at h
      cases h
      simp [add, Token.endsTerm, Draft.value_startTerm, textToSign, signedTexts, bareSigns_cons]
    | _ =>
      rw [phrases_cons rfl hq] at h
      cases h
      simp [add, Token.endsTerm, Draft.addText, textToSign, signedTexts]

/-- The signs without text are noted one by one, in order. -/
theorem filterMap_missingSign?_ofTokens (ts : List Token) :
    (ofTokens ts).notes.filterMap Message.missingSign? = missingSigns ts := by
  obtain ⟨p, ps, h⟩ := exists_phrases_eq_cons ts
  have hrun := filterMap_missingSign?_foldlM_add {} h
  rw [missingSigns, h]
  simp only [ofTokens, Noted.notes_bind, Noted.notes_pure, List.append_nil, List.filterMap_append]
  rw [hrun, bare_none, List.nil_append]

end Outline

/-! ## Content -/

/-- Every sign of a phrase has a text, which may be empty. -/
theorem exists_signedText_of_sign_mem {p : List Token} {s : Sign} (h : Token.sign s ∈ p) :
    ∃ f ∈ signedTexts p, f.sign = s := by
  induction p with
  | nil => cases h
  | cons t p ih =>
    rcases List.mem_cons.1 h with rfl | h
    · exact ⟨_, .head _, rfl⟩
    · obtain ⟨f, hf, hsign⟩ := ih h
      refine ⟨f, ?_, hsign⟩
      cases t with
      | sign s' => exact .tail _ hf
      | _ => exact hf

/-- Text that is not empty belongs to what stands before the first sign of a phrase, or to what
stands behind one of its signs. -/
theorem exists_chars_of_text_mem {p : List Token} {cs : List Char} (h : Token.text cs ∈ p)
    (hcs : cs ≠ []) (s : Sign) : ∃ f ∈ ⟨s, textToSign p⟩ :: signedTexts p, f.chars ≠ [] := by
  induction p generalizing s with
  | nil => cases h
  | cons t p ih =>
    rcases List.mem_cons.1 h with rfl | hlater
    · exact ⟨_, .head _, fun hnil => hcs (List.append_eq_nil_iff.1 hnil).1⟩
    · cases t with
      | sign s' =>
        obtain ⟨f, hf, hne⟩ := ih hlater s'
        exact ⟨f, .tail _ hf, hne⟩
      | text cs' =>
        obtain ⟨f, hf, hne⟩ := ih hlater s
        rcases List.mem_cons.1 hf with rfl | hf
        · exact ⟨_, .head _, fun hnil => hne (List.append_eq_nil_iff.1 hnil).2⟩
        · exact ⟨f, .tail _ hf, hne⟩
      | _ => exact ih hlater s

theorem mem_expressions_of_mem {ts p : List Token} (hp : p ∈ phrases ts) {f : Fragment}
    (hf : f ∈ fragments p) : f ∈ (expressions ts).flatten := by
  refine List.mem_flatten.2 ⟨fragments p, List.mem_filter.2 ⟨List.mem_map_of_mem hp, ?_⟩, hf⟩
  have hne := List.ne_nil_of_mem hf
  simpa using hne

theorem mem_fragments_of_chars {p : List Token} {f : Fragment}
    (hf : f ∈ ⟨.plus, textToSign p⟩ :: signedTexts p) (hne : f.chars ≠ []) : f ∈ fragments p :=
  List.mem_filter.2 ⟨hf, by simpa using hne⟩

/-- Where there is a sign or text, there is a fragment or a sign without text. -/
theorem exists_of_isContent {ts : List Token} (htext : ∀ cs, Token.text cs ∈ ts → cs ≠ [])
    (h : ts.any Token.isContent) : (expressions ts).flatten ≠ [] ∨ missingSigns ts ≠ [] := by
  obtain ⟨t, ht, hcontent⟩ := List.any_eq_true.1 h
  cases t with
  | text cs =>
    obtain ⟨p, hp, hmem⟩ := exists_phrase_of_mem ht rfl
    obtain ⟨f, hf, hne⟩ := exists_chars_of_text_mem hmem (htext cs ht) .plus
    exact .inl (List.ne_nil_of_mem (mem_expressions_of_mem hp (mem_fragments_of_chars hf hne)))
  | sign s =>
    obtain ⟨p, hp, hmem⟩ := exists_phrase_of_mem ht rfl
    obtain ⟨f, hf, -⟩ := exists_signedText_of_sign_mem hmem
    by_cases hempty : f.chars = []
    · right
      have hbare : f ∈ ((phrases ts).flatMap signedTexts).filter fun f => f.chars.isEmpty :=
        List.mem_filter.2 ⟨List.mem_flatMap.2 ⟨p, hp, hf⟩, by simpa using hempty⟩
      exact List.ne_nil_of_mem (List.mem_map_of_mem hbare)
    · left
      exact List.ne_nil_of_mem
        (mem_expressions_of_mem hp (mem_fragments_of_chars (.tail _ hf) hempty))
  | _ => cases hcontent

/-! ## Bodies -/

/-- The expressions of some tokens before they are repeated. -/
def blockOf (ts : List Token) : List Expr :=
  if ts.any Token.isContent then usableExprs (expressions ts) else [standardExpr]

/-- A block has the expressions that can be used, or the one that stands in for none. -/
theorem exprs_readBlock (body : List Char) :
    (readBlock body).value.exprs = blockOf (tokens body) := by
  simp only [readBlock, Noted.value_bind, Noted.value_pure, Outline.exprs_ofTokens,
    Outline.hadContent_ofTokens, value_readExprs, blockOf]

theorem exprs_readBody (body : List Char) (n : Nat) :
    (readBody body n).value.exprs = (repeated (blockOf (tokens body)) n).value := by
  rw [readBody, Noted.value_bind, Noted.value_bind, exprs_readBlock]
  rfl

/-- The messages about the parts given once. -/
def slotNotes (slots : Slots) : List Message :=
  (refuseWildDie slots).notes ++ (readTarget slots).notes ++
    (readTargetHighest slots (readTarget slots).value).notes ++ (readModifier slots).notes

/-- The messages about a block: first those about its outline, then those about the parts given once
and about its fragments. -/
theorem notes_readBlock (body : List Char) :
    (readBlock body).notes = (Outline.ofTokens (tokens body)).notes ++
      slotNotes (Slots.ofTokens (tokens body)) ++
      (expressions (tokens body)).flatten.flatMap Fragment.notes := by
  simp only [readBlock, Noted.notes_bind, Noted.notes_pure, List.append_nil, List.append_assoc,
    Outline.slots_ofTokens, Outline.exprs_ofTokens, notes_readExprs, slotNotes]

/-- The messages about a body: those about its block, and then those about its repetition. -/
theorem notes_readBody (body : List Char) (n : Nat) :
    (readBody body n).notes = (Outline.ofTokens (tokens body)).notes ++
      slotNotes (Slots.ofTokens (tokens body)) ++
      (expressions (tokens body)).flatten.flatMap Fragment.notes ++
      (repeated (blockOf (tokens body)) n).notes := by
  rw [readBody, Noted.notes_bind, Noted.notes_bind, Noted.notes_pure, List.append_nil,
    exprs_readBlock, notes_readBlock]

/-- The terms of some tokens before they are repeated. -/
theorem flatMap_terms_blockOf (ts : List Token) :
    (blockOf ts).flatMap Expr.terms =
      if ts.any Token.isContent then (expressions ts).flatten.filterMap Fragment.term?
      else standardExpr.terms := by
  unfold blockOf
  split
  · exact flatMap_terms_usableExprs _
  · rfl

/-- The tokens of a text leave a block without expressions exactly if there is a sign or text, but
no term. -/
theorem blockOf_eq_nil_iff (ts : List Token) :
    blockOf ts = [] ↔
      ts.any Token.isContent ∧ ∀ f ∈ (expressions ts).flatten, f.term? = none := by
  unfold blockOf
  split
  · next hcontent => simp [hcontent, usableExprs_eq_nil_iff]
  · next hcontent => simp [hcontent]

/-- A block that is repeated vanishes if it makes too many groups of dice. Otherwise something is
left of it, unless it was empty before. -/
theorem value_repeated_eq_nil_iff {block : List Expr} {n : Nat} (hn : 1 ≤ n) :
    (repeated block n).value = [] ↔
      block = [] ∨ maxDiceGroups < Expr.totalGroups block * n := by
  by_cases hgroups : Expr.totalGroups block * n ≤ maxDiceGroups
  · have hcopies : min n maxCopies ≠ 0 := by
      unfold maxCopies
      omega
    have hfew : ¬ maxDiceGroups < Expr.totalGroups block * n := Nat.not_lt.2 hgroups
    rw [repeated_of_le hgroups, Noted.value_pure, List.flatten_eq_nil_iff]
    simp [List.mem_replicate, hcopies, hfew]
  · have hmany := Nat.lt_of_not_le hgroups
    rw [repeated_of_lt hmany]
    exact iff_of_true rfl (.inr hmany)

/-- A body is left without expressions exactly if there are signs or texts but no term, or too many
groups of dice. -/
theorem exprs_readBody_eq_nil_iff (body : List Char) {n : Nat} (hn : 1 ≤ n) :
    (readBody body n).value.exprs = [] ↔
      ((tokens body).any Token.isContent ∧
        ∀ f ∈ (expressions (tokens body)).flatten, f.term? = none) ∨
      maxDiceGroups < Expr.totalGroups (blockOf (tokens body)) * n := by
  rw [exprs_readBody, value_repeated_eq_nil_iff hn, blockOf_eq_nil_iff]

/-- A body that is left without expressions has a message about it. -/
theorem notes_readBody_ne_nil {body : List Char} {n : Nat} (hn : 1 ≤ n)
    (h : (readBody body n).value.exprs = []) : (readBody body n).notes ≠ [] := by
  intro hsilent
  rw [notes_readBody] at hsilent
  simp only [List.append_eq_nil_iff] at hsilent
  obtain ⟨⟨⟨houtline, -⟩, hfragments⟩, hrepeated⟩ := hsilent
  rcases (exprs_readBody_eq_nil_iff body hn).1 h with ⟨hcontent, hlost⟩ | hgroups
  · -- content is a fragment or a sign, and each of them would have left a message
    rcases exists_of_isContent (fun cs => ne_nil_of_text_mem_tokens) hcontent with hfs | hsigns
    · obtain ⟨f, hf⟩ := List.exists_mem_of_ne_nil _ hfs
      exact Fragment.notes_ne_nil_of_term? (hlost f hf) (List.flatMap_eq_nil_iff.1 hfragments f hf)
    · rw [← Outline.filterMap_missingSign?_ofTokens, houtline] at hsigns
      exact hsigns rfl
  · rw [notes_repeated_eq_nil_iff] at hrepeated
    omega

/-- Nothing is repeated less than once. -/
theorem Repeats.one_le {s rest : List Char} {n : Nat} (h : Repeats s rest n) : 1 ≤ n := by
  cases h with
  | times ending => exact Nat.le_max_left _ _
  | once plain => exact Nat.le_refl 1

end Written

/-! ## Whole texts -/

namespace Roll

open Written

/-- How often the expressions of a text are repeated. -/
def timesOf (text : String) : Nat :=
  (splitRepetition (Text.trim text.toList)).2

/-- What is left of a text without its repetition and its comment. -/
def bodyOf (text : String) : List Char :=
  (splitComment (Text.normal (splitRepetition (Text.trim text.toList)).1)).1

theorem one_le_timesOf (text : String) : 1 ≤ timesOf text := by
  unfold timesOf
  exact (repeats_split (Text.trim text.toList)).one_le

theorem ofText_eq_readBody {text : String}
    (short : (Text.trim text.toList).length ≤ maxTextLength) :
    (ofText text).exprs = (readBody (bodyOf text) (timesOf text)).value.exprs ∧
      (ofText text).messages = (readBody (bodyOf text) (timesOf text)).notes := by
  have hrepeats := repeats_split (Text.trim text.toList)
  have hcommented := commented_split (Text.normal (splitRepetition (Text.trim text.toList)).1)
  have hread := ofText_of_short short hrepeats hcommented
  simp only [hread, bodyOf, timesOf, and_self]

/-- A text that loses all of its expressions has a message about it. -/
theorem messages_ne_nil_of_exprs {text : String} (h : (ofText text).exprs = []) :
    (ofText text).messages ≠ [] := by
  by_cases hlong : maxTextLength < (Text.trim text.toList).length
  · rw [ofText_of_long hlong]
    exact List.cons_ne_nil _ _
  · have short := Nat.not_lt.1 hlong
    rw [(ofText_eq_readBody short).1] at h
    rw [(ofText_eq_readBody short).2]
    exact notes_readBody_ne_nil (one_le_timesOf text) h

/-- A roll without expressions explains itself. More exactly, of a text that is short enough
the terms before the repetition are those that the fragments yield one by one, each with the
sign of its fragment; only where there are neither signs nor texts is it the standard die.
Each of the other fragments has messages of its own, and so has each sign without text. No
expressions are left exactly if there are signs or texts but no term, or if the repetition
makes too many groups of dice. -/
theorem losses_noted (text : String) :
    ((ofText text).exprs = [] → (ofText text).messages ≠ []) ∧
    ((Text.trim text.toList).length ≤ maxTextLength →
      let ts := tokens (bodyOf text)
      let n := timesOf text
      let fs := (Outline.ofTokens ts).value.exprs.flatten
      (ofText text).exprs = (repeated (blockOf ts) n).value ∧
      (blockOf ts).flatMap Expr.terms =
        (if ts.any Token.isContent then fs.filterMap Fragment.term? else standardExpr.terms) ∧
      (∀ f ∈ fs, f.term? = none → f.notes ≠ []) ∧
      (∃ first others last,
        (ofText text).messages = first ++ others ++ fs.flatMap Fragment.notes ++ last ∧
        first.filterMap Message.missingSign? = missingSigns ts) ∧
      (lost fs).length + (missingSigns ts).length ≤ (ofText text).messages.length ∧
      ((ofText text).exprs = [] ↔
        (ts.any Token.isContent ∧ ∀ f ∈ fs, f.term? = none) ∨
          maxDiceGroups < Expr.totalGroups (blockOf ts) * n)) := by
  refine ⟨messages_ne_nil_of_exprs, fun short => ?_⟩
  obtain ⟨hexprs, hmessages⟩ := ofText_eq_readBody short
  have hsigns := Outline.filterMap_missingSign?_ofTokens (tokens (bodyOf text))
  rw [hexprs, hmessages]
  dsimp only
  rw [Outline.exprs_ofTokens]
  refine ⟨exprs_readBody _ _, flatMap_terms_blockOf _, fun f _ => Fragment.notes_ne_nil_of_term?,
    ⟨_, _, _, notes_readBody _ _, hsigns⟩, ?_, exprs_readBody_eq_nil_iff _ (one_le_timesOf text)⟩
  -- what is lost and the signs without text have different messages
  have hlost := length_lost_le (expressions (tokens (bodyOf text))).flatten
  have hmissing := List.length_filterMap_le Message.missingSign?
    (Outline.ofTokens (tokens (bodyOf text))).notes
  rw [hsigns] at hmissing
  rw [notes_readBody, List.length_append, List.length_append, List.length_append]
  omega

/-- Two fragments and a sign of this text yield nothing, so that it has three messages at least. -/
theorem losses_noted_of_faults :
    (Text.trim "2d6 - + 5q, 3d0".toList).length ≤ maxTextLength ∧
    (ofText "2d6 - + 5q, 3d0").exprs.length = 1 ∧
    (lost (Outline.ofTokens (tokens (bodyOf "2d6 - + 5q, 3d0"))).value.exprs.flatten).length = 2 ∧
    missingSigns (tokens (bodyOf "2d6 - + 5q, 3d0")) = [.minus] ∧
    3 ≤ (ofText "2d6 - + 5q, 3d0").messages.length := by
  have hshort : (Text.trim "2d6 - + 5q, 3d0".toList).length ≤ maxTextLength := by cbv
  have hlost :
      (lost (Outline.ofTokens (tokens (bodyOf "2d6 - + 5q, 3d0"))).value.exprs.flatten).length
      = 2 := by cbv
  have hmissing : missingSigns (tokens (bodyOf "2d6 - + 5q, 3d0")) = [.minus] := by cbv
  obtain ⟨-, -, -, -, hcount, -⟩ := (losses_noted "2d6 - + 5q, 3d0").2 hshort
  rw [hlost, hmissing] at hcount
  exact ⟨hshort, by cbv, hlost, hmissing, hcount⟩

end Roll

end TabletopDice
