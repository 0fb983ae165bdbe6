import TabletopDice.Proofs.NotedLosses

/-!
# Expressions are not disturbed

A part that can be given only once may stand anywhere, even within a term. Main statements: the
expressions of an outline are those of its signs, texts and separators alone
(`draft_ofTokens_filter`), and no text and no sign of them is lost (`flatMap_chars_expressions`,
`count_minus`, `expressions_undisturbed`).
-/

namespace TabletopDice.Written

/-- Whether a token can matter to the expressions. -/
def Token.inExpressions (t : Token) : Bool :=
  t.isContent || t.isSeparator

/-- The text of a token. -/
def Token.words : Token → List Char
  | .text cs => cs
  | _ => []

namespace Outline

/-! ## Parts given once -/

/-- A part that can be given only once leaves the expressions on the way as they are. -/
theorem draft_add_of_not {o : Outline} {t : Token} (h : t.inExpressions = false) :
    (add o t).value.draft = o.draft := by
  cases t with
  | separator | sign s | text cs => cases h
  | _ => rfl

/-- What a token does to the expressions has nothing to do with the parts that are given once. -/
theorem draft_add_congr {o o' : Outline} (h : o.draft = o'.draft) (t : Token) :
    (add o t).value.draft = (add o' t).value.draft := by
  cases t with
  | separator | sign s | text cs => simp [add, h]
  | _ => exact h

theorem draft_foldlM_add_congr {o o' : Outline} (h : o.draft = o'.draft) (ts : List Token) :
    (ts.foldlM add o).value.draft = (ts.foldlM add o').value.draft := by
  induction ts generalizing o o' with
  | nil => exact h
  | cons t ts ih =>
    rw [List.foldlM_cons, List.foldlM_cons, Noted.value_bind, Noted.value_bind]
    exact ih (draft_add_congr h t)

/-- The other tokens can be left out without a change to the expressions. -/
theorem draft_foldlM_add_filter (o : Outline) (ts : List Token) :
    ((ts.filter Token.inExpressions).foldlM add o).value.draft =
      (ts.foldlM add o).value.draft := by
  induction ts generalizing o with
  | nil => rfl
  | cons t ts ih =>
    rw [List.foldlM_cons, Noted.value_bind]
    rcases ht : t.inExpressions
    · rw [List.filter_cons_of_neg (by simp [ht]), ih]
      exact draft_foldlM_add_congr (draft_add_of_not ht).symm ts
    · rw [List.filter_cons_of_pos ht, List.foldlM_cons, Noted.value_bind, ih]

theorem draft_ofTokens_filter (ts : List Token) :
    (ofTokens (ts.filter Token.inExpressions)).value.draft = (ofTokens ts).value.draft := by
  simp only [ofTokens, Noted.value_bind, Noted.value_pure, draft_foldlM_add_filter]

/-- What matters to expressions decides on all that is known of them. -/
theorem draft_ofTokens_congr {ts ts' : List Token}
    (h : ts.filter Token.inExpressions = ts'.filter Token.inExpressions) :
    (ofTokens ts).value.draft = (ofTokens ts').value.draft := by
  rw [← draft_ofTokens_filter, h, draft_ofTokens_filter]

/-- Outlines are the same if their tokens agree on what matters to expressions and on the first part
of each kind. -/
theorem value_ofTokens_congr {ts ts' : List Token}
    (hexprs : ts.filter Token.inExpressions = ts'.filter Token.inExpressions)
    (hslots : Slots.ofTokens ts = Slots.ofTokens ts') :
    (ofTokens ts).value = (ofTokens ts').value := by
  have hdraft := draft_ofTokens_congr hexprs
  have hslots : (ofTokens ts).value.slots = (ofTokens ts').value.slots := by
    rw [slots_ofTokens, slots_ofTokens, hslots]
  calc (ofTokens ts).value = ⟨(ofTokens ts).value.slots, (ofTokens ts).value.draft⟩ := rfl
    _ = (ofTokens ts').value := by rw [hslots, hdraft]

end Outline

/-! ## Texts -/

theorem chars_ne_nil_of_mem_expressions {ts : List Token} {fs : List Fragment}
    (h : fs ∈ expressions ts) {f : Fragment} (hf : f ∈ fs) : f.chars ≠ [] := by
  obtain ⟨p, -, rfl⟩ := List.mem_map.1 (List.mem_filter.1 h).1
  simpa using (List.mem_filter.1 hf).2

/-- The fragments of all phrases are those of all expressions. -/
theorem flatten_expressions (ts : List Token) :
    (expressions ts).flatten = (phrases ts).flatMap fragments := by
  rw [expressions, nonempty, List.flatten_filter_not_isEmpty, List.flatMap_def]

theorem flatMap_chars_written (fs : List Fragment) :
    (written fs).flatMap Fragment.chars = fs.flatMap Fragment.chars := by
  induction fs with
  | nil => rfl
  | cons f fs ih =>
    rw [written_cons, List.flatMap_append, ih, List.flatMap_cons]
    rcases f with ⟨s, _ | ⟨c, cs⟩⟩ <;> simp [written]

/-- A phrase has all its text in its fragments, in order. -/
theorem flatMap_chars_fragments (p : List Token) :
    (fragments p).flatMap Fragment.chars = p.flatMap Token.words := by
  rw [fragments, flatMap_chars_written, List.flatMap_cons]
  induction p with
  | nil => rfl
  | cons t p ih =>
    rw [List.flatMap_cons, ← ih]
    cases t <;> simp [textToSign, signedTexts, Token.words]

/-- The expressions have all the text, in order. -/
theorem flatMap_chars_expressions (ts : List Token) :
    (expressions ts).flatten.flatMap Fragment.chars = ts.flatMap Token.words := by
  have hseparators : ts.flatMap Token.words =
      (ts.filter fun t => !t.isSeparator).flatMap Token.words := by
    induction ts with
    | nil => rfl
    | cons t ts ih => cases t <;> simp [Token.words, Token.isSeparator, ih]
  rw [flatten_expressions, hseparators, ← flatten_phrases, List.flatMap_assoc]
  simp only [flatMap_chars_fragments]
  rw [← List.flatMap_id, List.flatMap_assoc]
  rfl

/-! ## Signs -/

theorem count_sign_signedTexts (s : Sign) (p : List Token) :
    ((signedTexts p).map Fragment.sign).count s = p.count (.sign s) := by
  induction p with
  | nil => rfl
  | cons t p ih => cases t <;> simp [signedTexts, List.count_cons, ih]

/-- A sign has text behind it or not. -/
theorem count_sign_written (s : Sign) (fs : List Fragment) :
    (fs.map Fragment.sign).count s =
      ((written fs).map Fragment.sign).count s + (bareSigns fs).count s := by
  induction fs with
  | nil => rfl
  | cons f fs ih =>
    rw [written_cons, List.map_cons, List.count_cons, ih]
    rcases f with ⟨s', _ | ⟨c, cs⟩⟩ <;> simp [written, bareSigns, List.count_cons] <;> omega

/-- What stands before the first sign of a phrase has no minus. -/
theorem count_minus_fragments (p : List Token) :
    p.count (.sign .minus) = ((fragments p).map Fragment.sign).count .minus +
      (bareSigns (signedTexts p)).count .minus := by
  have himplicit : ((written [⟨.plus, textToSign p⟩]).map Fragment.sign).count .minus = 0 := by
    rcases textToSign p <;> rfl
  rw [← count_sign_signedTexts, count_sign_written, fragments, written_cons, List.map_append,
    List.count_append, himplicit, Nat.zero_add]

theorem bareSigns_append (fs gs : List Fragment) :
    bareSigns (fs ++ gs) = bareSigns fs ++ bareSigns gs := by
  simp [bareSigns]

theorem count_minus_phrases (ps : List (List Token)) :
    ps.flatten.count (.sign .minus) = ((ps.flatMap fragments).map Fragment.sign).count .minus +
      (bareSigns (ps.flatMap signedTexts)).count .minus := by
  induction ps with
  | nil => rfl
  | cons p ps ih =>
    rw [List.flatten_cons, List.count_append, ih, count_minus_fragments, List.flatMap_cons,
      List.map_append, List.count_append, List.flatMap_cons, bareSigns_append, List.count_append]
    omega

/-- Every minus is the sign of a fragment or has no text behind it. -/
theorem count_minus (ts : List Token) :
    ts.count (.sign .minus) = ((expressions ts).flatten.map Fragment.sign).count .minus +
      (missingSigns ts).count .minus := by
  have hphrases : ts.count (.sign .minus) = (phrases ts).flatten.count (.sign .minus) := by
    rw [flatten_phrases]
    exact (List.count_filter rfl).symm
  rw [hphrases, count_minus_phrases, flatten_expressions, missingSigns]

theorem missingSign?_eq_some_iff {m : Message} {s : Sign} :
    m.missingSign? = some s ↔ m = .missingTerm s := by
  cases m <;> simp [Message.missingSign?]

theorem count_missingTerm (s : Sign) (ms : List Message) :
    ms.count (.missingTerm s) = (ms.filterMap Message.missingSign?).count s := by
  rw [List.count_filterMap, List.count]
  apply List.countP_congr
  intro m _
  rw [beq_iff_eq, beq_iff_eq, missingSign?_eq_some_iff]

/-! ## Every text -/

/-- The outlines of two texts are the same if their tokens agree on the signs, texts and separators,
and on the first part of each kind that can be given only once. The former alone give the
expressions and whether there is any content, the latter alone the parts. No expression and no
fragment is empty, the fragments have all the text in order, and every minus is the sign of a
fragment or is reported. -/
theorem expressions_undisturbed (s : List Char) :
    (∀ s', (tokens s').filter Token.inExpressions = (tokens s).filter Token.inExpressions →
      Slots.ofTokens (tokens s') = Slots.ofTokens (tokens s) →
      (Outline.ofTokens (tokens s')).value = (Outline.ofTokens (tokens s)).value) ∧
    (∀ s', (tokens s').filter Token.inExpressions = (tokens s).filter Token.inExpressions →
      (Outline.ofTokens (tokens s')).value.exprs = (Outline.ofTokens (tokens s)).value.exprs ∧
      (Outline.ofTokens (tokens s')).value.hadContent =
        (Outline.ofTokens (tokens s)).value.hadContent) ∧
    (let ts := tokens s
     let o := Outline.ofTokens ts
     (o.value.slots.target = (targets ts).head? ∧
        o.value.slots.targetHighest = (highests ts).head? ∧
        o.value.slots.modifier = (modifiers ts).head? ∧
        o.value.slots.wildDie = (wildDice ts).head?) ∧
      (∀ fs ∈ o.value.exprs, fs ≠ [] ∧ ∀ f ∈ fs, f.chars ≠ []) ∧
      o.value.exprs.flatten.flatMap Fragment.chars = ts.flatMap Token.words ∧
      ts.count (.sign .minus) = (o.value.exprs.flatten.map Fragment.sign).count .minus +
        o.notes.count (.missingTerm .minus)) := by
  have hexprs := Outline.exprs_ofTokens (tokens s)
  refine ⟨?_, ?_, ?_, ?_, ?_, ?_⟩
  · intro s' h hslots
    exact Outline.value_ofTokens_congr h hslots
  · intro s' h
    have hdraft := Outline.draft_ofTokens_congr h
    exact ⟨congrArg Draft.exprs hdraft, congrArg Draft.hadContent hdraft⟩
  · rw [Outline.slots_ofTokens]
    exact ⟨rfl, rfl, rfl, rfl⟩
  · rw [hexprs]
    intro fs hfs
    exact ⟨ne_nil_of_mem_expressions hfs, fun f hf => chars_ne_nil_of_mem_expressions hfs hf⟩
  · rw [hexprs]
    exact flatMap_chars_expressions (tokens s)
  · rw [hexprs, count_missingTerm, Outline.filterMap_missingSign?_ofTokens]
    exact count_minus (tokens s)

/-- In the second text the parts given once stand elsewhere, one of them within the first term. -/
theorem expressions_undisturbed_of_moved :
    (tokens "2d(+2)6t4-1th1-".toList).filter Token.inExpressions =
        (tokens "2dth1(+2)6-1t4-".toList).filter Token.inExpressions ∧
      Slots.ofTokens (tokens "2d(+2)6t4-1th1-".toList) =
        Slots.ofTokens (tokens "2dth1(+2)6-1t4-".toList) ∧
      (Outline.ofTokens (tokens "2d(+2)6t4-1th1-".toList)).value =
        (Outline.ofTokens (tokens "2dth1(+2)6-1t4-".toList)).value := by
  have hexprs : (tokens "2d(+2)6t4-1th1-".toList).filter Token.inExpressions =
      (tokens "2dth1(+2)6-1t4-".toList).filter Token.inExpressions := by cbv
  have hslots : Slots.ofTokens (tokens "2d(+2)6t4-1th1-".toList) =
      Slots.ofTokens (tokens "2dth1(+2)6-1t4-".toList) := by cbv
  obtain ⟨hsame, -⟩ := expressions_undisturbed "2dth1(+2)6-1t4-".toList
  exact ⟨hexprs, hslots, hsame _ hexprs hslots⟩

end TabletopDice.Written
