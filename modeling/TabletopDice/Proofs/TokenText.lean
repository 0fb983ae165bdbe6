import TabletopDice.Proofs.OutlineParts
import TabletopDice.Proofs.TokenSpelling

/-!
# What tokens are made of

The digits and the text of a token are characters of the text that was cut. Main statements: nothing
in a token is new (`chars_subset_of_mem_tokens`), nor in the fragments and the parts that an outline
is made of (`chars_subset_of_mem_expressions`, `within_ofTokens`), and no token is an empty text
(`ne_nil_of_text_mem_tokens`).
-/

namespace TabletopDice.Written

/-! ## The characters of a token -/

/-- The digits or the text of a token. -/
def Token.chars : Token → List Char
  | .targetHighest ds | .target ds | .modifier _ ds | .wildDie ds => ds
  | .text cs => cs
  | .separator | .sign _ => []

/-- The digits or the text of a token are in all of its spellings. -/
theorem SpecialSpelling.chars_subset {t : Token} {cs : List Char} (h : SpecialSpelling t cs) :
    t.chars ⊆ cs := by
  intro c hc
  rcases h <;> simp_all [Token.chars]

theorem Spelling.chars_subset {t : Token} {cs : List Char} (h : Spelling t cs) :
    t.chars ⊆ cs := by
  rcases h with h | _ | _ | _ | _
  · exact h.chars_subset
  · exact List.nil_subset _
  · exact List.nil_subset _
  · exact List.nil_subset _
  · exact List.Subset.refl _

/-- No token is an empty text. -/
theorem Spelling.ne_nil_of_text {ds cs : List Char} (h : Spelling (.text ds) cs) : ds ≠ [] := by
  rcases h with h | _ | _ | _ | h
  · cases h
  · exact h

/-! ## All tokens -/

/-- Every token is spelled with characters of the text. -/
theorem exists_spelling_of_mem_tokens {s : List Char} {t : Token} (h : t ∈ tokens s) :
    ∃ cs, Spelling t cs ∧ cs ⊆ s := by
  obtain ⟨parts, hparts, htokens⟩ := exists_cutInto s
  rw [← htokens] at h
  obtain ⟨p, hp, rfl⟩ := List.mem_map.1 h
  refine ⟨p.2, hparts.spelling hp, ?_⟩
  rw [← hparts.flatMap_eq]
  intro c hc
  exact List.mem_flatMap.2 ⟨p, hp, hc⟩

/-- The digits or the text of a token stand in the text that it was cut from. -/
theorem chars_subset_of_mem_tokens {s : List Char} {t : Token} (h : t ∈ tokens s) :
    t.chars ⊆ s := by
  obtain ⟨cs, hspell, hcs⟩ := exists_spelling_of_mem_tokens h
  exact List.Subset.trans hspell.chars_subset hcs

theorem ne_nil_of_text_mem_tokens {s cs : List Char} (h : Token.text cs ∈ tokens s) : cs ≠ [] := by
  obtain ⟨cs', hspell, -⟩ := exists_spelling_of_mem_tokens h
  exact hspell.ne_nil_of_text

/-! ## Fragments -/

/-- The characters of some tokens. -/
def tokenChars (ts : List Token) : List Char :=
  ts.flatMap Token.chars

/-- Cutting a text into tokens adds no characters. -/
theorem tokenChars_tokens_subset (s : List Char) : tokenChars (tokens s) ⊆ s := by
  intro c hc
  obtain ⟨t, ht, hc⟩ := List.mem_flatMap.1 hc
  exact chars_subset_of_mem_tokens ht hc

/-- The text up to the first sign is made of characters of the tokens. -/
theorem textToSign_subset (p : List Token) : textToSign p ⊆ tokenChars p := by
  induction p with
  | nil => exact List.nil_subset _
  | cons t p ih =>
    have htail : tokenChars p ⊆ tokenChars (t :: p) := List.subset_append_right _ _
    cases t with
    | text cs => exact List.append_subset.2 ⟨List.subset_append_left _ _, fun c hc => htail (ih hc)⟩
    | sign s => exact List.nil_subset _
    | _ => exact fun c hc => htail (ih hc)

/-- The texts behind signs are made of characters of the tokens. -/
theorem chars_subset_of_mem_signedTexts {p : List Token} {f : Fragment} (h : f ∈ signedTexts p) :
    f.chars ⊆ tokenChars p := by
  induction p with
  | nil => cases h
  | cons t p ih =>
    have htail : tokenChars p ⊆ tokenChars (t :: p) := List.subset_append_right _ _
    cases t with
    | sign s =>
      rcases List.mem_cons.1 h with rfl | h
      · exact fun c hc => htail (textToSign_subset p hc)
      · exact fun c hc => htail (ih h hc)
    | _ => exact fun c hc => htail (ih h hc)

/-- The fragments of a phrase are made of characters of its tokens. -/
theorem chars_subset_of_mem_fragments {p : List Token} {f : Fragment} (h : f ∈ fragments p) :
    f.chars ⊆ tokenChars p := by
  rcases List.mem_cons.1 (List.mem_filter.1 h).1 with rfl | h
  · exact textToSign_subset p
  · exact chars_subset_of_mem_signedTexts h

/-- The phrases are made of all tokens but the separators. -/
theorem flatten_phrases (ts : List Token) :
    (phrases ts).flatten = ts.filter fun t => !t.isSeparator := by
  induction ts with
  | nil => rfl
  | cons t ts ih =>
    cases hsep : t.isSeparator with
    | true =>
      cases t <;> cases hsep
      rw [phrases_separator, List.flatten_cons, List.nil_append, ih]
      rfl
    | false =>
      obtain ⟨p, ps, h⟩ := exists_phrases_eq_cons ts
      rw [h] at ih
      rw [phrases_cons hsep h, List.filter_cons_of_pos (by simp [hsep]), ← ih]
      rfl

/-- The tokens of a phrase are among all tokens. -/
theorem mem_of_mem_phrases {ts p : List Token} (hp : p ∈ phrases ts) {t : Token} (ht : t ∈ p) :
    t ∈ ts := by
  have hmem : t ∈ (phrases ts).flatten := List.mem_flatten.2 ⟨p, hp, ht⟩
  rw [flatten_phrases] at hmem
  exact (List.mem_filter.1 hmem).1

/-- A token that is no separator stands in a phrase. -/
theorem exists_phrase_of_mem {ts : List Token} {t : Token} (ht : t ∈ ts)
    (hsep : t.isSeparator = false) : ∃ p ∈ phrases ts, t ∈ p := by
  rw [← List.mem_flatten, flatten_phrases]
  exact List.mem_filter.2 ⟨ht, by simp [hsep]⟩

/-- The fragments of the expressions are made of the characters of the tokens. -/
theorem chars_subset_of_mem_expressions {ts : List Token} {f : Fragment}
    (h : f ∈ (expressions ts).flatten) : f.chars ⊆ tokenChars ts := by
  obtain ⟨fs, hfs, hf⟩ := List.mem_flatten.1 h
  obtain ⟨p, hp, rfl⟩ := List.mem_map.1 (List.mem_filter.1 hfs).1
  intro c hc
  obtain ⟨t, ht, hc⟩ := List.mem_flatMap.1 (chars_subset_of_mem_fragments hf hc)
  exact List.mem_flatMap.2 ⟨t, mem_of_mem_phrases hp ht, hc⟩

/-! ## Parts given once -/

/-- A token that can be given only once. -/
def Token.isPart : Token → Bool
  | .target _ | .targetHighest _ | .modifier _ _ | .wildDie _ => true
  | _ => false

/-- The digits of every part that is given fulfil a condition. -/
structure Slots.All (slots : Slots) (P : List Char → Prop) : Prop where
  target : ∀ ds ∈ slots.target, P ds
  targetHighest : ∀ ds ∈ slots.targetHighest, P ds
  modifier : ∀ p ∈ slots.modifier, P p.2
  wildDie : ∀ ds ∈ slots.wildDie, P ds

/-- What all parts among some tokens fulfil, the first one of a kind does. -/
theorem forall_mem_head?_of_isPart {α : Type} {give : Token → Option α} {digits : α → List Char}
    {P : List Char → Prop} {ts : List Token} (h : ∀ t ∈ ts, t.isPart → P t.chars)
    (hgive : ∀ t a, give t = some a → t.isPart ∧ t.chars = digits a) :
    ∀ a ∈ (ts.filterMap give).head?, P (digits a) := by
  intro a ha
  obtain ⟨t, ht, hta⟩ := List.mem_filterMap.1 (List.mem_of_mem_head? ha)
  obtain ⟨hpart, hchars⟩ := hgive t a hta
  rw [← hchars]
  exact h t ht hpart

/-- The parts that tokens give fulfil what all parts among the tokens do. -/
theorem Slots.all_ofTokens {P : List Char → Prop} {ts : List Token}
    (h : ∀ t ∈ ts, t.isPart → P t.chars) : (Slots.ofTokens ts).All P := by
  constructor
  all_goals
    -- a part of one kind is given by tokens of this kind alone
    refine forall_mem_head?_of_isPart h fun t _ hgive => ?_
    cases t <;> cases hgive
    exact ⟨rfl, rfl⟩

theorem chars_subset_tokenChars {ts : List Token} {t : Token} (h : t ∈ ts) :
    t.chars ⊆ tokenChars ts :=
  fun _ hc => List.mem_flatMap.2 ⟨t, h, hc⟩

/-- The parts given once are made of characters of the tokens. -/
theorem within_ofTokens (ts : List Token) :
    (Slots.ofTokens ts).All fun ds => ds ⊆ tokenChars ts :=
  Slots.all_ofTokens fun _ ht _ => chars_subset_tokenChars ht

end TabletopDice.Written
