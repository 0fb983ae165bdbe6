import TabletopDice.Proofs.Grammar
import TabletopDice.Proofs.ParsedRoll
import TabletopDice.Proofs.ValidDice

/-!
# Rolls read from their own text

The texts of valid expressions, written one after the other, are read as these expressions. Main
statements: the tokens of such a text are those of its terms (`tokens_blockText`), and the text
stands for the expressions it was made from if it is not too long (`standsFor_blockText`).
-/

namespace TabletopDice

/-! ## Texts of expressions -/

/-- The texts of some expressions, one after the other. -/
def blockText (es : List Expr) : String :=
  "; ".intercalate (es.map Expr.text)

namespace Written

/-! ## The characters of terms -/

/-- The characters that terms are written with. -/
def termAlphabet : List Char :=
  ['0', '1', '2', '3', '4', '5', '6', '7', '8', '9', 'd', 'k', 'h', 'l', '!', '>']

/-- The characters of terms are read as they stand: none is blank, capital or reserved, and none
starts a repetition or a comment. -/
theorem termAlphabet_facts : ∀ c ∈ termAlphabet,
    (Text.isBlank c = false ∧ Text.lower c = [c] ∧ isPlain c = true) ∧
      c ≠ 'x' ∧ c ≠ 'X' ∧ c ≠ '"' := by
  intro c hc
  -- a check of the whole list computes faster than one fact for each character
  have hall : termAlphabet.all (fun c => !Text.isBlank c && Text.lower c == [c] && isPlain c &&
      c != 'x' && c != 'X' && c != '"') = true := by rfl
  have hc := List.all_eq_true.1 hall c hc
  simp only [Bool.and_eq_true, Bool.not_eq_true', beq_iff_eq, bne_iff_ne] at hc
  obtain ⟨⟨⟨⟨⟨hblank, hlower⟩, hplain⟩, hsmall⟩, hcapital⟩, hquote⟩ := hc
  exact ⟨⟨hblank, hlower, hplain⟩, hsmall, hcapital, hquote⟩

theorem mem_termAlphabet_of_isDigit {c : Char} (h : c.isDigit) : c ∈ termAlphabet := by
  obtain ⟨hlow, hhigh⟩ := toNat_of_isDigit h
  have hall : ∀ n, 48 ≤ n → n ≤ 57 → Char.ofNat n ∈ termAlphabet := by
    intro n hn hn'
    have hdigits : ∀ i ≤ 9, Char.ofNat (48 + i) ∈ termAlphabet := by decide
    obtain ⟨i, rfl⟩ := Nat.exists_eq_add_of_le hn
    exact hdigits i (by omega)
  have hc := hall c.toNat hlow hhigh
  rwa [Char.ofNat_toNat] at hc

theorem mem_termAlphabet_of_mem_getD {o : Option (List Char)} (ho : ∀ ds ∈ o, IsNumeral ds)
    {c : Char} (h : c ∈ o.getD []) : c ∈ termAlphabet := by
  cases o with
  | none => simp at h
  | some ds => exact mem_termAlphabet_of_isDigit ((ho ds rfl).2 c h)

/-- A suffix is written with the characters of terms. -/
theorem mem_termAlphabet_of_mem_suffix {x : Suffix} (hx : x.WellSpelled) {c : Char}
    (h : c ∈ x.chars) : c ∈ termAlphabet := by
  cases x with
  | explosion recursive t =>
    have hbang : '!' ∈ termAlphabet := by decide
    have hthreshold : c ∈ thresholdChars t → c ∈ termAlphabet := by
      cases t with
      | none => simp [thresholdChars]
      | some ds =>
        intro hc
        rcases List.mem_cons.1 hc with rfl | hc
        · decide
        · exact mem_termAlphabet_of_isDigit ((hx ds rfl).2 c hc)
    cases recursive <;> simp only [Suffix.chars, List.mem_cons] at h
    · rcases h with rfl | h
      · exact hbang
      · exact hthreshold h
    · rcases h with rfl | rfl | h
      · exact hbang
      · exact hbang
      · exact hthreshold h
  | selection kind n =>
    have hsymbol : ∀ c ∈ kind.symbol.toList, c ∈ termAlphabet := by
      cases kind <;> simp [Kind.symbol, termAlphabet]
    rcases List.mem_append.1 h with h | h
    · exact hsymbol c h
    · exact mem_termAlphabet_of_mem_getD hx h

/-- Dice consist of characters of terms, whatever faults they have. -/
theorem WrittenDice.WellSpelled.mem_termAlphabet {w : WrittenDice} (h : w.WellSpelled) {c : Char}
    (hc : c ∈ w.chars) : c ∈ termAlphabet := by
  have hd : 'd' ∈ termAlphabet := by decide
  simp only [WrittenDice.chars, List.mem_append, List.mem_cons, suffixChars,
    List.mem_flatMap] at hc
  rcases hc with hc | rfl | hc | ⟨x, hx, hc⟩
  · exact mem_termAlphabet_of_mem_getD h.count hc
  · exact hd
  · exact mem_termAlphabet_of_isDigit (h.sides.2 c hc)
  · exact mem_termAlphabet_of_mem_suffix (h.suffixes x hx) hc

/-- What spells a term consists of characters of terms. -/
theorem Spells.mem_termAlphabet {cs : List Char} {t : Term} (h : Spells cs t) {c : Char}
    (hc : c ∈ cs) : c ∈ termAlphabet := by
  cases h with
  | number numeral fits => exact mem_termAlphabet_of_isDigit (numeral.2 c hc)
  | dice spelled faultless => exact spelled.mem_termAlphabet hc

/-- No term is an empty text. -/
theorem Spells.ne_nil {cs : List Char} {t : Term} (h : Spells cs t) : cs ≠ [] := by
  cases h with
  | number numeral fits => exact numeral.1
  | dice => simp [WrittenDice.chars]

/-- The text of a valid term spells it. -/
theorem spells_termText {t : Term} (h : t.Valid) : Spells t.text.toList t := by
  cases t with
  | number n =>
    obtain ⟨hpos, hle⟩ := h
    obtain ⟨m, rfl⟩ := Int.eq_ofNat_of_zero_le hpos
    have htext : (Term.number m).text.toList = Numeral.ofNat m := toList_toString m
    have hspells := Spells.number (isNumeral_ofNat m) (by rwa [Numeral.value_ofNat])
    rwa [Numeral.value_ofNat, ← htext] at hspells
  | dice d => exact spells_text h

/-! ## Tokens of written text -/

/-- A run of plain characters that ends where the text does, or in front of a reserved character, is
one token. -/
theorem tokens_plain_append {cs r : List Char} (hne : cs ≠ []) (hcs : ∀ c ∈ cs, isPlain c)
    (hr : ∀ c ∈ r.head?, isPlain c = false) : tokens (cs ++ r) = .text cs :: tokens r := by
  obtain ⟨c, cs, rfl⟩ := List.exists_cons_of_ne_nil hne
  have hc : isPlain c := hcs c (.head _)
  have hrest : ∀ c ∈ cs, isPlain c := fun c hc => hcs c (.tail _ hc)
  have hreserved : c ∉ reserved := by simpa [isPlain] using hc
  have hspecial : special? (c :: (cs ++ r)) = none := by
    unfold special?
    split <;> simp_all [reserved]
  have htake : (cs ++ r).takeWhile isPlain = cs := by
    rw [List.takeWhile_append_of_pos hrest]
    cases r with
    | nil => simp
    | cons d r => simp [hr d rfl]
  have hdrop : (cs ++ r).dropWhile isPlain = r := by
    rw [List.dropWhile_append_of_pos hrest]
    cases r with
    | nil => rfl
    | cons d r => simp [hr d rfl]
  have hordinary : ordinary c (cs ++ r) = (.text (c :: cs), r) := by
    unfold ordinary
    simp only [reserved, List.mem_cons, List.not_mem_nil, or_false, not_or] at hreserved
    simp [hreserved, hc, htake, hdrop]
  rw [List.cons_append, tokens_cons, firstToken, hspecial, Option.getD_none, hordinary]

/-- A sign is a token of its own. -/
theorem tokens_sign (s : Sign) (r : List Char) : tokens (s.symbol :: r) = .sign s :: tokens r := by
  rw [tokens_cons]
  cases s <;> rfl

/-- A semicolon is a token of its own. -/
theorem tokens_semicolon (r : List Char) : tokens (';' :: r) = .separator :: tokens r := by
  rw [tokens_cons]
  rfl

/-! ## Texts without blanks -/

/-- Signed terms, each with its sign in front. -/
def signedChars (ps : List (Sign × Term)) : List Char :=
  ps.flatMap fun p => p.1.symbol :: p.2.text.toList

/-- The text of an expression without blanks. -/
def exprChars (e : Expr) : List Char :=
  match e.terms with
  | (.plus, t) :: ps => t.text.toList ++ signedChars ps
  | ps => signedChars ps

/-- The characters of terms are neither blanks nor capital letters. -/
theorem normal_of_mem_termAlphabet {cs : List Char} (h : ∀ c ∈ cs, c ∈ termAlphabet) :
    Text.normal cs = cs := by
  induction cs with
  | nil => rfl
  | cons c cs ih =>
    obtain ⟨⟨hblank, hlower, -⟩, -⟩ := termAlphabet_facts c (h c (.head _))
    have hc : Text.normal [c] = [c] := by simp [Text.normal, hblank, hlower]
    rw [← List.singleton_append, Text.normal_append, hc, ih fun c hc => h c (.tail _ hc)]

theorem normal_termText {t : Term} (h : t.Valid) : Text.normal t.text.toList = t.text.toList :=
  normal_of_mem_termAlphabet fun _ => (spells_termText h).mem_termAlphabet

/-- A sign between blanks loses the blanks. -/
theorem normal_sign (s : Sign) :
    Text.normal (" " ++ s.symbol.toString ++ " ").toList = [s.symbol] := by
  cases s <;> decide

/-- Blanks around signs vanish. -/
theorem normal_joinMore {ps : List (Sign × Term)} (h : ∀ p ∈ ps, p.2.Valid) :
    Text.normal (joinMore (ps.map fun p => (p.1, p.2.text))).toList = signedChars ps := by
  induction ps with
  | nil => rfl
  | cons p ps ih =>
    have hp := normal_termText (h p (.head _))
    have ih := ih fun p hp => h p (.tail _ hp)
    have hcons : (joinMore ((p :: ps).map fun p => (p.1, p.2.text))).toList =
        (" " ++ p.1.symbol.toString ++ " ").toList ++ p.2.text.toList ++
          (joinMore (ps.map fun p => (p.1, p.2.text))).toList := by
      simp [joinMore, String.toList_join]
    rw [hcons, Text.normal_append, Text.normal_append, normal_sign, hp, ih]
    rfl

/-- An expression that is printed loses its blanks and nothing else. -/
theorem normal_exprText {e : Expr} (h : e.Valid) : Text.normal e.text.toList = exprChars e := by
  obtain ⟨terms⟩ := e
  obtain ⟨hne, hterms⟩ := h
  obtain ⟨⟨sign, t⟩, ps, rfl⟩ := List.exists_cons_of_ne_nil hne
  have ht := normal_termText (hterms _ (.head _))
  have hps := normal_joinMore fun p hp => hterms p (.tail _ hp)
  cases sign with
  | plus =>
    have htext : (Expr.text ⟨(.plus, t) :: ps⟩).toList =
        t.text.toList ++ (joinMore (ps.map fun p => (p.1, p.2.text))).toList := by
      simp [Expr.text, joinSigned]
    rw [htext, Text.normal_append, ht, hps]
    rfl
  | minus =>
    have htext : (Expr.text ⟨(.minus, t) :: ps⟩).toList =
        ['-'] ++ t.text.toList ++ (joinMore (ps.map fun p => (p.1, p.2.text))).toList := by
      simp [Expr.text, joinSigned]
    have hminus : Text.normal ['-'] = ['-'] := by decide
    rw [htext, Text.normal_append, Text.normal_append, ht, hps, hminus]
    rfl

/-- A separator is normalized like the texts on both sides of it. -/
theorem normal_intercalate (sep : List Char) (xs : List (List Char)) :
    Text.normal (sep.intercalate xs) = (Text.normal sep).intercalate (xs.map Text.normal) := by
  induction xs with
  | nil => rfl
  | cons x xs ih =>
    cases xs with
    | nil => simp
    | cons y ys =>
      rw [List.intercalate_cons_cons, Text.normal_append, Text.normal_append, ih]
      exact List.intercalate_cons_cons.symm

/-- A block that is printed is left with semicolons between its expressions. -/
theorem normal_blockText {es : List Expr} (h : ∀ e ∈ es, e.Valid) :
    Text.normal (blockText es).toList = [';'].intercalate (es.map exprChars) := by
  have hsep : Text.normal "; ".toList = [';'] := by decide
  have hmap : (es.map Expr.text).map (fun t => Text.normal t.toList) = es.map exprChars := by
    rw [List.map_map]
    exact List.map_congr_left fun e he => normal_exprText (h e he)
  rw [blockText, String.toList_intercalate, normal_intercalate, hsep, List.map_map]
  exact congrArg _ hmap

/-! ## Tokens of texts -/

/-- The tokens of signed terms. -/
def signedTokens (ps : List (Sign × Term)) : List Token :=
  ps.flatMap fun p => [.sign p.1, .text p.2.text.toList]

/-- The tokens of an expression. -/
def exprTokens (e : Expr) : List Token :=
  match e.terms with
  | (.plus, t) :: ps => .text t.text.toList :: signedTokens ps
  | ps => signedTokens ps

/-- Whether a text starts with a character that ends a run of plain ones, if it starts at all. -/
def NotPlainAhead (r : List Char) : Prop :=
  ∀ c ∈ r.head?, isPlain c = false

theorem notPlainAhead_signedChars {ps : List (Sign × Term)} {r : List Char}
    (h : NotPlainAhead r) : NotPlainAhead (signedChars ps ++ r) := by
  cases ps with
  | nil => exact h
  | cons p ps =>
    rintro c ⟨⟩
    cases p.1 <;> decide

/-- The text of a term is one token, if no further text follows it. -/
theorem tokens_termText_append {t : Term} {r : List Char} (ht : t.Valid) (hr : NotPlainAhead r) :
    tokens (t.text.toList ++ r) = .text t.text.toList :: tokens r := by
  have hspells := spells_termText ht
  refine tokens_plain_append hspells.ne_nil (fun c hc => ?_) hr
  exact (termAlphabet_facts c (hspells.mem_termAlphabet hc)).1.2.2

/-- Terms behind signs are cut into a sign and a text each. -/
theorem tokens_signedChars_append {ps : List (Sign × Term)} {r : List Char}
    (h : ∀ p ∈ ps, p.2.Valid) (hr : NotPlainAhead r) :
    tokens (signedChars ps ++ r) = signedTokens ps ++ tokens r := by
  induction ps with
  | nil => rfl
  | cons p ps ih =>
    have hchars : signedChars (p :: ps) ++ r =
        p.1.symbol :: (p.2.text.toList ++ (signedChars ps ++ r)) := by
      simp [signedChars]
    rw [hchars, tokens_sign, tokens_termText_append (h p (.head _)) (notPlainAhead_signedChars hr),
      ih fun p hp => h p (.tail _ hp)]
    rfl

/-- An expression is cut into its own tokens, if no further text follows it. -/
theorem tokens_exprChars_append {e : Expr} {r : List Char} (h : e.Valid) (hr : NotPlainAhead r) :
    tokens (exprChars e ++ r) = exprTokens e ++ tokens r := by
  obtain ⟨terms⟩ := e
  obtain ⟨hne, hterms⟩ := h
  obtain ⟨⟨sign, t⟩, ps, rfl⟩ := List.exists_cons_of_ne_nil hne
  cases sign with
  | plus =>
    have hps : ∀ p ∈ ps, p.2.Valid := fun p hp => hterms p (.tail _ hp)
    rw [exprChars, List.append_assoc, tokens_termText_append (hterms _ (.head _))
      (notPlainAhead_signedChars hr), tokens_signedChars_append hps hr]
    rfl
  | minus => exact tokens_signedChars_append hterms hr

/-- The tokens of some expressions with semicolons between them. -/
theorem tokens_intercalate {es : List Expr} (h : ∀ e ∈ es, e.Valid) :
    tokens ([';'].intercalate (es.map exprChars)) =
      [.separator].intercalate (es.map exprTokens) := by
  induction es with
  | nil => simp
  | cons e es ih =>
    have he := h e (.head _)
    have ih := ih fun e he => h e (.tail _ he)
    cases es with
    | nil =>
      have htokens := tokens_exprChars_append (r := []) he (by simp [NotPlainAhead])
      simpa using htokens
    | cons e' es =>
      -- the semicolon ends the text of the last term
      rw [List.map_cons, List.map_cons, List.intercalate_cons_cons, List.append_assoc,
        tokens_exprChars_append he (by simp [NotPlainAhead]; decide), List.singleton_append,
        tokens_semicolon, ← List.map_cons, ih]
      simp [List.intercalate_cons_cons]

/-! ## Parts of the tokens -/

theorem isContent_of_mem_signedTokens {ps : List (Sign × Term)} {t : Token}
    (h : t ∈ signedTokens ps) : t.isContent := by
  obtain ⟨p, -, ht⟩ := List.mem_flatMap.1 h
  simp only [List.mem_cons, List.not_mem_nil, or_false] at ht
  rcases ht with rfl | rfl <;> rfl

/-- The tokens of an expression are signs and texts. -/
theorem isContent_of_mem_exprTokens {e : Expr} {t : Token} (h : t ∈ exprTokens e) :
    t.isContent := by
  unfold exprTokens at h
  split at h
  · rcases List.mem_cons.1 h with rfl | h
    · rfl
    · exact isContent_of_mem_signedTokens h
  · exact isContent_of_mem_signedTokens h

theorem isSeparator_of_isContent {t : Token} (h : t.isContent) : t.isSeparator = false := by
  cases t <;> simp_all [Token.isContent, Token.isSeparator]

/-- The expressions are found between the separators. -/
theorem phrases_intercalate {es : List Expr} (h : es ≠ []) :
    phrases ([Token.separator].intercalate (es.map exprTokens)) = es.map exprTokens := by
  induction es with
  | nil => exact absurd rfl h
  | cons e es ih =>
    have he : ∀ t ∈ exprTokens e, t.isSeparator = false :=
      fun t ht => isSeparator_of_isContent (isContent_of_mem_exprTokens ht)
    cases es with
    | nil =>
      rw [List.map_singleton, List.intercalate_singleton]
      exact List.splitOnP_eq_singleton he
    | cons e' es =>
      have ih := ih (List.cons_ne_nil _ _)
      rw [List.map_cons, List.map_cons, List.intercalate_cons_cons, List.append_assoc,
        List.singleton_append, phrases,
        List.splitOnP_append_cons_of_forall_mem he _ rfl, ← List.map_cons, ← phrases, ih]

theorem textToSign_signedTokens (ps : List (Sign × Term)) : textToSign (signedTokens ps) = [] := by
  cases ps <;> rfl

/-- The fragment that a signed term is written as. -/
def fragmentOf (p : Sign × Term) : Fragment :=
  ⟨p.1, p.2.text.toList⟩

/-- Behind each sign stands the text of its term. -/
theorem signedTexts_signedTokens (ps : List (Sign × Term)) :
    signedTexts (signedTokens ps) = ps.map fragmentOf := by
  induction ps with
  | nil => rfl
  | cons p ps ih =>
    have hcons : signedTexts (signedTokens (p :: ps)) =
        ⟨p.1, p.2.text.toList ++ textToSign (signedTokens ps)⟩ :: signedTexts (signedTokens ps) :=
      rfl
    rw [hcons, ih, textToSign_signedTokens, List.append_nil]
    rfl

theorem written_map_fragmentOf {ps : List (Sign × Term)} (h : ∀ p ∈ ps, p.2.Valid) :
    written (ps.map fragmentOf) = ps.map fragmentOf := by
  refine List.filter_eq_self.2 fun f hf => ?_
  obtain ⟨p, hp, rfl⟩ := List.mem_map.1 hf
  have hne := (spells_termText (h p hp)).ne_nil
  simpa [fragmentOf] using hne

/-- The fragments of an expression are its terms as they are written. -/
theorem fragments_exprTokens {e : Expr} (h : e.Valid) :
    fragments (exprTokens e) = e.terms.map fragmentOf := by
  obtain ⟨terms⟩ := e
  obtain ⟨hne, hterms⟩ := h
  obtain ⟨⟨sign, t⟩, ps, rfl⟩ := List.exists_cons_of_ne_nil hne
  rw [← written_map_fragmentOf hterms]
  cases sign with
  | plus =>
    have htext : textToSign (exprTokens ⟨(.plus, t) :: ps⟩) = t.text.toList := by
      show t.text.toList ++ textToSign (signedTokens ps) = t.text.toList
      rw [textToSign_signedTokens, List.append_nil]
    have hsigned : signedTexts (exprTokens ⟨(.plus, t) :: ps⟩) = ps.map fragmentOf :=
      signedTexts_signedTokens ps
    rw [fragments, htext, hsigned]
    rfl
  | minus =>
    have htext : textToSign (exprTokens ⟨(.minus, t) :: ps⟩) = [] :=
      textToSign_signedTokens _
    have hsigned : signedTexts (exprTokens ⟨(.minus, t) :: ps⟩) =
        ((.minus, t) :: ps).map fragmentOf := signedTexts_signedTokens _
    rw [fragments, htext, hsigned, written_cons]
    rfl

/-- The fragments of an expression spell it. -/
theorem spellsExpr_fragments {e : Expr} (h : e.Valid) :
    SpellsExpr (e.terms.map fragmentOf) e := by
  obtain ⟨terms⟩ := e
  obtain ⟨-, hterms⟩ := h
  show List.Forall₂ Fragment.Spells (terms.map fragmentOf) terms
  rw [List.forall₂_map_left_iff, List.forall₂_same]
  intro p hp
  exact ⟨rfl, spells_termText (hterms p hp)⟩

/-! ## Some expressions together -/

/-- The tokens of some expressions with separators between them. -/
def blockTokens (es : List Expr) : List Token :=
  [.separator].intercalate (es.map exprTokens)

theorem isContent_or_isSeparator_of_mem (es : List Expr) :
    ∀ t ∈ blockTokens es, t.isContent ∨ t.isSeparator := by
  intro t h
  unfold blockTokens at h
  induction es with
  | nil => simp at h
  | cons e es ih =>
    cases es with
    | nil =>
      rw [List.map_singleton, List.intercalate_singleton] at h
      exact .inl (isContent_of_mem_exprTokens h)
    | cons e' es =>
      rw [List.map_cons, List.map_cons, List.intercalate_cons_cons, ← List.map_cons] at h
      rcases List.mem_append.1 h with h | h
      · rcases List.mem_append.1 h with h | h
        · exact .inl (isContent_of_mem_exprTokens h)
        · rw [List.mem_singleton.1 h]
          exact .inr rfl
      · exact ih h

/-- Signs, texts and separators give no part that can be given only once. -/
theorem no_slots_of_tokens {ts : List Token} (h : ∀ t ∈ ts, t.isContent ∨ t.isSeparator) :
    targets ts = [] ∧ highests ts = [] ∧ modifiers ts = [] ∧ wildDice ts = [] := by
  refine ⟨?_, ?_, ?_, ?_⟩
  all_goals
    refine List.filterMap_eq_nil_iff.2 fun t ht => ?_
    have ht := h t ht
    cases t <;> simp_all [Token.isContent, Token.isSeparator]

/-- The fragments of the expressions are their terms as they are written. -/
theorem expressions_blockTokens {es : List Expr} (hne : es ≠ []) (h : ∀ e ∈ es, e.Valid) :
    expressions (blockTokens es) = es.map fun e => e.terms.map fragmentOf := by
  have hfragments : (es.map exprTokens).map fragments = es.map fun e => e.terms.map fragmentOf := by
    rw [List.map_map]
    exact List.map_congr_left fun e he => fragments_exprTokens (h e he)
  rw [expressions, blockTokens, phrases_intercalate hne, hfragments]
  refine List.filter_eq_self.2 fun fs hfs => ?_
  obtain ⟨e, he, rfl⟩ := List.mem_map.1 hfs
  simpa using (h e he).nonempty

/-- Valid expressions are spelled by their tokens. -/
theorem spellsBlock_blockTokens {es : List Expr} (hne : es ≠ []) (h : ∀ e ∈ es, e.Valid) :
    SpellsBlock (blockTokens es) es := by
  have hexpressions := expressions_blockTokens hne h
  have hcontent : (blockTokens es).any Token.isContent = true := by
    by_contra hnone
    rw [expressions_of_not_isContent (Bool.eq_false_iff.2 hnone)] at hexpressions
    exact hne (List.map_eq_nil_iff.1 hexpressions.symm)
  rw [SpellsBlock, if_pos hcontent, hexpressions, List.forall₂_map_left_iff, List.forall₂_same]
  exact fun e he => spellsExpr_fragments (h e he)

/-- Every fragment of an expression that is printed is one of its terms. -/
theorem exists_term_of_mem_signedTexts {e : Expr} {f : Fragment}
    (h : f ∈ signedTexts (exprTokens e)) : ∃ p ∈ e.terms, f = fragmentOf p := by
  obtain ⟨terms⟩ := e
  unfold exprTokens at h
  split at h
  · next t ps hterms =>
    dsimp only at hterms
    subst hterms
    have hf : f ∈ signedTexts (signedTokens ps) := h
    rw [signedTexts_signedTokens] at hf
    obtain ⟨p, hp, rfl⟩ := List.mem_map.1 hf
    exact ⟨p, .tail _ hp, rfl⟩
  · rw [signedTexts_signedTokens] at h
    obtain ⟨p, hp, rfl⟩ := List.mem_map.1 h
    exact ⟨p, hp, rfl⟩

/-- A block that is printed is grammatical: it has no parts that are given once. -/
theorem grammatical_blockTokens {es : List Expr} (hne : es ≠ []) (h : ∀ e ∈ es, e.Valid) :
    Grammatical (blockTokens es) := by
  obtain ⟨htargets, hhighests, hmodifiers, hwild⟩ :=
    no_slots_of_tokens (isContent_or_isSeparator_of_mem es)
  have hsigns : Followed (phrases (blockTokens es)) := by
    rw [blockTokens, phrases_intercalate hne]
    intro p hp f hf
    obtain ⟨e, he, rfl⟩ := List.mem_map.1 hp
    obtain ⟨q, hq, rfl⟩ := exists_term_of_mem_signedTexts hf
    exact (spells_termText ((h e he).terms q hq)).ne_nil
  constructor
  case signs => exact hsigns
  all_goals simp [htargets, hhighests, hmodifiers, hwild]

/-! ## The layout of texts -/

/-- The characters that expressions are written with. -/
def printedAlphabet : List Char :=
  [' ', '+', '-', ';'] ++ termAlphabet

/-- None of these characters starts a repetition or a comment, and all are small. -/
theorem printedAlphabet_facts : ∀ c ∈ printedAlphabet,
    Text.lower c = [c] ∧ c ≠ 'x' ∧ c ≠ 'X' ∧ c ≠ '"' := by
  intro c hc
  rcases List.mem_append.1 hc with hc | hc
  · simp only [List.mem_cons, List.not_mem_nil, or_false] at hc
    rcases hc with rfl | rfl | rfl | rfl <;> decide
  · obtain ⟨⟨-, hlower, -⟩, hrest⟩ := termAlphabet_facts c hc
    exact ⟨hlower, hrest⟩

theorem mem_printedAlphabet_of_mem_text {t : Term} (ht : t.Valid) {c : Char}
    (h : c ∈ t.text.toList) : c ∈ printedAlphabet :=
  List.mem_append_right _ ((spells_termText ht).mem_termAlphabet h)

theorem mem_printedAlphabet_of_mem_joinMore {ps : List (Sign × Term)}
    (hps : ∀ p ∈ ps, p.2.Valid) {c : Char}
    (h : c ∈ (joinMore (ps.map fun p => (p.1, p.2.text))).toList) : c ∈ printedAlphabet := by
  have hsign : ∀ s : Sign, s.symbol ∈ printedAlphabet := by
    intro s
    cases s <;> decide
  have hblank : ' ' ∈ printedAlphabet := by decide
  simp only [joinMore, String.toList_join, List.map_map, List.flatMap_map, List.mem_flatMap] at h
  obtain ⟨p, hp, hc⟩ := h
  simp only [Char.toString_eq_singleton, String.append_singleton, Function.comp_apply,
    String.toList_append, String.toList_push, String.reduceToList, List.cons_append,
    List.nil_append, List.mem_cons] at hc
  rcases hc with rfl | rfl | rfl | hc
  · exact hblank
  · exact hsign p.1
  · exact hblank
  · exact mem_printedAlphabet_of_mem_text (hps p hp) hc

/-- An expression is printed in few characters. -/
theorem mem_printedAlphabet_of_mem_exprText {e : Expr} (he : e.Valid) {c : Char}
    (h : c ∈ e.text.toList) : c ∈ printedAlphabet := by
  -- a first plus sign is left out, a first minus sign is written
  obtain ⟨terms⟩ := e
  obtain ⟨-, hterms⟩ := he
  cases terms with
  | nil => simp [Expr.text, joinSigned] at h
  | cons p ps =>
    obtain ⟨sign, t⟩ := p
    have ht := fun hc => mem_printedAlphabet_of_mem_text (c := c) (hterms _ (.head _)) hc
    have hps := fun hc => mem_printedAlphabet_of_mem_joinMore (c := c)
      (fun p hp => hterms p (.tail _ hp)) hc
    cases sign with
    | plus =>
      simp only [Expr.text, List.map_cons, joinSigned, String.toList_append,
        List.mem_append] at h
      exact h.elim ht hps
    | minus =>
      simp only [Expr.text, List.map_cons, joinSigned, String.toList_append,
        List.mem_append] at h
      rcases h with (h | h) | h
      · rw [List.mem_singleton.1 h]
        decide
      · exact ht h
      · exact hps h

/-- Every character of such a text is written as it is read. -/
theorem mem_printedAlphabet_of_mem_blockText {es : List Expr} (hes : ∀ e ∈ es, e.Valid) {c : Char}
    (h : c ∈ (blockText es).toList) : c ∈ printedAlphabet := by
  rw [blockText, String.toList_intercalate] at h
  induction es with
  | nil => simp at h
  | cons e es ih =>
    have he := fun hc => mem_printedAlphabet_of_mem_exprText (c := c) (hes e (.head _)) hc
    cases es with
    | nil =>
      simp only [List.map_cons, List.map_nil, List.intercalate_singleton] at h
      exact he h
    | cons e' es =>
      simp only [List.map_cons, List.intercalate_cons_cons, List.mem_append] at h ih
      rcases h with (h | h) | h
      · exact he h
      · have hsep : ∀ c ∈ "; ".toList, c ∈ printedAlphabet := by
          simp [printedAlphabet]
        exact hsep c h
      · exact ih (fun e he => hes e (.tail _ he)) h

/-- A text that neither starts nor ends in a blank. -/
def Framed (s : List Char) : Prop :=
  ∃ c d, s.head? = some c ∧ s.getLast? = some d ∧ Text.isBlank c = false ∧ Text.isBlank d = false

/-- What stands between two framed texts does not matter. -/
theorem Framed.append {s t : List Char} (hs : Framed s) (m : List Char) (ht : Framed t) :
    Framed (s ++ m ++ t) := by
  obtain ⟨c, -, hc, -, hblank, -⟩ := hs
  obtain ⟨-, d, -, hd, -, hblank'⟩ := ht
  refine ⟨c, d, ?_, ?_, hblank, hblank'⟩
  · rw [List.append_assoc, List.head?_append, hc, Option.some_or]
  · rw [List.getLast?_append, hd, Option.some_or]

/-- Around such a text there is nothing to trim. -/
theorem Framed.trim {s : List Char} (h : Framed s) : Text.trim s = s := by
  obtain ⟨c, d, hc, hd, hblank, hblank'⟩ := h
  obtain ⟨r, rfl⟩ := List.head?_eq_some_iff.1 hc
  obtain ⟨q, hq⟩ := List.getLast?_eq_some_iff.1 hd
  rw [Text.trim, List.dropWhile_cons_of_neg (by simp [hblank]), hq]
  exact Text.trimEnd_concat_of_not_isBlank q hblank'

/-- Text without blanks is framed by itself. -/
theorem framed_of_mem_termAlphabet {s : List Char} (hne : s ≠ [])
    (h : ∀ c ∈ s, c ∈ termAlphabet) : Framed s := by
  refine ⟨s.head hne, s.getLast hne, List.head?_eq_some_head hne, List.getLast?_eq_some_getLast hne,
    ?_, ?_⟩
  · exact (termAlphabet_facts _ (h _ (List.head_mem hne))).1.1
  · exact (termAlphabet_facts _ (h _ (List.getLast_mem hne))).1.1

theorem framed_termText {t : Term} (h : t.Valid) : Framed t.text.toList :=
  framed_of_mem_termAlphabet (spells_termText h).ne_nil fun _ =>
    (spells_termText h).mem_termAlphabet

theorem framed_append_joinMore {s : List Char} {ps : List (Sign × Term)} (hs : Framed s)
    (hps : ∀ p ∈ ps, p.2.Valid) :
    Framed (s ++ (joinMore (ps.map fun p => (p.1, p.2.text))).toList) := by
  induction ps generalizing s with
  | nil => simpa [joinMore] using hs
  | cons p ps ih =>
    have hp :=
      hs.append (" " ++ p.1.symbol.toString ++ " ").toList (framed_termText (hps p (.head _)))
    have hall := ih hp fun p hp => hps p (.tail _ hp)
    have hcons : s ++ (joinMore ((p :: ps).map fun p => (p.1, p.2.text))).toList =
        s ++ (" " ++ p.1.symbol.toString ++ " ").toList ++ p.2.text.toList ++
          (joinMore (ps.map fun p => (p.1, p.2.text))).toList := by
      simp [joinMore, String.toList_join]
    rwa [hcons]

/-- No expression is printed with a blank at either end. -/
theorem framed_exprText {e : Expr} (h : e.Valid) : Framed e.text.toList := by
  obtain ⟨terms⟩ := e
  obtain ⟨hne, hterms⟩ := h
  obtain ⟨⟨sign, t⟩, ps, rfl⟩ := List.exists_cons_of_ne_nil hne
  have ht : Framed t.text.toList := framed_termText (hterms _ (.head _))
  have hps : ∀ p ∈ ps, p.2.Valid := fun p hp => hterms p (.tail _ hp)
  cases sign with
  | plus =>
    simp only [Expr.text, List.map_cons, joinSigned, String.toList_append]
    exact framed_append_joinMore ht hps
  | minus =>
    have hminus : Framed ['-'] := ⟨'-', '-', rfl, rfl, by decide, by decide⟩
    have hfirst : Framed ("-".toList ++ t.text.toList) := by
      simpa using hminus.append [] ht
    simp only [Expr.text, List.map_cons, joinSigned, String.toList_append]
    exact framed_append_joinMore hfirst hps

/-- No block is printed with a blank at either end. -/
theorem framed_blockText {es : List Expr} (hne : es ≠ []) (h : ∀ e ∈ es, e.Valid) :
    Framed (blockText es).toList := by
  rw [blockText, String.toList_intercalate]
  induction es with
  | nil => exact absurd rfl hne
  | cons e es ih =>
    have he := framed_exprText (h e (.head _))
    cases es with
    | nil => simpa using he
    | cons e' es =>
      have ih := ih (List.cons_ne_nil _ _) fun e he => h e (.tail _ he)
      rw [List.map_cons, List.map_cons, List.map_cons, List.map_cons, List.intercalate_cons_cons]
      exact he.append _ ih

/-- Nothing in such a text is repeated. -/
theorem repeats_blockText {es : List Expr} (h : ∀ e ∈ es, e.Valid) :
    Repeats (blockText es).toList (blockText es).toList 1 := by
  refine .once fun rest ds hends => ?_
  obtain ⟨x, before, after, hx, -, -, -, hs⟩ := hends
  have hmem : x ∈ (blockText es).toList := by
    rw [hs]
    simp
  obtain ⟨-, hsmall, hcapital, -⟩ :=
    printedAlphabet_facts x (mem_printedAlphabet_of_mem_blockText h hmem)
  rcases hx with rfl | rfl
  · exact hsmall rfl
  · exact hcapital rfl

/-- Nothing in such a text is a comment. -/
theorem commented_blockText {es : List Expr} (h : ∀ e ∈ es, e.Valid) :
    Commented (Text.normal (blockText es).toList) (Text.normal (blockText es).toList) none := by
  refine .plain ?_
  have hquote : ∀ c ∈ Text.normal (blockText es).toList, c ≠ '"' := by
    intro c hc
    obtain ⟨d, hd, hc⟩ := List.mem_flatMap.1 hc
    obtain ⟨hlower, -, -, hquote⟩ := printedAlphabet_facts d
      (mem_printedAlphabet_of_mem_blockText h (List.mem_of_mem_filter hd))
    rw [hlower, List.mem_singleton] at hc
    rwa [hc]
  rw [count_quote_eq_zero hquote]
  exact Nat.zero_le 1

/-- A block that is printed is cut into the tokens of its expressions. -/
theorem tokens_blockText {es : List Expr} (h : ∀ e ∈ es, e.Valid) :
    tokens (Text.normal (blockText es).toList) = blockTokens es := by
  rw [normal_blockText h, tokens_intercalate h]
  rfl

/-- The roll that has only these expressions is what their tokens stand for. -/
theorem rollOf_blockTokens (es : List Expr) : rollOf (blockTokens es) es 1 = { exprs := es } := by
  obtain ⟨htargets, hhighests, hmodifiers, -⟩ :=
    no_slots_of_tokens (isContent_or_isSeparator_of_mem es)
  rw [rollOf, htargets, hhighests, hmodifiers]
  simp [maxCopies]

/-- The texts of valid expressions stand for them, unless they are too long together. -/
theorem standsFor_blockText {es : List Expr} (hne : es ≠ []) (h : ∀ e ∈ es, e.Valid)
    (hgroups : Expr.totalGroups es ≤ maxDiceGroups)
    (hshort : (blockText es).length ≤ maxTextLength) :
    StandsFor (blockText es) { exprs := es, raw := blockText es } := by
  have htrim := (framed_blockText hne h).trim
  have hlength : (Text.trim (blockText es).toList).length ≤ maxTextLength := by rwa [htrim]
  have hrepeats : Repeats (Text.trim (blockText es).toList) (blockText es).toList 1 := by
    rw [htrim]
    exact repeats_blockText h
  have hgrammatical : Grammatical (tokens (Text.normal (blockText es).toList)) := by
    rw [tokens_blockText h]
    exact grammatical_blockTokens hne h
  have hspelled : SpellsBlock (tokens (Text.normal (blockText es).toList)) es := by
    rw [tokens_blockText h]
    exact spellsBlock_blockTokens hne h
  have hstands := StandsFor.intro hlength hrepeats (commented_blockText h) hgrammatical hspelled
    (by rwa [Nat.mul_one])
  rwa [tokens_blockText h, rollOf_blockTokens] at hstands

end Written

namespace Roll

open Written

/-- The texts of valid expressions are read as these expressions if they are not too long together,
and not at all otherwise. -/
theorem ofText_blockText {es : List Expr} (hne : es ≠ []) (h : ∀ e ∈ es, e.Valid)
    (hgroups : Expr.totalGroups es ≤ maxDiceGroups) :
    ofText (blockText es) =
      if (blockText es).length ≤ maxTextLength then { exprs := es, raw := blockText es }
      else { raw := blockText es, messages := [.inputTooLong] } := by
  split
  · next hshort => exact ofText_of_standsFor (standsFor_blockText hne h hgroups hshort)
  · next hlong =>
    refine ofText_of_long ?_
    rw [(framed_blockText hne h).trim]
    exact Nat.lt_of_not_le hlong

/-- Reading undoes writing: from the texts of valid expressions these are read back, with nothing
beside them, exactly when the texts are not too long together. -/
theorem exprs_ofText_blockText_iff {es : List Expr} (hne : es ≠ []) (h : ∀ e ∈ es, e.Valid)
    (hgroups : Expr.totalGroups es ≤ maxDiceGroups) :
    (((ofText (blockText es)).exprs = es ∧ (ofText (blockText es)).messages = [] ∧
        (ofText (blockText es)).target = none ∧ (ofText (blockText es)).targetHighest = none ∧
        (ofText (blockText es)).modifier = none ∧ (ofText (blockText es)).comment = none) ↔
      (blockText es).length ≤ maxTextLength) ∧
    (¬ (blockText es).length ≤ maxTextLength →
      (ofText (blockText es)).exprs = [] ∧ (ofText (blockText es)).messages = [.inputTooLong]) := by
  rw [ofText_blockText hne h hgroups]
  by_cases hshort : (blockText es).length ≤ maxTextLength
  · simp [hshort]
  · simp [hshort]

/-- Two expressions, one of them with every part that a group can have. -/
theorem exprs_ofText_of_two_texts :
    (ofText "-4d6!!>5dhdl2 + 3; 1d6").exprs =
      [⟨[(.minus, .dice ⟨4, 6, some ⟨some 5, true⟩, [⟨.dropHigh, 1⟩, ⟨.dropLow, 2⟩]⟩),
        (.plus, .number 3)]⟩, ⟨[(.plus, .dice .standard)]⟩] ∧
    (ofText "-4d6!!>5dhdl2 + 3; 1d6").messages = [] := by
  have hgroup : Dice.Valid ⟨4, 6, some ⟨some 5, true⟩, [⟨.dropHigh, 1⟩, ⟨.dropLow, 2⟩]⟩ := by
    refine ⟨by decide, by decide, ?_, .dropBoth (by decide) (by decide) (by decide)⟩
    rintro e ⟨⟩ t ⟨⟩
    decide
  have hstandard : Dice.standard.Valid := by
    refine ⟨by decide, by decide, ?_, .none⟩
    rintro e ⟨⟩
  have hvalid : ∀ e ∈ ([⟨[(.minus, .dice ⟨4, 6, some ⟨some 5, true⟩,
      [⟨.dropHigh, 1⟩, ⟨.dropLow, 2⟩]⟩), (.plus, .number 3)]⟩,
      ⟨[(.plus, .dice .standard)]⟩] : List Expr), e.Valid := by
    simp only [List.forall_mem_cons, List.not_mem_nil, false_implies, implies_true, and_true]
    refine ⟨⟨by simp, ?_⟩, ⟨by simp, ?_⟩⟩
    · simpa [Term.Valid, hgroup] using (by decide : (3 : Int) ≤ maxTotal)
    · simpa [Term.Valid] using hstandard
  have hread := (exprs_ofText_blockText_iff (by simp) hvalid (by decide)).1.2 (by decide)
  exact ⟨hread.1, hread.2.1⟩

end Roll

end TabletopDice
