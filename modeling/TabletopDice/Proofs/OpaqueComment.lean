import Mathlib
import TabletopDice.Proofs.LayoutSpelling

/-!
# Comments are opaque

What stands between the first two quotes of a text is the comment and nothing else. Neither of the
two cuts that are made before the text is read can be misled by it: the repetition is looked for
behind the last quote, and small letters without blanks have the same quotes as the text. Main
statement: two texts that differ in their comments alone are read and rolled alike
(`ofText_quoted`).
-/

namespace TabletopDice

namespace Text

/-! ## Quotes in normal text -/

/-- No small letter of the table is a quote. -/
theorem quote_lt_small : ∀ r ∈ caseRanges, '"'.toNat < r.small := by
  decide +kernel

/-- Lowering makes no quotes. -/
theorem ne_quote_of_mem_lower {c x : Char} (hc : c ≠ '"') (hx : x ∈ lower c) : x ≠ '"' := by
  rcases mem_lower_cases hx with ⟨hascii, rfl⟩ | (rfl | rfl) | ⟨r, hr, -, -, rfl⟩ | ⟨-, rfl⟩
  · have hall : ∀ n < 0x80, Char.ofNat n ≠ '"' → (Char.ofNat n).toLower ≠ '"' := by decide
    have hlower := hall c.toNat hascii
    rw [Char.ofNat_toNat] at hlower
    exact hlower hc
  · decide
  · decide
  · have hsmall := quote_lt_small r hr
    intro heq
    have hquote : ('"' : Char).toNat ≠ 0 := by decide
    rcases toNat_ofNat_cases (r.small + (c.toNat - r.first)) with hnat | hnat
    · rw [heq] at hnat
      omega
    · rw [heq] at hnat
      exact hquote hnat
  · exact hc

theorem ne_quote_of_mem_normal {s : List Char} (hs : ∀ c ∈ s, c ≠ '"') :
    ∀ c ∈ normal s, c ≠ '"' := by
  intro c hc
  obtain ⟨d, hd, hc⟩ := List.mem_flatMap.1 hc
  exact ne_quote_of_mem_lower (hs d (List.mem_filter.1 hd).1) hc

/-- A quote stays where it is. -/
theorem normal_append_quote (s t : List Char) :
    normal (s ++ '"' :: t) = normal s ++ '"' :: normal t := by
  have hquote : normal ['"'] = ['"'] := by decide
  rw [normal_append, ← List.singleton_append, normal_append, hquote]
  rfl

/-- Only of blanks nothing is left. -/
theorem normal_eq_nil_iff {s : List Char} : normal s = [] ↔ ∀ c ∈ s, isBlank c := by
  constructor
  · intro h c hc
    cases hblank : isBlank c with
    | true => rfl
    | false =>
      obtain ⟨x, hx⟩ := List.exists_mem_of_ne_nil _ (lower_ne_nil c)
      have hmem : x ∈ normal s := mem_normal_of_mem hc hblank hx
      rw [h] at hmem
      cases hmem
  · exact normal_of_isBlank

/-! ## Trimming around quotes -/

/-- Behind a character that is not blank the end is trimmed as if it stood alone. -/
theorem trimEnd_append_cons {c : Char} (hc : isBlank c = false) (s t : List Char) :
    trimEnd (s ++ c :: t) = s ++ c :: trimEnd t := by
  have hkeep : (c :: s.reverse).dropWhile isBlank = c :: s.reverse :=
    List.dropWhile_cons_of_neg (by simp [hc])
  have hreverse : (s ++ c :: t).reverse = t.reverse ++ c :: s.reverse := by simp
  unfold trimEnd
  rw [hreverse, List.dropWhile_append, hkeep]
  cases t.reverse.dropWhile isBlank <;> simp

/-- In front of a character that is not blank and behind it the text is trimmed on its own. -/
theorem trim_append_cons {c : Char} (hc : isBlank c = false) (s t : List Char) :
    trim (s ++ c :: t) = s.dropWhile isBlank ++ c :: trimEnd t := by
  have hkeep : (c :: t).dropWhile isBlank = c :: t := List.dropWhile_cons_of_neg (by simp [hc])
  have hfront : (s ++ c :: t).dropWhile isBlank = s.dropWhile isBlank ++ c :: t := by
    rw [List.dropWhile_append, hkeep]
    cases s.dropWhile isBlank <;> rfl
  rw [trim, hfront, trimEnd_append_cons hc]

end Text

namespace Written

/-! ## Repetition behind a quote -/

/-- A repetition does not reach across a quote. -/
theorem exists_endsRepeated_of_quote {front back rest ds : List Char}
    (h : EndsRepeated (front ++ '"' :: back) rest ds) : ∃ rest', EndsRepeated back rest' ds := by
  obtain ⟨x, before, after, hx, hbefore, hds, hafter, hs⟩ := h
  have hcross : '"' ∉ x :: (before ++ ds ++ after) := by
    intro hmem
    have hquote : Text.isBlank '"' = false ∧ '"'.isDigit = false := by decide
    simp only [List.mem_cons, List.mem_append] at hmem
    rcases hmem with rfl | (hmem | hmem) | hmem
    · simp at hx
    · exact absurd (hbefore _ hmem) (by simp [hquote.1])
    · exact absurd (hds _ hmem) (by simp [hquote.2])
    · exact absurd (hafter _ hmem) (by simp [hquote.1])
  rcases List.append_eq_append_iff.1 hs with ⟨middle, hrest, htail⟩ | ⟨middle, -, htail⟩
  · cases middle with
    | nil =>
      rw [List.nil_append] at htail
      exact absurd (htail ▸ List.mem_cons_self) hcross
    | cons q rest' =>
      rw [List.cons_append, List.cons.injEq] at htail
      exact ⟨rest', x, before, after, hx, hbefore, hds, hafter, htail.2⟩
  · rw [htail] at hcross
    exact absurd (List.mem_append_right _ List.mem_cons_self) hcross

/-- The repetition of a text with a quote is that of what stands behind the quote. -/
theorem Repeats.append_quote {back rest : List Char} {n : Nat} (h : Repeats back rest n)
    (front : List Char) : Repeats (front ++ '"' :: back) (front ++ '"' :: rest) n := by
  cases h with
  | times ending =>
    obtain ⟨x, before, after, hx, hbefore, hds, hafter, rfl⟩ := ending
    exact .times ⟨x, before, after, hx, hbefore, hds, hafter, by simp⟩
  | once plain =>
    refine .once fun rest' ds hends => ?_
    obtain ⟨rest'', hback⟩ := exists_endsRepeated_of_quote hends
    exact plain rest'' ds hback

/-! ## Texts with a comment -/

/-- A text with a comment in quotes. -/
def quoted (before inside after : String) : String :=
  before ++ "\"" ++ inside ++ "\"" ++ after

/-- The comment that stands for a text in quotes: its small letters without the blanks, or none if
there is nothing but blanks. -/
def commentOf (inside : String) : Option String :=
  if inside.toList.all Text.isBlank then none
  else some (String.ofList (Text.normal inside.toList))

theorem toList_quoted (before inside after : String) :
    (quoted before inside after).toList =
      before.toList ++ '"' :: (inside.toList ++ '"' :: after.toList) := by
  simp [quoted]

/-- The normal form of a text with a comment: the comment can be taken out of it. -/
theorem commented_normal_quoted {before : List Char} {inside : String} (after : List Char)
    (hbefore : ∀ c ∈ before, c ≠ '"') (hinside : ∀ c ∈ inside.toList, c ≠ '"') :
    Commented (Text.normal (before ++ '"' :: (inside.toList ++ '"' :: after)))
      (Text.normal before ++ Text.normal after) (commentOf inside) := by
  have hcomment : commentOf inside = if Text.normal inside.toList = [] then none
      else some (String.ofList (Text.normal inside.toList)) := by
    simp only [commentOf, Text.normal_eq_nil_iff, List.all_eq_true]
  rw [Text.normal_append_quote, Text.normal_append_quote, hcomment]
  exact .quoted (Text.ne_quote_of_mem_normal hbefore) (Text.ne_quote_of_mem_normal hinside)

end Written

/-! ## Whole texts -/

namespace Roll

open Written

/-- What a text with a comment is read from: only the text around the comment, whose end says how
often it is repeated. -/
theorem ofText_quoted_eq {before inside after : String} (hbefore : ∀ c ∈ before.toList, c ≠ '"')
    (hinside : ∀ c ∈ inside.toList, c ≠ '"')
    (short : (Text.trim (quoted before inside after).toList).length ≤ maxTextLength) :
    let cut := splitRepetition (Text.trimEnd after.toList)
    let read := readBody (Text.normal before.toList ++ Text.normal cut.1) cut.2
    ofText (quoted before inside after) =
      { read.value with
        comment := commentOf inside, raw := quoted before inside after
        messages := read.notes } := by
  intro cut read
  have htrim : Text.trim (quoted before inside after).toList =
      (before.toList.dropWhile Text.isBlank ++ '"' :: inside.toList) ++
        '"' :: Text.trimEnd after.toList := by
    rw [toList_quoted, Text.trim_append_cons rfl, Text.trimEnd_append_cons rfl]
    simp
  have hrepeats := (repeats_split (Text.trimEnd after.toList)).append_quote
    (before.toList.dropWhile Text.isBlank ++ '"' :: inside.toList)
  rw [← htrim] at hrepeats
  have hfront : ∀ c ∈ before.toList.dropWhile Text.isBlank, c ≠ '"' :=
    fun c hc => hbefore c ((List.dropWhile_sublist _).mem hc)
  have hcommented := commented_normal_quoted cut.1 hfront hinside
  rw [Text.normal_dropWhile] at hcommented
  refine ofText_of_short short hrepeats ?_
  rw [List.append_assoc]
  exact hcommented

/-- A roll with another comment is rolled in the same way. -/
theorem roll_with_comment (r : Roll) (comment : Option String) (raw : String) :
    { r with comment, raw }.roll = (fun x => { x with comment }) <$> r.roll := by
  have hexpr : { r with comment, raw }.rollExpr = r.rollExpr := rfl
  unfold roll
  rw [hexpr, map_eq_pure_bind, Rolling.bind_assoc]
  rfl

end Roll

namespace TraitRoll

open Written

theorem ofText_quoted_eq {before inside after : String} (hbefore : ∀ c ∈ before.toList, c ≠ '"')
    (hinside : ∀ c ∈ inside.toList, c ≠ '"')
    (short : (Text.trim (quoted before inside after).toList).length ≤ maxTextLength) :
    let read := readTraitBody (Text.normal before.toList ++ Text.normal after.toList)
    ofText (quoted before inside after) =
      { read.value with
        comment := commentOf inside, raw := quoted before inside after
        messages := read.notes } := by
  intro read
  refine ofText_of_short short ?_
  rw [Text.normal_trim, toList_quoted]
  exact commented_normal_quoted _ hbefore hinside

/-- A trait roll keeps its comment to itself. -/
theorem roll_with_comment (t : TraitRoll) (comment : Option String) (raw : String) :
    { t with comment, raw }.roll = t.roll := rfl

end TraitRoll

/-- Two texts that differ only in what stands between their first quotes, both of them short enough
to be read. Each has its own comment, and apart from that and the text itself the rolls are the
same, and so are the trait rolls. They ask the same questions and make the same of the answers. -/
theorem ofText_quoted {before first second after : String}
    (hbefore : ∀ c ∈ before.toList, c ≠ '"') (hfirst : ∀ c ∈ first.toList, c ≠ '"')
    (hsecond : ∀ c ∈ second.toList, c ≠ '"')
    (short : (Text.trim (Written.quoted before first after).toList).length ≤ maxTextLength)
    (short' : (Text.trim (Written.quoted before second after).toList).length ≤ maxTextLength) :
    let r := Roll.ofText (Written.quoted before first after)
    let r' := Roll.ofText (Written.quoted before second after)
    let t := TraitRoll.ofText (Written.quoted before first after)
    let t' := TraitRoll.ofText (Written.quoted before second after)
    (r.comment = Written.commentOf first ∧
      r' = { r with
        comment := Written.commentOf second, raw := Written.quoted before second after }) ∧
    (t.comment = Written.commentOf first ∧
      t' = { t with
        comment := Written.commentOf second, raw := Written.quoted before second after }) ∧
    r'.roll = (fun x => { x with comment := Written.commentOf second }) <$> r.roll ∧
    t'.roll = t.roll := by
  intro r r' t t'
  have hr : r = _ := Roll.ofText_quoted_eq hbefore hfirst short
  have hr' : r' = _ := Roll.ofText_quoted_eq hbefore hsecond short'
  have ht : t = _ := TraitRoll.ofText_quoted_eq hbefore hfirst short
  have ht' : t' = _ := TraitRoll.ofText_quoted_eq hbefore hsecond short'
  have hroll : r' = { r with
      comment := Written.commentOf second, raw := Written.quoted before second after } := by
    rw [hr', hr]
  have htrait : t' = { t with
      comment := Written.commentOf second, raw := Written.quoted before second after } := by
    rw [ht', ht]
  refine ⟨⟨by rw [hr], hroll⟩, ⟨by rw [ht], htrait⟩, ?_, ?_⟩
  · rw [hroll]
    exact r.roll_with_comment _ _
  · rw [htrait]
    exact t.roll_with_comment _ _

/-- A comment that looks like parts of a roll, and one that is blank, in front of further quotes and
a repetition. -/
theorem ofText_quoted_misleading :
    (Roll.ofText "2d6 \"T4; -1D8 x3\" + 1, \"a\" x2").comment = some "t4;-1d8x3" ∧
    (Roll.ofText "2d6 \"T4; -1D8 x3\" + 1, \"a\" x2").exprs =
      List.replicate 2 ⟨[(.plus, .dice ⟨2, 6, none, []⟩), (.plus, .number 1)]⟩ ∧
    (Roll.ofText "2d6 \"T4; -1D8 x3\" + 1, \"a\" x2").target = none ∧
    (TraitRoll.ofText "2d6 \"T4; -1D8 x3\" + 1, \"a\" x2").modifier = some 1 := by
  have hbefore : ∀ c ∈ "2d6 ".toList, c ≠ '"' := by simp
  have hfirst : ∀ c ∈ " ".toList, c ≠ '"' := by simp
  have hsecond : ∀ c ∈ "T4; -1D8 x3".toList, c ≠ '"' := by simp
  have hshort : (Text.trim (Written.quoted "2d6 " " " " + 1, \"a\" x2").toList).length ≤
      maxTextLength := by decide +kernel
  have hshort' : (Text.trim (Written.quoted "2d6 " "T4; -1D8 x3" " + 1, \"a\" x2").toList).length ≤
      maxTextLength := by decide +kernel
  obtain ⟨⟨-, hroll⟩, ⟨-, htrait⟩, -, -⟩ := ofText_quoted hbefore hfirst hsecond hshort hshort'
  have hread : (Roll.ofText (Written.quoted "2d6 " " " " + 1, \"a\" x2")).exprs =
      List.replicate 2 ⟨[(.plus, .dice ⟨2, 6, none, []⟩), (.plus, .number 1)]⟩ := by cbv
  have htarget : (Roll.ofText (Written.quoted "2d6 " " " " + 1, \"a\" x2")).target = none := by cbv
  have hmodifier : (TraitRoll.ofText (Written.quoted "2d6 " " " " + 1, \"a\" x2")).modifier =
      some 1 := by cbv
  have hcomment : Written.commentOf "T4; -1D8 x3" = some "t4;-1d8x3" := by
    have hnormal : Text.normal "T4; -1D8 x3".toList = "t4;-1d8x3".toList := by cbv
    have hsolid : "T4; -1D8 x3".toList.all Text.isBlank = false := by cbv
    rw [Written.commentOf, hsolid, hnormal, String.ofList_toList]
    rfl
  have htext : Written.quoted "2d6 " "T4; -1D8 x3" " + 1, \"a\" x2" =
      "2d6 \"T4; -1D8 x3\" + 1, \"a\" x2" := by decide +kernel
  rw [htext] at hroll htrait
  rw [hroll, htrait]
  dsimp only
  exact ⟨hcomment, hread, htarget, hmodifier⟩

end TabletopDice
