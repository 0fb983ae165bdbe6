import TabletopDice.Proofs.Grammar
import TabletopDice.Proofs.ParsedRoll

/-!
# Repetition

An `x` and a number at the end of a text repeat the roll of the text before it as a block. Main
statement: apart from the expressions, and a message if they become too many, the roll stays what it
is without the repetition (`ofText_append_repetition`).
-/

namespace TabletopDice

/-! ## Texts with a repetition -/

namespace Written

open Text

/-- A text that is repeated within its blanks is repeated. -/
theorem EndsRepeated.of_trim {s rest ds : List Char} (h : EndsRepeated (trim s) rest ds) :
    ∃ rest', EndsRepeated s rest' ds := by
  obtain ⟨x, blanks, after, hx, hblanks, hds, hafter, htrim⟩ := h
  obtain ⟨before, tail, -, htail, hs⟩ := exists_append_trim s
  refine ⟨before ++ rest, x, blanks, after ++ tail, hx, hblanks, hds, ?_, ?_⟩
  · intro c hc
    rcases List.mem_append.1 hc with hc | hc
    · exact hafter c hc
    · exact htail c hc
  · rw [hs, htrim]
    simp

/-- A text that is left whole by cutting off its repetition has none. -/
theorem not_endsRepeated_of_splitRepetition {s : List Char} (h : (splitRepetition s).1 = s)
    (rest ds : List Char) : ¬ EndsRepeated s rest ds := by
  intro hends
  rw [repeats_iff.1 (.times hends)] at h
  dsimp only at h
  obtain ⟨x, before, after, -, -, -, -, hs⟩ := hends
  have hlength := congrArg List.length hs
  rw [List.length_append, List.length_cons, ← h] at hlength
  omega

/-- The characters of a repetition. -/
def repetition (x : Char) (blanks ds : List Char) : List Char :=
  x :: (blanks ++ ds)

variable {x : Char} {blanks ds : List Char}

theorem endsRepeated_append (rest : List Char) (hx : x = 'x' ∨ x = 'X')
    (hblanks : ∀ c ∈ blanks, isBlank c) (hds : ∀ c ∈ ds, c.isDigit) :
    EndsRepeated (rest ++ repetition x blanks ds) rest ds :=
  ⟨x, blanks, [], hx, hblanks, hds, List.forall_mem_nil _, by simp [repetition]⟩

/-- In front of a repetition blanks are cut off as they are without it, and behind it there are
none. -/
theorem trim_append_repetition (s : List Char) (hx : x = 'x' ∨ x = 'X') (hds : IsNumeral ds) :
    trim (s ++ repetition x blanks ds) = s.dropWhile isBlank ++ repetition x blanks ds := by
  have hfront : (s ++ repetition x blanks ds).dropWhile isBlank =
      s.dropWhile isBlank ++ repetition x blanks ds := by
    have hcross : (repetition x blanks ds).dropWhile isBlank = repetition x blanks ds :=
      List.dropWhile_cons_of_neg (by simp [(not_isBlank_of_cross hx).1])
    rw [List.dropWhile_append, hcross]
    cases s.dropWhile isBlank <;> rfl
  obtain ⟨ds', d, rfl⟩ := (List.eq_nil_or_concat' ds).resolve_left hds.1
  have hd : isBlank d = false := isBlank_eq_false_of_isDigit (hds.2 d (by simp))
  rw [trim, hfront, repetition, ← List.append_assoc, ← List.cons_append, ← List.append_assoc,
    trimEnd_concat_of_not_isBlank _ hd]

/-! ## Bodies with a repetition -/

/-- A block by itself stays as it is, if anything is left of it. -/
theorem repeated_one {block : List Expr} (h : (repeated block 1).value ≠ []) :
    repeated block 1 = pure block := by
  by_cases hgroups : Expr.totalGroups block * 1 ≤ maxDiceGroups
  · rw [repeated_of_le hgroups]
    exact congrArg pure (List.append_nil block)
  · rw [repeated_of_lt (Nat.lt_of_not_le hgroups)] at h
    exact absurd rfl h

end Written

/-! ## Whole texts -/

namespace Roll

open Written

/-- The roll with its expressions repeated as a block. If that makes too many groups of dice none of
them are left, and a message says how many there would have been. -/
def times (r : Roll) (n : Nat) : Roll :=
  if r.diceGroups * n ≤ maxDiceGroups then
    { r with exprs := (List.replicate (min n maxCopies) r.exprs).flatten }
  else
    { r with
      exprs := []
      messages := r.messages ++ [.tooManyDiceGroups (min maxReported (r.diceGroups * n))] }

/-- What was read of a body, together with the comment and the text it was read from. -/
def ofRead (read : Noted Roll) (comment : Option String) (raw : String) : Roll :=
  { read.value with comment := comment, raw := raw, messages := read.notes }

/-- The roll of a text that is not repeated, if it can be used, is that of its block. -/
theorem ofText_of_usable {text : String} {rest body : List Char} {comment : Option String}
    (short : (Text.trim text.toList).length ≤ maxTextLength)
    (repetition : Repeats (Text.trim text.toList) rest 1)
    (commented : Commented (Text.normal rest) body comment) (usable : (ofText text).isUsable) :
    ofText text = ofRead (readBlock body) comment text := by
  have hread := ofText_of_short short repetition commented
  rw [readBody] at hread
  -- by itself a block is cleared only if it has too many groups, and then it cannot be used
  have hexprs : (repeated (readBlock body).value.exprs 1).value ≠ [] := by
    have hexprs : (ofText text).exprs = (repeated (readBlock body).value.exprs 1).value := by
      rw [hread]
      rfl
    rw [← hexprs]
    simpa [isUsable] using usable
  rw [hread, ofRead]
  simp only [Noted.value_bind, Noted.notes_bind, repeated_one hexprs, Noted.value_pure,
    Noted.notes_pure, List.append_nil]

/-- A body is read like its block and then repeated. -/
theorem ofRead_readBody (body : List Char) (n : Nat) (comment : Option String) (raw raw' : String) :
    ofRead (readBody body n) comment raw =
      { (ofRead (readBlock body) comment raw').times n with raw := raw } := by
  rw [readBody, times]
  split
  · next hgroups =>
    have hrepeated := repeated_of_le hgroups
    simp only [ofRead] at hrepeated
    simp only [ofRead, Noted.value_bind, Noted.notes_bind, hrepeated, Noted.value_pure,
      Noted.notes_pure, List.append_nil]
  · next hgroups =>
    have hrepeated := repeated_of_lt (Nat.lt_of_not_le hgroups)
    simp only [ofRead] at hrepeated
    simp only [ofRead, Noted.value_bind, Noted.notes_bind, hrepeated, Noted.value_pure,
      Noted.notes_pure, List.append_nil]
    rfl

theorem diceGroups_times_le (r : Roll) (n : Nat) : (r.times n).diceGroups ≤ maxDiceGroups := by
  unfold times
  split
  · next hgroups =>
    show Expr.totalGroups (List.replicate (min n maxCopies) r.exprs).flatten ≤ maxDiceGroups
    rw [totalGroups_flatten_replicate, Nat.mul_comm]
    exact Nat.le_trans (Nat.mul_le_mul_left _ (Nat.min_le_left _ _)) hgroups
  · exact Nat.zero_le _

/-- Never are there more than a hundred copies of the block. -/
theorem length_times_le (r : Roll) (n : Nat) :
    (r.times n).exprs.length ≤ maxCopies * r.exprs.length := by
  unfold times
  split
  · simp only [List.length_flatten, List.map_replicate, List.sum_replicate_nat]
    exact Nat.mul_le_mul_right _ (Nat.min_le_right _ _)
  · exact Nat.zero_le _

/-- A roll with dice is repeated as often as it is said, or not at all. -/
theorem diceGroups_eq_zero_of_times {r : Roll} {n : Nat} (hn : maxCopies < n)
    (h : (r.times n).isUsable) : r.diceGroups = 0 := by
  unfold times at h
  split at h
  · next hgroups =>
    by_contra hne
    -- a single group is repeated more often than there may be groups
    have hmany : n ≤ r.diceGroups * n := Nat.le_mul_of_pos_left n (Nat.pos_of_ne_zero hne)
    unfold maxCopies at hn
    unfold maxDiceGroups at hgroups
    omega
  · simp [isUsable] at h

/-- A text that can be used and is not repeated, followed by an `x`, blanks and a numeral: its
expressions are repeated as a block, and nothing else changes but the text itself. However large the
number is, there are neither more than a hundred groups of dice nor more than a hundred copies, and
the copies are fewer than the number says only where there are no dice. -/
theorem ofText_append_repetition {text cross blanks digits : String}
    (hcross : cross = "x" ∨ cross = "X") (hblanks : ∀ c ∈ blanks.toList, Text.isBlank c)
    (hdigits : IsNumeral digits.toList)
    (short : (Text.trim (text ++ cross ++ blanks ++ digits).toList).length ≤ maxTextLength)
    (plain : ∀ rest ds, ¬ EndsRepeated text.toList rest ds) (usable : (ofText text).isUsable) :
    let r := ofText text
    let n := max 1 (Numeral.value digits.toList)
    let r' := ofText (text ++ cross ++ blanks ++ digits)
    r' = { r.times n with raw := text ++ cross ++ blanks ++ digits } ∧
      r'.diceGroups ≤ maxDiceGroups ∧ r'.exprs.length ≤ maxCopies * r.exprs.length ∧
      (maxCopies < n → r'.isUsable → r.diceGroups = 0) := by
  intro r n r'
  obtain ⟨x, hx, hchar⟩ : ∃ x, (x = 'x' ∨ x = 'X') ∧ cross.toList = [x] := by
    rcases hcross with rfl | rfl
    · exact ⟨'x', .inl rfl, rfl⟩
    · exact ⟨'X', .inr rfl, rfl⟩
  have htrim : Text.trim (text ++ cross ++ blanks ++ digits).toList =
      text.toList.dropWhile Text.isBlank ++ repetition x blanks.toList digits.toList := by
    rw [← trim_append_repetition _ hx hdigits]
    simp [repetition, hchar]
  have hrepeats : Repeats (Text.trim (text ++ cross ++ blanks ++ digits).toList)
      (text.toList.dropWhile Text.isBlank) n := by
    rw [htrim]
    exact .times (endsRepeated_append _ hx hblanks hdigits.2)
  have honce : Repeats (Text.trim text.toList) (Text.trim text.toList) 1 := by
    refine .once fun rest ds h => ?_
    obtain ⟨rest', h'⟩ := h.of_trim
    exact plain rest' ds h'
  have hshort : (Text.trim text.toList).length ≤ maxTextLength := by
    have hlength := Text.length_trim_le text.toList
    rw [htrim, List.length_append] at short
    omega
  -- blanks make no difference, so the text and what is in front of the repetition have one body
  have hcommented := commented_split (Text.normal text.toList)
  have hread : r = ofRead (readBlock (splitComment (Text.normal text.toList)).1) _ text :=
    ofText_of_usable hshort honce (by rwa [Text.normal_trim]) usable
  have hread' : r' = { r.times n with raw := text ++ cross ++ blanks ++ digits } := by
    rw [hread, ← ofRead_readBody]
    exact ofText_of_short short hrepeats (by rwa [Text.normal_dropWhile])
  have hexprs : r'.exprs = (r.times n).exprs := by rw [hread']
  refine ⟨hread', ?_, ?_, ?_⟩
  · unfold diceGroups
    rw [hexprs]
    exact diceGroups_times_le r n
  · rw [hexprs]
    exact length_times_le r n
  · unfold isUsable
    rw [hexprs]
    exact diceGroups_eq_zero_of_times

/-- A number that is longer than any count, behind dice and a number. -/
theorem ofText_append_repetition_beyond :
    (ofText "2d6; d8-1x 99999999999999999999").exprs = [] ∧
    (ofText "2d6; d8-1x 99999999999999999999").messages =
      [.tooManyDiceGroups 18446744073709551615] := by
  have hread : (ofText "2d6; d8-1").exprs = [⟨[(.plus, .dice ⟨2, 6, none, []⟩)]⟩,
      ⟨[(.plus, .dice ⟨1, 8, none, []⟩), (.minus, .number 1)]⟩] := by cbv
  have hsilent : (ofText "2d6; d8-1").messages = [] := by cbv
  have hplain : ∀ rest ds, ¬ EndsRepeated "2d6; d8-1".toList rest ds :=
    not_endsRepeated_of_splitRepetition (by decide +kernel)
  have hdigits : IsNumeral "99999999999999999999".toList := by simp [IsNumeral]
  have hblanks : ∀ c ∈ " ".toList, Text.isBlank c := List.all_eq_true.1 (by decide)
  have husable : (ofText "2d6; d8-1").isUsable := by
    rw [isUsable, hread]
    rfl
  obtain ⟨hrepeated, -⟩ := ofText_append_repetition (.inl rfl) hblanks hdigits (by decide +kernel)
    hplain husable
  have htext : "2d6; d8-1" ++ "x" ++ " " ++ "99999999999999999999" =
      "2d6; d8-1x 99999999999999999999" := by decide +kernel
  have hcount : max 1 (Numeral.value "99999999999999999999".toList) = 99999999999999999999 := by
    decide +kernel
  have hgroups : (ofText "2d6; d8-1").diceGroups = 2 := by
    rw [diceGroups, hread]
    rfl
  have htimes : (ofText "2d6; d8-1").times 99999999999999999999 =
      { ofText "2d6; d8-1" with
        exprs := [], messages := [.tooManyDiceGroups 18446744073709551615] } := by
    rw [times, hgroups, hsilent, if_neg (by decide)]
    rfl
  rw [htext, hcount, htimes] at hrepeated
  rw [hrepeated]
  exact ⟨rfl, rfl⟩

end Roll

end TabletopDice
