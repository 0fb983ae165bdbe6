import TabletopDice.Proofs.SuffixOrder
import TabletopDice.Proofs.TokenText
import TabletopDice.Written.TraitRoll

/-!
# Figures

The numbers that are looked at when a text is read, in order, each as it is written and with what it
is for. Main statements: the digits of a number are a complete run of digits in its term
(`Fragment.ofRoll_of_mem_figures`, `exists_inTerm_of_mem_termFigures`), or in the text itself if it
is part of what can be given only once (`runs_ofTokens`), and so every number of a text stands
where it should (`standsIn_of_mem_rollFigures`, `standsIn_of_mem_traitFigures`).
-/

namespace TabletopDice.Written

/-! ## Numbers and what they are for -/

/-- What a number is for. One that is added up in a trait roll comes with its sign and with the sum
of those before it. -/
inductive Purpose where
  | literal
  | quantity
  | sides
  | threshold
  | selection
  | target
  | targetHighest
  | modifier
  | wildDie
  | added (sign : Sign) (sum : Int)
deriving DecidableEq, Repr

/-- Whether a number is small enough for its purpose. What is compared with totals or added to them
must be a total, and so must the sum that it is added to. -/
def Purpose.fits : Purpose → Nat → Bool
  | .literal, n | .target, n | .modifier, n => decide ((n : Int) ≤ maxTotal)
  | .added sign sum, n => decide ((n : Int) ≤ maxTotal) && (sign.apply sum n).isSome
  | _, n => decide (n ≤ Noted.maxNumber)

/-- Whether a number is part of what can be given only once. -/
def Purpose.isPart : Purpose → Bool
  | .target | .targetHighest | .modifier | .wildDie => true
  | _ => false

/-- Whether a number is added up in a trait roll. -/
def Purpose.isAdded : Purpose → Bool
  | .added _ _ => true
  | _ => false

/-- The digits of a number and what it is for. -/
structure Figure where
  purpose : Purpose
  digits : List Char
deriving DecidableEq, Repr

/-- Whether the number of a figure is small enough. -/
def Figure.fits (f : Figure) : Bool :=
  f.purpose.fits (Numeral.value f.digits)

/-- The figure of a number that may be missing. -/
def figure? (p : Purpose) (o : Option (List Char)) : List Figure :=
  (o.map (Figure.mk p)).toList

/-- A number that is there has its digits and its purpose. -/
theorem mem_figure? {p : Purpose} {o : Option (List Char)} {f : Figure} :
    f ∈ figure? p o ↔ f.purpose = p ∧ f.digits ∈ o := by
  obtain ⟨q, ds⟩ := f
  cases o <;> simp [figure?, eq_comm]

/-! ## Figures of dice -/

/-- What the number of a suffix is for. -/
def Suffix.purpose : Suffix → Purpose
  | .explosion _ _ => .threshold
  | .selection _ _ => .selection

/-- The figure of a suffix, if it has a number. -/
def Suffix.figures (x : Suffix) : List Figure :=
  figure? x.purpose x.digits

/-- The suffixes that are the first ones to give their part, where some parts have been given. -/
def firsts (given : SinglePart → Bool) : List Suffix → List Suffix
  | [] => []
  | x :: xs =>
    if given x.part then firsts given xs
    else x :: firsts (fun part => given part || decide (x.part = part)) xs

/-- The first suffixes of their parts are among all suffixes. -/
theorem mem_of_mem_firsts {given : SinglePart → Bool} {xs : List Suffix} {x : Suffix}
    (h : x ∈ firsts given xs) : x ∈ xs := by
  induction xs generalizing given with
  | nil => exact h
  | cons y ys ih =>
    unfold firsts at h
    split at h
    · exact .tail _ (ih h)
    · rcases List.mem_cons.1 h with rfl | h
      · exact .head _
      · exact .tail _ (ih h)

/-- The quantity and the sides of a group of dice are in range. -/
def WrittenDice.InRange (w : WrittenDice) : Prop :=
  (1 ≤ numberOrOne w.count ∧ numberOrOne w.count ≤ Dice.maxCount) ∧
    Dice.minSides ≤ Numeral.value w.sides ∧ Numeral.value w.sides ≤ Dice.maxSides

instance (w : WrittenDice) : Decidable w.InRange :=
  inferInstanceAs (Decidable (_ ∧ _))

/-- The figures of a group of dice. Those of the suffixes are not looked at if the group is refused,
and only the first suffix of each part counts. -/
def WrittenDice.figures (w : WrittenDice) : List Figure :=
  figure? .quantity w.count ++ ⟨.sides, w.sides⟩ ::
    if w.InRange then (firsts (fun _ => false) w.suffixes).flatMap Suffix.figures else []

/-! ## Figures of terms -/

/-- The figures of a term of a roll. -/
def Fragment.figures (f : Fragment) : List Figure :=
  match WrittenTerm.ofText? f.chars with
  | some (.number ds) => [⟨.literal, ds⟩]
  | some (.dice w) => w.figures
  | none => []

/-- The figures of the terms of a trait roll from some sum on: the numbers that are added up, and
the sides of the first dice. A number that is too large leaves the sum as it is. -/
def termFigures (diceMet : Bool) (sum : Int) : List Fragment → List Figure
  | [] => []
  | f :: fs =>
    match WrittenTerm.ofText? f.chars with
    | some (.number ds) =>
      let figure : Figure := ⟨.added f.sign sum, ds⟩
      figure :: termFigures diceMet
        (if figure.fits then sum + f.sign.signed (Numeral.value ds) else sum) fs
    | some (.dice w) =>
      if diceMet then termFigures true sum fs else ⟨.sides, w.sides⟩ :: termFigures true sum fs
    | none => termFigures diceMet sum fs

/-- Whether a number goes into the sum. -/
def Figure.counts (f : Figure) : Bool :=
  f.purpose.isAdded && f.fits

/-! ## Figures of texts -/

/-- The figures of a roll. -/
def rollFigures (slots : Slots) (exprs : List (List Fragment)) : List Figure :=
  figure? .target slots.target ++ figure? .targetHighest slots.targetHighest ++
    figure? .modifier (slots.modifier.map Prod.snd) ++ exprs.flatten.flatMap Fragment.figures

/-- The figures of a trait roll. The modifier in parentheses is looked at only if no number goes
into the sum. -/
def traitFigures (slots : Slots) (exprs : List (List Fragment)) : List Figure :=
  let terms := termFigures false 0 (exprs.head?.getD [])
  figure? .target slots.target ++ figure? .wildDie slots.wildDie ++ terms ++
    figure? .modifier (if terms.any Figure.counts then none else slots.modifier.map Prod.snd)

/-! ## Complete runs -/

/-- Digits stand in a text with no other digit next to them. -/
def CompleteRun (ds cs : List Char) : Prop :=
  IsNumeral ds ∧ ∃ before after, cs = before ++ ds ++ after ∧
    NoDigitAhead before.reverse ∧ NoDigitAhead after

theorem CompleteRun.isNumeral {ds cs : List Char} (h : CompleteRun ds cs) : IsNumeral ds :=
  h.1

/-- Whether a text ends in something other than a digit. -/
def endsClear (cs : List Char) : Bool :=
  cs.getLast?.any fun c => !c.isDigit

/-- Digits are a complete run behind a text that ends in something else, if no digit follows. -/
theorem CompleteRun.within {ds cs left lead tail right : List Char} (h : IsNumeral ds)
    (hcs : cs = left ++ (lead ++ ds ++ tail) ++ right) (hlead : endsClear lead)
    (htail : NoDigitAhead (tail ++ right)) : CompleteRun ds cs := by
  refine ⟨h, left ++ lead, tail ++ right, by simp [hcs], ?_, htail⟩
  obtain ⟨c, hlast, hclear⟩ := (Option.any_eq_true _ _).1 hlead
  obtain ⟨front, rfl⟩ := List.getLast?_eq_some_iff.1 hlast
  rw [← List.append_assoc, List.reverse_append]
  exact noDigitAhead_cons.2 (by simpa using hclear)

/-- A text of digits alone is a complete run. -/
theorem run_of_isNumeral {ds : List Char} (h : IsNumeral ds) : CompleteRun ds ds :=
  ⟨h, [], [], by simp, noDigitAhead_nil, noDigitAhead_nil⟩

/-! ## Runs in terms -/

/-- A number belongs to a term, and its digits are a complete run there. -/
structure Figure.InTerm (f : Figure) (cs : List Char) : Prop where
  not_part : f.purpose.isPart = false
  run : CompleteRun f.digits cs

/-- A number belongs to a term of a roll. -/
structure Figure.OfRoll (f : Figure) (cs : List Char) : Prop extends f.InTerm cs where
  not_added : f.purpose.isAdded = false

/-- The number of a suffix ends it and has something else before it. -/
theorem Suffix.exists_lead {x : Suffix} {ds : List Char} (h : ds ∈ x.digits) :
    ∃ lead, x.chars = lead ++ ds ∧ endsClear lead := by
  cases x with
  | explosion recursive t =>
    obtain rfl : t = some ds := h
    cases recursive with
    | true => exact ⟨['!', '!', '>'], rfl, rfl⟩
    | false => exact ⟨['!', '>'], rfl, rfl⟩
  | selection kind n =>
    obtain rfl : n = some ds := h
    exact ⟨kind.symbol.toList, rfl, by cases kind <;> rfl⟩

namespace WrittenDice

variable {w : WrittenDice} {ds : List Char}

/-- The quantity is a run at the start of a group of dice, up to its letter. -/
theorem run_of_mem_count (h : w.WellSpelled) (hds : ds ∈ w.count) : CompleteRun ds w.chars := by
  refine ⟨h.count ds hds, [], 'd' :: (w.sides ++ suffixChars w.suffixes), ?_, noDigitAhead_nil,
    noDigitAhead_cons.2 (by decide)⟩
  rw [chars, Option.mem_def.1 hds]
  rfl

/-- The sides are a run between the letter of a group of dice and its suffixes. -/
theorem run_sides (h : w.WellSpelled) : CompleteRun w.sides w.chars := by
  have hchars : w.chars =
      w.count.getD [] ++ (['d'] ++ w.sides ++ []) ++ suffixChars w.suffixes := by
    simp [chars]
  exact .within h.sides hchars rfl (noDigitAhead_suffixChars _)

/-- The number of a suffix is a run up to the next suffix. -/
theorem run_of_mem_suffixes (h : w.WellSpelled) {x : Suffix} (hx : x ∈ w.suffixes)
    (hds : ds ∈ x.digits) : CompleteRun ds w.chars := by
  obtain ⟨before, after, hsplit⟩ := List.append_of_mem hx
  obtain ⟨lead, hx', hlead⟩ := Suffix.exists_lead hds
  have hchars : w.chars = (w.count.getD [] ++ 'd' :: (w.sides ++ suffixChars before)) ++
      (lead ++ ds ++ []) ++ suffixChars after := by
    simp [chars, hsplit, suffixChars, hx']
  exact .within (h.suffixes x hx ds hds) hchars hlead (noDigitAhead_suffixChars _)

/-- A number belongs to a term of a roll if its digits are a complete run there. -/
theorem ofRoll_of_mem_figure? {p : Purpose} {o : Option (List Char)} {cs : List Char} {f : Figure}
    (hpart : p.isPart = false) (hadded : p.isAdded = false) (ho : ∀ ds ∈ o, CompleteRun ds cs)
    (hf : f ∈ figure? p o) : f.OfRoll cs := by
  obtain ⟨rfl, hdigits⟩ := mem_figure?.1 hf
  exact ⟨⟨hpart, ho _ hdigits⟩, hadded⟩

/-- Every number of a group of dice stands in it. -/
theorem ofRoll_of_mem_figures (h : w.WellSpelled) {f : Figure} (hf : f ∈ w.figures) :
    f.OfRoll w.chars := by
  rcases List.mem_append.1 hf with hf | hf
  · exact ofRoll_of_mem_figure? rfl rfl (fun ds => run_of_mem_count h) hf
  · rcases List.mem_cons.1 hf with rfl | hf
    · exact ⟨⟨rfl, run_sides h⟩, rfl⟩
    · split at hf
      · obtain ⟨x, hx, hf⟩ := List.mem_flatMap.1 hf
        have hruns : ∀ ds ∈ x.digits, CompleteRun ds w.chars :=
          fun ds => run_of_mem_suffixes h (mem_of_mem_firsts hx)
        cases x with
        | explosion recursive t => exact ofRoll_of_mem_figure? rfl rfl hruns hf
        | selection kind n => exact ofRoll_of_mem_figure? rfl rfl hruns hf
      · cases hf

end WrittenDice

/-- Every number of a term stands in it. -/
theorem Fragment.ofRoll_of_mem_figures {t : Fragment} {f : Figure} (hf : f ∈ t.figures) :
    f.OfRoll t.chars := by
  unfold figures at hf
  split at hf
  · next ds hread =>
    obtain ⟨hchars, hnumeral⟩ := ofText?_eq_number_iff.1 hread
    rw [List.mem_singleton.1 hf, hchars]
    exact ⟨⟨rfl, run_of_isNumeral hnumeral⟩, rfl⟩
  · next w hread =>
    obtain ⟨hchars, hspelled⟩ := ofText?_eq_dice_iff.1 hread
    rw [hchars]
    exact WrittenDice.ofRoll_of_mem_figures hspelled hf
  · cases hf

/-- Every number of the terms of a trait roll stands in one of them. -/
theorem exists_inTerm_of_mem_termFigures {diceMet : Bool} {sum : Int} {ts : List Fragment}
    {f : Figure} (hf : f ∈ termFigures diceMet sum ts) : ∃ t ∈ ts, f.InTerm t.chars := by
  induction ts generalizing diceMet sum with
  | nil => cases hf
  | cons t ts ih =>
    have hlater : ∀ {b : Bool} {n : Int}, f ∈ termFigures b n ts →
        ∃ u ∈ t :: ts, f.InTerm u.chars := by
      intro b n h
      obtain ⟨u, hu, hrun⟩ := ih h
      exact ⟨u, .tail _ hu, hrun⟩
    unfold termFigures at hf
    split at hf
    · next ds hread =>
      obtain ⟨hchars, hnumeral⟩ := ofText?_eq_number_iff.1 hread
      rcases List.mem_cons.1 hf with rfl | hf
      · exact ⟨t, .head _, rfl, by rw [hchars]; exact run_of_isNumeral hnumeral⟩
      · exact hlater hf
    · next w hread =>
      obtain ⟨hchars, hspelled⟩ := ofText?_eq_dice_iff.1 hread
      split at hf
      · exact hlater hf
      · rcases List.mem_cons.1 hf with rfl | hf
        · exact ⟨t, .head _, rfl, by rw [hchars]; exact WrittenDice.run_sides hspelled⟩
        · exact hlater hf
    · exact hlater hf

/-! ## Runs in texts -/

/-- The digits of a token with a letter or parenthesis of its own stand behind it, and at the end of
the token or before another parenthesis. -/
theorem SpecialSpelling.exists_lead {t : Token} {cs : List Char} (h : SpecialSpelling t cs) :
    IsNumeral t.chars ∧ ∃ lead, endsClear lead ∧ (cs = lead ++ t.chars ++ [')'] ∨
      cs = lead ++ t.chars ∧
        t ∈ [.targetHighest t.chars, .target t.chars, .wildDie t.chars]) := by
  cases h with
  | targetHighest hds => exact ⟨hds, ['t', 'h'], rfl, .inr ⟨rfl, by simp [Token.chars]⟩⟩
  | target hds => exact ⟨hds, ['t'], rfl, .inr ⟨rfl, by simp [Token.chars]⟩⟩
  | targetNumber hds => exact ⟨hds, ['t', 'n'], rfl, .inr ⟨rfl, by simp [Token.chars]⟩⟩
  | modifier hds => exact ⟨hds, ['('], rfl, .inl rfl⟩
  | signedModifier s hds => exact ⟨hds, ['(', s.symbol], by cases s <;> rfl, .inl rfl⟩
  | wildDie hds => exact ⟨hds, ['w', 'd'], rfl, .inr ⟨rfl, by simp [Token.chars]⟩⟩

/-- The digits of a part that can be given only once are a complete run in the text. -/
theorem run_of_mem_tokens {s : List Char} {t : Token} (ht : t ∈ tokens s) (hpart : t.isPart) :
    CompleteRun t.chars s := by
  obtain ⟨parts, hparts, htokens⟩ := exists_cutInto s
  rw [← htokens] at ht
  obtain ⟨⟨t, cs⟩, hp, rfl⟩ := List.mem_map.1 ht
  obtain ⟨before, after, rfl⟩ := List.append_of_mem hp
  have hcut := hparts.cut ⟨before, after, rfl, rfl, rfl⟩
  have htext := hparts.flatMap_eq
  rw [List.flatMap_append, List.flatMap_cons, ← List.append_assoc] at htext
  have hspelling : SpecialSpelling t cs := by
    cases hcut with
    | special h hend => exact h
    | _ => cases hpart
  obtain ⟨hnumeral, lead, hlead, rfl | ⟨rfl, hopen⟩⟩ := hspelling.exists_lead
  · exact .within hnumeral htext.symm hlead (noDigitAhead_cons.2 (by decide))
  · have hend : s =
        before.flatMap Prod.snd ++ (lead ++ t.chars ++ []) ++ after.flatMap Prod.snd := by
      rw [List.append_nil]
      exact htext.symm
    exact .within hnumeral hend hlead (hcut.noDigitAhead hopen)

/-- The parts that are given are complete runs of digits in a text. -/
theorem runs_ofTokens (s : List Char) :
    (Slots.ofTokens (tokens s)).All fun ds => CompleteRun ds s :=
  Slots.all_ofTokens fun _ => run_of_mem_tokens

/-! ## Where numbers stand -/

/-- The digits of a number are a complete run in a text if it is part of what can be given only
once, and in a term of the text otherwise. -/
def Figure.StandsIn (f : Figure) (body : List Char) : Prop :=
  if f.purpose.isPart then CompleteRun f.digits body
  else ∃ t ∈ (expressions (tokens body)).flatten, CompleteRun f.digits t.chars

variable {body : List Char} {f : Figure}

theorem Figure.InTerm.standsIn {t : Fragment} (h : f.InTerm t.chars)
    (ht : t ∈ (expressions (tokens body)).flatten) : f.StandsIn body := by
  rw [StandsIn, h.not_part]
  exact ⟨t, ht, h.run⟩

/-- A part given once stands in the text if its digits are a complete run there. -/
theorem standsIn_of_mem_figure? {p : Purpose} {o : Option (List Char)} (hp : p.isPart)
    (ho : ∀ ds ∈ o, CompleteRun ds body) (h : f ∈ figure? p o) : f.StandsIn body := by
  obtain ⟨rfl, hdigits⟩ := mem_figure?.1 h
  rw [Figure.StandsIn, if_pos hp]
  exact ho _ hdigits

theorem Slots.All.modifier_digits {slots : Slots} {P : List Char → Prop} (h : slots.All P) :
    ∀ ds ∈ slots.modifier.map Prod.snd, P ds := by
  intro ds hds
  obtain ⟨p, hp, rfl⟩ := Option.map_eq_some_iff.1 hds
  exact h.modifier p hp

/-- Every number of a roll stands where it should. -/
theorem standsIn_of_mem_rollFigures
    (h : f ∈ rollFigures (Slots.ofTokens (tokens body)) (expressions (tokens body))) :
    f.StandsIn body := by
  have hruns := runs_ofTokens body
  simp only [rollFigures, List.mem_append] at h
  obtain ((h | h) | h) | h := h
  · exact standsIn_of_mem_figure? rfl hruns.target h
  · exact standsIn_of_mem_figure? rfl hruns.targetHighest h
  · exact standsIn_of_mem_figure? rfl hruns.modifier_digits h
  · obtain ⟨t, ht, hf⟩ := List.mem_flatMap.1 h
    exact (Fragment.ofRoll_of_mem_figures hf).standsIn ht

/-- Numbers for any other purpose are not added up. -/
theorem isAdded_of_mem_figure? {p : Purpose} {o : Option (List Char)} (hp : p.isAdded = false)
    (h : f ∈ figure? p o) : f.purpose.isAdded = false := by
  rw [(mem_figure?.1 h).1]
  exact hp

/-- No numbers are added up in a roll before it is rolled. -/
theorem isAdded_of_mem_rollFigures {slots : Slots} {exprs : List (List Fragment)}
    (h : f ∈ rollFigures slots exprs) : f.purpose.isAdded = false := by
  simp only [rollFigures, List.mem_append] at h
  obtain ((h | h) | h) | h := h
  · exact isAdded_of_mem_figure? rfl h
  · exact isAdded_of_mem_figure? rfl h
  · exact isAdded_of_mem_figure? rfl h
  · obtain ⟨t, -, hf⟩ := List.mem_flatMap.1 h
    exact (Fragment.ofRoll_of_mem_figures hf).not_added

/-- Every number of a trait roll stands where it should. -/
theorem standsIn_of_mem_traitFigures
    (h : f ∈ traitFigures (Slots.ofTokens (tokens body)) (expressions (tokens body))) :
    f.StandsIn body := by
  have hruns := runs_ofTokens body
  simp only [traitFigures, List.mem_append] at h
  obtain ((h | h) | h) | h := h
  · exact standsIn_of_mem_figure? rfl hruns.target h
  · exact standsIn_of_mem_figure? rfl hruns.wildDie h
  · obtain ⟨t, ht, hf⟩ := exists_inTerm_of_mem_termFigures h
    refine hf.standsIn ?_
    -- the terms of the first expression are among all terms
    cases hexprs : expressions (tokens body) with
    | nil => simp [hexprs] at ht
    | cons fs fss =>
      rw [hexprs] at ht
      exact List.mem_append_left _ ht
  · split at h
    · cases h
    · exact standsIn_of_mem_figure? rfl hruns.modifier_digits h

end TabletopDice.Written
