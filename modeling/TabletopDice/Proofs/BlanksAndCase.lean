import Mathlib
import TabletopDice.Proofs.LayoutSpelling

/-!
# Blanks and capitals

A text is read in small letters and without its blanks, but its repetition is cut off before that,
with blanks and capitals in place. What is cut off can be told from the normal text all the same: an
`x` comes from nothing but an `x`, a digit from nothing but itself, and blanks only matter between
the digits. Main statements: a text whose normal form ends in an `x` and digits is repeated unless
blanks split the digits (`exists_endsRepeated_iff`), and texts of the same normal form are read
alike (`ofText_of_normal_eq`).
-/

namespace TabletopDice

namespace Text

/-! ## Where digits and crosses come from -/

/-- The small letters of the table come after the `x`, apart from the `k` of the Kelvin sign. -/
theorem cross_lt_small : ∀ r ∈ caseRanges,
    'x'.toNat < r.small ∨ r.small = 'k'.toNat ∧ r.last = r.first := by
  decide +kernel

/-- Characters up to the `x`, but for two of them, are the small letters of ASCII characters
alone. -/
theorem ascii_of_mem_lower {c d : Char} (hzero : c.toNat ≠ 0) (hlast : c.toNat ≤ 'x'.toNat)
    (hi : c ≠ 'i') (hk : c.toNat ≠ 'k'.toNat) (h : c ∈ lower d) :
    d.toNat < 0x80 ∧ d.toLower = c := by
  rcases mem_lower_cases h with
    ⟨hascii, rfl⟩ | (rfl | rfl) | ⟨r, hr, hfirst, hend, rfl⟩ | ⟨hlow, rfl⟩
  · exact ⟨hascii, rfl⟩
  · exact absurd rfl hi
  · exact absurd hlast (by decide)
  · have hsmall := cross_lt_small r hr
    rcases toNat_ofNat_cases (r.small + (d.toNat - r.first)) with hnat | hnat
    · rw [hnat] at hlast hk
      omega
    · exact absurd hnat hzero
  · have hx : 'x'.toNat = 120 := rfl
    omega

/-- Digits and the `x` are the small letters of ASCII characters alone. -/
theorem lower_of_mem {c d : Char} (hc : c.isDigit ∨ c = 'x') (h : c ∈ lower d) :
    d.toNat < 0x80 ∧ d.toLower = c := by
  rcases hc with hdigit | rfl
  · obtain ⟨hlow, hhigh⟩ := Written.toNat_of_isDigit hdigit
    have hx : 'x'.toNat = 120 := rfl
    have hkelvin : 'k'.toNat = 107 := rfl
    refine ascii_of_mem_lower (by omega) (by omega) ?_ (by omega) h
    rintro rfl
    exact absurd hhigh (by decide)
  · exact ascii_of_mem_lower (by decide) (by decide) (by decide) (by decide) h

/-- An `x` is the small letter of an `x`. -/
theorem lower_of_cross {x : Char} (h : x = 'x' ∨ x = 'X') : lower x = ['x'] := by
  rcases h with rfl | rfl <;> decide

theorem cross_of_mem_lower {x : Char} (h : 'x' ∈ lower x) : x = 'x' ∨ x = 'X' := by
  obtain ⟨hascii, hlower⟩ := lower_of_mem (.inr rfl) h
  have hall : ∀ n < 0x80, (Char.ofNat n).toLower = 'x' →
      Char.ofNat n = 'x' ∨ Char.ofNat n = 'X' := by decide
  have hcross := hall x.toNat hascii
  rw [Char.ofNat_toNat] at hcross
  exact hcross hlower

/-- A digit is its own small letter. -/
theorem lower_of_isDigit {c : Char} (h : c.isDigit) : lower c = [c] := by
  obtain ⟨-, hhigh⟩ := Written.toNat_of_isDigit h
  have hall : ∀ n ≤ 57, (Char.ofNat n).toLower = Char.ofNat n := by decide
  have hlower := hall c.toNat hhigh
  rw [Char.ofNat_toNat] at hlower
  rw [lower_of_lt (by omega), hlower]

theorem eq_of_isDigit_of_mem_lower {c d : Char} (hc : c.isDigit) (h : c ∈ lower d) : d = c := by
  obtain ⟨hascii, hlower⟩ := lower_of_mem (.inl hc) h
  have hall : ∀ n < 0x80, (Char.ofNat n).toLower.isDigit →
      Char.ofNat n = (Char.ofNat n).toLower := by decide
  have hdigit := hall d.toNat hascii
  rw [Char.ofNat_toNat, hlower] at hdigit
  exact hdigit hc

/-! ## Digits and crosses in normal text -/

theorem normal_cons_cross {x : Char} (s : List Char) (h : x = 'x' ∨ x = 'X') :
    normal (x :: s) = 'x' :: normal s := by
  rw [normal_cons_of_not_isBlank s (Written.not_isBlank_of_cross h).1, lower_of_cross h]
  rfl

theorem normal_cons_digit {c : Char} (s : List Char) (h : c.isDigit) :
    normal (c :: s) = c :: normal s := by
  rw [normal_cons_of_not_isBlank s (Written.isBlank_eq_false_of_isDigit h), lower_of_isDigit h]
  rfl

/-- Digits are normal as they stand. -/
theorem normal_of_isDigit {ds : List Char} (h : ∀ c ∈ ds, c.isDigit) : normal ds = ds := by
  induction ds with
  | nil => rfl
  | cons d ds ih => rw [normal_cons_digit ds (h d (.head _)), ih fun c hc => h c (.tail _ hc)]

/-- A text whose normal form has nothing but digits consists of them and blanks. -/
theorem digits_of_normal {s : List Char} (h : ∀ c ∈ normal s, c.isDigit) :
    ∀ c ∈ s, c.isDigit ∨ isBlank c := by
  intro c hc
  cases hblank : isBlank c with
  | true => exact .inr rfl
  | false =>
    obtain ⟨x, hx⟩ := List.exists_mem_of_ne_nil _ (lower_ne_nil c)
    have hdigit : x.isDigit := h x (mem_normal_of_mem hc hblank hx)
    rw [eq_of_isDigit_of_mem_lower hdigit hx]
    exact .inl hdigit

/-- A character that is a small letter only where it is the only one shows in normal text where it
comes from. -/
theorem exists_of_normal {y : Char} (hy : ∀ x, y ∈ lower x → lower x = [y]) {s r t : List Char}
    (h : normal s = r ++ y :: t) :
    ∃ front x back, y ∈ lower x ∧ s = front ++ x :: back ∧ normal front = r ∧
      normal back = t := by
  induction s generalizing r with
  | nil => simp at h
  | cons c s ih =>
    cases hblank : isBlank c with
    | true =>
      rw [normal_cons_of_isBlank s hblank] at h
      obtain ⟨front, x, back, hx, rfl, rfl, rfl⟩ := ih h
      exact ⟨c :: front, x, back, hx, rfl, normal_cons_of_isBlank front hblank, rfl⟩
    | false =>
      rw [normal_cons_of_not_isBlank s hblank] at h
      -- The character comes from the rest of the text, unless it is what `c` is lowered to.
      have hrest : ∀ r', r = lower c ++ r' → normal s = r' ++ y :: t →
          ∃ front x back, y ∈ lower x ∧ c :: s = front ++ x :: back ∧
            normal front = r ∧ normal back = t := by
        rintro r' rfl hs
        obtain ⟨front, x, back, hx, rfl, rfl, rfl⟩ := ih hs
        exact ⟨c :: front, x, back, hx, rfl, normal_cons_of_not_isBlank front hblank, rfl⟩
      obtain ⟨r', hr, hs⟩ | ⟨l, hl, hs⟩ := List.append_eq_append_iff.1 h
      · exact hrest r' hr hs
      · cases l with
        | nil => exact hrest [] (by simpa using hl.symm) hs.symm
        | cons z l =>
          obtain ⟨rfl, rfl⟩ := List.cons.inj hs
          have hc : y ∈ lower c := by simp [hl]
          rw [hy c hc] at hl
          obtain ⟨rfl, rfl⟩ : r = [] ∧ l = [] := by
            cases r with
            | nil => exact ⟨rfl, (List.cons.inj hl).2.symm⟩
            | cons _ r => simp at hl
          exact ⟨[], c, s, hc, rfl, rfl, rfl⟩

/-- An `x` in normal text shows where the text has one. -/
theorem exists_cross_of_normal {s r t : List Char} (h : normal s = r ++ 'x' :: t) :
    ∃ front x back, (x = 'x' ∨ x = 'X') ∧ s = front ++ x :: back ∧ normal front = r ∧
      normal back = t := by
  obtain ⟨front, x, back, hx, hs⟩ :=
    exists_of_normal (fun x hx => lower_of_cross (cross_of_mem_lower hx)) h
  exact ⟨front, x, back, cross_of_mem_lower hx, hs⟩

end Text

namespace Written

/-! ## Split digits -/

/-- Among the digits that a text ends in there are two with blanks between them: behind a digit and
a blank nothing but digits and blanks are left, and at least one digit. -/
def SplitDigits (s : List Char) : Prop :=
  ∃ front d b back, d.isDigit ∧ Text.isBlank b ∧ (∃ e ∈ back, e.isDigit) ∧
    (∀ c ∈ back, c.isDigit ∨ Text.isBlank c) ∧ s = front ++ d :: b :: back

theorem SplitDigits.append_left {s : List Char} (h : SplitDigits s) (r : List Char) :
    SplitDigits (r ++ s) := by
  obtain ⟨front, d, b, back, hd, hb, hlater, hback, rfl⟩ := h
  exact ⟨r ++ front, d, b, back, hd, hb, hlater, hback, by simp⟩

theorem SplitDigits.append_blanks {s after : List Char} (h : SplitDigits s)
    (hafter : ∀ c ∈ after, Text.isBlank c) : SplitDigits (s ++ after) := by
  obtain ⟨front, d, b, back, hd, hb, ⟨e, he, hdigit⟩, hback, rfl⟩ := h
  refine ⟨front, d, b, back ++ after, hd, hb, ⟨e, List.mem_append_left _ he, hdigit⟩, ?_, by simp⟩
  intro c hc
  rcases List.mem_append.1 hc with hc | hc
  · exact hback c hc
  · exact .inr (hafter c hc)

/-- Blanks around a text split no digits. -/
theorem SplitDigits.of_trim {s : List Char} (h : SplitDigits (Text.trim s)) : SplitDigits s := by
  obtain ⟨before, after, -, hafter, hs⟩ := Text.exists_append_trim s
  rw [hs, List.append_assoc]
  exact (h.append_blanks hafter).append_left before

/-- Split digits do not reach across an `x`. -/
theorem SplitDigits.of_cross {front back : List Char} {x : Char} (hx : x = 'x' ∨ x = 'X')
    (h : SplitDigits (front ++ x :: back)) : SplitDigits back := by
  obtain ⟨hblank, hdigit⟩ := not_isBlank_of_cross hx
  obtain ⟨front', d, b, tail, hd, hb, hlater, htail, hs⟩ := h
  have hcross : x ∉ d :: b :: tail := by
    intro hmem
    have hplain : x.isDigit ∨ Text.isBlank x := by
      rcases List.mem_cons.1 hmem with rfl | hmem
      · exact .inl hd
      rcases List.mem_cons.1 hmem with rfl | hmem
      · exact .inr hb
      · exact htail x hmem
    simp [hblank, hdigit] at hplain
  obtain ⟨between, -, hback⟩ | ⟨between, -, hback⟩ := List.append_eq_append_iff.1 hs
  · cases between with
    | nil =>
      obtain ⟨rfl, -⟩ := List.cons.inj hback
      exact absurd (.head _) hcross
    | cons c between =>
      obtain ⟨-, rfl⟩ := List.cons.inj hback
      exact ⟨between, d, b, tail, hd, hb, hlater, htail, rfl⟩
  · refine absurd ?_ hcross
    rw [hback]
    simp

/-- It takes two digits to split them. -/
theorem SplitDigits.two_le {s : List Char} (h : SplitDigits s) : 2 ≤ (Text.normal s).length := by
  obtain ⟨front, d, b, back, hd, hb, ⟨e, he, hdigit⟩, -, rfl⟩ := h
  have hmem : e ∈ Text.normal back :=
    Text.mem_normal_of_mem he (isBlank_eq_false_of_isDigit hdigit)
      (by rw [Text.lower_of_isDigit hdigit]; exact .head _)
  have hpos := List.length_pos_of_mem hmem
  rw [Text.normal_append, Text.normal_cons_digit _ hd, Text.normal_cons_of_isBlank _ hb]
  simp only [List.length_append, List.length_cons]
  omega

/-- Digits that stand together are not split by the blanks around them. -/
theorem not_splitDigits {before ds after : List Char} (hbefore : ∀ c ∈ before, Text.isBlank c)
    (hds : ∀ c ∈ ds, c.isDigit) (hafter : ∀ c ∈ after, Text.isBlank c) :
    ¬ SplitDigits (before ++ ds ++ after) := by
  rintro ⟨front, d, b, back, hd, hb, ⟨e, he, hdigit⟩, -, hs⟩
  have hsub : [d, b, e].Sublist (before ++ (ds ++ after)) := by
    rw [← List.append_assoc, hs]
    refine List.Sublist.trans (.cons_cons d (.cons_cons b ?_)) (List.sublist_append_right front _)
    exact List.singleton_sublist.2 he
  have hnot : ∀ c, c.isDigit → ¬ Text.isBlank c := fun c hc => by
    simp [isBlank_eq_false_of_isDigit hc]
  -- The first digit is not among the blanks in front, so all three stand behind them.
  obtain ⟨l, r, hlr, hl, hr⟩ := List.sublist_append_iff.1 hsub
  cases l with
  | cons c l =>
    obtain ⟨rfl, -⟩ := List.cons.inj hlr
    exact hnot d hd (hbefore d (hl.subset (.head _)))
  | nil =>
    obtain rfl : [d, b, e] = r := hlr
    -- The last digit is not among the blanks behind, so the blank is among the digits.
    obtain ⟨l, r, hlr, hl, hr⟩ := List.sublist_append_iff.1 hr
    have hlr : [d, b] ++ [e] = l ++ r := hlr
    obtain ⟨l', rfl, -⟩ | ⟨r', -, rfl⟩ := List.append_eq_append_iff.1 hlr
    · exact hnot b (hds b (hl.subset (by simp))) hb
    · exact hnot e hdigit (hafter e (hr.subset (by simp)))

/-- Behind a digit the others stand together, if they are not split. -/
theorem exists_together_of_digit {d : Char} {s : List Char} (hd : d.isDigit)
    (hs : ∀ c ∈ s, c.isDigit ∨ Text.isBlank c) (hsplit : ¬ SplitDigits (d :: s)) :
    ∃ after, (∀ c ∈ after, Text.isBlank c) ∧ s = Text.normal s ++ after := by
  induction s generalizing d with
  | nil => exact ⟨[], by simp, rfl⟩
  | cons c s ih =>
    rcases hs c (.head _) with hc | hc
    · obtain ⟨after, hafter, h⟩ := ih hc (fun e he => hs e (.tail _ he))
        fun hrest => hsplit (hrest.append_left [d])
      refine ⟨after, hafter, ?_⟩
      rw [Text.normal_cons_digit s hc, List.cons_append, ← h]
    · -- A digit behind the blank would be split from the one in front of it.
      have hblanks : ∀ e ∈ c :: s, Text.isBlank e := by
        intro e he
        rcases List.mem_cons.1 he with rfl | he
        · exact hc
        rcases hs e (.tail _ he) with hdigit | hblank
        · exact absurd ⟨[], d, c, s, hd, hc, ⟨e, he, hdigit⟩, fun e he => hs e (.tail _ he), rfl⟩
            hsplit
        · exact hblank
      exact ⟨c :: s, hblanks, by rw [Text.normal_of_isBlank hblanks]; rfl⟩

/-- Digits that are not split stand together. -/
theorem exists_together {s : List Char} (hs : ∀ c ∈ s, c.isDigit ∨ Text.isBlank c)
    (hsplit : ¬ SplitDigits s) : ∃ before after, (∀ c ∈ before, Text.isBlank c) ∧
      (∀ c ∈ after, Text.isBlank c) ∧ s = before ++ Text.normal s ++ after := by
  induction s with
  | nil => exact ⟨[], [], by simp, by simp, rfl⟩
  | cons c s ih =>
    have htail : ∀ e ∈ s, e.isDigit ∨ Text.isBlank e := fun e he => hs e (.tail _ he)
    rcases hs c (.head _) with hc | hc
    · obtain ⟨after, hafter, h⟩ := exists_together_of_digit hc htail hsplit
      refine ⟨[], after, by simp, hafter, ?_⟩
      rw [Text.normal_cons_digit s hc, List.nil_append, List.cons_append, ← h]
    · obtain ⟨before, after, hbefore, hafter, h⟩ := ih htail
        fun hrest => hsplit (hrest.append_left [c])
      refine ⟨c :: before, after, List.forall_mem_cons.2 ⟨hc, hbefore⟩, hafter, ?_⟩
      rw [Text.normal_cons_of_isBlank s hc, List.cons_append, List.cons_append, ← h]

/-! ## Repetition in normal text -/

theorem EndsRepeated.isDigit {s rest ds : List Char} (h : EndsRepeated s rest ds) :
    ∀ c ∈ ds, c.isDigit := by
  obtain ⟨-, -, -, -, -, hds, -, -⟩ := h
  exact hds

/-- The ending of a text is the ending of its normal form. -/
theorem EndsRepeated.normal_eq {s rest ds : List Char} (h : EndsRepeated s rest ds) :
    Text.normal s = Text.normal rest ++ 'x' :: ds := by
  obtain ⟨x, before, after, hx, hbefore, hds, hafter, rfl⟩ := h
  rw [Text.normal_append, Text.normal_cons_cross _ hx, Text.normal_append, Text.normal_append,
    Text.normal_of_isBlank hbefore, Text.normal_of_isBlank hafter, Text.normal_of_isDigit hds,
    List.nil_append, List.append_nil]

/-- An `x` and digits at the end of the normal form are a repetition unless blanks split the
digits. -/
theorem exists_endsRepeated_iff {s r ds : List Char} (hnormal : Text.normal s = r ++ 'x' :: ds)
    (hds : ∀ c ∈ ds, c.isDigit) :
    (∃ rest, EndsRepeated s rest ds ∧ Text.normal rest = r) ↔ ¬ SplitDigits s := by
  constructor
  · rintro ⟨rest, ⟨x, before, after, hx, hbefore, hds, hafter, rfl⟩, -⟩ hsplit
    exact not_splitDigits hbefore hds hafter (hsplit.of_cross hx)
  · intro hsplit
    obtain ⟨rest, x, back, hx, rfl, hrest, rfl⟩ := Text.exists_cross_of_normal hnormal
    obtain ⟨before, after, hbefore, hafter, hback⟩ := exists_together
      (Text.digits_of_normal hds) fun hback => hsplit
        (by simpa using hback.append_left (rest ++ [x]))
    exact ⟨rest, ⟨x, before, after, hx, hbefore, hds, hafter, by rw [← hback]⟩, hrest⟩

/-- Fewer than two digits cannot be split. -/
theorem two_le_of_splitDigits {s r ds : List Char} (hnormal : Text.normal s = r ++ 'x' :: ds)
    (h : SplitDigits s) : 2 ≤ ds.length := by
  obtain ⟨rest, x, back, hx, rfl, -, rfl⟩ := Text.exists_cross_of_normal hnormal
  exact (h.of_cross hx).two_le

end Written

/-! ## Texts of the same normal form -/

open Written

/-- A text is repeated as its normal form is, unless blanks split the digits it ends in. -/
theorem Written.exists_endsRepeated_of_normal_eq {s t rest ds : List Char}
    (h : EndsRepeated s rest ds) (hst : Text.normal s = Text.normal t)
    (htogether : 2 ≤ ds.length → ¬ SplitDigits t) :
    ∃ rest', EndsRepeated t rest' ds ∧ Text.normal rest' = Text.normal rest := by
  have hnormal : Text.normal t = Text.normal rest ++ 'x' :: ds := by rw [← hst, h.normal_eq]
  exact (exists_endsRepeated_iff hnormal h.isDigit).2 fun hsplit =>
    htogether (two_le_of_splitDigits hnormal hsplit) hsplit

/-- Blanks and capitals change nothing but the raw text. An `x` and digits at the end of a roll
are the exception: blanks between the digits hide a repetition. -/
theorem ofText_of_normal_eq {a b : String} (ha : (Text.trim a.toList).length ≤ maxTextLength)
    (hb : (Text.trim b.toList).length ≤ maxTextLength)
    (hab : Text.normal a.toList = Text.normal b.toList) :
    TraitRoll.ofText b = { TraitRoll.ofText a with raw := b } ∧
      ((∀ rest ds, Text.normal a.toList = rest ++ 'x' :: ds → (∀ c ∈ ds, c.isDigit) →
          2 ≤ ds.length → ¬ SplitDigits a.toList ∧ ¬ SplitDigits b.toList) →
        Roll.ofText b = { Roll.ofText a with raw := b }) := by
  have htrim : Text.normal (Text.trim a.toList) = Text.normal (Text.trim b.toList) := by
    rw [Text.normal_trim, Text.normal_trim, hab]
  constructor
  · rw [TraitRoll.ofText_of_short ha (commented_split _),
      TraitRoll.ofText_of_short hb (commented_split _), htrim]
  · intro htogether
    have hsplit : ∀ {s rest ds}, EndsRepeated s rest ds →
        Text.normal s = Text.normal a.toList → 2 ≤ ds.length →
          ¬ SplitDigits a.toList ∧ ¬ SplitDigits b.toList := fun h hs =>
      htogether _ _ (by rw [← hs, h.normal_eq]) h.isDigit
    by_cases hends : ∃ rest ds, EndsRepeated (Text.trim a.toList) rest ds
    · obtain ⟨rest, ds, hrest⟩ := hends
      obtain ⟨rest', hrest', hnormal⟩ := exists_endsRepeated_of_normal_eq hrest htrim
        fun htwo hb' => (hsplit hrest (Text.normal_trim _) htwo).2 hb'.of_trim
      rw [Roll.ofText_of_short ha (.times hrest) (commented_split _),
        Roll.ofText_of_short hb (.times hrest') (commented_split _), hnormal]
    · have hnone : ∀ rest ds, ¬ EndsRepeated (Text.trim b.toList) rest ds := by
        intro rest ds hrest
        obtain ⟨rest', hrest', -⟩ := exists_endsRepeated_of_normal_eq hrest htrim.symm
          fun htwo ha' => (hsplit hrest (by rw [Text.normal_trim, hab]) htwo).1 ha'.of_trim
        exact hends ⟨rest', ds, hrest'⟩
      rw [Roll.ofText_of_short ha (.once fun rest ds h => hends ⟨rest, ds, h⟩) (commented_split _),
        Roll.ofText_of_short hb (.once hnone) (commented_split _), htrim]

/-- Capitals, the Kelvin sign, a dotted capital `İ` in the comment and blanks on both sides of the
`X`. -/
theorem ofText_of_normal_eq_kelvin :
    Text.normal " 2D6 \u212aH + 1 \"\u0130 \" X 12\t".toList =
      Text.normal "2d6kh+1\"i\u0307\"x12".toList ∧
    (Roll.ofText " 2D6 \u212aH + 1 \"\u0130 \" X 12\t").exprs = List.replicate 12
      ⟨[(.plus, .dice ⟨2, 6, none, [⟨.keepHigh, 1⟩]⟩), (.plus, .number 1)]⟩ ∧
    (Roll.ofText " 2D6 \u212aH + 1 \"\u0130 \" X 12\t").comment = some "i\u0307" ∧
    (TraitRoll.ofText " 2D6 \u212aH + 1 \"\u0130 \" X 12\t").comment = some "i\u0307" := by
  have hnormal : Text.normal "2d6kh+1\"i\u0307\"x12".toList =
      Text.normal " 2D6 \u212aH + 1 \"\u0130 \" X 12\t".toList := by decide +kernel
  have hshort : (Text.trim "2d6kh+1\"i\u0307\"x12".toList).length ≤ maxTextLength := by
    decide +kernel
  have hshort' : (Text.trim " 2D6 \u212aH + 1 \"\u0130 \" X 12\t".toList).length ≤
      maxTextLength := by decide +kernel
  have htogether : ¬ SplitDigits "2d6kh+1\"i\u0307\"x12".toList := by
    have hends : "2d6kh+1\"i\u0307\"x12".toList =
        "2d6kh+1\"i\u0307\"".toList ++ 'x' :: ([] ++ ['1', '2'] ++ []) := by decide +kernel
    rw [hends]
    exact fun h => not_splitDigits (by simp) (by simp) (by simp) (h.of_cross (.inl rfl))
  have htogether' : ¬ SplitDigits " 2D6 \u212aH + 1 \"\u0130 \" X 12\t".toList := by
    have hends : " 2D6 \u212aH + 1 \"\u0130 \" X 12\t".toList =
        " 2D6 \u212aH + 1 \"\u0130 \" ".toList ++ 'X' :: ([' '] ++ ['1', '2'] ++ ['\t']) := by
      decide +kernel
    rw [hends]
    have hspace : ∀ c ∈ [' '], Text.isBlank c := List.forall_mem_singleton.2 rfl
    have htab : ∀ c ∈ ['\t'], Text.isBlank c := List.forall_mem_singleton.2 rfl
    exact fun h => not_splitDigits hspace (by simp) htab (h.of_cross (.inr rfl))
  obtain ⟨htrait, hroll⟩ := ofText_of_normal_eq hshort hshort' hnormal
  have hroll := hroll fun _ _ _ _ _ => ⟨htogether, htogether'⟩
  have hexprs : (Roll.ofText "2d6kh+1\"i\u0307\"x12").exprs = List.replicate 12
      ⟨[(.plus, .dice ⟨2, 6, none, [⟨.keepHigh, 1⟩]⟩), (.plus, .number 1)]⟩ := by cbv
  have hcomment : (Roll.ofText "2d6kh+1\"i\u0307\"x12").comment = some "i\u0307" := by cbv
  have hcomment' : (TraitRoll.ofText "2d6kh+1\"i\u0307\"x12").comment = some "i\u0307" := by cbv
  rw [htrait, hroll]
  exact ⟨hnormal.symm, hexprs, hcomment, hcomment'⟩

/-- A blank between the digits hides the repetition. -/
example : (Roll.ofText "1d6x1 2").exprs = [] ∧ (Roll.ofText "1d6 X 12").exprs.length = 12 := by
  decide +kernel

end TabletopDice
