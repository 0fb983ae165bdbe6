import TabletopDice.Written.Term

/-!
# How terms are spelled

Every term as written has one spelling. Main statements: a text is read as a number exactly when it
is a numeral (`ofText?_eq_number_iff`), and as dice exactly when it is the spelling of these dice
(`ofText?_eq_dice_iff`), so that reading a term loses nothing of it.
-/

namespace TabletopDice.Written

/-! ## Numerals -/

/-- A run of digits with at least one digit. -/
def IsNumeral (ds : List Char) : Prop :=
  ds ≠ [] ∧ ∀ c ∈ ds, c.isDigit

/-- No digit stands at the start of a text. -/
def NoDigitAhead (r : List Char) : Prop :=
  ∀ c ∈ r.head?, c.isDigit = false

theorem noDigitAhead_nil : NoDigitAhead [] := by
  intro c hc
  simp at hc

theorem noDigitAhead_cons {c : Char} {r : List Char} :
    NoDigitAhead (c :: r) ↔ c.isDigit = false := by
  simp [NoDigitAhead]

/-- Behind the leading digits stands something else. -/
theorem noDigitAhead_afterLeading (s : List Char) : NoDigitAhead (Numeral.afterLeading s) :=
  Numeral.isDigit_head_afterLeading s

/-- Digits are found exactly when the text starts with one. -/
theorem digits?_eq_some_iff {s ds : List Char} :
    digits? s = some ds ↔ Numeral.leading s = ds ∧ ds ≠ [] := by
  unfold digits?
  split
  · next h =>
    rw [h]
    constructor
    · intro h'
      simp at h'
    · rintro ⟨rfl, h'⟩
      exact absurd rfl h'
  · next h =>
    constructor
    · intro h'
      rw [Option.some.injEq] at h'
      subst h'
      exact ⟨rfl, h⟩
    · rintro ⟨rfl, -⟩
      rfl

/-- Without a digit at the start no digits are found. -/
theorem digits?_eq_none {s : List Char} (h : NoDigitAhead s) : digits? s = none := by
  cases hs : digits? s with
  | none => rfl
  | some ds =>
    obtain ⟨hlead, hne⟩ := digits?_eq_some_iff.1 hs
    cases s with
    | nil => exact absurd hlead.symm hne
    | cons c r =>
      rw [noDigitAhead_cons] at h
      have hnil : Numeral.leading (c :: r) = [] := by simp [Numeral.leading, h]
      exact absurd (hlead.symm.trans hnil) hne

/-- The digits that are found are a numeral. -/
theorem isNumeral_of_digits? {s ds : List Char} (h : digits? s = some ds) : IsNumeral ds := by
  obtain ⟨rfl, hne⟩ := digits?_eq_some_iff.1 h
  exact ⟨hne, fun c hc => Numeral.isDigit_of_mem_leading hc⟩

/-- The digits that are found, if any, and the rest make up the text. -/
theorem digits?_append_afterLeading (s : List Char) :
    (digits? s).getD [] ++ Numeral.afterLeading s = s := by
  have hlead : (digits? s).getD [] = Numeral.leading s := by
    unfold digits?
    split
    · next h => rw [h]; rfl
    · rfl
  rw [hlead, Numeral.leading_append_afterLeading]

/-- An optional numeral in front of something else is read back. -/
theorem digits?_append {o : Option (List Char)} {r : List Char} (ho : ∀ ds ∈ o, IsNumeral ds)
    (hr : NoDigitAhead r) : digits? (o.getD [] ++ r) = o := by
  cases o with
  | none => exact digits?_eq_none hr
  | some ds =>
    obtain ⟨hne, hds⟩ := ho ds rfl
    rw [digits?_eq_some_iff]
    exact ⟨Numeral.leading_append hds hr, hne⟩

/-- Behind an optional numeral the rest is left over. -/
theorem afterLeading_append_of_noDigitAhead {o : Option (List Char)} {r : List Char}
    (ho : ∀ ds ∈ o, IsNumeral ds) (hr : NoDigitAhead r) :
    Numeral.afterLeading (o.getD [] ++ r) = r := by
  cases o with
  | none => exact Numeral.afterLeading_append (List.forall_mem_nil _) hr
  | some ds => exact Numeral.afterLeading_append (ho ds rfl).2 hr

/-! ## Spellings of suffixes -/

/-- The characters of a threshold. -/
def thresholdChars : Option (List Char) → List Char
  | some ds => '>' :: ds
  | none => []

/-- The characters of a suffix. -/
def Suffix.chars : Suffix → List Char
  | .explosion true t => '!' :: '!' :: thresholdChars t
  | .explosion false t => '!' :: thresholdChars t
  | .selection kind n => kind.symbol.toList ++ n.getD []

/-- The number of a suffix, as written. -/
def Suffix.digits : Suffix → Option (List Char)
  | .explosion _ t => t
  | .selection _ n => n

/-- Whether the number of a suffix, if it has one, is a numeral. -/
def Suffix.WellSpelled (x : Suffix) : Prop :=
  ∀ ds ∈ x.digits, IsNumeral ds

/-- Whether a threshold, given or not, ends in front of a text. -/
def ThresholdEnds (t : Option (List Char)) (r : List Char) : Prop :=
  match t with
  | some _ => NoDigitAhead r
  | none => ∀ r', r = '>' :: r' → digits? r' = none

/-- Whether a suffix ends in front of a text instead of growing into it. -/
def Suffix.EndsBefore (x : Suffix) (r : List Char) : Prop :=
  match x with
  | .explosion recursive t =>
    ThresholdEnds t r ∧ (recursive = false → t = none → r.head? ≠ some '!')
  | .selection _ _ => NoDigitAhead r

/-- Reading a threshold takes it from the text and stops where it ends. -/
theorem afterBang_eq_iff {b : Bool} {s r : List Char} {x : Suffix} :
    afterBang b s = (x, r) ↔
      ∃ t, x = .explosion b t ∧ s = thresholdChars t ++ r ∧ (∀ ds ∈ t, IsNumeral ds) ∧
        ThresholdEnds t r := by
  constructor
  · intro h
    unfold afterBang at h
    split at h
    · next r' =>
      split at h
      · next ds hds =>
        simp only [Prod.mk.injEq] at h
        obtain ⟨rfl, rfl⟩ := h
        refine ⟨some ds, rfl, ?_, ?_, noDigitAhead_afterLeading r'⟩
        · have happ := digits?_append_afterLeading r'
          rw [hds, Option.getD_some] at happ
          rw [thresholdChars, List.cons_append, happ]
        · rintro _ ⟨⟩
          exact isNumeral_of_digits? hds
      · next hds =>
        simp only [Prod.mk.injEq] at h
        obtain ⟨rfl, rfl⟩ := h
        refine ⟨none, rfl, rfl, by simp, ?_⟩
        rintro _ ⟨⟩
        exact hds
    · next hs =>
      simp only [Prod.mk.injEq] at h
      obtain ⟨rfl, rfl⟩ := h
      exact ⟨none, rfl, rfl, by simp, fun r' hr' => absurd hr' (hs r')⟩
  · rintro ⟨t, rfl, rfl, ht, hends⟩
    cases t with
    | some ds =>
      have hd := digits?_append (o := some ds) ht hends
      have ha := afterLeading_append_of_noDigitAhead (o := some ds) ht hends
      simp only [Option.getD_some] at hd ha
      simp [thresholdChars, afterBang, hd, ha]
    | none =>
      rw [thresholdChars, List.nil_append]
      unfold afterBang
      split
      · next r' => rw [hends r' rfl]
      · rfl

/-- Reading a count takes it from the text and stops where it ends. -/
theorem afterKind_eq_iff {kind : Kind} {s r : List Char} {x : Suffix} :
    afterKind kind s = (x, r) ↔
      ∃ n, x = .selection kind n ∧ s = n.getD [] ++ r ∧ (∀ ds ∈ n, IsNumeral ds) ∧
        NoDigitAhead r := by
  unfold afterKind
  rw [Prod.mk.injEq]
  constructor
  · rintro ⟨rfl, rfl⟩
    exact ⟨digits? s, rfl, (digits?_append_afterLeading s).symm,
      fun _ h => isNumeral_of_digits? h, noDigitAhead_afterLeading s⟩
  · rintro ⟨n, rfl, rfl, hn, hr⟩
    rw [digits?_append hn hr, afterLeading_append_of_noDigitAhead hn hr]
    exact ⟨rfl, rfl⟩

/-- A single exclamation mark starts an explosion that is not repeated. -/
theorem firstSuffix?_bang {s : List Char} (h : s.head? ≠ some '!') :
    firstSuffix? ('!' :: s) = some (afterBang false s) := by
  unfold firstSuffix?
  split
  · next r hr =>
    rw [List.cons.injEq] at hr
    rw [hr.2] at h
    exact absurd rfl h
  · next r _ hr =>
    rw [List.cons.injEq] at hr
    rw [hr.2]
  all_goals simp at *

/-- The symbol of a kind starts a selection. -/
theorem firstSuffix?_selection (kind : Kind) (s : List Char) :
    firstSuffix? (kind.symbol.toList ++ s) = some (afterKind kind s) := by
  cases kind <;> rfl

/-- Reading a suffix takes its characters from the text and stops where it ends. -/
theorem firstSuffix?_eq_some_iff {s r : List Char} {x : Suffix} :
    firstSuffix? s = some (x, r) ↔ s = x.chars ++ r ∧ x.WellSpelled ∧ x.EndsBefore r := by
  constructor
  · intro h
    -- the four kinds of selections are read alike
    have hkind : ∀ (kind : Kind) (s' : List Char), s = kind.symbol.toList ++ s' →
        some (afterKind kind s') = some (x, r) →
        s = x.chars ++ r ∧ x.WellSpelled ∧ x.EndsBefore r := by
      rintro kind s' rfl h'
      obtain ⟨n, rfl, rfl, hn, hr⟩ := afterKind_eq_iff.1 (Option.some.inj h')
      exact ⟨by rw [Suffix.chars, List.append_assoc], hn, hr⟩
    unfold firstSuffix? at h
    split at h
    · next s' =>
      obtain ⟨t, rfl, rfl, ht, hends⟩ := afterBang_eq_iff.1 (Option.some.inj h)
      exact ⟨rfl, ht, hends, by simp⟩
    · next s' hs' =>
      obtain ⟨t, rfl, rfl, ht, hends⟩ := afterBang_eq_iff.1 (Option.some.inj h)
      refine ⟨rfl, ht, hends, ?_⟩
      rintro - rfl hbang
      obtain ⟨r', rfl⟩ := List.head?_eq_some_iff.1 hbang
      exact hs' r' rfl
    · exact hkind .keepHigh _ rfl h
    · exact hkind .keepLow _ rfl h
    · exact hkind .dropHigh _ rfl h
    · exact hkind .dropLow _ rfl h
    · simp at h
  · rintro ⟨rfl, hx, hends⟩
    cases x with
    | explosion recursive t =>
      have hbang : ∀ b, afterBang b (thresholdChars t ++ r) = (.explosion b t, r) :=
        fun b => afterBang_eq_iff.2 ⟨t, rfl, rfl, hx, hends.1⟩
      cases recursive with
      | true =>
        show some (afterBang true (thresholdChars t ++ r)) = _
        rw [hbang]
      | false =>
        rw [Suffix.chars, List.cons_append, firstSuffix?_bang, hbang]
        cases t with
        | some ds => simp [thresholdChars]
        | none => exact hends.2 rfl rfl
    | selection kind n =>
      rw [Suffix.chars, List.append_assoc, firstSuffix?_selection]
      exact congrArg some (afterKind_eq_iff.2 ⟨n, rfl, rfl, hx, hends⟩)

/-! ## Spellings of rows of suffixes -/

/-- The characters of a row of suffixes. -/
def suffixChars (xs : List Suffix) : List Char :=
  xs.flatMap Suffix.chars

/-- Whether every suffix of a row ends in front of those behind it. -/
def Apart : List Suffix → Prop
  | [] => True
  | x :: xs => x.EndsBefore (suffixChars xs) ∧ Apart xs

/-- Suffixes are written one after the other. -/
theorem suffixChars_cons (x : Suffix) (xs : List Suffix) :
    suffixChars (x :: xs) = x.chars ++ suffixChars xs := rfl

theorem Suffix.chars_ne_nil (x : Suffix) : x.chars ≠ [] := by
  cases x with
  | explosion recursive t => cases recursive <;> simp [Suffix.chars]
  | selection kind n => cases kind <;> simp [Suffix.chars, Kind.symbol]

theorem suffixChars_eq_nil_iff {xs : List Suffix} : suffixChars xs = [] ↔ xs = [] := by
  cases xs with
  | nil => simp [suffixChars]
  | cons x xs => simp [suffixChars_cons, x.chars_ne_nil]

/-- A row of suffixes is read exactly when the text is its spelling. -/
theorem suffixes?_eq_some_iff {s : List Char} {xs : List Suffix} :
    suffixes? s = some xs ↔
      s = suffixChars xs ∧ (∀ x ∈ xs, x.WellSpelled) ∧ Apart xs := by
  fun_induction suffixes? s generalizing xs with
  | case1 =>
    constructor
    · intro h
      obtain rfl := Option.some.inj h
      exact ⟨rfl, by simp, trivial⟩
    · rintro ⟨h, -, -⟩
      rw [suffixChars_eq_nil_iff.1 h.symm]
  | case2 c r x rest hx ih =>
    obtain ⟨hchars, hspell, hends⟩ := firstSuffix?_eq_some_iff.1 hx
    constructor
    · intro h
      obtain ⟨ys, hys, rfl⟩ := Option.map_eq_some_iff.1 h
      obtain ⟨rfl, hyspell, hapart⟩ := ih.1 hys
      refine ⟨hchars, ?_, hends, hapart⟩
      intro y hy
      rcases List.mem_cons.1 hy with rfl | hy
      · exact hspell
      · exact hyspell y hy
    · rintro ⟨hxs, hspells, hapart⟩
      cases xs with
      | nil => simp [suffixChars] at hxs
      | cons y ys =>
        -- the first suffix of the row is the one that was read
        have hy : firstSuffix? (c :: r) = some (y, suffixChars ys) :=
          firstSuffix?_eq_some_iff.2 ⟨hxs, hspells y List.mem_cons_self, hapart.1⟩
        rw [hx, Option.some.injEq, Prod.mk.injEq] at hy
        obtain ⟨rfl, rfl⟩ := hy
        rw [ih.2 ⟨rfl, fun z hz => hspells z (List.mem_cons_of_mem x hz), hapart.2⟩]
        rfl
  | case3 c r hx =>
    constructor
    · intro h
      simp at h
    · rintro ⟨hxs, hspells, hapart⟩
      cases xs with
      | nil => simp [suffixChars] at hxs
      | cons y ys =>
        -- the first suffix of a row would have been read
        have hy : firstSuffix? (c :: r) = some (y, suffixChars ys) :=
          firstSuffix?_eq_some_iff.2 ⟨hxs, hspells y List.mem_cons_self, hapart.1⟩
        rw [hx] at hy
        simp at hy

/-! ## Neighbouring suffixes -/

/-- No suffix starts with a digit. -/
theorem noDigitAhead_suffixChars (xs : List Suffix) : NoDigitAhead (suffixChars xs) := by
  cases xs with
  | nil => exact noDigitAhead_nil
  | cons x xs =>
    rw [suffixChars_cons]
    cases x with
    | explosion recursive t =>
      cases recursive <;> exact noDigitAhead_cons.2 (by decide)
    | selection kind n =>
      cases kind <;> exact noDigitAhead_cons.2 (by decide)

/-- Whether a suffix starts with an exclamation mark. -/
def Suffix.isExplosion : Suffix → Bool
  | .explosion _ _ => true
  | .selection _ _ => false

theorem Suffix.head?_chars_eq_bang_iff (x : Suffix) :
    x.chars.head? = some '!' ↔ x.isExplosion = true := by
  rcases x with ⟨recursive, t⟩ | ⟨kind, n⟩
  · cases recursive <;> simp [Suffix.chars, Suffix.isExplosion]
  · cases kind <;> simp [Suffix.chars, Suffix.isExplosion, Kind.symbol]

/-- No suffix starts with the sign of a threshold. -/
theorem Suffix.head?_chars_ne (x : Suffix) : x.chars.head? ≠ some '>' := by
  rcases x with ⟨recursive, t⟩ | ⟨kind, n⟩
  · cases recursive <;> simp [Suffix.chars]
  · cases kind <;> simp [Suffix.chars, Kind.symbol]

/-- A row of suffixes starts as its first suffix does. -/
theorem head?_suffixChars (xs : List Suffix) :
    (suffixChars xs).head? = xs.head?.bind fun x => x.chars.head? := by
  rcases xs with _ | ⟨x, xs⟩
  · rfl
  · obtain ⟨c, cs, hx⟩ := List.exists_cons_of_ne_nil x.chars_ne_nil
    rw [suffixChars_cons, List.head?_cons, Option.bind_some, hx]
    rfl

/-- Only an exclamation mark without a threshold can grow into the suffix behind it, and only when
that one is an explosion, too. -/
theorem endsBefore_suffixChars_iff (x : Suffix) (xs : List Suffix) :
    x.EndsBefore (suffixChars xs) ↔
      ∀ y ∈ xs.head?, x = .explosion false none → y.isExplosion = false := by
  rcases x with ⟨recursive, t⟩ | ⟨kind, n⟩
  · have hthreshold : ThresholdEnds t (suffixChars xs) := by
      rcases t with _ | ds
      · rintro r hr
        have hhead := head?_suffixChars xs
        rw [hr, List.head?_cons, eq_comm, Option.bind_eq_some_iff] at hhead
        obtain ⟨y, -, hy⟩ := hhead
        exact absurd hy y.head?_chars_ne
      · exact noDigitAhead_suffixChars xs
    rw [Suffix.EndsBefore, and_iff_right hthreshold, head?_suffixChars]
    simp only [ne_eq, Option.bind_eq_some_iff, Suffix.head?_chars_eq_bang_iff, not_exists, not_and,
      Bool.not_eq_true, Suffix.explosion.injEq, and_imp]
    constructor
    · intro h y hy hrecursive ht
      exact h hrecursive ht y hy
    · intro h hrecursive ht y hy
      exact h y hy hrecursive ht
  · exact iff_of_true (noDigitAhead_suffixChars xs) nofun

/-! ## Spellings of terms -/

/-- The characters of a group of dice. -/
def WrittenDice.chars (w : WrittenDice) : List Char :=
  w.count.getD [] ++ 'd' :: (w.sides ++ suffixChars w.suffixes)

/-- Whether the numbers of a group of dice are numerals, and its suffixes stay apart. -/
structure WrittenDice.WellSpelled (w : WrittenDice) : Prop where
  count : ∀ ds ∈ w.count, IsNumeral ds
  sides : IsNumeral w.sides
  suffixes : ∀ x ∈ w.suffixes, x.WellSpelled
  apart : Apart w.suffixes

theorem afterD_eq_some_iff {count : Option (List Char)} {s : List Char} {w : WrittenDice} :
    afterD count s = some w ↔
      w.count = count ∧ s = w.sides ++ suffixChars w.suffixes ∧ IsNumeral w.sides ∧
        (∀ x ∈ w.suffixes, x.WellSpelled) ∧ Apart w.suffixes := by
  unfold afterD
  simp only [Option.bind_eq_bind, Option.bind_eq_some_iff, Option.pure_def, Option.some.injEq]
  constructor
  · rintro ⟨sides, hsides, suffixes, hsuffixes, rfl⟩
    obtain ⟨hrest, hspell, hapart⟩ := suffixes?_eq_some_iff.1 hsuffixes
    refine ⟨rfl, ?_, isNumeral_of_digits? hsides, hspell, hapart⟩
    have happ := digits?_append_afterLeading s
    rw [hsides, hrest, Option.getD_some] at happ
    exact happ.symm
  · rintro ⟨rfl, rfl, hsides, hspell, hapart⟩
    have hsome : ∀ ds ∈ some w.sides, IsNumeral ds := by
      rintro _ ⟨⟩
      exact hsides
    have hd := digits?_append hsome (noDigitAhead_suffixChars w.suffixes)
    have ha := afterLeading_append_of_noDigitAhead hsome (noDigitAhead_suffixChars w.suffixes)
    rw [Option.getD_some] at hd ha
    refine ⟨w.sides, hd, w.suffixes, ?_, rfl⟩
    rw [ha]
    exact suffixes?_eq_some_iff.2 ⟨rfl, hspell, hapart⟩

/-- A text is read as a number exactly when it is a numeral. -/
theorem ofText?_eq_number_iff {s ds : List Char} :
    WrittenTerm.ofText? s = some (.number ds) ↔ s = ds ∧ IsNumeral ds := by
  unfold WrittenTerm.ofText?
  constructor
  · intro h
    have happ := digits?_append_afterLeading s
    split at h
    · next hnil =>
      obtain ⟨ds', hds, hnum⟩ := Option.map_eq_some_iff.1 h
      obtain rfl : ds' = ds := WrittenTerm.number.inj hnum
      rw [hnil, hds, Option.getD_some, List.append_nil] at happ
      exact ⟨happ.symm, isNumeral_of_digits? hds⟩
    · obtain ⟨w, -, hw⟩ := Option.map_eq_some_iff.1 h
      simp at hw
    · simp at h
  · rintro ⟨rfl, hs⟩
    have hsome : ∀ ds ∈ some s, IsNumeral ds := by
      rintro _ ⟨⟩
      exact hs
    have hd := digits?_append hsome noDigitAhead_nil
    have ha := afterLeading_append_of_noDigitAhead hsome noDigitAhead_nil
    rw [Option.getD_some, List.append_nil] at hd ha
    rw [ha, hd]
    rfl

/-- A text is read as a group of dice exactly when it is the spelling of the group. -/
theorem ofText?_eq_dice_iff {s : List Char} {w : WrittenDice} :
    WrittenTerm.ofText? s = some (.dice w) ↔ s = w.chars ∧ w.WellSpelled := by
  unfold WrittenTerm.ofText?
  constructor
  · intro h
    have happ := digits?_append_afterLeading s
    split at h
    · obtain ⟨ds, -, hds⟩ := Option.map_eq_some_iff.1 h
      simp at hds
    · next r hr =>
      obtain ⟨w', hw, hdice⟩ := Option.map_eq_some_iff.1 h
      obtain rfl : w' = w := WrittenTerm.dice.inj hdice
      obtain ⟨hcount, rfl, hsides, hspell, hapart⟩ := afterD_eq_some_iff.1 hw
      rw [hr, ← hcount] at happ
      refine ⟨happ.symm, ?_, hsides, hspell, hapart⟩
      intro ds hds
      exact isNumeral_of_digits? (hcount.symm.trans hds)
    · simp at h
  · rintro ⟨rfl, hw⟩
    have hd : NoDigitAhead ('d' :: (w.sides ++ suffixChars w.suffixes)) :=
      noDigitAhead_cons.2 (by decide)
    rw [WrittenDice.chars, afterLeading_append_of_noDigitAhead hw.count hd,
      digits?_append hw.count hd]
    have hread := afterD_eq_some_iff.2 ⟨rfl, rfl, hw.sides, hw.suffixes, hw.apart⟩
    simp only [hread, Option.map_some]

end TabletopDice.Written
