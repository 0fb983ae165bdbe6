import TabletopDice.Text.Blank
import TabletopDice.Text.Lowercase

/-!
# Normal text

Roll text without blanks and in small letters, as it is read: neither blanks nor capitals have a
meaning of their own.
-/

namespace TabletopDice.Text

/-- The text without blanks, in small letters. -/
def normal (s : List Char) : List Char :=
  (s.filter fun c => !isBlank c).flatMap lower

@[simp] theorem normal_nil : normal [] = [] := rfl

/-- Texts in a row are normalized one by one. -/
theorem normal_append (s t : List Char) : normal (s ++ t) = normal s ++ normal t := by
  simp [normal]

/-- A blank vanishes. -/
theorem normal_cons_of_isBlank {c : Char} (s : List Char) (h : isBlank c) :
    normal (c :: s) = normal s := by
  simp [normal, h]

/-- Any other character is put into lower case. -/
theorem normal_cons_of_not_isBlank {c : Char} (s : List Char) (h : isBlank c = false) :
    normal (c :: s) = lower c ++ normal s := by
  simp [normal, h]

/-- A character that is not blank leaves its small letters. -/
theorem mem_normal_of_mem {s : List Char} {c x : Char} (hc : c ∈ s) (hblank : isBlank c = false)
    (hx : x ∈ lower c) : x ∈ normal s :=
  List.mem_flatMap.2 ⟨c, List.mem_filter.2 ⟨hc, by simp [hblank]⟩, hx⟩

/-- Of blanks nothing is left. -/
theorem normal_of_isBlank {s : List Char} (h : ∀ c ∈ s, isBlank c) : normal s = [] := by
  have hfilter : (s.filter fun c => !isBlank c) = [] :=
    List.filter_eq_nil_iff.2 fun c hc => by simp [h c hc]
  rw [normal, hfilter]
  rfl

/-- Blanks at the start of a text make no difference. -/
theorem normal_dropWhile (s : List Char) : normal (s.dropWhile isBlank) = normal s := by
  have happend := congrArg normal (List.takeWhile_append_dropWhile (p := isBlank) (l := s))
  rwa [normal_append, normal_of_isBlank fun _ => isBlank_of_mem_takeWhile, List.nil_append]
    at happend

/-- Blanks around a text make no difference. -/
theorem normal_trim (s : List Char) : normal (trim s) = normal s := by
  obtain ⟨before, after, hbefore, hafter, hs⟩ := exists_append_trim s
  have happend := congrArg normal hs
  rw [normal_append, normal_append, normal_of_isBlank hbefore, normal_of_isBlank hafter,
    List.nil_append, List.append_nil] at happend
  exact happend.symm

/-! ## No blanks are left -/

/-- No small letter of the table is blank. -/
theorem small_ne_blank : ∀ r ∈ caseRanges, ∀ b ∈ blankPoints,
    b < r.small ∨ r.small + (r.last - r.first) < b := by
  decide +kernel

/-- The code point of a character is the number it was made of, or zero if there is no such one. -/
theorem toNat_ofNat_cases (n : Nat) : (Char.ofNat n).toNat = n ∨ (Char.ofNat n).toNat = 0 := by
  by_cases hvalid : n.isValidChar
  · left
    rw [Char.ofNat, dif_pos hvalid]
    rfl
  · right
    rw [Char.ofNat, dif_neg hvalid]
    rfl

theorem isBlank_ofNat {n : Nat} (h : n ∉ blankPoints) : isBlank (Char.ofNat n) = false := by
  rw [Bool.eq_false_iff, Ne, isBlank_iff]
  rcases toNat_ofNat_cases n with hnat | hnat
  · rw [hnat]
    exact h
  · rw [hnat]
    decide

/-- Lowering a character that is not blank makes none that is. -/
theorem isBlank_of_mem_lower {c x : Char} (hc : isBlank c = false) (hx : x ∈ lower c) :
    isBlank x = false := by
  rcases mem_lower_cases hx with
    ⟨hascii, rfl⟩ | (rfl | rfl) | ⟨r, hr, hfirst, hlast, rfl⟩ | ⟨-, rfl⟩
  · have hall : ∀ n < 0x80, isBlank (Char.ofNat n) = false →
        isBlank (Char.ofNat n).toLower = false := by decide
    have hlower := hall c.toNat hascii
    rw [Char.ofNat_toNat] at hlower
    exact hlower hc
  · exact isBlank_eq_false_of_between (by decide) (by decide)
  · exact isBlank_ofNat (by decide)
  · apply isBlank_ofNat
    intro hblank
    have houtside := small_ne_blank r hr _ hblank
    omega
  · exact hc

/-- Normal text has no blanks. -/
theorem isBlank_of_mem_normal {s : List Char} {c : Char} (h : c ∈ normal s) :
    isBlank c = false := by
  obtain ⟨d, hd, hc⟩ := List.mem_flatMap.1 h
  have hkeep := (List.mem_filter.1 hd).2
  exact isBlank_of_mem_lower (by simpa using hkeep) hc

end TabletopDice.Text
