import TabletopDice.Proofs.Figures
import TabletopDice.Proofs.Grammar
import TabletopDice.Proofs.ValidDice

/-!
# Reports of numbers

A message about a number that is too large names it by its digits. Main statements: digits are the
numeral of their value behind some zeros (`Numeral.exists_zeros`), so a number that is printed anew
is still named by its digits, zeros at the start apart (`names_of_beyondTotals`), and numbers that
are read one by one are reported exactly if they are rejected (`reports_number_chain`,
`reports_total`).
-/

namespace TabletopDice

/-! ## Digits without leading zeros -/

namespace Numeral

/-- A further digit makes a number ten times as large, and adds its own value. -/
theorem value_concat (ds : List Char) (c : Char) :
    value (ds ++ [c]) = 10 * value ds + value [c] := by
  simp [value, Nat.ofDigitChars_append, Nat.ofDigitChars_cons]

/-- A digit is the numeral of its value. -/
theorem ofNat_value_digit {c : Char} (h : c.isDigit) : ofNat (value [c]) = [c] := by
  obtain ⟨hlow, hhigh⟩ := Written.toNat_of_isDigit h
  have hall : ∀ i ≤ 9, ofNat (value [Char.ofNat (48 + i)]) = [Char.ofNat (48 + i)] := by decide
  have hc := hall (c.toNat - 48) (by omega)
  rwa [Nat.add_sub_cancel' hlow, Char.ofNat_toNat] at hc

/-- A digit is worth less than ten. -/
theorem value_digit_lt {c : Char} (h : c.isDigit) : value [c] < 10 := by
  have hc := Written.toNat_of_isDigit h
  simp [value, Nat.ofDigitChars_cons]
  omega

/-- Behind some zeros, digits are the numeral of their value. -/
theorem exists_zeros {ds : List Char} (h : Written.IsNumeral ds) :
    ∃ zeros, (∀ c ∈ zeros, c = '0') ∧ ds = zeros ++ ofNat (value ds) := by
  obtain ⟨hne, hdigits⟩ := h
  -- a number grows by its last digit, so the induction starts at the end
  induction ds using List.reverseRecOn with
  | nil => exact absurd rfl hne
  | append_singleton ds c ih =>
    have hc : c.isDigit := hdigits c (by simp)
    have hfront : ∀ d ∈ ds, d.isDigit := fun d hd => hdigits d (List.mem_append_left _ hd)
    rcases ds.eq_nil_or_concat with rfl | ⟨_, _, hds⟩
    · exact ⟨[], List.forall_mem_nil _, (ofNat_value_digit hc).symm⟩
    · obtain ⟨zeros, hzeros, hsplit⟩ := ih (by simp [hds]) hfront
      rw [value_concat]
      rcases Nat.eq_zero_or_pos (value ds) with hvalue | hvalue
      · -- nothing but zeros stands before the last digit
        have hall : ∀ d ∈ ds, d = '0' := by
          rw [hvalue] at hsplit
          intro d hd
          rw [hsplit] at hd
          rcases List.mem_append.1 hd with hd | hd
          · exact hzeros d hd
          · exact List.mem_singleton.1 hd
        exact ⟨ds, hall, by rw [hvalue, Nat.mul_zero, Nat.zero_add, ofNat_value_digit hc]⟩
      · have hgrow : ofNat (10 * value ds + value [c]) = ofNat (value ds) ++ ofNat (value [c]) :=
          (Nat.toDigits_append_toDigits (by decide) hvalue (value_digit_lt hc)).symm
        refine ⟨zeros, hzeros, ?_⟩
        rw [hgrow, ofNat_value_digit hc, ← List.append_assoc, ← hsplit]

end Numeral

/-! ## Reports -/

/-- The digits of a number that a message reports as too large. -/
def Message.tooLarge? : Message → Option String
  | .numberTooLarge digits => some digits
  | _ => none

/-- The digits that some messages report as too large, in order. -/
def oversized (ms : List Message) : List String :=
  ms.filterMap Message.tooLarge?

@[simp] theorem oversized_nil : oversized [] = [] := rfl

@[simp] theorem oversized_append (ms ms' : List Message) :
    oversized (ms ++ ms') = oversized ms ++ oversized ms' :=
  List.filterMap_append

/-- Messages report no number as too large if none of them does. -/
theorem oversized_eq_nil_iff {ms : List Message} :
    oversized ms = [] ↔ ∀ m ∈ ms, m.tooLarge? = none :=
  List.filterMap_eq_nil_iff

namespace Written

/-- The figures among some whose number is too large. -/
def rejected (fs : List Figure) : List Figure :=
  fs.filter fun f => !f.fits

theorem rejected_append (fs gs : List Figure) : rejected (fs ++ gs) = rejected fs ++ rejected gs :=
  List.filter_append fs gs

theorem mem_rejected {f : Figure} {fs : List Figure} :
    f ∈ rejected fs ↔ f ∈ fs ∧ f.fits = false := by
  simp [rejected]

/-- Whether a number is read as a total by itself. A literal is read as a term. -/
def Purpose.isTotal : Purpose → Bool
  | .target | .modifier | .added _ _ => true
  | _ => false

/-- A number that is read as a total, but is larger than any. -/
structure Figure.BeyondTotals (f : Figure) : Prop where
  total : f.purpose.isTotal
  large : maxTotal < Numeral.value f.digits
  small : Numeral.value f.digits ≤ Noted.maxNumber

/-- A report names a number by its digits as they are written. Only of a number beyond all totals
some of the zeros at its start may be missing. -/
structure Names (digits : String) (f : Figure) : Prop where
  run : ∃ zeros, (∀ c ∈ zeros, c = '0') ∧ f.digits = zeros ++ digits.toList
  whole : ¬ f.BeyondTotals → digits = String.ofList f.digits

/-- Messages report the rejected figures among some one by one, and no other number. -/
def Reports (ms : List Message) (fs : List Figure) : Prop :=
  List.Forall₂ Names (oversized ms) (rejected fs)

/-- All digits of a number are a name for it. -/
theorem names_digits (f : Figure) : Names (String.ofList f.digits) f where
  run := ⟨[], List.forall_mem_nil _, by simp⟩
  whole _ := rfl

/-- Zeros at the start of a number can be missing if it is beyond all totals. -/
theorem names_of_beyondTotals {f : Figure} (h : IsNumeral f.digits) (hbeyond : f.BeyondTotals) :
    Names (toString (Numeral.value f.digits)) f where
  run := by
    rw [toList_toString]
    exact Numeral.exists_zeros h
  whole hnot := absurd hbeyond hnot

/-- Zeros at the start do not count. -/
theorem value_zeros {zeros : List Char} (h : ∀ c ∈ zeros, c = '0') (ds : List Char) :
    Numeral.value (zeros ++ ds) = Numeral.value ds := by
  induction zeros with
  | nil => rfl
  | cons c zeros ih =>
    rw [h c (.head _), List.cons_append, Numeral.value_cons_zero]
    exact ih fun d hd => h d (.tail _ hd)

/-- The digits of a report stand for the number that it names. -/
theorem Names.value_eq {digits : String} {f : Figure} (h : Names digits f) :
    Numeral.value digits.toList = Numeral.value f.digits := by
  obtain ⟨zeros, hzeros, hrun⟩ := h.run
  rw [hrun, value_zeros hzeros]

namespace Reports

variable {ms ms' : List Message} {fs gs : List Figure}

/-- What is reported of some numbers and then of others. -/
theorem append (h : Reports ms fs) (h' : Reports ms' gs) : Reports (ms ++ ms') (fs ++ gs) := by
  unfold Reports
  rw [oversized_append, rejected_append]
  exact List.rel_append h h'

/-- Messages about other things can come first. -/
theorem silent_append (h : oversized ms = []) (h' : Reports ms' fs) : Reports (ms ++ ms') fs := by
  unfold Reports
  rw [oversized_append, h]
  exact h'

/-- Messages about other things can come last. -/
theorem append_silent (h : Reports ms fs) (h' : oversized ms' = []) : Reports (ms ++ ms') fs := by
  unfold Reports
  rw [oversized_append, h', List.append_nil]
  exact h

/-- Without numbers nothing is reported. -/
theorem of_silent (h : oversized ms = []) : Reports ms [] := by
  unfold Reports
  rw [h]
  exact .nil

/-- A number that is small enough is not reported. -/
theorem of_fits {f : Figure} (hf : f.fits) (h : oversized ms = []) : Reports ms [f] := by
  unfold Reports rejected
  rw [h, List.filter_cons_of_neg (by simp [hf])]
  exact .nil

/-- A number that is too large is reported by a name for it. -/
theorem of_names {f : Figure} {digits : String} (hf : f.fits = false) (h : Names digits f) :
    Reports [.numberTooLarge digits] [f] := by
  unfold Reports rejected
  rw [List.filter_cons_of_pos (by simp [hf])]
  exact .cons h .nil

/-- Reports on the numbers of several things, one after the other. -/
theorem flatMap {α : Type} {as : List α} {notes : α → List Message} {figures : α → List Figure}
    (h : ∀ a ∈ as, Reports (notes a) (figures a)) :
    Reports (as.flatMap notes) (as.flatMap figures) := by
  induction as with
  | nil => exact .of_silent rfl
  | cons a as ih =>
    rw [List.flatMap_cons, List.flatMap_cons]
    exact (h a (.head _)).append (ih fun b hb => h b (.tail _ hb))

end Reports

/-! ## Single numbers -/

section Numbers

variable {α : Type} {p : Purpose} {ds : List Char}

/-- A number that need not be a total is reported as it is written. -/
theorem reports_number_chain {f : Nat → Noted (Option α)}
    (hp : ∀ n, p.fits n = decide (n ≤ Noted.maxNumber))
    (hf : ∀ n, oversized (f n).notes = []) :
    Reports ((Noted.number ds).chain f).notes [⟨p, ds⟩] := by
  rw [Noted.number_chain]
  split
  · next h => exact .of_fits ((hp _).trans (decide_eq_true h)) (hf _)
  · next h => exact .of_names ((hp _).trans (decide_eq_false h)) (names_digits ⟨p, ds⟩)

/-- A number that is read as a total is refused by its name if it is larger than any. -/
theorem exists_refused_total (hds : IsNumeral ds) (hp : p.isTotal)
    (hlarge : maxTotal < (Numeral.value ds : Int)) :
    ∃ digits, Noted.total ds = Noted.refuse (.numberTooLarge digits) ∧ Names digits ⟨p, ds⟩ := by
  rw [Noted.total, Noted.number_chain]
  split
  · next hsmall =>
    rw [Noted.asTotal, if_neg (Int.not_le.2 hlarge)]
    exact ⟨_, rfl, names_of_beyondTotals (f := ⟨p, ds⟩) hds ⟨hp, hlarge, hsmall⟩⟩
  · exact ⟨_, rfl, names_digits ⟨p, ds⟩⟩

/-- A number for which every total is small enough is reported if it is none. -/
theorem reports_total (hds : IsNumeral ds) (hp : p.isTotal)
    (hfits : ∀ n : Nat, p.fits n = decide ((n : Int) ≤ maxTotal)) :
    Reports (Noted.total ds).notes [⟨p, ds⟩] := by
  by_cases h : (Numeral.value ds : Int) ≤ maxTotal
  · exact .of_fits ((hfits _).trans (decide_eq_true h)) (by rw [total_of_le h]; rfl)
  · obtain ⟨digits, htotal, hnames⟩ := exists_refused_total hds hp (Int.not_le.1 h)
    rw [htotal]
    exact .of_names ((hfits _).trans (decide_eq_false h)) hnames

end Numbers

end Written

end TabletopDice
