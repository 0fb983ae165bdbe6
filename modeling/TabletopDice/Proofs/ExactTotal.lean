import Mathlib
import TabletopDice.Roll

/-!
# Exact totals

The total of an expression against the sum of its terms as integers, which have no range. Main
statements: an expression is judged by this sum if no partial sum leaves the range of totals
(`judge_of_fits`), and is an overflow otherwise (`judge_of_not_fits`).
-/

namespace TabletopDice

/-- An integer is within the range of totals. -/
def IsTotal (n : Int) : Prop :=
  minTotal ≤ n ∧ n ≤ maxTotal

instance : DecidablePred IsTotal :=
  fun _ => inferInstanceAs (Decidable (_ ∧ _))

/-- Within the range an integer is a total. -/
theorem total?_of_isTotal {n : Int} (h : IsTotal n) : total? n = some n :=
  total?_eq_some_iff.2 ⟨rfl, h⟩

/-- Outside of the range there is no total. -/
theorem total?_of_not_isTotal {n : Int} (h : ¬ IsTotal n) : total? n = none :=
  if_neg h

/-! ## Sums -/

/-- Every partial sum from the left, beginning with `acc`, is within the range of totals. -/
def SumsFrom (acc : Int) (ns : List Int) : Prop :=
  ∀ ms, ms <+: ns → IsTotal (acc + ms.sum)

/-- The sum before the first term is a partial sum as well. -/
theorem SumsFrom.isTotal {acc : Int} {ns : List Int} (h : SumsFrom acc ns) : IsTotal acc := by
  simpa using h [] List.nil_prefix

theorem sumsFrom_nil {acc : Int} : SumsFrom acc [] ↔ IsTotal acc := by
  simp [SumsFrom]

/-- A number is added to a sum that is in range, and the others to what comes of it. -/
theorem sumsFrom_cons {acc n : Int} {ns : List Int} :
    SumsFrom acc (n :: ns) ↔ IsTotal acc ∧ SumsFrom (acc + n) ns := by
  constructor
  · intro h
    refine ⟨h.isTotal, fun ms hms => ?_⟩
    have hall := h (n :: ms) (List.cons_prefix_cons.2 ⟨rfl, hms⟩)
    rwa [List.sum_cons, ← Int.add_assoc] at hall
  · rintro ⟨hacc, hns⟩ ms hms
    cases ms with
    | nil => simpa using hacc
    | cons m ms =>
      obtain ⟨rfl, hrest⟩ := List.cons_prefix_cons.1 hms
      rw [List.sum_cons, ← Int.add_assoc]
      exact hns ms hrest

/-! ## Terms -/

/-- The value of a term as an integer: the number, or the sum of the dice that count. -/
def RolledTerm.exact : RolledTerm → Int
  | number n => n
  | dice r => r.keptSum

/-- The value of a term is a total by itself. -/
def RolledTerm.Fits (t : RolledTerm) : Prop :=
  t.value = .ok t.exact ∧ IsTotal t.exact

/-- The sum of some terms with their signs. -/
def signedSum (ts : List (Sign × RolledTerm)) : Int :=
  (ts.map fun p => p.1.signed p.2.exact).sum

/-- The first term counts with its sign, and so do the others. -/
theorem signedSum_cons (p : Sign × RolledTerm) (ts : List (Sign × RolledTerm)) :
    signedSum (p :: ts) = p.1.signed p.2.exact + signedSum ts :=
  List.sum_cons

/-- Every partial sum from the left, beginning with `acc`, is within the range of totals. -/
def StaysFrom (acc : Int) (ts : List (Sign × RolledTerm)) : Prop :=
  ∀ us, us <+: ts → IsTotal (acc + signedSum us)

/-- The partial sums of terms are those of their signed values. -/
theorem staysFrom_iff {acc : Int} {ts : List (Sign × RolledTerm)} :
    StaysFrom acc ts ↔ SumsFrom acc (ts.map fun p => p.1.signed p.2.exact) := by
  constructor
  · intro h ms hms
    obtain ⟨us, hus, rfl⟩ := List.prefix_map_iff.1 hms
    exact h us hus
  · intro h us hus
    exact h _ (hus.map _)

theorem staysFrom_nil {acc : Int} : StaysFrom acc [] ↔ IsTotal acc :=
  staysFrom_iff.trans sumsFrom_nil

/-- A term is added to a sum that is in range, and the others to what comes of it. -/
theorem staysFrom_cons {acc : Int} {p : Sign × RolledTerm} {ts : List (Sign × RolledTerm)} :
    StaysFrom acc (p :: ts) ↔ IsTotal acc ∧ StaysFrom (acc + p.1.signed p.2.exact) ts := by
  rw [staysFrom_iff, staysFrom_iff]
  exact sumsFrom_cons

/-- The total before the first term is in range. -/
theorem StaysFrom.isTotal {acc : Int} {ts : List (Sign × RolledTerm)} (h : StaysFrom acc ts) :
    IsTotal acc :=
  (staysFrom_iff.1 h).isTotal

/-! ## Expressions -/

namespace RolledExpr

/-- A term that fits is added exactly, unless the sum leaves the range. -/
theorem addTerm_of_isTotal {e : RolledExpr} {acc : Int} {p : Sign × RolledTerm} (hp : p.2.Fits)
    (h : IsTotal (acc + p.1.signed p.2.exact)) :
    e.addTerm acc p = .ok (acc + p.1.signed p.2.exact) := by
  simp only [addTerm, hp.1, total?_of_isTotal hp.2, Option.bind_some, Sign.apply,
    total?_of_isTotal h]

/-- A term that takes the running total out of range is an overflow. -/
theorem addTerm_of_not_isTotal {e : RolledExpr} {acc : Int} {p : Sign × RolledTerm}
    (hp : p.2.Fits) (h : ¬ IsTotal (acc + p.1.signed p.2.exact)) :
    e.addTerm acc p = .error (.overflow e) := by
  simp only [addTerm, hp.1, total?_of_isTotal hp.2, Option.bind_some, Sign.apply,
    total?_of_not_isTotal h]

/-- Terms are added exactly as long as the partial sums stay in range. -/
theorem foldlM_addTerm_of_stays {e : RolledExpr} {acc : Int} {ts : List (Sign × RolledTerm)}
    (hts : ∀ p ∈ ts, p.2.Fits) (h : StaysFrom acc ts) :
    ts.foldlM e.addTerm acc = .ok (acc + signedSum ts) := by
  induction ts generalizing acc with
  | nil =>
    rw [List.foldlM_nil]
    simp [signedSum, pure, Except.pure]
  | cons p ts ih =>
    obtain ⟨-, hrest⟩ := staysFrom_cons.1 h
    rw [List.foldlM_cons, addTerm_of_isTotal (hts p (.head _)) hrest.isTotal, signedSum_cons,
      ← Int.add_assoc]
    exact ih (fun p hp => hts p (.tail _ hp)) hrest

/-- The first partial sum out of range is an overflow of the whole expression. -/
theorem foldlM_addTerm_of_not_stays {e : RolledExpr} {acc : Int} {ts : List (Sign × RolledTerm)}
    (hts : ∀ p ∈ ts, p.2.Fits) (hacc : IsTotal acc) (h : ¬ StaysFrom acc ts) :
    ts.foldlM e.addTerm acc = .error (.overflow e) := by
  induction ts generalizing acc with
  | nil => exact absurd (staysFrom_nil.2 hacc) h
  | cons p ts ih =>
    have hp := hts p (.head _)
    rw [List.foldlM_cons]
    by_cases hnext : IsTotal (acc + p.1.signed p.2.exact)
    · rw [addTerm_of_isTotal hp hnext]
      exact ih (fun p hp => hts p (.tail _ hp)) hnext fun hrest =>
        h (staysFrom_cons.2 ⟨hacc, hrest⟩)
    · rw [addTerm_of_not_isTotal hp hnext]
      rfl

/-- Every partial sum of the terms, from left to right, is within the range of totals. -/
def Stays (e : RolledExpr) : Prop :=
  ∀ us, us <+: e.terms → IsTotal (signedSum us)

/-- An expression stays in range if it does so from zero on. -/
theorem stays_iff {e : RolledExpr} : e.Stays ↔ StaysFrom 0 e.terms := by
  simp only [Stays, StaysFrom, Int.zero_add]

theorem isTotal_zero : IsTotal 0 := by
  decide

/-- An expression that stays in range has its exact sum as total. -/
theorem total_of_stays {e : RolledExpr} (he : ∀ p ∈ e.terms, p.2.Fits) (h : e.Stays) :
    e.total = .ok (signedSum e.terms) := by
  have hfold := foldlM_addTerm_of_stays (e := e) he (stays_iff.1 h)
  rwa [Int.zero_add] at hfold

/-- An expression that leaves the range is an overflow. -/
theorem total_of_not_stays {e : RolledExpr} (he : ∀ p ∈ e.terms, p.2.Fits) (h : ¬ e.Stays) :
    e.total = .error (.overflow e) :=
  foldlM_addTerm_of_not_stays he isTotal_zero fun hstays => h (stays_iff.2 hstays)

end RolledExpr

/-! ## Results -/

namespace Roll

/-- No partial sum of the terms and no sum with the modifier leaves the range of totals. -/
def Fits (r : Roll) (e : RolledExpr) : Prop :=
  e.Stays ∧ IsTotal (signedSum e.terms + r.modifier.getD 0)

/-- The result of an expression from its exact sum. -/
def exactResult (r : Roll) (e : RolledExpr) : ExprResult where
  rolled := e
  total := signedSum e.terms
  modifiedTotal := signedSum e.terms + r.modifier.getD 0
  outcome := .classify (signedSum e.terms + r.modifier.getD 0) r.target
    (isCriticalFailure e.groups)

/-- An expression that stays in range is judged by its exact sum. -/
theorem judge_of_fits {r : Roll} {e : RolledExpr} (he : ∀ p ∈ e.terms, p.2.Fits) (h : r.Fits e) :
    r.judge e = .ok (r.exactResult e) := by
  simp only [judge, RolledExpr.total_of_stays he h.1, bind, Except.bind, total?_of_isTotal h.2]
  rfl

/-- An expression that leaves the range is an overflow. -/
theorem judge_of_not_fits {r : Roll} {e : RolledExpr} (he : ∀ p ∈ e.terms, p.2.Fits)
    (h : ¬ r.Fits e) : r.judge e = .error (.overflow e) := by
  unfold judge
  by_cases hstays : e.Stays
  · have hsum : ¬ IsTotal (signedSum e.terms + r.modifier.getD 0) := fun hsum => h ⟨hstays, hsum⟩
    simp only [RolledExpr.total_of_stays he hstays, bind, Except.bind, total?_of_not_isTotal hsum]
  · rw [RolledExpr.total_of_not_stays he hstays]
    rfl

end Roll

end TabletopDice
