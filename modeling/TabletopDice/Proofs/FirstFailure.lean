import TabletopDice.Proofs.SortedFaces

/-!
# Where a total fails

The total of any rolled expression, also of one that no roll leads to, against its exact sums. Main
statements: a group may check its sum with every die or once at the end (`total_eq_foldlM`), and an
expression has its exact sum as total, or fails at the first term that leaves the range, whatever
comes after that term (`total_exact`).
-/

namespace TabletopDice

/-! ## Groups -/

namespace RolledDice

/-- The sum after one more die, if it is not too large. -/
def addDie (sum : Nat) (d : Die) : Except DiceError Nat :=
  if sum + d.value ≤ maxGroupTotal then .ok (sum + d.value) else .error .overflow

/-- A sum that is too large stays so with every further die. -/
theorem foldlM_addDie (dice : List Die) {sum : Nat} (h : sum ≤ maxGroupTotal) :
    dice.foldlM addDie sum =
      if sum + (dice.map Die.value).sum ≤ maxGroupTotal then .ok (sum + (dice.map Die.value).sum)
      else .error .overflow := by
  induction dice generalizing sum with
  | nil => exact (if_pos h).symm
  | cons d dice ih =>
    rw [List.foldlM_cons, List.map_cons, List.sum_cons, ← Nat.add_assoc]
    by_cases hnext : sum + d.value ≤ maxGroupTotal
    · rw [addDie, if_pos hnext]
      exact ih hnext
    · rw [addDie, if_neg hnext, if_neg (by omega)]
      rfl

/-- The total of a group is found die by die, with a check of the sum at each of them. -/
theorem total_eq_foldlM (r : RolledDice) : r.total = r.kept.foldlM addDie 0 := by
  rw [foldlM_addDie _ (Nat.zero_le _), Nat.zero_add, ← keptSum_eq_sum]
  rfl

/-- The sum of equal dice that all count. -/
theorem keptSum_replicate (d : Dice) (n v : Nat) :
    keptSum ⟨d, List.replicate n ⟨v, [], none⟩⟩ = n * v := by
  rw [keptSum_eq_sum, kept, List.filter_replicate_of_pos rfl, List.map_replicate,
    List.sum_replicate_nat]

end RolledDice

/-! ## Terms -/

theorem le_maxGroupTotal_of_isTotal {n : Nat} (h : IsTotal n) : n ≤ maxGroupTotal := by
  have hle : (n : Int) ≤ maxTotal := h.2
  unfold maxTotal at hle
  unfold maxGroupTotal
  omega

namespace RolledTerm

/-- A term whose exact value is a total has this value. -/
theorem fits_iff {t : RolledTerm} : t.Fits ↔ IsTotal t.exact := by
  constructor
  · exact And.right
  · intro h
    refine ⟨?_, h⟩
    cases t with
    | number n => rfl
    | dice g =>
      have htotal : g.total = .ok g.keptSum := if_pos (le_maxGroupTotal_of_isTotal h)
      rw [value, htotal]
      rfl

/-- How an expression fails at a term that takes it out of range. It is the dice that fail if their
sum is too large for a group, and the expression in every other case. -/
def failure (e : RolledExpr) : RolledTerm → RollError
  | number _ => .overflow e
  | dice g => if maxGroupTotal < g.keptSum then .totalling e .overflow else .overflow e

theorem failure_of_isTotal {t : RolledTerm} (e : RolledExpr) (h : IsTotal t.exact) :
    t.failure e = .overflow e := by
  cases t with
  | number n => rfl
  | dice g => exact if_neg (Nat.not_lt.2 (le_maxGroupTotal_of_isTotal h))

end RolledTerm

/-! ## Expressions -/

namespace RolledExpr

/-- A term that is no total by itself fails, and so does one that takes the sum out of range. -/
theorem addTerm_of_breaks {e : RolledExpr} {acc : Int} {p : Sign × RolledTerm}
    (h : ¬ (IsTotal p.2.exact ∧ IsTotal (acc + p.1.signed p.2.exact))) :
    e.addTerm acc p = .error (p.2.failure e) := by
  by_cases hp : IsTotal p.2.exact
  · rw [RolledTerm.failure_of_isTotal e hp]
    exact addTerm_of_not_isTotal (RolledTerm.fits_iff.2 hp) fun hsum => h ⟨hp, hsum⟩
  · obtain ⟨sign, term⟩ := p
    cases term with
    | number n =>
      have hnone : total? n = none := total?_of_not_isTotal hp
      simp only [addTerm, RolledTerm.value, hnone, Option.bind_none, RolledTerm.failure]
    | dice g =>
      by_cases hgroup : g.keptSum ≤ maxGroupTotal
      · have hnone : total? (Int.ofNat g.keptSum) = none := total?_of_not_isTotal hp
        simp only [addTerm, RolledTerm.value, RolledDice.total, if_pos hgroup, Except.map, hnone,
          Option.bind_none, RolledTerm.failure, if_neg (Nat.not_lt.2 hgroup)]
      · simp only [addTerm, RolledTerm.value, RolledDice.total, if_neg hgroup, Except.map,
          RolledTerm.failure, if_pos (Nat.lt_of_not_le hgroup)]

/-- Terms stay in range: the sums of their groups are totals, and so is every partial sum of them
from left to right. -/
structure InRange (ts : List (Sign × RolledTerm)) : Prop where
  groups : ∀ p ∈ ts, ∀ g ∈ p.2.group?, IsTotal g.keptSum
  sums : ∀ us, us <+: ts → IsTotal (signedSum us)

/-- A term is the first one to leave the range. -/
def FirstOutside (ts : List (Sign × RolledTerm)) (p : Sign × RolledTerm) : Prop :=
  ∃ before after, ts = before ++ p :: after ∧ InRange before ∧ ¬ InRange (before ++ [p])

/-- The numbers of an expression are totals. The sums of its groups may be anything. -/
def NumbersFit (ts : List (Sign × RolledTerm)) : Prop :=
  ∀ p ∈ ts, ∀ n, p.2 = .number n → IsTotal n

variable {ts us : List (Sign × RolledTerm)} {p : Sign × RolledTerm}

theorem inRange_nil : InRange [] where
  groups := nofun
  sums := by
    intro us hus
    rw [List.prefix_nil.1 hus]
    exact isTotal_zero

theorem InRange.of_prefix (h : InRange ts) (hus : us <+: ts) : InRange us where
  groups := fun p hp => h.groups p (hus.subset hp)
  sums := fun vs hvs => h.sums vs (hvs.trans hus)

theorem InRange.staysFrom (h : InRange ts) : StaysFrom 0 ts := by
  intro us hus
  rw [Int.zero_add]
  exact h.sums us hus

/-- The value of a term is a total if it is a number, and if its group stays in range. -/
theorem isTotal_exact_iff (hp : ∀ n, p.2 = .number n → IsTotal n) :
    IsTotal p.2.exact ↔ ∀ g ∈ p.2.group?, IsTotal g.keptSum := by
  obtain ⟨sign, term⟩ := p
  cases term with
  | number n => exact iff_of_true (hp n rfl) nofun
  | dice g => exact ⟨fun h _ hg => Option.some.inj hg ▸ h, fun h => h g rfl⟩

theorem InRange.fits (h : InRange ts) (hnumbers : NumbersFit ts) : ∀ p ∈ ts, p.2.Fits :=
  fun p hp => RolledTerm.fits_iff.2 ((isTotal_exact_iff (hnumbers p hp)).2 (h.groups p hp))

theorem signedSum_concat (ts : List (Sign × RolledTerm)) (p : Sign × RolledTerm) :
    signedSum (ts ++ [p]) = signedSum ts + p.1.signed p.2.exact := by
  simp [signedSum]

/-- One more term stays in range if its group does and the sum with it. -/
theorem InRange.concat (h : InRange ts) (hgroup : ∀ g ∈ p.2.group?, IsTotal g.keptSum)
    (hsum : IsTotal (signedSum ts + p.1.signed p.2.exact)) : InRange (ts ++ [p]) where
  groups := by
    intro q hq
    rcases List.mem_append.1 hq with hq | hq
    · exact h.groups q hq
    · rw [List.mem_singleton.1 hq]
      exact hgroup
  sums := by
    intro us hus
    rcases List.prefix_concat_iff.1 hus with rfl | hus
    · rwa [signedSum_concat]
    · exact h.sums us hus

/-- Terms that do not stay in range have a first one to leave it, and only they do. -/
theorem exists_firstOutside_iff : (∃ p, FirstOutside ts p) ↔ ¬ InRange ts := by
  constructor
  · rintro ⟨p, before, after, rfl, -, hout⟩ h
    exact hout (h.of_prefix ⟨after, by simp⟩)
  · intro h
    induction ts using List.reverseRecOn with
    | nil => exact absurd inRange_nil h
    | append_singleton ts p ih =>
      by_cases hts : InRange ts
      · exact ⟨p, ts, [], rfl, hts, h⟩
      · obtain ⟨q, before, after, rfl, hbefore, hout⟩ := ih hts
        exact ⟨q, before, after ++ [p], by simp, hbefore, hout⟩

/-- A first term outside of the range decides how the expression fails. -/
theorem total_of_firstOutside {e : RolledExpr} (hnumbers : NumbersFit e.terms)
    (h : FirstOutside e.terms p) : e.total = .error (p.2.failure e) := by
  obtain ⟨before, after, hterms, hbefore, hout⟩ := h
  have hp : ∀ n, p.2 = .number n → IsTotal n := hnumbers p (by simp [hterms])
  have hfits : ∀ q ∈ before, q.2.Fits :=
    hbefore.fits fun q hq => hnumbers q (by simp [hterms, hq])
  have hbreaks : ¬ (IsTotal p.2.exact ∧ IsTotal (signedSum before + p.1.signed p.2.exact)) :=
    fun h => hout (hbefore.concat ((isTotal_exact_iff hp).1 h.1) h.2)
  have hfold := foldlM_addTerm_of_stays (e := e) hfits hbefore.staysFrom
  rw [Int.zero_add] at hfold
  rw [total, hterms, List.foldlM_append, hfold]
  show (p :: after).foldlM e.addTerm (signedSum before) = _
  rw [List.foldlM_cons, addTerm_of_breaks hbreaks]
  rfl

/-- A rolled expression whose numbers are totals, with any dice of any values. It has a total
exactly if all of its groups and all of its partial sums stay in range, and the total is the exact
sum. Otherwise there is a first term that leaves the range, and it alone says how the expression
fails, even if the sum would come back later on: with the failure of its dice if their sum is too
large for a group, and as an overflow in every other case. -/
theorem total_exact (e : RolledExpr) (hnumbers : NumbersFit e.terms) :
    (∀ n, e.total = .ok n ↔ InRange e.terms ∧ n = signedSum e.terms) ∧
    (∀ p, FirstOutside e.terms p → e.total = .error (p.2.failure e)) ∧
    ((∃ p, FirstOutside e.terms p) ↔ ¬ InRange e.terms) := by
  refine ⟨fun n => ?_, fun p => total_of_firstOutside hnumbers, exists_firstOutside_iff⟩
  constructor
  · intro htotal
    have hrange : InRange e.terms := by
      by_contra hout
      obtain ⟨p, hp⟩ := exists_firstOutside_iff.2 hout
      rw [total_of_firstOutside hnumbers hp] at htotal
      cases htotal
    refine ⟨hrange, ?_⟩
    rw [total_of_stays (hrange.fits hnumbers) hrange.sums] at htotal
    exact (Except.ok.inj htotal).symm
  · rintro ⟨hrange, rfl⟩
    exact total_of_stays (hrange.fits hnumbers) hrange.sums

/-- A sum that comes back into the range is an overflow, and so many dice of the greatest value fail
on their own. The least total can be reached. -/
theorem total_exact_of_extremes :
    let back : RolledExpr :=
      ⟨[(.plus, .number 2147483647), (.plus, .number 1), (.minus, .number 1)]⟩
    let many : RolledExpr := ⟨[(.plus, .dice ⟨.standard, List.replicate 65538 ⟨65535, [], none⟩⟩),
      (.minus, .number 1)]⟩
    let least : RolledExpr :=
      ⟨[(.minus, .number 2147483647), (.minus, .dice ⟨.standard, [.single 1]⟩)]⟩
    (signedSum back.terms = 2147483647 ∧ back.total = .error (.overflow back)) ∧
      many.total = .error (.totalling many .overflow) ∧ least.total = .ok (-2147483648) := by
  intro back many least
  refine ⟨⟨rfl, ?_⟩, ?_, ?_⟩
  · have hnumbers : NumbersFit back.terms := by
      simp [NumbersFit, back, IsTotal, minTotal, maxTotal]
    refine (total_exact back hnumbers).2.1 (.plus, .number 1)
      ⟨[(.plus, .number 2147483647)], [(.minus, .number 1)], rfl, ?_, fun h => ?_⟩
    · exact inRange_nil.concat nofun (by decide)
    · exact absurd (h.sums _ List.prefix_rfl) (by decide)
  · -- the dice matter only by their sum, which is not to be found by counting them one by one
    have hmany : ∀ g : RolledDice, g.keptSum = 4295032830 →
        let e : RolledExpr := ⟨[(.plus, .dice g), (.minus, .number 1)]⟩
        e.total = .error (.totalling e .overflow) := by
      intro g hsum e
      have hnumbers : NumbersFit e.terms := by
        simp [NumbersFit, e, IsTotal, minTotal, maxTotal]
      have hfirst : FirstOutside e.terms (.plus, .dice g) := by
        refine ⟨[], [(.minus, .number 1)], rfl, inRange_nil, fun h => ?_⟩
        have hgroup := h.groups _ (.head _) g rfl
        rw [hsum] at hgroup
        exact absurd hgroup (by decide)
      have hfailure : maxGroupTotal < g.keptSum := by
        rw [hsum]
        decide
      rw [(total_exact e hnumbers).2.1 _ hfirst]
      exact congrArg Except.error (if_pos hfailure)
    exact hmany _ (RolledDice.keptSum_replicate .standard 65538 65535)
  · have hnumbers : NumbersFit least.terms := by
      simp [NumbersFit, least, IsTotal, minTotal, maxTotal]
    have hrange : InRange least.terms := by
      have hfirst : InRange [(.minus, .number 2147483647)] :=
        inRange_nil.concat nofun (by decide)
      refine hfirst.concat (p := (.minus, .dice ⟨.standard, [.single 1]⟩)) ?_ (by decide)
      rintro g ⟨⟩
      decide
    exact ((total_exact least hnumbers).1 _).2 ⟨hrange, rfl⟩

end RolledExpr

end TabletopDice
