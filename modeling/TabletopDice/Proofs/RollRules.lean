import Mathlib
import TabletopDice.Proofs.RollPaths

/-!
# Rules about rolls

Five things that hold of a roll whatever the answers are: what its values fulfil if it cannot fail
(`Ensures`), in what ways it fails otherwise (`FailsBy`), how many answers it draws at most
(`DrawsAtMost`), that it never asks for an inverted range (`Proper`), and that it always asks for
the same range (`Asks`). Each has a rule for a roll followed by another and for a sequence of rolls.
-/

namespace TabletopDice.Rolling

variable {ε ε' α β σ : Type}

/-! ## Rolls that cannot fail -/

/-- Every path leads to a value that fulfils the condition. -/
def Ensures (P : α → Prop) (t : Rolling ε α) : Prop :=
  ∀ vs x, Path t vs x → ∃ a, x = .ok a ∧ P a

/-- A value that is there already cannot fail. -/
theorem ensures_done {P : α → Prop} {a : α} (h : P a) : Ensures P (.done a : Rolling ε α) := by
  intro vs x hpath
  obtain ⟨-, rfl⟩ := path_done_iff.1 hpath
  exact ⟨a, rfl, h⟩

/-- If two rolls cannot fail, the one followed by the other cannot either. -/
theorem Ensures.bind {P : α → Prop} {Q : β → Prop} {t : Rolling ε α} {f : α → Rolling ε β}
    (ht : Ensures P t) (hf : ∀ a, P a → Ensures Q (f a)) : Ensures Q (t >>= f) := by
  intro vs x hpath
  rcases path_bind_iff.1 hpath with ⟨a, us, ws, rfl, hfirst, hlater⟩ | ⟨e, hfail, rfl⟩
  · obtain ⟨a', heq, ha⟩ := ht us _ hfirst
    cases heq
    exact hf a ha ws x hlater
  · obtain ⟨a, heq, -⟩ := ht vs _ hfail
    cases heq

/-- Putting failures into other words makes no difference where there are none. -/
theorem Ensures.mapError {P : α → Prop} {t : Rolling ε α} (h : Ensures P t) (f : ε → ε') :
    Ensures P (t.mapError f) := by
  intro vs x hpath
  obtain ⟨y, hy, rfl⟩ := path_mapError_iff.1 hpath
  obtain ⟨a, rfl, ha⟩ := h vs y hy
  exact ⟨a, rfl, ha⟩

theorem ensures_ofExcept {P : α → Prop} {a : α} (h : P a) :
    Ensures P (ofExcept (.ok a) : Rolling ε α) :=
  ensures_done h

/-- A range that is not inverted is answered. -/
theorem ensures_int {lo hi : Nat} (h : lo ≤ hi) : Ensures (fun _ => True) (int lo hi) := by
  intro vs x hpath
  rw [int_of_le h] at hpath
  obtain ⟨v, ws, -, hdone⟩ := path_draw_iff.1 hpath
  obtain ⟨-, rfl⟩ := path_done_iff.1 hdone
  exact ⟨v, rfl, trivial⟩

/-- A sequence of rolls that cannot fail has as many values, one for each. -/
theorem ensures_mapM {P : β → Prop} {f : α → Rolling ε β} {xs : List α}
    (h : ∀ x ∈ xs, Ensures P (f x)) :
    Ensures (fun bs => bs.length = xs.length ∧ ∀ b ∈ bs, P b) (xs.mapM f) := by
  induction xs with
  | nil => exact ensures_done ⟨rfl, List.forall_mem_nil P⟩
  | cons x xs ih =>
    rw [List.mapM_cons]
    refine (h x (.head _)).bind fun b hb => ?_
    refine (ih fun x hx => h x (.tail _ hx)).bind fun bs hbs => ?_
    obtain ⟨hlength, hall⟩ := hbs
    refine ensures_done ⟨?_, List.forall_mem_cons.2 ⟨hb, hall⟩⟩
    rw [List.length_cons, List.length_cons, hlength]

/-! ## Ways to fail -/

/-- Every failure that a path leads to is one of these. -/
def FailsBy (P : ε → Prop) (t : Rolling ε α) : Prop :=
  ∀ vs e, Path t vs (.error e) → P e

/-- A value that is there already fails in no way. -/
theorem failsBy_done {P : ε → Prop} (a : α) : FailsBy P (.done a) := by
  intro vs e hpath
  cases (path_done_iff.1 hpath).2

/-- What draws nothing fails as it is computed. -/
theorem failsBy_ofExcept {P : ε → Prop} {x : Except ε α} (h : ∀ e, x = .error e → P e) :
    FailsBy P (ofExcept x) :=
  fun _ e hpath => h e (path_ofExcept_iff.1 hpath).2.symm

/-- What cannot fail does not fail in any other way either. -/
theorem Ensures.failsBy {P : α → Prop} {Q : ε → Prop} {t : Rolling ε α} (h : Ensures P t) :
    FailsBy Q t := by
  intro vs e hpath
  obtain ⟨a, heq, -⟩ := h vs _ hpath
  cases heq

/-- A roll followed by another fails as the one does, or as the other does after a value. -/
theorem FailsBy.bind {P : ε → Prop} {t : Rolling ε α} {f : α → Rolling ε β} (ht : FailsBy P t)
    (hf : ∀ a vs, Path t vs (.ok a) → FailsBy P (f a)) : FailsBy P (t >>= f) := by
  intro vs e hpath
  rcases path_bind_iff.1 hpath with ⟨a, us, ws, -, hfirst, hlater⟩ | ⟨e', hfail, heq⟩
  · exact hf a us hfirst ws e hlater
  · cases heq
    exact ht vs e hfail

/-- A roll that cannot fail, followed by another that is reached with a value of the first. -/
theorem Ensures.bind_failsBy {P : α → Prop} {Q : ε → Prop} {t : Rolling ε α}
    {f : α → Rolling ε β} (ht : Ensures P t) (hf : ∀ a, P a → FailsBy Q (f a)) :
    FailsBy Q (t >>= f) := by
  refine ht.failsBy.bind fun a vs hpath => ?_
  obtain ⟨a', heq, ha⟩ := ht vs _ hpath
  cases heq
  exact hf a ha

/-- Failures put into other words. -/
theorem FailsBy.mapError {P : ε → Prop} {Q : ε' → Prop} {t : Rolling ε α} (h : FailsBy P t)
    {f : ε → ε'} (hf : ∀ e, P e → Q (f e)) : FailsBy Q (t.mapError f) := by
  intro vs e hpath
  obtain ⟨y, hy, heq⟩ := path_mapError_iff.1 hpath
  cases y with
  | ok a => cases heq
  | error e' =>
    cases heq
    exact hf e' (h vs e' hy)

/-- A sequence of rolls fails as one of its members does. -/
theorem failsBy_mapM {P : ε → Prop} {f : α → Rolling ε β} {xs : List α}
    (h : ∀ x ∈ xs, FailsBy P (f x)) : FailsBy P (xs.mapM f) := by
  induction xs with
  | nil => exact failsBy_done []
  | cons x xs ih =>
    rw [List.mapM_cons]
    refine (h x (.head _)).bind fun b _ _ => ?_
    exact (ih fun x hx => h x (.tail _ hx)).bind fun bs _ _ => failsBy_done _

/-! ## The number of draws -/

/-- No path has more answers than this. -/
def DrawsAtMost (n : Nat) (t : Rolling ε α) : Prop :=
  ∀ vs x, Path t vs x → vs.length ≤ n

/-- A value that is there already needs no answer. -/
theorem drawsAtMost_done (a : α) : DrawsAtMost 0 (.done a : Rolling ε α) := by
  intro vs x hpath
  obtain ⟨rfl, -⟩ := path_done_iff.1 hpath
  exact Nat.le_refl 0

theorem drawsAtMost_ofExcept (x : Except ε α) : DrawsAtMost 0 (ofExcept x) := by
  intro vs y hpath
  obtain ⟨rfl, -⟩ := path_ofExcept_iff.1 hpath
  exact Nat.le_refl 0

/-- A bound may be raised. -/
theorem DrawsAtMost.mono {m n : Nat} {t : Rolling ε α} (h : DrawsAtMost m t) (hmn : m ≤ n) :
    DrawsAtMost n t :=
  fun vs x hpath => Nat.le_trans (h vs x hpath) hmn

/-- A roll followed by another draws at most what both draw together. -/
theorem DrawsAtMost.bind {m n : Nat} {t : Rolling ε α} {f : α → Rolling ε β}
    (ht : DrawsAtMost m t) (hf : ∀ a, DrawsAtMost n (f a)) : DrawsAtMost (m + n) (t >>= f) := by
  intro vs x hpath
  rcases path_bind_iff.1 hpath with ⟨a, us, ws, rfl, hfirst, hlater⟩ | ⟨e, hfail, rfl⟩
  · rw [List.length_append]
    exact Nat.add_le_add (ht us _ hfirst) (hf a ws x hlater)
  · exact Nat.le_trans (ht vs _ hfail) (Nat.le_add_right m n)

/-- Failures in other words are not drawn more often. -/
theorem DrawsAtMost.mapError {n : Nat} {t : Rolling ε α} (h : DrawsAtMost n t) (f : ε → ε') :
    DrawsAtMost n (t.mapError f) := by
  intro vs x hpath
  obtain ⟨y, hy, rfl⟩ := path_mapError_iff.1 hpath
  exact h vs y hy

/-- A number is one answer, and an inverted range none. -/
theorem drawsAtMost_int (lo hi : Nat) : DrawsAtMost 1 (int lo hi) := by
  intro vs x hpath
  by_cases h : lo ≤ hi
  · rw [int_of_le h] at hpath
    obtain ⟨v, ws, rfl, hdone⟩ := path_draw_iff.1 hpath
    obtain ⟨rfl, -⟩ := path_done_iff.1 hdone
    exact Nat.le_refl 1
  · rw [int_of_lt (Nat.lt_of_not_le h)] at hpath
    obtain ⟨rfl, -⟩ := path_fail_iff.1 hpath
    exact Nat.zero_le 1

/-- A sequence of rolls draws at most what its members draw together. -/
theorem drawsAtMost_mapM {c : α → Nat} {f : α → Rolling ε β} {xs : List α}
    (h : ∀ x ∈ xs, DrawsAtMost (c x) (f x)) : DrawsAtMost (xs.map c).sum (xs.mapM f) := by
  induction xs with
  | nil => exact drawsAtMost_done []
  | cons x xs ih =>
    rw [List.mapM_cons, List.map_cons, List.sum_cons]
    refine (h x (.head _)).bind fun b => ?_
    refine ((ih fun x hx => h x (.tail _ hx)).bind fun bs => drawsAtMost_done _).mono ?_
    exact Nat.le_refl _

/-! ## The ranges that are asked for -/

/-- No question of the roll has an inverted range. -/
def Proper : Rolling ε α → Prop
  | .done _ | .fail _ => True
  | .draw lo hi next => lo ≤ hi ∧ ∀ v, (next v).Proper

/-- A roll followed by another asks the questions of both. -/
theorem Proper.bind {t : Rolling ε α} {f : α → Rolling ε β} (ht : t.Proper)
    (hf : ∀ a, (f a).Proper) : (t >>= f).Proper := by
  induction t with
  | done a => exact hf a
  | fail e => trivial
  | draw lo hi next ih => exact ⟨ht.1, fun v => ih v (ht.2 v)⟩

theorem Proper.mapError {t : Rolling ε α} (h : t.Proper) (f : ε → ε') : (t.mapError f).Proper := by
  induction t with
  | done a => trivial
  | fail e => trivial
  | draw lo hi next ih => exact ⟨h.1, fun v => ih v (h.2 v)⟩

theorem proper_ofExcept (x : Except ε α) : (ofExcept x).Proper := by
  cases x <;> trivial

/-- An inverted range is refused before it is asked for. -/
theorem proper_int (lo hi : Nat) : (int lo hi).Proper := by
  unfold int
  split
  · trivial
  · next h => exact ⟨Nat.le_of_not_lt h, fun _ => trivial⟩

/-- A sequence of rolls asks the questions of its members. -/
theorem proper_mapM {f : α → Rolling ε β} (h : ∀ x, (f x).Proper) (xs : List α) :
    (xs.mapM f).Proper := by
  induction xs with
  | nil => trivial
  | cons x xs ih =>
    rw [List.mapM_cons]
    exact (h x).bind fun b => ih.bind fun bs => trivial

/-- Every question of the roll is for a number from `lo` to `hi`. -/
def Asks (lo hi : Nat) : Rolling ε α → Prop
  | .done _ | .fail _ => True
  | .draw lo' hi' next => (lo' = lo ∧ hi' = hi) ∧ ∀ v, (next v).Asks lo hi

/-- If two rolls ask for one range, so does the one followed by the other. -/
theorem Asks.bind {lo hi : Nat} {t : Rolling ε α} {f : α → Rolling ε β} (ht : t.Asks lo hi)
    (hf : ∀ a, (f a).Asks lo hi) : (t >>= f).Asks lo hi := by
  induction t with
  | done a => exact hf a
  | fail e => trivial
  | draw lo' hi' next ih => exact ⟨ht.1, fun v => ih v (ht.2 v)⟩

theorem asks_ofExcept (lo hi : Nat) (x : Except ε α) : (ofExcept x).Asks lo hi := by
  cases x <;> trivial

/-- A number is asked for within its own range. -/
theorem asks_int (lo hi : Nat) : (int lo hi).Asks lo hi := by
  unfold int
  split
  · trivial
  · exact ⟨⟨rfl, rfl⟩, fun _ => trivial⟩

/-- A sequence of rolls that ask for one range asks for no other. -/
theorem asks_mapM {lo hi : Nat} {f : α → Rolling ε β} {xs : List α}
    (h : ∀ x ∈ xs, (f x).Asks lo hi) : (xs.mapM f).Asks lo hi := by
  induction xs with
  | nil => trivial
  | cons x xs ih =>
    rw [List.mapM_cons]
    refine (h x (.head _)).bind fun b => ?_
    exact (ih fun x hx => h x (.tail _ hx)).bind fun bs => trivial

/-! ## Runs -/

/-- A roller that answers whenever the range is not inverted. What it answers is left open, and may
even lie outside of the range. -/
def Answers (r : Roller σ) : Prop :=
  ∀ s lo hi, lo ≤ hi → (r.next s lo hi).isSome

/-- With such a roller a run always follows a path to its end. -/
theorem exists_path_of_answers {r : Roller σ} (hr : Answers r) {t : Rolling ε α} (ht : t.Proper)
    (s : σ) : ∃ x, Path t (r.run t s).draws x ∧ (r.run t s).ending = .ofExcept x := by
  induction t generalizing s with
  | done a => exact ⟨.ok a, .done a, rfl⟩
  | fail e => exact ⟨.error e, .fail e, rfl⟩
  | draw lo hi next ih =>
    obtain ⟨p, hp⟩ := Option.isSome_iff_exists.1 (hr s lo hi ht.1)
    obtain ⟨x, hpath, hending⟩ := ih p.1 (ht.2 p.1) p.2
    refine ⟨x, ?_, ?_⟩
    · rw [Roller.run_draw, hp]
      exact .draw hpath
    · rw [Roller.run_draw, hp]
      exact hending

/-- A roll that always asks for one range, and a roller that always has the same answer to it. -/
theorem exists_path_of_asks {r : Roller σ} {s : σ} {lo hi v : Nat} {t : Rolling ε α}
    (ht : t.Asks lo hi) (hs : r.next s lo hi = some (v, s)) :
    ∃ x, Path t (r.run t s).draws x ∧ (r.run t s).ending = .ofExcept x ∧
      ∀ w ∈ (r.run t s).draws, w = v := by
  induction t with
  | done a => exact ⟨.ok a, .done a, rfl, List.forall_mem_nil _⟩
  | fail e => exact ⟨.error e, .fail e, rfl, List.forall_mem_nil _⟩
  | draw lo' hi' next ih =>
    obtain ⟨⟨rfl, rfl⟩, hnext⟩ := ht
    obtain ⟨x, hpath, hending, hall⟩ := ih v (hnext v)
    rw [Roller.run_draw, hs]
    exact ⟨x, .draw hpath, hending, List.forall_mem_cons.2 ⟨rfl, hall⟩⟩

end TabletopDice.Rolling
