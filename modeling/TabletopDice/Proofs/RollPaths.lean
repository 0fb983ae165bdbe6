import Mathlib.Data.List.Forall2
import TabletopDice.Source

/-!
# Paths through rolls

A path through a roll is a sequence of answers that leads it to its end. Main statements: every run
that its roller does not stop follows a path (`path_of_run`), paths of a roll followed by another
are put together from theirs (`path_bind_iff`), and a script with the answers of a path takes this
path again (`run_script_of_path`, `run_script_of_short`).
-/

namespace TabletopDice

namespace Rolling

variable {ε ε' α β σ : Type}

/-! ## Paths -/

/-- These answers lead a roll to this end. -/
inductive Path : Rolling ε α → List Nat → Except ε α → Prop where
  | done (a : α) : Path (.done a) [] (.ok a)
  | fail (e : ε) : Path (.fail e) [] (.error e)
  | draw {lo hi v : Nat} {next : Nat → Rolling ε α} {vs : List Nat} {x : Except ε α}
      (later : Path (next v) vs x) : Path (.draw lo hi next) (v :: vs) x

theorem path_done_iff {a : α} {vs : List Nat} {x : Except ε α} :
    Path (.done a) vs x ↔ vs = [] ∧ x = .ok a := by
  constructor
  · rintro ⟨⟩
    exact ⟨rfl, rfl⟩
  · rintro ⟨rfl, rfl⟩
    exact .done a

theorem path_fail_iff {e : ε} {vs : List Nat} {x : Except ε α} :
    Path (.fail e) vs x ↔ vs = [] ∧ x = .error e := by
  constructor
  · rintro ⟨⟩
    exact ⟨rfl, rfl⟩
  · rintro ⟨rfl, rfl⟩
    exact .fail e

theorem path_draw_iff {lo hi : Nat} {next : Nat → Rolling ε α} {vs : List Nat}
    {x : Except ε α} :
    Path (.draw lo hi next) vs x ↔ ∃ v ws, vs = v :: ws ∧ Path (next v) ws x := by
  constructor
  · rintro ⟨⟩
    exact ⟨_, _, rfl, ‹_›⟩
  · rintro ⟨v, ws, rfl, h⟩
    exact .draw h

/-- A path through a roll and a second one leads through the first to a value and on through the
second, or through the first to a failure. -/
theorem path_bind_iff {t : Rolling ε α} {f : α → Rolling ε β} {vs : List Nat} {x : Except ε β} :
    Path (t >>= f) vs x ↔
      (∃ a us ws, vs = us ++ ws ∧ Path t us (.ok a) ∧ Path (f a) ws x) ∨
      ∃ e, Path t vs (.error e) ∧ x = .error e := by
  constructor
  · intro h
    induction t generalizing vs with
    | done a => exact .inl ⟨a, [], vs, rfl, .done a, h⟩
    | fail e =>
      obtain ⟨rfl, rfl⟩ := path_fail_iff.1 h
      exact .inr ⟨e, .fail e, rfl⟩
    | draw lo hi next ih =>
      rw [draw_bind, path_draw_iff] at h
      obtain ⟨v, vs, rfl, h⟩ := h
      rcases ih v h with ⟨a, us, ws, rfl, hpath, hlater⟩ | ⟨e, hpath, rfl⟩
      · exact .inl ⟨a, v :: us, ws, rfl, .draw hpath, hlater⟩
      · exact .inr ⟨e, .draw hpath, rfl⟩
  · rintro (⟨a, us, ws, rfl, hpath, hlater⟩ | ⟨e, hpath, rfl⟩)
    -- the end of the path is a variable for the induction on it
    · generalize hx : Except.ok a = y at hpath
      induction hpath with
      | done b =>
        cases hx
        exact hlater
      | fail e => cases hx
      | draw _ ih => exact .draw (ih hx)
    · generalize hx : Except.error e = y at hpath
      induction hpath with
      | done b => cases hx
      | fail e' =>
        cases hx
        exact .fail e
      | draw _ ih => exact .draw (ih hx)

/-- A path to a value leads through both rolls to a value. -/
theorem path_bind_ok_iff {t : Rolling ε α} {f : α → Rolling ε β} {vs : List Nat} {b : β} :
    Path (t >>= f) vs (.ok b) ↔
      ∃ a us ws, vs = us ++ ws ∧ Path t us (.ok a) ∧ Path (f a) ws (.ok b) := by
  rw [path_bind_iff]
  constructor
  · rintro (h | ⟨e, -, h⟩)
    · exact h
    · cases h
  · exact .inl

/-- Putting a failure into other words leaves the paths as they are. -/
theorem path_mapError_iff {f : ε → ε'} {t : Rolling ε α} {vs : List Nat} {x : Except ε' α} :
    Path (t.mapError f) vs x ↔ ∃ y, Path t vs y ∧ x = y.mapError f := by
  constructor
  · intro h
    induction t generalizing vs with
    | done a =>
      obtain ⟨rfl, rfl⟩ := path_done_iff.1 h
      exact ⟨.ok a, .done a, rfl⟩
    | fail e =>
      obtain ⟨rfl, rfl⟩ := path_fail_iff.1 h
      exact ⟨.error e, .fail e, rfl⟩
    | draw lo hi next ih =>
      obtain ⟨v, ws, rfl, hlater⟩ := path_draw_iff.1 h
      obtain ⟨y, hy, rfl⟩ := ih v hlater
      exact ⟨y, .draw hy, rfl⟩
  · rintro ⟨y, hy, rfl⟩
    induction hy with
    | done a => exact .done a
    | fail e => exact .fail (f e)
    | draw _ ih => exact .draw ih

theorem path_mapError_ok_iff {f : ε → ε'} {t : Rolling ε α} {vs : List Nat} {a : α} :
    Path (t.mapError f) vs (.ok a) ↔ Path t vs (.ok a) := by
  rw [path_mapError_iff]
  constructor
  · rintro ⟨y, hy, heq⟩
    cases y with
    | ok b =>
      cases heq
      exact hy
    | error e => cases heq
  · intro h
    exact ⟨.ok a, h, rfl⟩

theorem path_ofExcept_iff {x y : Except ε α} {vs : List Nat} :
    Path (ofExcept x) vs y ↔ vs = [] ∧ y = x := by
  cases x with
  | ok a => exact path_done_iff
  | error e => exact path_fail_iff

/-- An answer leads on wherever it may lie. An inverted range leads nowhere. -/
theorem path_int_ok_iff {lo hi v : Nat} {vs : List Nat} :
    Path (int lo hi) vs (.ok v) ↔ lo ≤ hi ∧ vs = [v] := by
  by_cases h : lo ≤ hi
  · rw [int_of_le h, path_draw_iff]
    constructor
    · rintro ⟨w, ws, rfl, hdone⟩
      obtain ⟨rfl, hv⟩ := path_done_iff.1 hdone
      cases hv
      exact ⟨h, rfl⟩
    · rintro ⟨-, rfl⟩
      exact ⟨v, [], rfl, .done v⟩
  · simp [int_of_lt (Nat.lt_of_not_le h), path_fail_iff, h]

/-- What rolls record of their paths, one after the other, is what the sequence of them records. -/
theorem flatMap_of_path_mapM {f : α → Rolling ε β} {record : β → List Nat} {xs : List α}
    (h : ∀ x ∈ xs, ∀ vs b, Path (f x) vs (.ok b) → record b = vs) {vs : List Nat} {bs : List β}
    (hpath : Path (xs.mapM f) vs (.ok bs)) : bs.flatMap record = vs := by
  induction xs generalizing vs bs with
  | nil =>
    rw [List.mapM_nil, pure_eq, path_done_iff] at hpath
    obtain ⟨rfl, hbs⟩ := hpath
    cases hbs
    rfl
  | cons x xs ih =>
    rw [List.mapM_cons, path_bind_ok_iff] at hpath
    obtain ⟨b, us, ws, rfl, hfirst, hrest⟩ := hpath
    rw [path_bind_ok_iff] at hrest
    obtain ⟨bs', us', ws', rfl, hrest, hdone⟩ := hrest
    rw [pure_eq, path_done_iff] at hdone
    obtain ⟨rfl, hbs⟩ := hdone
    cases hbs
    rw [List.flatMap_cons, h x (.head _) _ _ hfirst, ih (fun x hx => h x (.tail _ hx)) hrest,
      List.append_nil]

/-- A path through a sequence of rolls leads through each of them. -/
theorem forall₂_of_path_mapM {f : α → Rolling ε β} {xs : List α} {vs : List Nat} {bs : List β}
    (h : Path (xs.mapM f) vs (.ok bs)) :
    List.Forall₂ (fun x b => ∃ us, Path (f x) us (.ok b)) xs bs := by
  induction xs generalizing vs bs with
  | nil =>
    rw [List.mapM_nil, pure_eq, path_done_iff] at h
    cases h.2
    exact .nil
  | cons x xs ih =>
    rw [List.mapM_cons, path_bind_ok_iff] at h
    obtain ⟨b, us, ws, rfl, hfirst, hlater⟩ := h
    obtain ⟨bs', us', ws', rfl, hrest, hdone⟩ := path_bind_ok_iff.1 hlater
    rw [pure_eq, path_done_iff] at hdone
    cases hdone.2
    exact .cons ⟨us, hfirst⟩ (ih hrest)

/-- What each roll of a sequence says about its own value, the sequence says about its values in
order. -/
theorem map_of_path_mapM {γ : Type} {f : α → Rolling ε β} {g : β → γ} {expected : α → γ}
    (h : ∀ x vs b, Path (f x) vs (.ok b) → g b = expected x) {xs : List α} {vs : List Nat}
    {bs : List β} (hpath : Path (xs.mapM f) vs (.ok bs)) : bs.map g = xs.map expected := by
  have hall := forall₂_of_path_mapM hpath
  clear hpath
  induction hall with
  | nil => rfl
  | @cons x b xs bs hfirst _ ih =>
    obtain ⟨us, hfirst⟩ := hfirst
    rw [List.map_cons, List.map_cons, h x us b hfirst, ih]

/-- Every value of a sequence of rolls is one that a member of the sequence has led to. -/
theorem exists_path_of_mem_mapM {f : α → Rolling ε β} {xs : List α} {vs : List Nat} {bs : List β}
    (h : Path (xs.mapM f) vs (.ok bs)) {b : β} (hb : b ∈ bs) :
    ∃ x ∈ xs, ∃ us, Path (f x) us (.ok b) := by
  have hall := forall₂_of_path_mapM h
  clear h
  induction hall with
  | nil => cases hb
  | @cons x b' xs bs hfirst _ ih =>
    rcases List.mem_cons.1 hb with rfl | hb
    · exact ⟨x, .head _, hfirst⟩
    · obtain ⟨y, hy, hpath⟩ := ih hb
      exact ⟨y, .tail _ hy, hpath⟩

/-! ## Paths of runs -/

/-- A run that is not stopped by its roller follows a path to its end. -/
theorem path_of_run {r : Roller σ} {t : Rolling ε α} {s : σ} {x : Except ε α}
    (h : (r.run t s).ending = .ofExcept x) : Path t (r.run t s).draws x := by
  induction t generalizing s with
  | done a =>
    cases x with
    | ok b =>
      cases h
      exact .done a
    | error e => cases h
  | fail e =>
    cases x with
    | ok b => cases h
    | error e' =>
      cases h
      exact .fail e
  | draw lo hi next ih =>
    rw [Roller.run_draw] at h ⊢
    cases hnext : r.next s lo hi with
    | none =>
      rw [hnext] at h
      cases x <;> cases h
    | some p =>
      rw [hnext] at h
      exact .draw (ih p.1 h)

theorem path_of_value {r : Roller σ} {t : Rolling ε α} {s : σ} {a : α}
    (h : (r.run t s).ending = .value a) : Path t (r.run t s).draws (.ok a) :=
  path_of_run (x := .ok a) h

/-! ## Scripts -/

/-- A script that starts with the answers of a path follows the path and keeps what is left. -/
theorem run_script_of_path {t : Rolling ε α} {vs : List Nat} {a : α} (h : Path t vs (.ok a))
    (later : List Nat) :
    Source.run (.script (vs ++ later)) t = ⟨.value a, vs, .script later⟩ := by
  generalize hx : Except.ok a = x at h
  induction h with
  | done b =>
    cases hx
    rfl
  | fail e => cases hx
  | draw _ ih =>
    have hrest := ih hx
    unfold Source.run at hrest ⊢
    rw [Roller.run_draw]
    simp only [Source.roller, Source.next, List.cons_append] at hrest ⊢
    rw [hrest]

/-- A script of the answers of a path is used up. -/
theorem run_script_self {t : Rolling ε α} {vs : List Nat} {a : α} (h : Path t vs (.ok a)) :
    Source.run (.script vs) t = ⟨.value a, vs, .script []⟩ := by
  have hrun := run_script_of_path h []
  rwa [List.append_nil] at hrun

/-- A script with only some of the first answers of a path uses them all and then runs out. -/
theorem run_script_of_short {t : Rolling ε α} {vs ds : List Nat} {x : Except ε α}
    (h : Path t vs x) (hstart : ds <+: vs) (hne : ds ≠ vs) :
    Source.run (.script ds) t = ⟨.exhausted, ds, .script []⟩ := by
  induction h generalizing ds with
  | done a => exact absurd (List.prefix_nil.1 hstart) hne
  | fail e => exact absurd (List.prefix_nil.1 hstart) hne
  | @draw lo hi v next vs x _ ih =>
    unfold Source.run
    rw [Roller.run_draw]
    cases ds with
    | nil => rfl
    | cons d ds =>
      obtain ⟨rfl, hrest⟩ := List.cons_prefix_cons.1 hstart
      have hrun := ih hrest fun heq => hne (by rw [heq])
      unfold Source.run at hrun
      simp only [Source.roller, Source.next] at hrun ⊢
      rw [hrun]

end Rolling

end TabletopDice
