import TabletopDice.Proofs.Replay
import TabletopDice.Proofs.RollRules

/-!
# How explosions cut a script

Rolled from a script, the dice of a group take its answers one after the other, and each die takes
as many as its explosion asks for. Main statements: the paths through a group are the answers that
can be cut into complete dice (`path_roll_iff`), and a script that is long enough is cut in one way
only (`roll_script_cuts`).
-/

namespace TabletopDice

open Rolling

/-! ## Faces that follow each other -/

/-- What is drawn after the face `latest` when there is room for some more faces. Every face that is
followed by another one reaches the threshold, and the last one does not, unless there is no room
left. -/
structure Continuation (threshold room latest : Nat) (more : List Nat) : Prop where
  length_le : more.length ≤ room
  reaches : ∀ v ∈ (latest :: more).dropLast, threshold ≤ v
  ends : more.getLast?.getD latest < threshold ∨ more.length = room

/-- The faces of a whole die, of which there can be `most`. Every face that is followed by another
one reaches the threshold, and the last one does not, unless there can be no more. -/
structure Complete (threshold most : Nat) (faces : List Nat) : Prop where
  ne_nil : faces ≠ []
  length_le : faces.length ≤ most
  reaches : ∀ v ∈ faces.dropLast, threshold ≤ v
  ends : (∀ v ∈ faces.getLast?, v < threshold) ∨ faces.length = most

section Faces

variable {threshold room latest most v : Nat} {more faces : List Nat}

theorem continuation_nil :
    Continuation threshold room latest [] ↔ latest < threshold ∨ room = 0 := by
  constructor
  · intro h
    exact h.ends.imp id Eq.symm
  · intro h
    exact ⟨Nat.zero_le _, nofun, h.imp id Eq.symm⟩

theorem continuation_cons :
    Continuation threshold room latest (v :: more) ↔
      threshold ≤ latest ∧ ∃ room', room = room' + 1 ∧ Continuation threshold room' v more := by
  have hlast : (v :: more).getLast?.getD latest = more.getLast?.getD v := by
    rw [List.getLast?_cons, Option.getD_some]
  constructor
  · rintro ⟨hlength, hreaches, hends⟩
    rw [List.length_cons] at hlength
    rw [hlast, List.length_cons] at hends
    rw [List.dropLast_cons_cons, List.forall_mem_cons] at hreaches
    refine ⟨hreaches.1, room - 1, by omega, by omega, hreaches.2, hends.imp id fun h => by omega⟩
  · rintro ⟨hlatest, room', rfl, hlength, hreaches, hends⟩
    refine ⟨Nat.succ_le_succ hlength, ?_, ?_⟩
    · rw [List.dropLast_cons_cons, List.forall_mem_cons]
      exact ⟨hlatest, hreaches⟩
    · rw [hlast, List.length_cons]
      exact hends.imp id fun h => by omega

/-- Faces that continue a die that could still go on make it a complete one. -/
theorem Continuation.complete (h : Continuation threshold (most - faces.length) latest more)
    (hlatest : faces.getLast? = some latest) (hlength : faces.length ≤ most)
    (hreaches : ∀ v ∈ faces.dropLast, threshold ≤ v) : Complete threshold most (faces ++ more) := by
  have hmore := h.length_le
  obtain ⟨before, rfl⟩ := List.getLast?_eq_some_iff.1 hlatest
  rw [List.dropLast_concat] at hreaches
  rw [List.append_assoc, List.singleton_append]
  refine ⟨by simp, ?_, ?_, ?_⟩
  · simp only [List.length_append, List.length_cons, List.length_nil] at hmore hlength ⊢
    omega
  · rw [List.dropLast_append_cons]
    intro v hv
    exact (List.mem_append.1 hv).elim (hreaches v) (h.reaches v)
  · rcases h.ends with hend | hfull
    · left
      intro v hv
      rw [List.getLast?_append, List.getLast?_cons, Option.some_or] at hv
      cases hv
      exact hend
    · right
      simp only [List.length_append, List.length_cons, List.length_nil] at hfull hlength ⊢
      omega

/-- A complete die is a first face and what follows it. -/
theorem complete_cons (hmost : 1 ≤ most) :
    Complete threshold most (v :: more) ↔ Continuation threshold (most - 1) v more := by
  constructor
  · rintro ⟨-, hlength, hreaches, hends⟩
    rw [List.length_cons] at hlength hends
    refine ⟨by omega, hreaches, hends.imp (fun h => h _ ?_) fun h => by omega⟩
    rw [List.getLast?_cons]
    rfl
  · intro h
    show Complete threshold most ([v] ++ more)
    exact Continuation.complete h rfl hmost nofun

/-- A script with an answer for each face that there is room for has the faces that follow. -/
theorem exists_continuation (threshold latest : Nat) {script : List Nat}
    (h : room ≤ script.length) :
    ∃ more later, script = more ++ later ∧ Continuation threshold room latest more := by
  induction room generalizing latest script with
  | zero => exact ⟨[], script, rfl, continuation_nil.2 (.inr rfl)⟩
  | succ room ih =>
    by_cases hlatest : latest < threshold
    · exact ⟨[], script, rfl, continuation_nil.2 (.inl hlatest)⟩
    · cases script with
      | nil => cases h
      | cons v script =>
        obtain ⟨more, later, rfl, hmore⟩ := ih v (Nat.le_of_succ_le_succ h)
        exact ⟨v :: more, later, rfl,
          continuation_cons.2 ⟨Nat.le_of_not_lt hlatest, room, rfl, hmore⟩⟩

/-- A script with enough answers for some dice can be cut into complete ones. -/
theorem exists_cuts (threshold : Nat) (hmost : 1 ≤ most) {n : Nat} {script : List Nat}
    (h : n * most ≤ script.length) :
    ∃ (cuts : List (List Nat)) (later : List Nat), script = cuts.flatten ++ later ∧
      cuts.length = n ∧
      ∀ faces ∈ cuts, Complete threshold most faces := by
  induction n generalizing script with
  | zero => exact ⟨[], script, rfl, rfl, nofun⟩
  | succ n ih =>
    rw [Nat.succ_mul] at h
    cases script with
    | nil =>
      rw [List.length_nil] at h
      omega
    | cons v script =>
      rw [List.length_cons] at h
      have hroom : most - 1 ≤ script.length := by omega
      obtain ⟨more, rest, rfl, hmore⟩ := exists_continuation threshold v hroom
      have hlength := hmore.length_le
      rw [List.length_append] at h
      have hrest : n * most ≤ rest.length := by omega
      obtain ⟨cuts, later, rfl, hcuts, hcomplete⟩ := ih hrest
      refine ⟨(v :: more) :: cuts, later, by simp, by rw [List.length_cons, hcuts], ?_⟩
      exact List.forall_mem_cons.2 ⟨(complete_cons hmost).2 hmore, hcomplete⟩

end Faces

/-! ## Paths through a group -/

/-- The answers for some dice of a group, cut into those of each die. -/
def Dice.Cuts (d : Dice) (n : Nat) (cuts : List (List Nat)) : Prop :=
  cuts.length = n ∧ ∀ faces ∈ cuts, Complete d.threshold d.maxDraws faces

theorem Explosion.one_le_maxDraws (e : Explosion) : 1 ≤ e.maxDraws := by
  unfold maxDraws
  split <;> omega

theorem Dice.one_le_maxDraws (d : Dice) : 1 ≤ d.maxDraws := by
  unfold maxDraws
  split
  · next e _ => exact e.one_le_maxDraws
  · exact Nat.le_refl 1

section Paths

variable {β : Type} {sides threshold room latest n : Nat} {vs : List Nat} {d : Dice}

/-- With at least one side a face is whatever the next answer is. -/
theorem path_face_bind_iff (hsides : 1 ≤ sides) {f : Nat → Rolling DiceError β}
    {x : Except DiceError β} :
    Path (face sides >>= f) vs x ↔ ∃ v ws, vs = v :: ws ∧ Path (f v) ws x := by
  rw [face, int_of_le hsides, draw_bind, path_draw_iff]
  rfl

/-- An explosion follows the answers as far as they continue the die, and never fails. -/
theorem path_explodeFrom_iff (hsides : 1 ≤ sides) {die : Die} {x : Except DiceError Die} :
    Path (die.explodeFrom threshold sides room latest) vs x ↔
      Continuation threshold room latest vs ∧ x = .ok (vs.foldl Die.push die) := by
  induction room generalizing latest die vs with
  | zero =>
    show Path (.done die) vs x ↔ _
    rw [path_done_iff]
    constructor
    · rintro ⟨rfl, rfl⟩
      exact ⟨continuation_nil.2 (.inr rfl), rfl⟩
    · rintro ⟨hmore, rfl⟩
      have hnil : vs = [] := List.eq_nil_of_length_eq_zero (Nat.le_zero.1 hmore.length_le)
      rw [hnil]
      exact ⟨rfl, rfl⟩
  | succ room ih =>
    unfold Die.explodeFrom
    by_cases hlatest : latest < threshold
    · rw [if_pos hlatest, pure_eq, path_done_iff]
      constructor
      · rintro ⟨rfl, rfl⟩
        exact ⟨continuation_nil.2 (.inl hlatest), rfl⟩
      · rintro ⟨hmore, rfl⟩
        cases vs with
        | nil => exact ⟨rfl, rfl⟩
        | cons v vs => exact absurd (continuation_cons.1 hmore).1 (Nat.not_le.2 hlatest)
    · rw [if_neg hlatest, path_face_bind_iff hsides]
      constructor
      · rintro ⟨v, ws, rfl, hpath⟩
        obtain ⟨hmore, rfl⟩ := ih.1 hpath
        exact ⟨continuation_cons.2 ⟨Nat.le_of_not_lt hlatest, room, rfl, hmore⟩, rfl⟩
      · rintro ⟨hmore, rfl⟩
        cases vs with
        | nil =>
          rcases continuation_nil.1 hmore with hlt | hroom
          · exact absurd hlt hlatest
          · cases hroom
        | cons v vs =>
          obtain ⟨-, room', hroom, hmore⟩ := continuation_cons.1 hmore
          cases hroom
          exact ⟨v, vs, rfl, ih.2 ⟨hmore, rfl⟩⟩

/-- A die follows the answers that are the faces of a complete one. -/
theorem path_rollDie_iff (hsides : 1 ≤ d.sides) {x : Except DiceError Die} :
    Path d.rollDie vs x ↔
      Complete d.threshold d.maxDraws vs ∧ x = .ok (Die.ofDraws vs) := by
  rw [Dice.rollDie_eq, path_face_bind_iff hsides]
  constructor
  · rintro ⟨v, more, rfl, hpath⟩
    obtain ⟨hmore, rfl⟩ := (path_explodeFrom_iff hsides).1 hpath
    exact ⟨(complete_cons d.one_le_maxDraws).2 hmore, rfl⟩
  · rintro ⟨hcomplete, rfl⟩
    cases vs with
    | nil => exact absurd rfl hcomplete.ne_nil
    | cons v more =>
      have hmore := (complete_cons d.one_le_maxDraws).1 hcomplete
      exact ⟨v, more, rfl, (path_explodeFrom_iff hsides).2 ⟨hmore, rfl⟩⟩

/-- Some dice follow the answers that can be cut into complete ones. -/
theorem path_mapM_rollDie_iff (hsides : 1 ≤ d.sides) {x : Except DiceError (List Die)} :
    Path ((List.replicate n d).mapM Dice.rollDie) vs x ↔
      ∃ cuts, d.Cuts n cuts ∧ vs = cuts.flatten ∧ x = .ok (cuts.map Die.ofDraws) := by
  induction n generalizing vs x with
  | zero =>
    show Path (.done []) vs x ↔ _
    rw [path_done_iff]
    constructor
    · rintro ⟨rfl, rfl⟩
      exact ⟨[], ⟨rfl, nofun⟩, rfl, rfl⟩
    · rintro ⟨cuts, ⟨hlength, -⟩, rfl, rfl⟩
      rw [List.eq_nil_of_length_eq_zero hlength]
      exact ⟨rfl, rfl⟩
  | succ n ih =>
    rw [List.replicate_succ, List.mapM_cons]
    constructor
    · intro h
      rcases path_bind_iff.1 h with ⟨die, us, ws, rfl, hdie, hlater⟩ | ⟨e, hfail, -⟩
      · obtain ⟨hfaces, hok⟩ := (path_rollDie_iff hsides).1 hdie
        cases hok
        rcases path_bind_iff.1 hlater with ⟨dice, us', ws', rfl, hdice, hdone⟩ | ⟨e, hfail, -⟩
        · obtain ⟨cuts, ⟨hlength, hcuts⟩, rfl, hok⟩ := ih.1 hdice
          cases hok
          obtain ⟨rfl, rfl⟩ := path_done_iff.1 hdone
          exact ⟨us :: cuts, ⟨by rw [List.length_cons, hlength],
            List.forall_mem_cons.2 ⟨hfaces, hcuts⟩⟩, by simp, rfl⟩
        · obtain ⟨cuts, -, -, hok⟩ := ih.1 hfail
          cases hok
      · cases ((path_rollDie_iff hsides).1 hfail).2
    · rintro ⟨cuts, ⟨hlength, hcuts⟩, rfl, rfl⟩
      cases cuts with
      | nil => cases hlength
      | cons faces cuts =>
        obtain ⟨hfaces, hcuts⟩ := List.forall_mem_cons.1 hcuts
        refine path_bind_iff.2 (.inl ⟨_, faces, cuts.flatten, by simp,
          (path_rollDie_iff hsides).2 ⟨hfaces, rfl⟩, ?_⟩)
        have hdice := ih.2 ⟨cuts, ⟨Nat.succ.inj hlength, hcuts⟩, rfl, rfl⟩
        exact path_bind_iff.2 (.inl ⟨_, cuts.flatten, [], by simp, hdice, .done _⟩)

/-- A group follows the answers that can be cut into complete dice, and what becomes of them is only
a matter of its selections. -/
theorem path_roll_iff (hsides : 1 ≤ d.sides) {x : Except DiceError RolledDice} :
    Path d.roll vs x ↔
      ∃ cuts, d.Cuts d.count cuts ∧ vs = cuts.flatten ∧
        x = RolledDice.applyAll d.selections { dice := d, rolls := cuts.map Die.ofDraws } := by
  unfold Dice.roll
  constructor
  · intro h
    rcases path_bind_iff.1 h with ⟨rolls, us, ws, rfl, hrolls, happly⟩ | ⟨e, hfail, -⟩
    · obtain ⟨cuts, hcuts, rfl, hok⟩ := (path_mapM_rollDie_iff hsides).1 hrolls
      cases hok
      obtain ⟨rfl, rfl⟩ := path_ofExcept_iff.1 happly
      exact ⟨cuts, hcuts, by simp, rfl⟩
    · obtain ⟨cuts, -, -, hok⟩ := (path_mapM_rollDie_iff hsides).1 hfail
      cases hok
  · rintro ⟨cuts, hcuts, rfl, rfl⟩
    have hrolls := (path_mapM_rollDie_iff hsides).2 ⟨cuts, hcuts, rfl, rfl⟩
    refine path_bind_iff.2 (.inl ⟨_, cuts.flatten, [], by simp, hrolls, ?_⟩)
    exact path_ofExcept_iff.2 ⟨rfl, rfl⟩

end Paths

/-! ## Values -/

namespace Die

/-- The value of a die is the sum of its faces, or the greatest value if the sum is beyond it. -/
def Sums (d : Die) : Prop :=
  d.value = min maxDieValue d.draws.sum

/-- With every face the sum grows by the face, and so does the value as long as it can. -/
theorem Sums.push {d : Die} (h : d.Sums) (face : Nat) : (d.push face).Sums := by
  unfold Sums at *
  rw [draws_push, List.sum_append_nat, List.sum_singleton]
  show min maxDieValue (d.value + face) = _
  omega

theorem Sums.foldl_push {d : Die} (h : d.Sums) (faces : List Nat) :
    (faces.foldl Die.push d).Sums := by
  induction faces generalizing d with
  | nil => exact h
  | cons face faces ih => exact ih (h.push face)

theorem sums_ofDraws (faces : List Nat) : (ofDraws faces).Sums := by
  have hblank : blank.Sums := rfl
  exact hblank.foldl_push faces

theorem head?_draws {d : Die} (h : d.draws ≠ []) : d.draws.head? = some d.natural := by
  unfold natural
  cases hdraws : d.draws with
  | nil => exact absurd hdraws h
  | cons face faces => rfl

end Die

/-! ## Scripts -/

section Scripts

variable {ε α : Type} {t : Rolling ε α} {script : List Nat}

/-- A run leaves of its script what it has not drawn. -/
theorem exists_later_of_run_script (t : Rolling ε α) (script : List Nat) :
    ∃ later, (Source.run (.script script) t).state = .script later ∧
      script = (Source.run (.script script) t).draws ++ later := by
  induction t generalizing script with
  | done a => exact ⟨script, rfl, rfl⟩
  | fail e => exact ⟨script, rfl, rfl⟩
  | draw lo hi next ih =>
    unfold Source.run at ih ⊢
    rw [Roller.run_draw]
    cases script with
    | nil => exact ⟨[], rfl, rfl⟩
    | cons v script =>
      obtain ⟨later, hstate, hscript⟩ := ih v script
      exact ⟨later, hstate, congrArg (v :: ·) hscript⟩

/-- A script that is not used up follows a path. -/
theorem exists_path_of_run_script (h : (Source.run (.script script) t).ending ≠ .exhausted) :
    ∃ x vs later, Path t vs x ∧ script = vs ++ later ∧
      Source.run (.script script) t = ⟨.ofExcept x, vs, .script later⟩ := by
  obtain ⟨later, hstate, hscript⟩ := exists_later_of_run_script t script
  have hpath : ∀ x, (Source.run (.script script) t).ending = .ofExcept x →
      ∃ x vs later, Path t vs x ∧ script = vs ++ later ∧
        Source.run (.script script) t = ⟨.ofExcept x, vs, .script later⟩ := by
    intro x hending
    refine ⟨x, _, later, path_of_run hending, hscript, ?_⟩
    rw [← hending, ← hstate]
    rfl
  cases hending : (Source.run (.script script) t).ending with
  | value a => exact hpath (.ok a) hending
  | failed e => exact hpath (.error e) hending
  | exhausted => exact absurd hending h

/-- A script follows one path only. -/
theorem run_script_unique {vs vs' later later' : List Nat} {a a' : α} (h : Path t vs (.ok a))
    (h' : Path t vs' (.ok a')) (heq : vs ++ later = vs' ++ later') : a = a' ∧ vs = vs' := by
  have hrun := run_script_of_path h later
  rw [heq, run_script_of_path h' later'] at hrun
  cases hrun
  exact ⟨rfl, rfl⟩

end Scripts

/-! ## Cutting a script -/

/-- What an explosion makes of a die: it has the faces `more` behind those that it had. They
continue the die from its latest face, so that there are none if it has as many as it can have
already. A die that was rolled so far by the same rule is complete then. -/
structure Explosion.Extends (e : Explosion) (sides : Nat) (die die' : Die) (more : List Nat) :
    Prop where
  draws : die'.draws = die.draws ++ more
  droppedBy : die'.droppedBy = die.droppedBy
  sums : die.Sums → die'.Sums
  continuation :
    Continuation (e.threshold.getD sides) (e.maxDraws - die.draws.length) die.latest more
  full : e.maxDraws ≤ die.draws.length → more = []
  complete : die.draws ≠ [] → die.draws.length ≤ e.maxDraws →
    (∀ v ∈ die.draws.dropLast, e.threshold.getD sides ≤ v) →
    Complete (e.threshold.getD sides) e.maxDraws die'.draws

theorem Explosion.extends_foldl_push {e : Explosion} {sides : Nat} {die : Die} {more : List Nat}
    (h : Continuation (e.threshold.getD sides) (e.maxDraws - die.draws.length) die.latest more) :
    e.Extends sides die (more.foldl Die.push die) more where
  draws := die.draws_foldl_push more
  droppedBy := die.droppedBy_foldl_push more
  sums := fun hdie => hdie.foldl_push more
  continuation := h
  full := by
    intro hfull
    have hlength := h.length_le
    exact List.eq_nil_of_length_eq_zero (by omega)
  complete := by
    intro hne hlength hreaches
    rw [die.draws_foldl_push]
    refine h.complete ?_ hlength hreaches
    unfold Die.latest
    rw [List.getLast?_eq_some_getLast hne]
    rfl

/-- The dice of a group that is rolled are those of a cut of its script. -/
theorem RolledDice.of_cuts {d : Dice} {r : RolledDice} {n : Nat} {cuts : List (List Nat)}
    (hcuts : d.Cuts n cuts)
    (h : applyAll d.selections { dice := d, rolls := cuts.map Die.ofDraws } = .ok r) :
    r.rolls.map Die.draws = cuts ∧
      ∀ die ∈ r.rolls, Complete d.threshold d.maxDraws die.draws ∧ die.Sums ∧
        die.draws.head? = some die.natural := by
  have hmap := map_rolls_of_applyAll (f := fun die : Die => (die.value, die.draws))
    (fun _ _ => rfl) h
  refine ⟨?_, fun die hdie => ?_⟩
  · rw [map_rolls_of_applyAll (fun _ _ => rfl) h, List.map_map]
    have hdraws : Die.draws ∘ Die.ofDraws = id := funext Die.draws_ofDraws
    rw [hdraws, List.map_id]
  · have hmem : (die.value, die.draws) ∈
        (cuts.map Die.ofDraws).map fun die => (die.value, die.draws) := by
      rw [← hmap]
      exact List.mem_map_of_mem hdie
    rw [List.map_map] at hmem
    obtain ⟨faces, hfaces, heq⟩ := List.mem_map.1 hmem
    simp only [Function.comp_apply, Die.draws_ofDraws, Prod.mk.injEq] at heq
    obtain ⟨hvalue, rfl⟩ := heq
    have hcomplete := hcuts.2 die.draws hfaces
    refine ⟨hcomplete, ?_, Die.head?_draws hcomplete.ne_nil⟩
    have hsums := Die.sums_ofDraws die.draws
    unfold Die.Sums at hsums ⊢
    rwa [hvalue, Die.draws_ofDraws] at hsums

/-- A group is rolled from a script. If the script is long enough, which it is with an answer for
every face that its dice can have, the dice take the answers from its beginning one after the other.
Each of them is complete, its value is the sum of its faces as far as a value can be, and its
natural face is the first one; there is no other way to cut the script into as many complete dice.
In the same way an explosion continues any die that has faces already, and in one way only. -/
theorem roll_script_cuts (script : List Nat) :
    (∀ d : Dice, 1 ≤ d.sides →
      let run := Source.run (.script script) d.roll
      (d.count * d.maxDraws ≤ script.length → run.ending ≠ .exhausted) ∧
      (run.ending ≠ .exhausted → ∃ r later,
        run = ⟨.value r, r.draws, .script later⟩ ∧ script = r.draws ++ later ∧
        r.rolls.length = d.count ∧
        (∀ die ∈ r.rolls, Complete d.threshold d.maxDraws die.draws ∧ die.Sums ∧
          die.draws.head? = some die.natural) ∧
        ∀ cuts rest, d.Cuts d.count cuts → script = cuts.flatten ++ rest →
          cuts = r.rolls.map Die.draws)) ∧
    (∀ (e : Explosion) (sides : Nat) (die : Die), 1 ≤ sides →
      let run := Source.run (.script script) (e.apply sides die)
      (e.maxDraws - die.draws.length ≤ script.length → run.ending ≠ .exhausted) ∧
      (run.ending ≠ .exhausted → ∃ die' more later,
        run = ⟨.value die', more, .script later⟩ ∧ script = more ++ later ∧
        e.Extends sides die die' more ∧
        ∀ die'' more' rest, e.Extends sides die die'' more' → script = more' ++ rest →
          more' = more)) := by
  refine ⟨fun d hsides => ⟨fun hlong => ?_, fun hending => ?_⟩,
    fun e sides die hsides => ⟨fun hlong => ?_, fun hending => ?_⟩⟩
  · obtain ⟨cuts, later, rfl, hcuts⟩ := exists_cuts d.threshold d.one_le_maxDraws hlong
    obtain ⟨r, hr⟩ := RolledDice.exists_applyAll d.selections ⟨d, cuts.map Die.ofDraws⟩
    have hpath := (path_roll_iff hsides).2 ⟨cuts, hcuts, rfl, hr.symm⟩
    rw [run_script_of_path hpath]
    nofun
  · obtain ⟨x, vs, later, hpath, rfl, hrun⟩ := exists_path_of_run_script hending
    obtain ⟨cuts, hcuts, rfl, rfl⟩ := (path_roll_iff hsides).1 hpath
    obtain ⟨r, hr⟩ := RolledDice.exists_applyAll d.selections ⟨d, cuts.map Die.ofDraws⟩
    obtain ⟨hdraws, hdice⟩ := RolledDice.of_cuts hcuts hr
    rw [hr] at hrun hpath
    have hflat : r.draws = cuts.flatten := draws_of_path_dice hpath
    refine ⟨r, later, ?_, ?_, ?_, hdice, fun cuts' rest hcuts' heq => ?_⟩
    · rw [hflat]
      exact hrun
    · rw [hflat]
    · rw [← hcuts.1, ← hdraws, List.length_map]
    · obtain ⟨r', hr'⟩ := RolledDice.exists_applyAll d.selections ⟨d, cuts'.map Die.ofDraws⟩
      have hpath' := (path_roll_iff hsides).2 ⟨cuts', hcuts', rfl, hr'.symm⟩
      obtain ⟨rfl, -⟩ := run_script_unique hpath hpath' heq
      exact (RolledDice.of_cuts hcuts' hr').1.symm
  · obtain ⟨more, later, rfl, hmore⟩ :=
      exists_continuation (e.threshold.getD sides) die.latest hlong
    have hpath : Path (e.apply sides die) more (.ok (more.foldl Die.push die)) :=
      (path_explodeFrom_iff hsides).2 ⟨hmore, rfl⟩
    rw [run_script_of_path hpath]
    nofun
  · obtain ⟨x, vs, later, hpath, rfl, hrun⟩ := exists_path_of_run_script hending
    obtain ⟨hmore, rfl⟩ := (path_explodeFrom_iff hsides).1 hpath
    refine ⟨_, vs, later, hrun, rfl, Explosion.extends_foldl_push hmore, ?_⟩
    intro die'' more' rest hextends heq
    have hpath' : Path (e.apply sides die) more' (.ok (more'.foldl Die.push die)) :=
      (path_explodeFrom_iff hsides).2 ⟨hextends.continuation, rfl⟩
    exact (run_script_unique hpath hpath' heq).2.symm

/-- Two dice that explode again and again, the first of them beyond the greatest value, and a die
with as many faces as a single explosion allows. -/
theorem roll_script_cuts_greatest_value :
    (∃ r later, Source.run (.script ([65000, 600, 3, 7, 2] ++ List.replicate 15 6))
        (Dice.roll ⟨2, 6, some ⟨some 5, true⟩, [⟨.keepHigh, 1⟩]⟩) =
          ⟨.value r, r.draws, .script later⟩ ∧
      r.rolls.map Die.draws = [[65000, 600, 3], [7, 2]] ∧ r.rolls.map Die.value = [65535, 9]) ∧
    ∃ die, Source.run (.script [6]) (Explosion.apply ⟨none, false⟩ 6 (.ofDraws [6, 6])) =
      ⟨.value die, [], .script [6]⟩ := by
  constructor
  · have hgroup := (roll_script_cuts ([65000, 600, 3, 7, 2] ++ List.replicate 15 6)).1
      ⟨2, 6, some ⟨some 5, true⟩, [⟨.keepHigh, 1⟩]⟩ (by decide)
    obtain ⟨r, later, hrun, -, -, hdice, hunique⟩ := hgroup.2 (hgroup.1 (by decide))
    have hfirst : Complete 5 10 [65000, 600, 3] :=
      ⟨nofun, by decide, by decide, .inl (by decide)⟩
    have hsecond : Complete 5 10 [7, 2] := ⟨nofun, by decide, by decide, .inl (by decide)⟩
    have hcuts : ∀ faces ∈ [[65000, 600, 3], [7, 2]], Complete 5 10 faces := by
      rw [List.forall_mem_cons, List.forall_mem_singleton]
      exact ⟨hfirst, hsecond⟩
    have hdraws := hunique [[65000, 600, 3], [7, 2]] _ ⟨rfl, hcuts⟩ rfl
    have hvalues : r.rolls.map Die.value =
        (r.rolls.map Die.draws).map fun faces => min maxDieValue faces.sum := by
      rw [List.map_map]
      exact List.map_congr_left fun die hdie => (hdice die hdie).2.1
    rw [← hdraws] at hvalues
    exact ⟨r, later, hrun, hdraws.symm, hvalues⟩
  · have hdie := (roll_script_cuts [6]).2 ⟨none, false⟩ 6 (.ofDraws [6, 6]) (by decide)
    obtain ⟨die, more, later, hrun, hscript, hextends, -⟩ := hdie.2 (hdie.1 (by decide))
    cases hextends.full (by decide)
    rw [hrun, hscript]
    exact ⟨die, rfl⟩

end TabletopDice
