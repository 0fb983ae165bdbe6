import Mathlib.Data.List.Flatten
import TabletopDice.Source
import TabletopDice.Proofs.OutcomeMargins
import TabletopDice.Proofs.Repetition

/-!
# Rolls in a row

Nothing passes from one expression of a roll to the next but the state of the roller. Main
statement: unless the highest results are told apart, rolling two lists of expressions as one is
rolling the first and then the second, and rolling a text with a repetition is rolling the text
without it so many times (`rolls_in_a_row`).
-/

namespace TabletopDice

/-! ## Runs in a row -/

section Runs

variable {σ ε α β γ : Type}

/-- The same ending with its value made into another one. -/
def Ending.map (f : α → β) : Ending ε α → Ending ε β
  | value a => value (f a)
  | failed e => failed e
  | exhausted => exhausted

namespace Run

/-- The same run with its value made into another one. -/
def map (f : α → β) (run : Run σ ε α) : Run σ ε β :=
  ⟨run.ending.map f, run.draws, run.state⟩

/-- A run and, if it ends with a value, another one from the state in which it left the roller. -/
def andThen (first : Run σ ε α) (next : α → σ → Run σ ε β) : Run σ ε β :=
  match first.ending with
  | .value a =>
    let later := next a first.state
    { later with draws := first.draws ++ later.draws }
  | .failed e => ⟨.failed e, first.draws, first.state⟩
  | .exhausted => ⟨.exhausted, first.draws, first.state⟩

variable {first : Run σ ε α} {next : α → σ → Run σ ε β}

theorem map_map (f : α → β) (g : β → γ) (run : Run σ ε α) :
    (run.map f).map g = run.map (g ∘ f) := by
  obtain ⟨ending, draws, state⟩ := run
  cases ending <;> rfl

/-- Changing the value of two runs in a row is changing that of the second one. -/
theorem map_andThen (f : β → γ) :
    (first.andThen next).map f = first.andThen fun a s => (next a s).map f := by
  obtain ⟨ending, draws, state⟩ := first
  cases ending <;> rfl

theorem andThen_map (f : γ → α) (first : Run σ ε γ) :
    (first.map f).andThen next = first.andThen fun c => next (f c) := by
  obtain ⟨ending, draws, state⟩ := first
  cases ending <;> rfl

/-- Runs in a row have a value if both have one. -/
theorem andThen_eq_value_iff {b : β} :
    (first.andThen next).ending = .value b ↔
      ∃ a, first.ending = .value a ∧ (next a first.state).ending = .value b := by
  obtain ⟨ending, draws, state⟩ := first
  cases ending <;> simp [andThen]

/-- Runs in a row fail as the first one does, or as the second one does after a value. -/
theorem andThen_eq_failed_iff {e : ε} :
    (first.andThen next).ending = .failed e ↔ first.ending = .failed e ∨
      ∃ a, first.ending = .value a ∧ (next a first.state).ending = .failed e := by
  obtain ⟨ending, draws, state⟩ := first
  cases ending <;> simp [andThen]

/-- After a value the second run goes on, and its draws follow those of the first. -/
theorem andThen_of_value {a : α} (h : first.ending = .value a) :
    first.andThen next = { next a first.state with
      draws := first.draws ++ (next a first.state).draws } := by
  rw [andThen, h]

/-- After a first run without a value there is no second one. -/
theorem andThen_of_not_value (h : ∀ a, first.ending ≠ .value a) :
    (first.andThen next).draws = first.draws ∧ (first.andThen next).state = first.state := by
  obtain ⟨ending, draws, state⟩ := first
  cases ending with
  | value a => exact absurd rfl (h a)
  | failed e => exact ⟨rfl, rfl⟩
  | exhausted => exact ⟨rfl, rfl⟩

end Run

theorem Ending.map_eq_failed_iff {f : α → β} {x : Ending ε α} {e : ε} :
    x.map f = .failed e ↔ x = .failed e := by
  cases x <;> simp [Ending.map]

theorem Ending.map_eq_value_iff {f : α → β} {x : Ending ε α} {b : β} :
    x.map f = .value b ↔ ∃ a, x = .value a ∧ f a = b := by
  cases x <;> simp [Ending.map]

namespace Roller

variable {r : Roller σ} {s : σ}

/-- A roll followed by another is run like two rolls in a row. -/
theorem run_andThen (t : Rolling ε α) (f : α → Rolling ε β) :
    r.run (t >>= f) s = (r.run t s).andThen fun a s' => r.run (f a) s' :=
  r.run_bind t f s

theorem run_map (t : Rolling ε α) (f : α → β) :
    r.run (t >>= fun a => pure (f a)) s = (r.run t s).map f := by
  rw [run_andThen]
  generalize r.run t s = first
  obtain ⟨ending, draws, state⟩ := first
  cases ending with
  | value a =>
    rw [Run.andThen]
    dsimp only [Rolling.pure_eq, run_done]
    rw [List.append_nil]
    rfl
  | failed e => rfl
  | exhausted => rfl

/-- Two lists are rolled one after the other. -/
theorem run_mapM_append (f : α → Rolling ε β) (xs ys : List α) :
    r.run ((xs ++ ys).mapM f) s =
      (r.run (xs.mapM f) s).andThen fun bs s' => (r.run (ys.mapM f) s').map (bs ++ ·) := by
  rw [List.mapM_append, run_andThen]
  simp only [run_map]

/-- A roll so many times on the same roller, unless it is stopped before. -/
def runTimes (r : Roller σ) (t : Rolling ε α) : Nat → σ → Run σ ε (List α)
  | 0, s => ⟨.value [], [], s⟩
  | n + 1, s => (r.run t s).andThen fun a s' => (r.runTimes t n s').map (a :: ·)

end Roller

end Runs

/-! ## Results in a row -/

namespace RollResult

/-- The results of some rolls in order, with one comment. -/
def join (comment : Option String) (rs : List RollResult) : RollResult :=
  { comment, exprs := rs.flatMap exprs }

variable {comment : Option String}

/-- Results are joined one after the other. -/
theorem join_cons (a : RollResult) (rs : List RollResult) :
    join comment [a, join comment rs] = join comment (a :: rs) := by
  simp [join]

/-- Of joined results all successes are counted. -/
theorem successes_join (rs : List RollResult) :
    (join comment rs).successes = (rs.map successes).sum := by
  rw [join, successes, List.countP_flatMap]
  rfl

end RollResult

/-! ## Lists of expressions -/

namespace Roll

variable {σ : Type} {roller : Roller σ} {s : σ} {r : Roll}

/-- The expressions are rolled by themselves, and the comment is put in front. -/
theorem run_roll (h : r.targetHighest = none) :
    roller.run r.roll s =
      (roller.run (r.exprs.mapM r.rollExpr) s).map fun results => ⟨r.comment, results⟩ := by
  unfold roll
  rw [Roller.run_map]
  simp only [rank_of_none h]

/-- Rolling two lists of expressions as one is rolling the first and then the second. -/
theorem run_roll_append (h : r.targetHighest = none) (A B : List Expr) :
    roller.run ({ r with exprs := A ++ B } : Roll).roll s =
      (roller.run ({ r with exprs := A } : Roll).roll s).andThen fun a s' =>
        (roller.run ({ r with exprs := B } : Roll).roll s').map fun b =>
          RollResult.join r.comment [a, b] := by
  have hroll : ∀ (es : List Expr) s, roller.run ({ r with exprs := es } : Roll).roll s =
      (roller.run (es.mapM r.rollExpr) s).map fun results => ⟨r.comment, results⟩ :=
    fun es s => run_roll (r := { r with exprs := es }) h
  rw [hroll, hroll, Roller.run_mapM_append, Run.map_andThen, Run.andThen_map]
  simp only [hroll, Run.map_map]
  simp [Function.comp_def, RollResult.join]

/-- A run is two others in order: it fails as the first of them that fails, and otherwise it has the
results of both. After a value of the first one come the draws of the second one, which leaves the
roller in its state. Without such a value there is nothing but the first one. -/
structure InOrder (comment : Option String) (first second whole : Run σ RollError RollResult) :
    Prop where
  failed_iff : ∀ e, whole.ending = .failed e ↔
    first.ending = .failed e ∨ (∃ a, first.ending = .value a) ∧ second.ending = .failed e
  value_iff : ∀ c, whole.ending = .value c ↔
    ∃ a b, first.ending = .value a ∧ second.ending = .value b ∧
      c = ⟨comment, a.exprs ++ b.exprs⟩ ∧ c.successes = a.successes + b.successes
  of_value : (∃ a, first.ending = .value a) →
    whole.draws = first.draws ++ second.draws ∧ whole.state = second.state
  of_no_value : (¬ ∃ a, first.ending = .value a) →
    whole.draws = first.draws ∧ whole.state = first.state

theorem inOrder_append (h : r.targetHighest = none) (A B : List Expr) :
    let first := roller.run ({ r with exprs := A } : Roll).roll s
    InOrder r.comment first (roller.run ({ r with exprs := B } : Roll).roll first.state)
      (roller.run ({ r with exprs := A ++ B } : Roll).roll s) := by
  intro first
  rw [run_roll_append h]
  refine ⟨fun e => ?_, fun c => ?_, fun ⟨a, ha⟩ => ?_, fun hnone => ?_⟩
  · rw [Run.andThen_eq_failed_iff]
    simp only [Run.map, Ending.map_eq_failed_iff, exists_and_right]
    rfl
  · rw [Run.andThen_eq_value_iff]
    simp only [Run.map, Ending.map_eq_value_iff]
    constructor
    · rintro ⟨a, ha, b, hb, rfl⟩
      refine ⟨a, b, ha, hb, ?_, ?_⟩
      · simp [RollResult.join]
      · simp [RollResult.successes_join]
    · rintro ⟨a, b, ha, hb, rfl, -⟩
      exact ⟨a, ha, b, hb, by simp [RollResult.join]⟩
  · rw [Run.andThen_of_value ha]
    exact ⟨rfl, rfl⟩
  · exact Run.andThen_of_not_value fun a ha => hnone ⟨a, ha⟩

/-- Rolling a block so many times over is rolling it so many times. -/
theorem run_roll_replicate (h : r.targetHighest = none) (n : Nat) :
    roller.run ({ r with exprs := (List.replicate n r.exprs).flatten } : Roll).roll s =
      (roller.runTimes r.roll n s).map (RollResult.join r.comment) := by
  induction n generalizing s with
  | zero => exact run_roll (r := { r with exprs := [] }) h
  | succ n ih =>
    rw [List.replicate_succ, List.flatten_cons, run_roll_append h, Roller.runTimes, Run.map_andThen]
    simp only [ih, Run.map_map, Function.comp_def, RollResult.join_cons]

end Roll

/-! ## Texts with a repetition -/

namespace Written

open Text

/-- Blanks behind a repetition make no difference. -/
theorem endsRepeated_trimEnd_iff {s rest ds : List Char} :
    EndsRepeated (trimEnd s) rest ds ↔ EndsRepeated s rest ds := by
  rw [endsRepeated_iff, endsRepeated_iff, trimEnd, List.reverse_reverse, List.dropWhile_idempotent]

/-- Without the blanks around it a text is still repeated. -/
theorem EndsRepeated.trim {s rest ds : List Char} (h : EndsRepeated s rest ds) :
    EndsRepeated (trim s) (rest.dropWhile isBlank) ds := by
  obtain ⟨x, blanks, after, hx, hblanks, hds, hafter, rfl⟩ := h
  refine endsRepeated_trimEnd_iff.2 ⟨x, blanks, after, hx, hblanks, hds, hafter, ?_⟩
  rw [List.dropWhile_append, List.dropWhile_cons_of_neg (by simp [(not_isBlank_of_cross hx).1])]
  cases rest.dropWhile isBlank <;> rfl

/-- A block that is repeated is the block by itself so many times over. -/
theorem repeated_eq_replicate {block : List Expr} {n : Nat} (hn : 1 ≤ n) (hcopies : n ≤ maxCopies)
    (hgroups : Expr.totalGroups (repeated block 1).value * n ≤ maxDiceGroups) :
    (repeated block n).value = (List.replicate n (repeated block 1).value).flatten := by
  by_cases hblock : Expr.totalGroups block * 1 ≤ maxDiceGroups
  · have hone : (repeated block 1).value = block := by
      rw [repeated_of_le hblock]
      exact List.append_nil block
    rw [hone] at hgroups ⊢
    rw [repeated_of_le hgroups, Nat.min_eq_left hcopies]
    rfl
  · -- with more copies there are too many groups as well
    have hmany : maxDiceGroups < Expr.totalGroups block * n :=
      Nat.lt_of_lt_of_le (Nat.lt_of_not_le hblock) (Nat.mul_le_mul_left _ hn)
    rw [repeated_of_lt (Nat.lt_of_not_le hblock), repeated_of_lt hmany]
    exact (List.flatten_replicate_nil).symm

end Written

namespace Roll

open Written

variable {text whole : String} {ds : List Char}

/-- Within the bounds a text with a repetition is read like the text without it, but for its
expressions, which are repeated. -/
theorem ofText_of_endsRepeated (h : EndsRepeated whole.toList text.toList ds)
    (short : (Text.trim whole.toList).length ≤ maxTextLength)
    (plain : ∀ rest ds, ¬ EndsRepeated text.toList rest ds)
    (hcopies : max 1 (Numeral.value ds) ≤ maxCopies)
    (hgroups : (ofText text).diceGroups * max 1 (Numeral.value ds) ≤ maxDiceGroups) :
    ofText whole = { ofText text with
      exprs := (List.replicate (max 1 (Numeral.value ds)) (ofText text).exprs).flatten
      raw := whole
      messages := (ofText whole).messages } := by
  have honce : Repeats (Text.trim text.toList) (Text.trim text.toList) 1 := by
    refine .once fun rest ds hends => ?_
    obtain ⟨rest', hends'⟩ := hends.of_trim
    exact plain rest' ds hends'
  have hshort : (Text.trim text.toList).length ≤ maxTextLength := by
    obtain ⟨x, blanks, after, -, -, -, -, htrim⟩ := h.trim
    have hlength := congrArg List.length htrim
    have hle := Text.length_trim_le text.toList
    rw [List.length_append] at hlength
    omega
  -- blanks make no difference, so the text and what is in front of the repetition have one body
  have hcommented := commented_split (Text.normal text.toList)
  have hread := ofText_of_short hshort honce (by rwa [Text.normal_trim])
  have hread' := ofText_of_short short (.times h.trim) (by rwa [Text.normal_dropWhile])
  rw [readBody] at hread hread'
  have hrepeated := repeated_eq_replicate (Nat.le_max_left 1 _) hcopies
    (by rw [diceGroups, hread] at hgroups; exact hgroups)
  rw [hread', hread]
  simp only [Noted.value_bind, Noted.value_pure, hrepeated]

end Roll

/-! ## Composition -/

open Written

/-- Unless the highest results are told apart, nothing passes from one expression to the next: with
any roller, two lists of expressions are rolled as one like the first list and then, from the state
in which it leaves the roller, the second one. So a text that ends with a repetition is rolled like
the text without it, so many times on the same roller. This needs a text that is not too long and
that stays within the bounds of repetitions, and that has one repetition only. A missing number, or
zero, stands for one. -/
theorem rolls_in_a_row {σ : Type} (roller : Roller σ) (s : σ) :
    (∀ (r : Roll) (A B : List Expr), r.targetHighest = none →
      let first := roller.run ({ r with exprs := A } : Roll).roll s
      Roll.InOrder r.comment first (roller.run ({ r with exprs := B } : Roll).roll first.state)
        (roller.run ({ r with exprs := A ++ B } : Roll).roll s)) ∧
    ∀ (text whole : String) (ds : List Char), EndsRepeated whole.toList text.toList ds →
      (Text.trim whole.toList).length ≤ maxTextLength →
      (∀ rest ds', ¬ EndsRepeated text.toList rest ds') →
      let r := Roll.ofText text
      let n := max 1 (Numeral.value ds)
      r.targetHighest = none → n ≤ maxCopies → r.diceGroups * n ≤ maxDiceGroups →
      roller.run (Roll.ofText whole).roll s =
        (roller.runTimes r.roll n s).map (RollResult.join r.comment) := by
  constructor
  · intro r A B hhighest
    exact Roll.inOrder_append hhighest A B
  · intro text whole ds hends short plain r n hhighest hcopies hgroups
    rw [Roll.ofText_of_endsRepeated hends short plain hcopies hgroups]
    exact Roll.run_roll_replicate hhighest n

/-- A die is rolled before a number with its modifier is too large, and the other answer stays. A
text is repeated three times, and of four answers one stays. -/
theorem rolls_in_a_row_overflow :
    (∃ a, (Source.run (.script [3, 4]) (Roll.roll
        { exprs := [⟨[(.plus, .dice ⟨1, 6, none, []⟩)]⟩]
          modifier := some 1 })).ending = .value a) ∧
      (Source.run (.script [3, 4]) (Roll.roll
        { exprs := [⟨[(.plus, .dice ⟨1, 6, none, []⟩)]⟩, ⟨[(.plus, .number 2147483647)]⟩],
          modifier := some 1 })).ending = .failed (.overflow ⟨[(.plus, .number 2147483647)]⟩) ∧
      Source.run (.script [2, 5, 6, 4]) (Roll.ofText "1d6 X 3 ").roll =
        (Source.roller.runTimes (Roll.ofText "1d6 ").roll 3 (.script [2, 5, 6, 4])).map
          (RollResult.join none) := by
  obtain ⟨happend, -⟩ := rolls_in_a_row Source.roller (.script [3, 4])
  have hdie : ∃ a, (Source.run (.script [3, 4]) (Roll.roll
      { exprs := [⟨[(.plus, .dice ⟨1, 6, none, []⟩)]⟩], modifier := some 1 })).ending = .value a :=
    ⟨⟨none, [⟨⟨[(.plus, .dice ⟨⟨1, 6, none, []⟩, [⟨3, [3], none⟩]⟩)]⟩, 3, 4, .notApplicable⟩]⟩,
      by decide⟩
  refine ⟨hdie, ?_, ?_⟩
  · exact ((happend { modifier := some 1 } [⟨[(.plus, .dice ⟨1, 6, none, []⟩)]⟩]
      [⟨[(.plus, .number 2147483647)]⟩] rfl).failed_iff _).2 (.inr ⟨hdie, by decide⟩)
  · have hread : Roll.ofText "1d6 " =
        { exprs := [⟨[(.plus, .dice ⟨1, 6, none, []⟩)]⟩], raw := "1d6 " } := by cbv
    have hends : EndsRepeated "1d6 X 3 ".toList "1d6 ".toList ['3'] :=
      ⟨'X', [' '], [' '], .inr rfl, List.forall_mem_singleton.2 (by decide),
        List.forall_mem_singleton.2 (by decide), List.forall_mem_singleton.2 (by decide),
        by decide +kernel⟩
    have hplain : ∀ rest ds, ¬ EndsRepeated "1d6 ".toList rest ds :=
      not_endsRepeated_of_splitRepetition (by decide +kernel)
    have hvalue : max 1 (Numeral.value ['3']) = 3 := rfl
    have hrepeated := (rolls_in_a_row Source.roller (.script [2, 5, 6, 4])).2 "1d6 " "1d6 X 3 "
      ['3'] hends (by decide +kernel) hplain (by rw [hread]) (by decide +kernel)
      (by rw [hread]; decide +kernel)
    rw [hvalue, hread] at hrepeated
    rw [hread]
    exact hrepeated

/-! ## Texts that are repeated otherwise -/

/-- A text with a repetition within its bounds is rolled like the text without it, as often as its
number says. -/
def RolledAsWritten (text whole : String) (ds : List Char) (s : Source) : Prop :=
  EndsRepeated whole.toList text.toList ds → IsNumeral ds →
    (Roll.ofText text).targetHighest = none → Numeral.value ds ≤ maxCopies →
    (Roll.ofText text).diceGroups * Numeral.value ds ≤ maxDiceGroups →
    Source.run s (Roll.ofText whole).roll =
      (Source.roller.runTimes (Roll.ofText text).roll (Numeral.value ds) s).map
        (RollResult.join (Roll.ofText text).comment)

/-- Zero times stands for once. Of two repetitions only the last one is read, and the other one has
no meaning. With its repetition a text can be too long. -/
theorem not_rolledAsWritten :
    ¬ RolledAsWritten "1d6" "1d6x0" ['0'] (.script [3]) ∧
    ¬ RolledAsWritten "1d6x2" "1d6x2x2" ['2'] (.script [1, 2, 3, 4]) ∧
    ¬ RolledAsWritten (String.ofList ("1d6".toList ++ List.replicate 996 ' '))
      (String.ofList ("1d6".toList ++ List.replicate 996 ' ' ++ ['x', '2'])) ['2']
      (.script [3, 4]) := by
  have hends : ∀ {s rest : List Char} {d : Char}, s = rest ++ ['x', d] → d.isDigit →
      EndsRepeated s rest [d] := fun hs hd =>
    ⟨'x', [], [], .inl rfl, List.forall_mem_nil _, List.forall_mem_singleton.2 hd,
      List.forall_mem_nil _, hs⟩
  refine ⟨fun h => ?_, fun h => ?_, fun h => ?_⟩
  · have hrolled := h (hends (by decide +kernel) rfl) (by simp [IsNumeral]) (by cbv) (by decide)
      (by cbv)
    have hdraws : (Source.run (.script [3]) (Roll.ofText "1d6x0").roll).draws = [3] := by cbv
    rw [hrolled] at hdraws
    cases hdraws
  · have hrolled := h (hends (by decide +kernel) rfl) (by simp [IsNumeral]) (by cbv) (by decide)
      (by cbv)
    have hdraws : (Source.run (.script [1, 2, 3, 4]) (Roll.ofText "1d6x2x2").roll).draws = [] := by
      cbv
    have hdraws' : (Source.roller.runTimes (Roll.ofText "1d6x2").roll (Numeral.value ['2'])
      (.script [1, 2, 3, 4])).draws = [1, 2, 3, 4] := by cbv
    rw [hrolled] at hdraws
    exact absurd (hdraws'.symm.trans hdraws) (by decide)
  · have htrim : Text.trim ("1d6".toList ++ List.replicate 996 ' ') = "1d6".toList := by
      decide +kernel
    have hlong : maxTextLength <
        (Text.trim ("1d6".toList ++ List.replicate 996 ' ' ++ ['x', '2'])).length := by
      decide +kernel
    generalize "1d6".toList ++ List.replicate 996 ' ' = cs at htrim hlong h
    have hread : Roll.ofText (String.ofList cs) =
        { exprs := [⟨[(.plus, .dice ⟨1, 6, none, []⟩)]⟩], raw := String.ofList cs } := by
      unfold Roll.ofText
      rw [String.toList_ofList, htrim]
      cbv
    have hrolled := h (hends (by rw [String.toList_ofList, String.toList_ofList]) rfl)
      (by simp [IsNumeral]) (by rw [hread]) (by decide)
      (by rw [hread]; exact Nat.le_of_ble_eq_true rfl)
    rw [Roll.ofText_of_long (by rwa [String.toList_ofList]), hread] at hrolled
    have hdraws : [] = [3, 4] := congrArg Run.draws hrolled
    cases hdraws

end TabletopDice
