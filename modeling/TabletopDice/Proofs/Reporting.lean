import TabletopDice.Proofs.QuotedText
import TabletopDice.Proofs.SoundTrait

/-!
# Reports are all or nothing

What the program prints for a request. Results stand in the order of their expressions
(`Roll.exprs_of_path`), only an overflow makes a run fail (`Roll.exists_overflow_of_failed`), a
source that keeps the range never ends one early (`Source.run_ne_exhausted`), and nothing of the
roll text adds or splits a line. Main statement: either there is an error, with no output and one
line about it behind the warnings, or there is exactly the output of the result
(`report_all_or_nothing`).
-/

namespace TabletopDice

open Rolling

/-! ## What was rolled -/

/-- The term that a rolled term was rolled for. -/
def RolledTerm.term : RolledTerm → Term
  | number n => .number n
  | dice r => .dice r.dice

/-- The expression that a rolled expression was rolled for. -/
def RolledExpr.expr (e : RolledExpr) : Expr :=
  ⟨e.terms.map fun p => (p.1, p.2.term)⟩

/-- Rolled dice remember the dice that they were rolled for. -/
theorem dice_of_path {d : Dice} {r : RolledDice} {vs : List Nat} (h : Path d.roll vs (.ok r)) :
    r.dice = d := by
  obtain ⟨rolls, -, happly⟩ := Dice.parts_of_path h
  exact RolledDice.dice_of_applyAll happly

/-- A term keeps its sign, and what was rolled for it is known. -/
theorem term_of_path_rollSigned {p : Sign × Term} {q : Sign × RolledTerm} {vs : List Nat}
    (h : Path (rollSigned p) vs (.ok q)) : (q.1, q.2.term) = p := by
  rcases parts_of_path_rollSigned h with ⟨s, n, rfl, rfl, -⟩ | ⟨s, d, g, rfl, rfl, hdice⟩
  · rfl
  · rw [RolledTerm.term, dice_of_path hdice]

/-- An expression is rolled term by term. -/
theorem expr_of_path {e : Expr} {rolled : RolledExpr} {vs : List Nat}
    (h : Path e.roll vs (.ok rolled)) : rolled.expr = e := by
  have hmap : rolled.terms.map (fun q => (q.1, q.2.term)) = e.terms.map id :=
    map_of_path_mapM (fun _ _ _ => term_of_path_rollSigned) (Expr.parts_of_path h)
  rw [RolledExpr.expr, hmap, List.map_id]

/-- The results of a roll are those of its expressions in order. -/
theorem Roll.exprs_of_path {r : Roll} {result : RollResult} {vs : List Nat}
    (h : Path r.roll vs (.ok result)) :
    result.comment = r.comment ∧ result.exprs.map (fun x => x.rolled.expr) = r.exprs := by
  obtain ⟨results, hresults, rfl⟩ := parts_of_path h
  refine ⟨rfl, ?_⟩
  rw [r.map_rank (f := fun x => x.rolled.expr) (fun _ _ => rfl) results, ← List.map_id r.exprs]
  exact map_of_path_mapM (fun e vs x hx => expr_of_path (parts_of_path_rollExpr hx).1) hresults

/-- The groups of a trait roll are those of its trait die and its wild die. -/
theorem TraitRoll.dice_of_path {t : TraitRoll} {result : TraitResult} {vs : List Nat}
    (h : Path t.roll vs (.ok result)) :
    result.trait.dice = t.traitDie ∧ result.wild.dice = t.wildDie := by
  obtain ⟨us, ws, -, htrait, hwild, -⟩ := parts_of_path h
  exact ⟨TabletopDice.dice_of_path htrait, TabletopDice.dice_of_path hwild⟩

/-! ## Failures -/

/-- The roll of a text fails by an overflow, whatever the source is. -/
theorem Roll.exists_overflow_of_failed {text : String} {source : Source} {e : RollError}
    (h : (source.run (ofText text).roll).ending = .failed e) : ∃ rolled, e = .overflow rolled :=
  failsBy_roll (fun _ => valid_of_mem_ofText) _ _ (path_of_run (x := .error e) h)

/-- The trait roll of a text fails by an overflow only. -/
theorem TraitRoll.eq_overflow_of_failed {text : String} {source : Source} {e : RollError}
    (h : (source.run (ofText text).roll).ending = .failed e) : e = .dice .overflow :=
  (sound_ofText_trait text).failsBy_roll _ _ (path_of_run (x := .error e) h)

/-! ## Sources without an end -/

namespace Source

/-- A source that keeps the range always has an answer. -/
theorem exists_next_of_keepsRange {s : Source} (hs : s.keepsRange) (lo hi : Nat) :
    ∃ v s', s.next lo hi = some (v, s') ∧ s'.keepsRange := by
  cases s with
  | script answers => cases hs
  | _ => exact ⟨_, _, rfl, rfl⟩

/-- With such a source every run comes to its end. -/
theorem run_ne_exhausted {ε α : Type} {s : Source} (hs : s.keepsRange) (t : Rolling ε α) :
    (s.run t).ending ≠ .exhausted := by
  unfold run
  induction t generalizing s with
  | done a => exact nofun
  | fail e => exact nofun
  | draw lo hi next ih =>
    obtain ⟨v, s', hnext, hs'⟩ := exists_next_of_keepsRange hs lo hi
    have hroller : roller.next s lo hi = some (v, s') := hnext
    rw [Roller.run_draw, hroller]
    exact ih v hs'

end Source

namespace Cli

/-! ## Requests -/

/-- A run without a value, and the text about it. -/
inductive Stops {α : Type} : Ending RollError α → String → Prop where
  | failed (e : RollError) : Stops (.failed e) e.text
  | exhausted : Stops .exhausted exhaustedText

/-- The messages about the text of a request. -/
def Request.messages (r : Request) (text : String) : List Message :=
  if r.trait then (TraitRoll.ofText text).messages else (Roll.ofText text).messages

/-- A request fails with this error: there is nothing to roll, or rolling has no value. -/
inductive Request.Fails (r : Request) (text : String) (source : Source) : String → Prop where
  | nothing (mode : r.trait = false) (empty : (Roll.ofText text).exprs = []) :
      Fails r text source "nothing to roll"
  | roll {error : String} (mode : r.trait = false) (usable : (Roll.ofText text).exprs ≠ [])
      (stops : Stops (source.run (Roll.ofText text).roll).ending error) :
      Fails r text source error
  | trait {error : String} (mode : r.trait = true)
      (stops : Stops (source.run (TraitRoll.ofText text).roll).ending error) :
      Fails r text source error

/-- The output of a request with a result. A roll shows its comment, a line for each expression in
order, and a line each for the successes and for a critical failure where they apply. A trait roll
shows its comment, both dice and the total. -/
inductive Request.Shows (r : Request) (text : String) (source : Source) : List String → Prop where
  | roll {result : RollResult} (mode : r.trait = false) (usable : (Roll.ofText text).exprs ≠ [])
      (rolled : (source.run (Roll.ofText text).roll).ending = .value result)
      (order : result.exprs.map (fun x => x.rolled.expr) = (Roll.ofText text).exprs) :
      Shows r text source
        ((Roll.ofText text).comment.toList ++ result.exprs.map (ExprResult.describe r.limit) ++
          (if (Roll.ofText text).target.isSome then
            ["Successes: " ++ toString result.successes] else []) ++
          (if result.criticalFailure then ["Critical failure!"] else []))
  | trait {result : TraitResult} (mode : r.trait = true)
      (rolled : (source.run (TraitRoll.ofText text).roll).ending = .value result)
      (trait : result.trait.dice = (TraitRoll.ofText text).traitDie)
      (wild : result.wild.dice = (TraitRoll.ofText text).wildDie) :
      Shows r text source
        ((TraitRoll.ofText text).comment.toList ++
          [result.describe r.limit, "Total: " ++ toString result.total])

namespace Request

variable {r : Request} {text : String} {source : Source}

/-- A request has a result or fails, but not both. -/
theorem Shows.not_fails {output : List String} (h : r.Shows text source output) (error : String) :
    ¬ r.Fails text source error := by
  intro hfails
  cases h with
  | roll mode usable rolled =>
    cases hfails with
    | nothing _ empty => exact usable empty
    | roll _ _ stops =>
      rw [rolled] at stops
      cases stops
    | trait mode' =>
      rw [mode] at mode'
      cases mode'
  | trait mode rolled =>
    cases hfails with
    | nothing mode' =>
      rw [mode] at mode'
      cases mode'
    | roll mode' =>
      rw [mode] at mode'
      cases mode'
    | trait _ stops =>
      rw [rolled] at stops
      cases stops

end Request

/-! ## Reports -/

/-- A failure prints the warnings and then the error. -/
theorem errorLines_failure (messages : List Message) (error : String) :
    (Report.failure messages error).errorLines =
      (messages.map fun m => "warning: " ++ m.text) ++ ["Error: " ++ error] := by
  simp [Report.errorLines, Report.failure, Function.comp_def]

/-- A result prints the warnings alone. -/
theorem errorLines_success (messages : List Message) (output : List String) :
    (Report.success messages output).errorLines = messages.map fun m => "warning: " ++ m.text := by
  simp [Report.errorLines, Report.success, Function.comp_def]

/-- A run has a value, which is shown, or it stops. -/
theorem reportRun_cases {α : Type} (messages : List Message) (output : α → List String)
    (run : Run Source RollError α) :
    (∃ a, run.ending = .value a ∧ reportRun messages output run = .success messages (output a)) ∨
      ∃ error, Stops run.ending error ∧
        reportRun messages output run = .failure messages error := by
  unfold reportRun
  cases run.ending with
  | value a => exact .inl ⟨a, rfl, rfl⟩
  | failed e => exact .inr ⟨_, .failed e, rfl⟩
  | exhausted => exact .inr ⟨_, .exhausted, rfl⟩

namespace Request

variable {r : Request} {text : String} {source : Source}

/-- A roll is reported as a failure of the request or shows its result. -/
theorem report_roll_cases (source : Source) (mode : r.trait = false) :
    (∃ error, r.Fails text source error ∧
      reportRoll r.limit text source = .failure (Roll.ofText text).messages error) ∨
    ∃ output, r.Shows text source output ∧
      reportRoll r.limit text source = .success (Roll.ofText text).messages output := by
  by_cases hexprs : (Roll.ofText text).exprs = []
  · refine .inl ⟨_, .nothing mode hexprs, ?_⟩
    simp [reportRoll, Roll.isUsable, hexprs]
  · have hread : reportRoll r.limit text source = reportRun (Roll.ofText text).messages
        (rollLines r.limit (Roll.ofText text).target) (source.run (Roll.ofText text).roll) := by
      simp [reportRoll, Roll.isUsable, hexprs]
    rw [hread]
    generalize hrun : source.run (Roll.ofText text).roll = run
    rcases reportRun_cases (Roll.ofText text).messages
      (rollLines r.limit (Roll.ofText text).target) run with
      ⟨result, hvalue, hreport⟩ | ⟨error, hstops, hreport⟩
    · rw [← hrun] at hvalue
      obtain ⟨hcomment, horder⟩ := Roll.exprs_of_path (path_of_value hvalue)
      refine .inr ⟨_, .roll mode hexprs hvalue horder, ?_⟩
      rw [hreport, rollLines, RollResult.lines, hcomment]
    · rw [← hrun] at hstops
      exact .inl ⟨error, .roll mode hexprs hstops, hreport⟩

/-- A trait roll is reported as a failure of the request or shows its result. -/
theorem report_trait_cases (source : Source) (mode : r.trait = true) :
    (∃ error, r.Fails text source error ∧
      reportTrait r.limit text source = .failure (TraitRoll.ofText text).messages error) ∨
    ∃ output, r.Shows text source output ∧
      reportTrait r.limit text source = .success (TraitRoll.ofText text).messages output := by
  unfold reportTrait
  dsimp only
  generalize hrun : source.run (TraitRoll.ofText text).roll = run
  rcases reportRun_cases (TraitRoll.ofText text).messages
    (traitLines r.limit (TraitRoll.ofText text).comment) run with
    ⟨result, hvalue, hreport⟩ | ⟨error, hstops, hreport⟩
  · rw [← hrun] at hvalue
    obtain ⟨htrait, hwild⟩ := TraitRoll.dice_of_path (path_of_value hvalue)
    exact .inr ⟨_, .trait mode hvalue htrait hwild, hreport⟩
  · rw [← hrun] at hstops
    exact .inl ⟨error, .trait mode hstops, hreport⟩

/-- Nothing is reported before the last step that can fail. -/
theorem report_cases (r : Request) (text : String) (source : Source) :
    (∃ error, r.Fails text source error ∧
      r.report text source = .failure (r.messages text) error) ∨
    ∃ output, r.Shows text source output ∧
      r.report text source = .success (r.messages text) output := by
  cases mode : r.trait with
  | false =>
    simp only [messages, report, mode, Bool.false_eq_true, if_false]
    exact report_roll_cases source mode
  | true =>
    simp only [messages, report, mode, if_true]
    exact report_trait_cases source mode

/-! ## Lines -/

/-- Whatever stops a run is told on one line. -/
theorem oneLine_of_stops {α : Type} {ending : Ending RollError α} {error : String}
    (h : Stops ending error) : OneLine error := by
  cases h with
  | failed e => exact e.oneLine_text
  | exhausted => exact oneLine_ofList (by decide)

theorem Fails.oneLine {error : String} (h : r.Fails text source error) : OneLine error := by
  cases h with
  | nothing => exact oneLine_ofList (by decide)
  | roll _ _ stops => exact oneLine_of_stops stops
  | trait _ stops => exact oneLine_of_stops stops

/-- Every line of output is a single line. -/
theorem Shows.oneLine {output : List String} (h : r.Shows text source output) :
    ∀ line ∈ output, OneLine line := by
  cases h with
  | @roll result =>
    have hresults : ∀ line ∈ result.exprs.map (ExprResult.describe r.limit), OneLine line :=
      List.forall_mem_map.2 fun x _ => x.oneLine_describe r.limit
    have hsuccesses : OneLine ("Successes: " ++ toString result.successes) :=
      oneLine_append.2 ⟨oneLine_ofList (by decide), oneLine_repr _⟩
    have hcritical : OneLine "Critical failure!" := oneLine_ofList (by decide)
    intro line hline
    rcases List.mem_append.1 hline with hline | hline
    · rcases List.mem_append.1 hline with hline | hline
      · rcases List.mem_append.1 hline with hline | hline
        · exact (Roll.oneLine_ofText text).1 line (Option.mem_toList.1 hline)
        · exact hresults line hline
      · split at hline
        · rw [List.mem_singleton.1 hline]
          exact hsuccesses
        · cases hline
    · split at hline
      · rw [List.mem_singleton.1 hline]
        exact hcritical
      · cases hline
  | @trait result =>
    have htotal : OneLine ("Total: " ++ toString result.total) :=
      oneLine_append.2 ⟨oneLine_ofList (by decide), oneLine_repr_int _⟩
    intro line hline
    rcases List.mem_append.1 hline with hline | hline
    · exact (TraitRoll.oneLine_ofText_trait text).1 line (Option.mem_toList.1 hline)
    · rcases List.mem_pair.1 hline with rfl | rfl
      · exact result.oneLine_describe r.limit
      · exact htotal

/-- Every warning is a single line. -/
theorem oneLine_of_mem_warnings {r : Request} {text warning : String}
    (h : warning ∈ (r.messages text).map fun m => "warning: " ++ m.text) : OneLine warning := by
  obtain ⟨m, hm, rfl⟩ := List.mem_map.1 h
  refine oneLine_append.2 ⟨oneLine_ofList (by decide), ?_⟩
  unfold messages at hm
  split at hm
  · exact (TraitRoll.oneLine_ofText_trait text).2 m hm
  · exact (Roll.oneLine_ofText text).2 m hm

end Request

/-- Whatever is printed for a request, every line of it is a single line. -/
theorem oneLine_of_mem_report (r : Request) (text : String) (source : Source) {line : String}
    (h : line ∈ (r.report text source).output ++ (r.report text source).errorLines) :
    OneLine line := by
  rcases Request.report_cases r text source with
    ⟨error, hfails, hreport⟩ | ⟨output, hshows, hreport⟩
  · rw [hreport, errorLines_failure, Report.failure, List.nil_append] at h
    rcases List.mem_append.1 h with h | h
    · exact Request.oneLine_of_mem_warnings h
    · rw [List.mem_singleton.1 h]
      exact oneLine_append.2 ⟨oneLine_ofList (by decide), hfails.oneLine⟩
  · rw [hreport, errorLines_success, Report.success] at h
    rcases List.mem_append.1 h with h | h
    · exact hshows.oneLine line h
    · exact Request.oneLine_of_mem_warnings h

/-- A report is all or nothing. It has exit code one exactly if the request fails. Then nothing
stands on the standard output, and behind a warning for each message there is one line about the
error. Otherwise the output is that of the result and there are warnings alone. No line has a line
break of its own, so that the lines that are printed are these lines. Only with a script for a
source a run can end for want of answers. A run that fails is an overflow of its own: there is no
other failure behind it that a second line would have to tell of. -/
theorem report_all_or_nothing (r : Request) (input : String) (source : Source) :
    let text := r.text input
    let report := r.report text source
    let warnings := (r.messages text).map fun m => "warning: " ++ m.text
    (report.exitCode = 1 ↔ ∃ error, r.Fails text source error) ∧
    ((report.exitCode = 1 ∧ report.output = [] ∧
        ∃ error, r.Fails text source error ∧ report.errorLines = warnings ++ ["Error: " ++ error]) ∨
      (report.exitCode = 0 ∧ r.Shows text source report.output ∧ report.errorLines = warnings)) ∧
    (∀ line ∈ report.output ++ report.errorLines, OneLine line) ∧
    (unlines report.output).toList.splitOn '\n' = report.output.map String.toList ++ [[]] ∧
    (unlines report.errorLines).toList.splitOn '\n' = report.errorLines.map String.toList ++ [[]] ∧
    (source.keepsRange → (source.run (Roll.ofText text).roll).ending ≠ .exhausted ∧
      (source.run (TraitRoll.ofText text).roll).ending ≠ .exhausted) ∧
    (∀ e, (source.run (Roll.ofText text).roll).ending = .failed e →
      ∃ rolled, e = .overflow rolled) ∧
    (∀ e, (source.run (TraitRoll.ofText text).roll).ending = .failed e → e = .dice .overflow) := by
  intro text report warnings
  have hlines : ∀ line ∈ report.output ++ report.errorLines, OneLine line :=
    fun _ => oneLine_of_mem_report r text source
  have houtputLines := splitOn_unlines fun line hline => hlines line (List.mem_append_left _ hline)
  have herrorLines := splitOn_unlines fun line hline => hlines line (List.mem_append_right _ hline)
  have hends (hsource : source.keepsRange) := And.intro
    (source.run_ne_exhausted hsource (Roll.ofText text).roll)
    (source.run_ne_exhausted hsource (TraitRoll.ofText text).roll)
  rcases Request.report_cases r text source with
    ⟨error, hfails, hreport⟩ | ⟨output, hshows, hreport⟩
  · have hcode : report.exitCode = 1 := congrArg Report.exitCode hreport
    have houtput : report.output = [] := congrArg Report.output hreport
    have herrors : report.errorLines = warnings ++ ["Error: " ++ error] :=
      (congrArg Report.errorLines hreport).trans (errorLines_failure _ _)
    exact ⟨iff_of_true hcode ⟨error, hfails⟩, .inl ⟨hcode, houtput, error, hfails, herrors⟩, hlines,
      houtputLines, herrorLines, hends, fun _ => Roll.exists_overflow_of_failed,
      fun _ => TraitRoll.eq_overflow_of_failed⟩
  · have hcode : report.exitCode = 0 := congrArg Report.exitCode hreport
    have houtput : report.output = output := congrArg Report.output hreport
    have herrors : report.errorLines = warnings :=
      (congrArg Report.errorLines hreport).trans (errorLines_success _ _)
    have hsuccess : ¬ report.exitCode = 1 := by
      rw [hcode]
      decide
    have hshown : r.Shows text source report.output := by
      rw [houtput]
      exact hshows
    exact ⟨iff_of_false hsuccess fun ⟨error, hfails⟩ => hshows.not_fails error hfails,
      .inr ⟨hcode, hshown, herrors⟩, hlines, houtputLines, herrorLines, hends,
      fun _ => Roll.exists_overflow_of_failed, fun _ => TraitRoll.eq_overflow_of_failed⟩

/-- A sum that leaves the range of totals, beside a fragment that is no term and has a line break in
it: the request fails with two lines, and the run has come to its end. -/
theorem report_all_or_nothing_overflow :
    let r : Request := { words := ["2147483647 + 1, 5\nq"] }
    let report := r.report (r.text "") .highest
    report.exitCode = 1 ∧ report.output = [] ∧ report.errorLines.length = 2 ∧
      (Source.highest.run (Roll.ofText (r.text "")).roll).ending ≠ .exhausted := by
  intro r report
  have htext : r.text "" = "2147483647 + 1, 5\nq" := by cbv
  have hexprs : (Roll.ofText "2147483647 + 1, 5\nq").exprs ≠ [] := by
    have hlength : (Roll.ofText "2147483647 + 1, 5\nq").exprs.length = 1 := by cbv
    exact List.ne_nil_of_length_eq_add_one hlength
  have hmessages : (Roll.ofText "2147483647 + 1, 5\nq").messages.length = 1 := by cbv
  have hending : (Source.highest.run (Roll.ofText "2147483647 + 1, 5\nq").roll).ending =
      .failed (.overflow ⟨[(.plus, .number 2147483647), (.plus, .number 1)]⟩) := by cbv
  obtain ⟨error, hstops⟩ : ∃ error,
      Stops (Source.highest.run (Roll.ofText "2147483647 + 1, 5\nq").roll).ending error := by
    rw [hending]
    exact ⟨_, .failed _⟩
  have hfails : r.Fails (r.text "") .highest error := by
    rw [htext]
    exact .roll rfl hexprs hstops
  obtain ⟨hcode, hreport, -, -, -, hends, -⟩ := report_all_or_nothing r "" .highest
  have hone : report.exitCode = 1 := hcode.2 ⟨error, hfails⟩
  rcases hreport with ⟨-, houtput, _, -, herrors⟩ | ⟨hzero, -⟩
  · have hlength := congrArg List.length herrors
    have hwarnings : r.messages (r.text "") = (Roll.ofText "2147483647 + 1, 5\nq").messages := by
      rw [htext]
      rfl
    rw [List.length_append, List.length_map, hwarnings, hmessages] at hlength
    exact ⟨hone, houtput, hlength, (hends rfl).1⟩
  · exact absurd (hone.symm.trans hzero) (by decide)

end Cli

end TabletopDice
