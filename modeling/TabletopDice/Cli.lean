import TabletopDice.Source
import TabletopDice.Written.Roll
import TabletopDice.Written.TraitRoll

/-!
# The command line

What the program is asked for and what it reports, as values. A report is all or nothing: either
there are lines of output, or there is one line that tells of an error. Messages about the text are
warnings in either case.
-/

namespace TabletopDice.Cli

/-! ## Requests -/

/-- What the program is asked for: the words of the roll text, whether it is a trait roll, the seed,
and how many dice are listed for each group. -/
structure Request where
  words : List String := []
  trait : Bool := false
  seed : Option UInt64 := none
  limit : Option Nat := none
deriving DecidableEq, Repr, Inhabited

/-- A natural number below a bound as an argument. -/
def readNumber (name value : String) (bound : Nat) : Except String Nat :=
  match value.toNat? with
  | some n =>
    if n < bound then .ok n else .error ("number for " ++ name ++ " is too large: " ++ value)
  | none => .error ("invalid number for " ++ name ++ ": " ++ value)

/-- The request that some arguments make. After two dashes everything is text. -/
def Request.ofArgs (r : Request) : List String → Except String Request
  | [] => .ok r
  | "--" :: rest => .ok { r with words := r.words ++ rest }
  | "--trait" :: rest | "-t" :: rest => ofArgs { r with trait := true } rest
  | "--seed" :: value :: rest | "-s" :: value :: rest => do
    let n ← readNumber "the seed" value (2 ^ 64)
    ofArgs { r with seed := some (UInt64.ofNat n) } rest
  | "--limit" :: value :: rest | "-l" :: value :: rest => do
    let n ← readNumber "the limit" value (2 ^ 64)
    ofArgs { r with limit := some n } rest
  | word :: rest =>
    if word.startsWith "-" then .error ("unexpected argument: " ++ word)
    else ofArgs { r with words := r.words ++ [word] } rest

/-- The first line of a text. -/
def firstLine (text : String) : String :=
  String.ofList (text.toList.takeWhile (· != '\n'))

/-- The roll text of a request: its words, or the first line of the standard input if there are
none. -/
def Request.text (r : Request) (input : String) : String :=
  if r.words.isEmpty then firstLine input else " ".intercalate r.words

/-! ## Reports -/

/-- What the program reports: its lines of output, the warnings, and the error if there is one. -/
structure Report where
  output : List String
  warnings : List String
  error : Option String
deriving DecidableEq, Repr

namespace Report

/-- A report without an error. -/
def success (messages : List Message) (output : List String) : Report :=
  { output, warnings := messages.map Message.text, error := none }

/-- A report of an error, without output. -/
def failure (messages : List Message) (error : String) : Report :=
  { output := [], warnings := messages.map Message.text, error := some error }

/-- The exit code of a report. -/
def exitCode (r : Report) : Nat :=
  if r.error.isSome then 1 else 0

/-- The lines on the standard error output: the warnings, and then the error. -/
def errorLines (r : Report) : List String :=
  r.warnings.map ("warning: " ++ ·) ++ r.error.toList.map ("Error: " ++ ·)

end Report

/-- Lines with an end after each. -/
def unlines (lines : List String) : String :=
  String.join (lines.map (· ++ "\n"))

/-! ## Rolling -/

/-- The report of a run: output made from its value, or an error. -/
def reportRun {α : Type} (messages : List Message) (output : α → List String)
    (run : Run Source RollError α) : Report :=
  match run.ending with
  | .value a => .success messages (output a)
  | .failed e => .failure messages e.text
  | .exhausted => .failure messages exhaustedText

/-- The output of a roll: the lines of its result, the number of successes if there is a target
number, and a line for a critical failure. -/
def rollLines (limit : Option Nat) (target : Option Int) (r : RollResult) : List String :=
  r.lines limit ++
    (if target.isSome then ["Successes: " ++ toString r.successes] else []) ++
    (if r.criticalFailure then ["Critical failure!"] else [])

/-- The output of a trait roll: its comment, both dice and the total. -/
def traitLines (limit : Option Nat) (comment : Option String) (r : TraitResult) : List String :=
  comment.toList ++ [r.describe limit, "Total: " ++ toString r.total]

/-- Reads and rolls a text. -/
def reportRoll (limit : Option Nat) (text : String) (source : Source) : Report :=
  let roll := Roll.ofText text
  if roll.isUsable then
    reportRun roll.messages (rollLines limit roll.target) (source.run roll.roll)
  else .failure roll.messages "nothing to roll"

/-- Reads and rolls a text as a trait roll. -/
def reportTrait (limit : Option Nat) (text : String) (source : Source) : Report :=
  let roll := TraitRoll.ofText text
  reportRun roll.messages (traitLines limit roll.comment) (source.run roll.roll)

/-- The report of a request with a text and a source of numbers. -/
def Request.report (r : Request) (text : String) (source : Source) : Report :=
  if r.trait then reportTrait r.limit text source else reportRoll r.limit text source

end TabletopDice.Cli
