import TabletopDice.Noted
import TabletopDice.Written.Token

/-!
# Outlines

Tokens sorted into the parts of a roll: the fragments of each expression, and the parts that can be
given only once. Of the latter the first one is kept, wherever it stands, and the fragments around
it grow together.
-/

namespace TabletopDice.Written

/-! ## Parts given once -/

/-- The parts of roll text that can be given only once, as written. -/
structure Slots where
  target : Option (List Char) := none
  targetHighest : Option (List Char) := none
  modifier : Option (Sign × List Char) := none
  wildDie : Option (List Char) := none
deriving DecidableEq, Repr

/-- Fills a part that is still empty, and notes one that is given again. -/
def fill {α : Type} (part : SinglePart) (slot : Option α) (a : α) : Noted (Option α) :=
  match slot with
  | none => pure (some a)
  | some old => ⟨some old, [.duplicate part]⟩

/-! ## Expressions -/

/-- A term of an expression as written, with its sign. -/
structure Fragment where
  sign : Sign
  chars : List Char
deriving DecidableEq, Repr

/-- The text of a fragment with its sign. -/
def Fragment.text (f : Fragment) : String :=
  String.ofList (f.sign.symbol :: f.chars)

/-- Expressions on the way: those that are finished, the finished fragments of the next one, and
the fragment in progress with the sign written before it. -/
structure Draft where
  exprs : List (List Fragment) := []
  fragments : List Fragment := []
  sign : Option Sign := none
  chars : List Char := []
  hadContent : Bool := false
deriving DecidableEq, Repr

namespace Draft

/-- Finishes the fragment in progress. A sign without a fragment is noted. -/
def closeTerm (d : Draft) : Noted Draft :=
  match d.chars, d.sign with
  | [], none => pure d
  | [], some s => ⟨{ d with sign := none }, [.missingTerm s]⟩
  | c :: cs, s =>
    pure { d with
      fragments := d.fragments ++ [⟨s.getD .plus, c :: cs⟩]
      sign := none
      chars := [] }

/-- Finishes the expression in progress, if it has any fragments. -/
def closeExpr (d : Draft) : Noted Draft := do
  let d ← d.closeTerm
  if d.fragments.isEmpty then pure d
  else pure { d with exprs := d.exprs ++ [d.fragments], fragments := [] }

/-- Starts a fragment with a sign. -/
def startTerm (s : Sign) (d : Draft) : Noted Draft := do
  let d ← d.closeTerm
  pure { d with sign := some s, hadContent := true }

/-- Adds text to the fragment in progress. -/
def addText (cs : List Char) (d : Draft) : Draft :=
  { d with chars := d.chars ++ cs, hadContent := true }

end Draft

/-! ## Outlines -/

/-- The parts of roll text: the parts given once and the expressions. -/
structure Outline where
  slots : Slots := {}
  draft : Draft := {}
deriving DecidableEq, Repr

namespace Outline

/-- The fragments of each expression. -/
def exprs (o : Outline) : List (List Fragment) :=
  o.draft.exprs

/-- Whether there are any signs or texts at all. -/
def hadContent (o : Outline) : Bool :=
  o.draft.hadContent

/-- The outline after one more token. -/
def add (o : Outline) : Token → Noted Outline
  | .target ds => do
    let slot ← fill .targetNumber o.slots.target ds
    pure { o with slots := { o.slots with target := slot } }
  | .targetHighest ds => do
    let slot ← fill .targetHighest o.slots.targetHighest ds
    pure { o with slots := { o.slots with targetHighest := slot } }
  | .modifier s ds => do
    let slot ← fill .globalModifier o.slots.modifier (s, ds)
    pure { o with slots := { o.slots with modifier := slot } }
  | .wildDie ds => do
    let slot ← fill .wildDie o.slots.wildDie ds
    pure { o with slots := { o.slots with wildDie := slot } }
  | .separator => do
    let draft ← o.draft.closeExpr
    pure { o with draft }
  | .sign s => do
    let draft ← o.draft.startTerm s
    pure { o with draft }
  | .text cs => pure { o with draft := o.draft.addText cs }

/-- The outline of a sequence of tokens. -/
def ofTokens (ts : List Token) : Noted Outline := do
  let o ← ts.foldlM add {}
  let draft ← o.draft.closeExpr
  pure { o with draft }

end Outline

end TabletopDice.Written
