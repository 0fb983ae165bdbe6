import TabletopDice.DiceError

/-!
# Rolling

A roll is a tree that asks for numbers and goes on with the answers, without saying where they come
from. A roller answers the questions. Main statements: running a roll followed by another is running
the one and then the other from the state that the first leaves (`run_bind`), and the draws of a run
are those of its parts in order.
-/

namespace TabletopDice

/-! ## Rolls as trees -/

/-- A roll that ends with a value or a failure, or asks for a number from `lo` to `hi` and goes on
with the answer. -/
inductive Rolling (ε α : Type) where
  | done (a : α)
  | fail (e : ε)
  | draw (lo hi : Nat) (next : Nat → Rolling ε α)

namespace Rolling

variable {ε ε' α β γ σ : Type}

/-- One roll after the other. A failure of the first is the failure of the whole. -/
protected def bind : Rolling ε α → (α → Rolling ε β) → Rolling ε β
  | done a, f => f a
  | fail e, _ => fail e
  | draw lo hi next, f => draw lo hi fun v => (next v).bind f

instance : Monad (Rolling ε) where
  pure := done
  bind := Rolling.bind

@[simp] theorem pure_eq (a : α) : (pure a : Rolling ε α) = done a := rfl

@[simp] theorem done_bind (a : α) (f : α → Rolling ε β) : (done a >>= f) = f a := rfl

@[simp] theorem fail_bind (e : ε) (f : α → Rolling ε β) : (fail e >>= f) = fail e := rfl

/-- What follows a roll waits for the answers to its questions. -/
@[simp] theorem draw_bind (lo hi : Nat) (next : Nat → Rolling ε α) (f : α → Rolling ε β) :
    (draw lo hi next >>= f) = draw lo hi fun v => next v >>= f := rfl

/-- Ending a roll with its own value changes nothing. -/
theorem bind_done (t : Rolling ε α) : (t >>= done) = t := by
  induction t with
  | done a => rfl
  | fail e => rfl
  | draw lo hi next ih => simp [ih]

/-- How a sequence of rolls is grouped makes no difference. -/
theorem bind_assoc (t : Rolling ε α) (f : α → Rolling ε β) (g : β → Rolling ε γ) :
    (t >>= f >>= g) = (t >>= fun a => f a >>= g) := by
  induction t with
  | done a => rfl
  | fail e => rfl
  | draw lo hi next ih => simp [ih]

instance : LawfulMonad (Rolling ε) :=
  LawfulMonad.mk' _ bind_done (fun _ _ => rfl) bind_assoc

/-- The same roll with its failure put into other words. -/
def mapError (f : ε → ε') : Rolling ε α → Rolling ε' α
  | done a => done a
  | fail e => fail (f e)
  | draw lo hi next => draw lo hi fun v => (next v).mapError f

/-- A roll that draws nothing. -/
def ofExcept : Except ε α → Rolling ε α
  | .ok a => done a
  | .error e => fail e

/-- A number from `lo` to `hi`. An inverted range is refused before anything is drawn. -/
def int (lo hi : Nat) : Rolling DiceError Nat :=
  if hi < lo then fail (.invalidRange lo hi) else draw lo hi done

/-- A face of a die. -/
def face (sides : Nat) : Rolling DiceError Nat :=
  int 1 sides

/-- A range that is not inverted is asked for. -/
theorem int_of_le {lo hi : Nat} (h : lo ≤ hi) : int lo hi = draw lo hi done := by
  simp [int, Nat.not_lt.2 h]

/-- An inverted range is a failure. -/
theorem int_of_lt {lo hi : Nat} (h : hi < lo) : int lo hi = fail (.invalidRange lo hi) := by
  simp [int, h]

end Rolling

/-! ## Rollers -/

/-- A source of numbers. Asked for a number from `lo` to `hi` in some state, it gives an answer and
its next state, or nothing if it has run out of answers. It has no failure of its own: an inverted
range, the only one to refuse, never gets past `Rolling.int`. -/
structure Roller (σ : Type) where
  next : σ → (lo hi : Nat) → Option (Nat × σ)

/-- How a run ends: with a value, with a failure, or because the roller ran out of answers. -/
inductive Ending (ε α : Type) where
  | value (a : α)
  | failed (e : ε)
  | exhausted
deriving DecidableEq, Repr

/-- The same ending with its failure put into other words. -/
def Ending.mapError {ε ε' α : Type} (f : ε → ε') : Ending ε α → Ending ε' α
  | value a => value a
  | failed e => failed (f e)
  | exhausted => exhausted

/-- The ending of a roll that draws nothing. -/
def Ending.ofExcept {ε α : Type} : Except ε α → Ending ε α
  | .ok a => value a
  | .error e => failed e

/-- The text for a roller that has run out of answers. -/
def exhaustedText : String := "iterator is finished"

/-- A run: how it ended, the answers drawn in order, and the state in which it left the roller. -/
structure Run (σ ε α : Type) where
  ending : Ending ε α
  draws : List Nat
  state : σ

namespace Roller

variable {σ ε α β : Type}

/-- Runs a roll after some answers, the latest of which comes first. -/
def runFrom (r : Roller σ) (past : List Nat) : Rolling ε α → σ → Run σ ε α
  | .done a, s => ⟨.value a, past.reverse, s⟩
  | .fail e, s => ⟨.failed e, past.reverse, s⟩
  | .draw lo hi next, s =>
    match r.next s lo hi with
    | some (v, s') => r.runFrom (v :: past) (next v) s'
    | none => ⟨.exhausted, past.reverse, s⟩

/-- Runs a roll with a roller in a given state. -/
def run (r : Roller σ) (t : Rolling ε α) (s : σ) : Run σ ε α :=
  r.runFrom [] t s

/-- Earlier answers only stand in front of the later ones. -/
theorem runFrom_eq (r : Roller σ) (past : List Nat) (t : Rolling ε α) (s : σ) :
    r.runFrom past t s =
      { r.run t s with draws := past.reverse ++ (r.run t s).draws } := by
  induction t generalizing past s with
  | done a => simp [runFrom, run]
  | fail e => simp [runFrom, run]
  | draw lo hi next ih =>
    unfold run runFrom
    cases r.next s lo hi with
    | none => simp
    | some p =>
      obtain ⟨v, s'⟩ := p
      simp only
      rw [ih v (v :: past), ih v [v]]
      simp

@[simp] theorem run_done (r : Roller σ) (a : α) (s : σ) :
    r.run (.done a : Rolling ε α) s = ⟨.value a, [], s⟩ := rfl

@[simp] theorem run_fail (r : Roller σ) (e : ε) (s : σ) :
    r.run (.fail e : Rolling ε α) s = ⟨.failed e, [], s⟩ := rfl

/-- An answer stands in front of those that follow it. -/
theorem run_draw (r : Roller σ) (lo hi : Nat) (next : Nat → Rolling ε α) (s : σ) :
    r.run (.draw lo hi next) s =
      match r.next s lo hi with
      | some (v, s') => { r.run (next v) s' with draws := v :: (r.run (next v) s').draws }
      | none => ⟨.exhausted, [], s⟩ := by
  conv => lhs; unfold run runFrom
  cases r.next s lo hi with
  | none => rfl
  | some p =>
    simp only
    rw [runFrom_eq]
    rfl

/-- A roll and a second one: the second goes on from the state left by the first. -/
theorem run_bind (r : Roller σ) (t : Rolling ε α) (f : α → Rolling ε β) (s : σ) :
    r.run (t >>= f) s =
      match (r.run t s).ending with
      | .value a =>
        let later := r.run (f a) (r.run t s).state
        { later with draws := (r.run t s).draws ++ later.draws }
      | .failed e => ⟨.failed e, (r.run t s).draws, (r.run t s).state⟩
      | .exhausted => ⟨.exhausted, (r.run t s).draws, (r.run t s).state⟩ := by
  induction t generalizing s with
  | done a => simp
  | fail e => simp
  | draw lo hi next ih =>
    simp only [Rolling.draw_bind, run_draw]
    cases r.next s lo hi with
    | none => rfl
    | some p =>
      simp only [ih]
      cases (r.run (next p.1) p.2).ending <;> rfl

/-- Putting a failure into other words leaves the draws and the state as they are. -/
theorem run_mapError {ε' : Type} (r : Roller σ) (f : ε → ε') (t : Rolling ε α) (s : σ) :
    r.run (t.mapError f) s =
      ⟨(r.run t s).ending.mapError f, (r.run t s).draws, (r.run t s).state⟩ := by
  induction t generalizing s with
  | done a => rfl
  | fail e => rfl
  | draw lo hi next ih =>
    simp only [Rolling.mapError, run_draw]
    cases r.next s lo hi with
    | none => rfl
    | some p => simp only [ih]

/-- A computation without draws leaves the state as it is. -/
theorem run_ofExcept (r : Roller σ) (x : Except ε α) (s : σ) :
    r.run (Rolling.ofExcept x) s = ⟨.ofExcept x, [], s⟩ := by
  cases x <;> rfl

end Roller

end TabletopDice
