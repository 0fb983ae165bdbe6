import TabletopDice.Cli
import TabletopDice.Proofs.LayoutSpelling
import TabletopDice.Proofs.ValidDice

/-!
# Texts on a single line

No text of a result, of a failure or of a message has a line break of its own, as long as what a
message repeats of the roll text has none. Main statements: the texts that are put together from
others stay on one line (`ExprResult.oneLine_describe`, `TraitResult.oneLine_describe`,
`RollError.oneLine_text`, `Message.oneLine_text`), and lines that are printed one after the other
are told apart again by their ends (`splitOn_unlines`).
-/

namespace TabletopDice

/-! ## Line breaks -/

/-- The code points that end a line, for a terminal or for a reader of Unicode text. -/
def lineBreakPoints : List Nat :=
  [0x0A, 0x0B, 0x0C, 0x0D, 0x85, 0x2028, 0x2029]

/-- Whether a character ends a line. -/
def isLineBreak (c : Char) : Bool :=
  lineBreakPoints.contains c.toNat

/-- A text without a line break. -/
def OneLine (s : String) : Prop :=
  ∀ c ∈ s.toList, isLineBreak c = false

/-- Every line break is blank. -/
theorem isLineBreak_eq_false {c : Char} (h : Text.isBlank c = false) : isLineBreak c = false := by
  have hall : ∀ n ∈ lineBreakPoints, n ∈ Text.blankPoints := by decide
  rw [Bool.eq_false_iff] at h ⊢
  intro hbreak
  exact h (Text.isBlank_iff.2 (hall _ (by simpa [isLineBreak] using hbreak)))

/-- A text that is given by its characters. A literal is seen like this, so that the check is one of
characters and not of their encoding. -/
theorem oneLine_ofList {cs : List Char} (h : cs.any isLineBreak = false) :
    OneLine (String.ofList cs) := by
  intro c hc
  rw [String.toList_ofList] at hc
  exact Bool.eq_false_iff.2 (List.any_eq_false.1 h c hc)

/-- Text without blanks is on one line. -/
theorem oneLine_of_noBlank {cs : List Char} (h : ∀ c ∈ cs, Text.isBlank c = false) :
    OneLine (String.ofList cs) := by
  intro c hc
  rw [String.toList_ofList] at hc
  exact isLineBreak_eq_false (h c hc)

theorem oneLine_empty : OneLine "" :=
  oneLine_ofList List.any_nil

/-! ## Putting texts together -/

/-- Two texts are on one line together exactly if each of them is. -/
@[simp] theorem oneLine_append {s t : String} : OneLine (s ++ t) ↔ OneLine s ∧ OneLine t := by
  simp only [OneLine, String.toList_append, List.mem_append, or_imp, forall_and]

/-- Texts that are on one line each are so when joined. -/
theorem oneLine_join {ss : List String} (h : ∀ s ∈ ss, OneLine s) : OneLine (String.join ss) := by
  intro c hc
  rw [String.toList_join] at hc
  obtain ⟨s, hs, hc⟩ := List.mem_flatMap.1 hc
  exact h s hs c hc

/-- A character of texts with a separator between them is in the separator or in one of the
texts. -/
theorem mem_of_mem_intercalate {c : Char} {sep : List Char} {ls : List (List Char)}
    (h : c ∈ sep.intercalate ls) : c ∈ sep ∨ ∃ l ∈ ls, c ∈ l := by
  induction ls with
  | nil => cases h
  | cons l ls ih =>
    cases ls with
    | nil =>
      rw [List.intercalate_singleton] at h
      exact .inr ⟨l, .head _, h⟩
    | cons l' ls =>
      rw [List.intercalate_cons_cons, List.append_assoc, List.mem_append, List.mem_append] at h
      rcases h with h | h | h
      · exact .inr ⟨l, .head _, h⟩
      · exact .inl h
      · exact (ih h).imp_right fun ⟨k, hk, hc⟩ => ⟨k, .tail _ hk, hc⟩

/-- A separator on one line keeps texts on one line. -/
theorem oneLine_intercalate {sep : String} {ss : List String} (hsep : OneLine sep)
    (h : ∀ s ∈ ss, OneLine s) : OneLine (sep.intercalate ss) := by
  intro c hc
  rw [String.toList_intercalate] at hc
  rcases mem_of_mem_intercalate hc with hc | ⟨cs, hcs, hc⟩
  · exact hsep c hc
  · obtain ⟨s, hs, rfl⟩ := List.mem_map.1 hcs
    exact h s hs c hc

/-- A number is written on one line, since its digits are no blanks. -/
@[simp] theorem oneLine_repr (n : Nat) : OneLine n.repr := by
  intro c hc
  rw [← Nat.toString_eq_repr, Written.toList_toString] at hc
  exact isLineBreak_eq_false
    (Written.isBlank_eq_false_of_isDigit (Numeral.isDigit_of_mem_ofNat hc))

/-- An integer is written on one line, with its sign. -/
@[simp] theorem oneLine_repr_int (n : Int) : OneLine n.repr := by
  cases n with
  | ofNat n => exact oneLine_repr n
  | negSucc n => exact oneLine_append.2 ⟨oneLine_ofList (by decide), oneLine_repr (n + 1)⟩

@[simp] theorem oneLine_symbol (s : Sign) : OneLine (String.singleton s.symbol) := by
  cases s <;> exact oneLine_ofList (by decide)

/-! ## Texts of dice -/

@[simp] theorem oneLine_kind (k : Kind) : OneLine k.symbol := by
  cases k <;> exact oneLine_ofList (by decide)

/-- The text of a selection is its symbol and a number. -/
@[simp] theorem Selection.oneLine_text (s : Selection) : OneLine s.text := by
  unfold text
  split <;> simp

/-- The text of an explosion has nothing but marks and a number. -/
@[simp] theorem Explosion.oneLine_text (e : Explosion) : OneLine e.text := by
  obtain ⟨threshold, recursive⟩ := e
  cases threshold <;> cases recursive <;> simp [text] <;> and_intros <;>
    exact oneLine_ofList (by decide)

/-- The text of a group is put together from numbers and the texts of its parts. -/
@[simp] theorem Dice.oneLine_text (d : Dice) : OneLine d.text := by
  have hselections : OneLine (String.join (d.selections.map Selection.text)) :=
    oneLine_join (List.forall_mem_map.2 fun s _ => s.oneLine_text)
  unfold text
  cases d.explosion <;> simp [hselections] <;> exact oneLine_ofList (by decide)

/-- The text of a die has its value, its faces and its marks on one line. -/
@[simp] theorem Die.oneLine_text (d : Die) : OneLine d.text := by
  unfold text
  split <;> split <;> simp <;> and_intros <;> exact oneLine_ofList (by decide)

/-- However many dice of a group are listed, they are listed on one line. -/
@[simp] theorem RolledDice.oneLine_describe (limit : Option Nat) (r : RolledDice) :
    OneLine (r.describe limit) := by
  have hrolls (n : Nat) : OneLine (", ".intercalate ((r.rolls.map Die.text).take n)) := by
    refine oneLine_intercalate (oneLine_ofList (by decide)) fun s hs => ?_
    obtain ⟨d, -, rfl⟩ := List.mem_map.1 (List.mem_of_mem_take hs)
    exact d.oneLine_text
  unfold describe
  dsimp only
  split <;> simp [hrolls] <;> and_intros <;> exact oneLine_ofList (by decide)

/-! ## Texts of expressions -/

/-- Further terms with their signs stay on the line of the first one. -/
theorem oneLine_joinMore {parts : List (Sign × String)} (h : ∀ p ∈ parts, OneLine p.2) :
    OneLine (joinMore parts) := by
  refine oneLine_join (List.forall_mem_map.2 fun p hp => ?_)
  simp only [oneLine_append, Char.toString_eq_singleton, oneLine_symbol, h p hp, and_true,
    and_self]
  exact oneLine_ofList (by decide)

/-- Terms on one line each are so with their signs between them. -/
theorem oneLine_joinSigned {parts : List (Sign × String)} (h : ∀ p ∈ parts, OneLine p.2) :
    OneLine (joinSigned parts) := by
  match parts with
  | [] => exact oneLine_empty
  | (.plus, t) :: rest =>
    exact oneLine_append.2 ⟨h _ (.head _), oneLine_joinMore fun p hp => h p (.tail _ hp)⟩
  | (.minus, t) :: rest =>
    have hmore := oneLine_joinMore fun p hp => h p (.tail _ hp)
    exact oneLine_append.2 ⟨oneLine_append.2 ⟨oneLine_ofList (by decide), h _ (.head _)⟩, hmore⟩

/-- An expression is on one line, since each of its terms is. -/
@[simp] theorem Expr.oneLine_text (e : Expr) : OneLine e.text := by
  refine oneLine_joinSigned (List.forall_mem_map.2 fun p _ => ?_)
  cases p.2 <;> simp [Term.text]

/-- A rolled expression is on one line, however many dice are listed. -/
@[simp] theorem RolledExpr.oneLine_describe (limit : Option Nat) (e : RolledExpr) :
    OneLine (e.describe limit) := by
  refine oneLine_joinSigned (List.forall_mem_map.2 fun p _ => ?_)
  cases p.2 <;> simp [RolledTerm.describe]

/-! ## Results and failures -/

@[simp] theorem Outcome.oneLine_text (o : Outcome) : OneLine o.text := by
  cases o <;> exact oneLine_ofList (by decide)

/-- The result of an expression takes one line. -/
theorem ExprResult.oneLine_describe (limit : Option Nat) (r : ExprResult) :
    OneLine (r.describe limit) := by
  unfold describe
  split <;> simp <;> and_intros <;> exact oneLine_ofList (by decide)

@[simp] theorem TraitDie.oneLine_text (die : TraitDie) : OneLine die.text := by
  cases die <;> exact oneLine_ofList (by decide)

@[simp] theorem TraitResult.oneLine_label (r : TraitResult) (die : TraitDie) :
    OneLine (r.label die) := by
  unfold label
  split
  · simp
    exact oneLine_ofList (by decide)
  · simp

/-- Both dice of a trait roll share one line. -/
theorem TraitResult.oneLine_describe (limit : Option Nat) (r : TraitResult) :
    OneLine (r.describe limit) := by
  unfold describe
  simp
  and_intros <;> exact oneLine_ofList (by decide)

/-- A failure of dice is told on one line. -/
@[simp] theorem DiceError.oneLine_text (e : DiceError) : OneLine e.text := by
  unfold text
  cases e <;> simp <;> and_intros <;> exact oneLine_ofList (by decide)

/-- A failure of a roll is told on one line, together with the expression it is about. -/
theorem RollError.oneLine_text (e : RollError) : OneLine e.text := by
  unfold text
  cases e <;> simp <;> and_intros <;> exact oneLine_ofList (by decide)

/-! ## Messages -/

/-- What a message repeats of the roll text. -/
def Message.quoted : Message → String
  | unknownTerm s | numberTooLarge s | traitQuantity s | extraTraitTerm s => s
  | _ => ""

/-- Quotation marks add no line break. -/
@[simp] theorem oneLine_inQuotes {s : String} : OneLine (inQuotes s) ↔ OneLine s := by
  have hquote : OneLine "\"" := oneLine_ofList (by decide)
  simp [inQuotes, hquote]

@[simp] theorem SinglePart.oneLine_text (p : SinglePart) : OneLine p.text := by
  cases p <;> simp [text] <;> exact oneLine_ofList (by decide)

/-- A message is on one line if what it repeats is. -/
theorem Message.oneLine_text {m : Message} (h : OneLine m.quoted) : OneLine m.text := by
  unfold quoted at h
  unfold text
  cases m <;> simp_all <;> and_intros <;> exact oneLine_ofList (by decide)

/-! ## Printed lines -/

namespace Cli

/-- Lines that are printed with an end after each are told apart by these ends. -/
theorem splitOn_unlines {ls : List String} (h : ∀ l ∈ ls, OneLine l) :
    (unlines ls).toList.splitOn '\n' = ls.map String.toList ++ [[]] := by
  induction ls with
  | nil => rfl
  | cons l ls ih =>
    have hl : '\n' ∉ l.toList := fun hc => absurd (h l (.head _) '\n' hc) (by decide)
    have hsplit : (unlines (l :: ls)).toList = l.toList ++ '\n' :: (unlines ls).toList := by
      simp [unlines]
    rw [hsplit, List.splitOn_append_cons_self_of_not_mem hl, ih fun l hl => h l (.tail _ hl)]
    rfl

end Cli

end TabletopDice
