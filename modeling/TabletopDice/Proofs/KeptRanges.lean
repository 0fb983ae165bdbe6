import Mathlib
import TabletopDice.DiceRoll
import TabletopDice.Source
import TabletopDice.Proofs.PerfectShuffle
import TabletopDice.Proofs.RolledParts
import TabletopDice.Proofs.Selecting

/-!
# Sources that keep the range

A roll relies on its answers: as long as each lies in the range that it is asked from, dice show
faces that they have and a shuffle never meets a place that there is not. Main statements: with a
source that keeps the range nothing but an inverted range is refused, every draw of every die is one
of its faces, and a shuffle gives an order of the numbers (`keepsRange_legal`); and a seeded source
answers with the first of its words that is not rejected, of which there always is one
(`below_eq_first`).
-/

namespace TabletopDice

namespace Rolling

variable {ε α β σ : Type}

/-! ## Rolls that settle -/

/-- As long as every answer lies in the range that is asked for, the roll ends with a value that
fulfils the condition. -/
def Settles (P : α → Prop) : Rolling ε α → Prop
  | .done a => P a
  | .fail _ => False
  | .draw lo hi next => lo ≤ hi ∧ ∀ v, lo ≤ v → v ≤ hi → (next v).Settles P

/-- A roll that settles, followed by one that settles from there. -/
theorem Settles.bind {P : α → Prop} {Q : β → Prop} {t : Rolling ε α} {f : α → Rolling ε β}
    (ht : t.Settles P) (hf : ∀ a, P a → (f a).Settles Q) : (t >>= f).Settles Q := by
  induction t with
  | done a => exact hf a ht
  | fail e => exact ht.elim
  | draw lo hi next ih => exact ⟨ht.1, fun v hlo hhi => ih v (ht.2 v hlo hhi)⟩

/-- A condition may be weakened. -/
theorem Settles.mono {P Q : α → Prop} {t : Rolling ε α} (ht : t.Settles P) (hPQ : ∀ a, P a → Q a) :
    t.Settles Q := by
  induction t with
  | done a => exact hPQ a ht
  | fail e => exact ht
  | draw lo hi next ih => exact ⟨ht.1, fun v hlo hhi => ih v (ht.2 v hlo hhi)⟩

/-- A number is answered within its range. -/
theorem settles_int {lo hi : Nat} (h : lo ≤ hi) :
    (int lo hi).Settles fun v => lo ≤ v ∧ v ≤ hi := by
  rw [int_of_le h]
  exact ⟨h, fun v hlo hhi => ⟨hlo, hhi⟩⟩

/-- Every member of a sequence settles. -/
theorem settles_mapM {P : β → Prop} {f : α → Rolling ε β} {xs : List α}
    (h : ∀ x ∈ xs, (f x).Settles P) : (xs.mapM f).Settles fun bs => ∀ b ∈ bs, P b := by
  induction xs with
  | nil => exact List.forall_mem_nil P
  | cons x xs ih =>
    rw [List.mapM_cons]
    refine (h x (.head _)).bind fun b hb => ?_
    refine (ih fun x hx => h x (.tail _ hx)).bind fun bs hbs => ?_
    exact List.forall_mem_cons.2 ⟨hb, hbs⟩

/-- A roller that, in any of these states, answers within every range that is not inverted, and is
in one of these states again. -/
def Keeps (r : Roller σ) (I : σ → Prop) : Prop :=
  ∀ s lo hi, I s → lo ≤ hi → ∃ v s', r.next s lo hi = some (v, s') ∧ lo ≤ v ∧ v ≤ hi ∧ I s'

/-- What a roll settles for is what such a roller makes of it. -/
theorem Settles.run {P : α → Prop} {t : Rolling ε α} {r : Roller σ} {I : σ → Prop}
    (ht : t.Settles P) (hr : Keeps r I) {s : σ} (hs : I s) :
    ∃ a, (r.run t s).ending = .value a ∧ P a := by
  induction t generalizing s with
  | done a => exact ⟨a, rfl, ht⟩
  | fail e => exact ht.elim
  | draw lo hi next ih =>
    obtain ⟨v, s', hnext, hlo, hhi, hs'⟩ := hr s lo hi hs ht.1
    obtain ⟨a, hending, ha⟩ := ih v (ht.2 v hlo hhi) hs'
    refine ⟨a, ?_, ha⟩
    rw [Roller.run_draw, hnext]
    exact hending

end Rolling

open Rolling

/-! ## Dice that settle -/

/-- The faces of a die with this many sides. -/
def Die.Legal (sides : Nat) (die : Die) : Prop :=
  ∀ v ∈ die.draws, 1 ≤ v ∧ v ≤ sides

section Dice

variable {sides : Nat}

theorem legal_single {v : Nat} (h : 1 ≤ v ∧ v ≤ sides) : (Die.single v).Legal sides :=
  List.forall_mem_singleton.2 h

theorem Die.Legal.push {die : Die} {v : Nat} (hdie : die.Legal sides) (h : 1 ≤ v ∧ v ≤ sides) :
    (die.push v).Legal sides :=
  List.forall_mem_append.2 ⟨hdie, List.forall_mem_singleton.2 h⟩

/-- Each further draw of an explosion is a face, and so the explosion goes on with a die that has
nothing but faces. -/
theorem settles_explodeFrom (hsides : 1 ≤ sides) (threshold room latest : Nat) {die : Die}
    (hdie : die.Legal sides) :
    (die.explodeFrom threshold sides room latest).Settles (Die.Legal sides) := by
  induction room generalizing latest die with
  | zero => exact hdie
  | succ room ih =>
    unfold Die.explodeFrom
    split
    · exact hdie
    · exact (settles_int hsides).bind fun v hv => ih v (hdie.push hv)

namespace Dice

variable {d : Dice}

/-- Every face of a die with sides is legal. -/
theorem settles_rollDie (hsides : 1 ≤ d.sides) : d.rollDie.Settles (Die.Legal d.sides) := by
  rw [rollDie_eq]
  exact (settles_int hsides).bind fun v hv => settles_explodeFrom hsides _ _ _ (legal_single hv)

/-- Selections change no draws and never fail, so the group settles as its dice do. -/
theorem settles_roll (hsides : 1 ≤ d.sides) :
    d.roll.Settles fun r => ∀ die ∈ r.rolls, die.Legal d.sides := by
  have hdice : ((List.replicate d.count d).mapM rollDie).Settles
      fun rolls => ∀ die ∈ rolls, die.Legal d.sides :=
    settles_mapM fun x hx => by
      rw [(List.mem_replicate.1 hx).2]
      exact settles_rollDie hsides
  refine hdice.bind fun rolls hrolls => ?_
  obtain ⟨r, hr⟩ := RolledDice.exists_applyAll d.selections { dice := d, rolls }
  have hdraws : r.rolls.map Die.draws = rolls.map Die.draws :=
    RolledDice.map_rolls_of_applyAll (fun _ _ => rfl) hr
  rw [hr]
  intro die hdie
  obtain ⟨die', hdie', heq⟩ := List.mem_map.1 (hdraws ▸ List.mem_map_of_mem hdie)
  have hlegal := hrolls die' hdie'
  unfold Die.Legal at hlegal ⊢
  rwa [heq] at hlegal

end Dice

end Dice

/-! ## Shuffles that settle -/

/-- No place beyond the one that is exchanged is asked for, so that every place that is drawn is one
of the sequence. -/
theorem settles_shuffleFrom {i : Nat} {xs : Array Nat} (hi : i ≤ xs.size - 1) :
    (shuffleFrom i xs).Settles fun ys => ys.Perm xs.toList := by
  induction i generalizing xs with
  | zero => exact List.Perm.refl _
  | succ i ih =>
    refine ⟨Nat.zero_le _, fun j _ hj => ?_⟩
    dsimp only
    rw [if_pos (by omega)]
    have hsize : i ≤ (xs.swapIfInBounds (i + 1) j).size - 1 := by
      rw [Array.size_swapIfInBounds]
      omega
    exact (ih hsize).mono fun ys hys => hys.trans (perm_exchange xs (i + 1) j)

/-- A shuffle comes to a permutation. -/
theorem settles_shuffle (n : Nat) :
    (shuffle n).Settles fun order => order.Perm (List.range' 1 n) :=
  settles_shuffleFrom (by simp)

/-! ## Words of a seeded source -/

namespace Seeded

/-- A number with the state after it, the next one, and so on. -/
def stream (p : Nat × UInt64) : Nat → Nat × UInt64
  | 0 => p
  | k + 1 => stream (next p.2) k

/-- Whether a 32-bit number is not rejected when it is scaled to a number below `n`. -/
def Accepted (n r : Nat) : Prop :=
  (UInt32.size - n) % n ≤ r * n % UInt32.size

/-- Where the fuel suffices for a number that is not rejected, scaling stops at the first one. -/
theorem scale_eq_first {n fuel k : Nat} {p : Nat × UInt64} (hk : k < fuel)
    (h : Accepted n (stream p k).1) :
    ∃ j, (∀ i < j, ¬ Accepted n (stream p i).1) ∧ Accepted n (stream p j).1 ∧
      scale n ((UInt32.size - n) % n) fuel p.1 p.2 =
        ((stream p j).1 * n / UInt32.size, (stream p j).2) := by
  induction fuel generalizing k p with
  | zero => exact absurd hk (Nat.not_lt_zero k)
  | succ fuel ih =>
    rw [scale]
    by_cases hfirst : Accepted n p.1
    · refine ⟨0, fun i hi => absurd hi (Nat.not_lt_zero i), hfirst, ?_⟩
      rw [if_neg (Nat.not_lt.2 hfirst)]
      rfl
    · cases k with
      | zero => exact absurd h hfirst
      | succ k =>
        obtain ⟨j, hrejected, haccepted, hscale⟩ := ih (Nat.lt_of_succ_lt_succ hk) h
        refine ⟨j + 1, ?_, haccepted, ?_⟩
        · intro i hi
          cases i with
          | zero => exact hfirst
          | succ i => exact hrejected i (Nat.lt_of_succ_lt_succ hi)
        · rw [if_pos (Nat.lt_of_not_le hfirst)]
          exact hscale

/-- The numbers from the next state on are the later ones. -/
theorem stream_next (s : UInt64) (k : Nat) :
    stream (next s) k = next (s + UInt64.ofNat k * increment) := by
  induction k generalizing s with
  | zero => simp [stream]
  | succ k ih =>
    have hstate : (next s).2 + UInt64.ofNat k * increment =
        s + UInt64.ofNat (k + 1) * increment := by
      show s + increment + UInt64.ofNat k * increment = _
      rw [UInt64.ofNat_add, UInt64.ofNat_one]
      grind
    rw [stream, ih, hstate]

/-- The number one is never rejected. -/
theorem accepted_one {n : Nat} (hn : 0 < n) (hsize : n < UInt32.size) : Accepted n 1 := by
  unfold Accepted
  rw [Nat.one_mul, Nat.mod_eq_of_lt hsize]
  exact Nat.le_of_lt (Nat.mod_lt _ hn)

/-- Since the state grows by an odd number it passes through all values, and the number one is that
of some value. -/
theorem exists_stream_one (s : UInt64) : ∃ k < UInt64.size, (stream (next s) k).1 = 1 := by
  -- a state with the number one, and the inverse of what the state grows by
  let steps : UInt64 := (2713328213 - increment - s) * 3666594518771085101
  refine ⟨steps.toNat, steps.toNat_lt_size, ?_⟩
  have hstate : s + UInt64.ofNat steps.toNat * increment + increment = 2713328213 := by
    have hinverse : (3666594518771085101 : UInt64) * increment = 1 := by decide
    rw [UInt64.ofNat_toNat]
    show s + (2713328213 - increment - s) * 3666594518771085101 * increment + increment = _
    rw [UInt64.mul_assoc, hinverse]
    grind
  rw [stream_next]
  show (word (s + UInt64.ofNat steps.toNat * increment + increment)).toNat % UInt32.size = 1
  rw [hstate]
  decide

/-- A number below a bound is the first one of the stream that is not rejected, scaled to the bound.
There always is one, so that the replacements come to an end. -/
theorem below_eq_first {n : Nat} (hn : 0 < n) (hsize : n < UInt32.size) (s : UInt64) :
    ∃ j, (∀ i < j, ¬ Accepted n (stream (next s) i).1) ∧ Accepted n (stream (next s) j).1 ∧
      below n s = ((stream (next s) j).1 * n / UInt32.size, (stream (next s) j).2) := by
  obtain ⟨k, hk, hone⟩ := exists_stream_one s
  exact scale_eq_first hk (hone ▸ accepted_one hn hsize)

end Seeded

/-! ## The sources that keep the range -/

/-- Sources that keep the range go on doing so. -/
theorem keeps_keepsRange : Keeps Source.roller fun s => s.keepsRange := by
  intro s lo hi hs h
  have hnext : ∃ v s', s.next lo hi = some (v, s') := by
    cases s with
    | script answers => cases hs
    | constant n => exact ⟨_, _, rfl⟩
    | highest => exact ⟨_, _, rfl⟩
    | seeded state => exact ⟨_, _, rfl⟩
  obtain ⟨v, s', hnext⟩ := hnext
  exact ⟨v, s', hnext, Source.next_mem hs h hnext⟩

/-- What a source that keeps the range makes of a question. -/
theorem run_int_of_keepsRange {s : Source} (hs : s.keepsRange) {lo hi : Nat} (h : lo ≤ hi) :
    ∃ v s', s.run (int lo hi) = ⟨.value v, [v], s'⟩ ∧ lo ≤ v ∧ v ≤ hi ∧ s'.keepsRange := by
  obtain ⟨v, s', hnext, hlo, hhi, hs'⟩ := keeps_keepsRange s lo hi hs h
  refine ⟨v, s', ?_, hlo, hhi, hs'⟩
  unfold Source.run
  rw [int_of_le h, Roller.run_draw, hnext]
  rfl

/-- A source that keeps the range refuses an inverted range, staying as it is, and nothing else: any
other range is answered within it, by a source that keeps the range as well. So every draw of every
die of a group whose dice have sides is one of their faces, and a shuffle gives the numbers from one
up to its size in some order. -/
theorem keepsRange_legal (s : Source) (hs : s.keepsRange) :
    (∀ lo hi, s.run (int lo hi) = ⟨.failed (.invalidRange lo hi), [], s⟩ ↔ hi < lo) ∧
    (∀ lo hi, lo ≤ hi →
      ∃ v s', s.run (int lo hi) = ⟨.value v, [v], s'⟩ ∧ lo ≤ v ∧ v ≤ hi ∧ s'.keepsRange) ∧
    (∀ d : Dice, 1 ≤ d.sides → ∃ r, (s.run d.roll).ending = .value r ∧
      ∀ die ∈ r.rolls, ∀ v ∈ die.draws, 1 ≤ v ∧ v ≤ d.sides) ∧
    ∀ n, ∃ order, (s.run (shuffle n)).ending = .value order ∧ order.Perm (List.range' 1 n) := by
  refine ⟨fun lo hi => ⟨fun hrun => ?_, fun h => ?_⟩, fun lo hi => run_int_of_keepsRange hs,
    fun d hsides => (d.settles_roll hsides).run keeps_keepsRange hs,
    fun n => (settles_shuffle n).run keeps_keepsRange hs⟩
  · by_contra hle
    obtain ⟨v, s', hvalue, -⟩ := run_int_of_keepsRange hs (Nat.le_of_not_lt hle)
    rw [hvalue] at hrun
    cases hrun
  · unfold Source.run
    rw [int_of_lt h]
    rfl

/-- A seeded source: an inverted range leaves its state as it is, dice that explode show faces from
one to eight, and five numbers are put in some order. -/
theorem keepsRange_legal_seeded :
    (Source.seeded 7).keepsRange ∧
    (Source.seeded 7).run (int 6 1) = ⟨.failed (.invalidRange 6 1), [], .seeded 7⟩ ∧
    (∃ v s', (Source.seeded 7).run (int 3 8) = ⟨.value v, [v], s'⟩ ∧ 3 ≤ v ∧ v ≤ 8 ∧
      s'.keepsRange) ∧
    (∃ r, ((Source.seeded 7).run
        { count := 3, sides := 8, explosion := some ⟨some 2, true⟩ : Dice }.roll).ending =
          .value r ∧
      ∀ die ∈ r.rolls, ∀ v ∈ die.draws, 1 ≤ v ∧ v ≤ 8) ∧
    ∃ order, ((Source.seeded 7).run (shuffle 5)).ending = .value order ∧
      order.Perm [1, 2, 3, 4, 5] := by
  obtain ⟨hrefused, hanswered, hdice, hshuffle⟩ := keepsRange_legal (.seeded 7) rfl
  exact ⟨rfl, (hrefused 6 1).2 (by decide), hanswered 3 8 (by decide),
    hdice { count := 3, sides := 8, explosion := some ⟨some 2, true⟩ } (by decide),
    hshuffle 5⟩

end TabletopDice
