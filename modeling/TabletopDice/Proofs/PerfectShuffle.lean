import Mathlib
import TabletopDice.Shuffle
import TabletopDice.Proofs.RollPaths

/-!
# Shuffles are perfect

A shuffle exchanges each place, from the last one down, with a place that is not beyond it. Main
statement: every order of the numbers is reached by exactly one sequence of such places, and a
shuffle draws one place less than there are numbers (`shuffle_perfect`).
-/

namespace TabletopDice

open Rolling

/-! ## Places that are drawn -/

/-- The answers that a shuffle of the places up to `i` asks for: one for each place from `i` down to
the second one, and none of them beyond the place that it is for. -/
inductive Places : (i : Nat) → List Nat → Prop where
  | nil : Places 0 []
  | cons {i j : Nat} {js : List Nat} (le : j ≤ i + 1) (later : Places i js) :
      Places (i + 1) (j :: js)

theorem Places.length_eq {i : Nat} {js : List Nat} (h : Places i js) : js.length = i := by
  induction h with
  | nil => rfl
  | cons _ _ ih => rw [List.length_cons, ih]

theorem Places.le_of_mem {i : Nat} {js : List Nat} (h : Places i js) : ∀ j ∈ js, j ≤ i := by
  induction h with
  | nil => exact List.forall_mem_nil _
  | cons le _ ih =>
    exact List.forall_mem_cons.2 ⟨le, fun j hj => Nat.le_succ_of_le (ih j hj)⟩

/-! ## Exchanging two places -/

section Exchange

variable {xs : Array Nat} {i j k : Nat}

/-- An exchange of two places is a permutation. -/
theorem perm_exchange (xs : Array Nat) (i j : Nat) :
    (xs.swapIfInBounds i j).toList.Perm xs.toList := by
  rw [Array.swapIfInBounds_def]
  split
  · split
    · exact (Array.swap_perm _ _).toList
    · exact .refl _
  · exact .refl _

/-- After an exchange the one place has what was in the other. -/
theorem getElem?_exchange_left (hi : i < xs.size) (hj : j < xs.size) :
    (xs.swapIfInBounds i j)[i]? = xs[j]? := by
  rw [Array.swapIfInBounds_def, dif_pos hi, dif_pos hj, Array.getElem?_swap,
    Array.getElem?_eq_getElem hj]
  split
  · next hij => simp only [hij]
  · rw [if_pos rfl]

/-- An exchange leaves all other places as they are. -/
theorem getElem?_exchange_of_ne (hi : i ≠ k) (hj : j ≠ k) :
    (xs.swapIfInBounds i j)[k]? = xs[k]? := by
  rw [Array.swapIfInBounds_def]
  split
  · split
    · rw [Array.getElem?_swap, if_neg hj, if_neg hi]
    · rfl
  · rfl

end Exchange

/-! ## Paths through a shuffle -/

section Paths

variable {xs : Array Nat} {i : Nat} {js js' ys : List Nat}

/-- The last place is filled with the answer, and the places before it are shuffled. -/
theorem path_shuffleFrom_succ_iff :
    Path (shuffleFrom (i + 1) xs) js (.ok ys) ↔
      ∃ j later, js = j :: later ∧ j < xs.size ∧
        Path (shuffleFrom i (xs.swapIfInBounds (i + 1) j)) later (.ok ys) := by
  rw [shuffleFrom, path_draw_iff]
  constructor
  · rintro ⟨j, later, rfl, hpath⟩
    split at hpath
    · next hj => exact ⟨j, later, rfl, hj, hpath⟩
    · cases (path_fail_iff.1 hpath).2
  · rintro ⟨j, later, rfl, hj, hpath⟩
    refine ⟨j, later, rfl, ?_⟩
    rwa [if_pos hj]

/-- Wherever the drawn places lie, a shuffle only rearranges. -/
theorem perm_of_path_shuffleFrom (h : Path (shuffleFrom i xs) js (.ok ys)) :
    ys.Perm xs.toList := by
  induction i generalizing xs js with
  | zero =>
    cases (path_done_iff.1 h).2
    exact .refl _
  | succ i ih =>
    obtain ⟨j, later, rfl, -, hlater⟩ := path_shuffleFrom_succ_iff.1 h
    exact (ih hlater).trans (perm_exchange xs (i + 1) j)

/-- Places within the sequence are never refused. -/
theorem exists_path_shuffleFrom (hlength : js.length = i) (hjs : ∀ j ∈ js, j < xs.size) :
    ∃ ys, Path (shuffleFrom i xs) js (.ok ys) := by
  induction i generalizing xs js with
  | zero =>
    rw [List.eq_nil_of_length_eq_zero hlength]
    exact ⟨_, .done _⟩
  | succ i ih =>
    obtain ⟨j, later, rfl⟩ := List.exists_cons_of_length_eq_add_one hlength
    obtain ⟨hj, hlater⟩ := List.forall_mem_cons.1 hjs
    rw [List.length_cons, Nat.succ_inj] at hlength
    have hlater : ∀ k ∈ later, k < (xs.swapIfInBounds (i + 1) j).size := by simpa using hlater
    obtain ⟨ys, hys⟩ := ih hlength hlater
    exact ⟨ys, path_shuffleFrom_succ_iff.2 ⟨j, later, rfl, hj, hys⟩⟩

/-- Once a place has been exchanged it is final: what stands beyond the place `i` stays there. -/
theorem getElem?_of_path_shuffleFrom (hjs : Places i js)
    (h : Path (shuffleFrom i xs) js (.ok ys)) {k : Nat} (hk : i < k) : ys[k]? = xs[k]? := by
  induction hjs generalizing xs with
  | nil =>
    cases (path_done_iff.1 h).2
    exact Array.getElem?_toList
  | @cons i j js le _ ih =>
    obtain ⟨_, _, hcons, -, hlater⟩ := path_shuffleFrom_succ_iff.1 h
    cases hcons
    rw [ih hlater (by omega), getElem?_exchange_of_ne (by omega) (by omega)]

/-- The place that is exchanged first gets what stood at the drawn place. -/
theorem getElem?_of_path_shuffleFrom_cons {j : Nat} (hi : i + 1 < xs.size) (hj : j < xs.size)
    (hjs : Places i js)
    (h : Path (shuffleFrom i (xs.swapIfInBounds (i + 1) j)) js (.ok ys)) :
    ys[i + 1]? = xs[j]? := by
  rw [getElem?_of_path_shuffleFrom hjs h (Nat.lt_succ_self i), getElem?_exchange_left hi hj]

/-- Different places lead to different orders: what ends up at the last place tells which place was
drawn for it. -/
theorem Places.eq_of_path (hjs : Places i js) (hjs' : Places i js') (hi : i ≤ xs.size - 1)
    (hnodup : xs.toList.Nodup) (h : Path (shuffleFrom i xs) js (.ok ys))
    (h' : Path (shuffleFrom i xs) js' (.ok ys)) : js = js' := by
  induction hjs generalizing xs js' with
  | nil =>
    cases hjs'
    rfl
  | @cons i j js le later ih =>
    cases hjs' with
    | @cons _ j' js' le' later' =>
      obtain ⟨_, _, hcons, hj, hpath⟩ := path_shuffleFrom_succ_iff.1 h
      cases hcons
      obtain ⟨_, _, hcons, hj', hpath'⟩ := path_shuffleFrom_succ_iff.1 h'
      cases hcons
      have hbound : i + 1 < xs.size := by omega
      have hlast : xs[j]? = xs[j']? := by
        rw [← getElem?_of_path_shuffleFrom_cons hbound hj later hpath,
          ← getElem?_of_path_shuffleFrom_cons hbound hj' later' hpath']
      rw [← Array.getElem?_toList, ← Array.getElem?_toList] at hlast
      obtain rfl : j = j' := (List.getElem?_inj (by simpa using hj) hnodup).1 hlast
      have hsize : i ≤ (xs.swapIfInBounds (i + 1) j).size - 1 := by
        rw [Array.size_swapIfInBounds]
        omega
      rw [ih later' hsize ((perm_exchange xs (i + 1) j).nodup_iff.2 hnodup) hpath hpath']

/-- Two orders of the same numbers that differ at the first place at most are equal. -/
theorem eq_of_perm_of_tail {ys zs : List Nat} (hperm : ys.Perm zs)
    (htail : ∀ k, 0 < k → ys[k]? = zs[k]?) : ys = zs := by
  cases ys with
  | nil => rw [List.nil_perm.1 hperm]
  | cons y ys =>
    obtain ⟨z, zs, rfl⟩ := List.exists_cons_of_length_eq_add_one hperm.length_eq.symm
    have hrest : ys = zs := List.ext_getElem? fun k => by
      have := htail (k + 1) (Nat.succ_pos k)
      rwa [List.getElem?_cons_succ, List.getElem?_cons_succ] at this
    subst hrest
    have hfirst : [y].Perm [z] := (List.perm_append_right_iff ys).1 hperm
    rw [List.singleton_perm_singleton.1 hfirst]

/-- Every order that leaves the places beyond `i` as they are is reached: the number that it has at
the place `i` stands at some place up to there, and this is the place to draw. -/
theorem exists_places_of_perm (hi : i ≤ xs.size - 1) (hnodup : xs.toList.Nodup)
    (hperm : ys.Perm xs.toList) (hbeyond : ∀ k, i < k → ys[k]? = xs[k]?) :
    ∃ js, Places i js ∧ Path (shuffleFrom i xs) js (.ok ys) := by
  induction i generalizing xs with
  | zero =>
    have hys : ys = xs.toList := by
      refine eq_of_perm_of_tail hperm fun k hk => ?_
      rw [hbeyond k hk, Array.getElem?_toList]
    rw [hys]
    exact ⟨[], .nil, .done _⟩
  | succ i ih =>
    have hbound : i + 1 < xs.size := by omega
    have hlength : ys.length = xs.size := hperm.length_eq
    obtain ⟨y, hy⟩ : ∃ y, ys[i + 1]? = some y :=
      ⟨_, List.getElem?_eq_getElem (by omega)⟩
    obtain ⟨j, hj⟩ := List.mem_iff_getElem?.1 (hperm.subset (List.mem_of_getElem? hy))
    rw [Array.getElem?_toList] at hj
    have hjs : j < xs.size := (Array.getElem?_eq_some_iff.1 hj).1
    have hle : j ≤ i + 1 := by
      -- beyond the place it would stand at two places of the order
      by_contra hlt
      have htwice : ys[j]? = ys[i + 1]? := by rw [hbeyond j (by omega), hj, hy]
      have hplace := (List.getElem?_inj (by omega) (hperm.nodup_iff.2 hnodup)).1 htwice
      omega
    have hexchange := perm_exchange xs (i + 1) j
    have hsize : i ≤ (xs.swapIfInBounds (i + 1) j).size - 1 := by
      rw [Array.size_swapIfInBounds]
      omega
    obtain ⟨js, hplaces, hpath⟩ := ih hsize (hexchange.nodup_iff.2 hnodup)
      (hperm.trans hexchange.symm) (fun k hk => by
        by_cases hlast : i + 1 = k
        · rw [← hlast, getElem?_exchange_left hbound hjs, hj, hy]
        · rw [getElem?_exchange_of_ne hlast (by omega), hbeyond k (by omega)])
    exact ⟨j :: js, .cons hle hplaces, path_shuffleFrom_succ_iff.2 ⟨j, js, rfl, hjs, hpath⟩⟩

end Paths

/-! ## Whole shuffles -/

section Whole

variable {size : Nat} {js ys : List Nat}

/-- Every shuffle is a permutation, whatever the answers are. -/
theorem perm_of_path_shuffle (h : Path (shuffle size) js (.ok ys)) :
    ys.Perm (List.range' 1 size) :=
  perm_of_path_shuffleFrom h

/-- Answers that are places lead a shuffle to its end. -/
theorem exists_path_shuffle (hlength : js.length = size - 1) (hjs : ∀ j ∈ js, j < size) :
    ∃ ys, Path (shuffle size) js (.ok ys) :=
  exists_path_shuffleFrom hlength (by simpa using hjs)

theorem Places.lt_of_mem (h : Places (size - 1) js) : ∀ j ∈ js, j < size := by
  intro j hj
  have hle := h.le_of_mem j hj
  have hlength := h.length_eq
  have hpos := List.length_pos_of_mem hj
  omega

/-- A script that follows a path to an order has this order as its result. -/
theorem ending_of_path_shuffle (h : Path (shuffle size) js (.ok ys)) :
    (Source.run (.script js) (shuffle size)).ending = .value ys := by
  rw [run_script_self h]

/-- Sequences of drawn places match the orders of the numbers one to one. -/
theorem bijOn_shuffle (size : Nat) :
    Set.BijOn (fun js => (Source.run (.script js) (shuffle size)).ending)
      {js | Places (size - 1) js} (Ending.value '' {order | order.Perm (List.range' 1 size)}) := by
  have hcount : (List.range' 1 size).toArray.size = size := by simp
  have hsize : size - 1 ≤ (List.range' 1 size).toArray.size - 1 := by rw [hcount]
  have hnodup : (List.range' 1 size).toArray.toList.Nodup := List.nodup_range'
  refine ⟨?_, ?_, ?_⟩
  · intro js hjs
    obtain ⟨ys, hys⟩ := exists_path_shuffle hjs.length_eq hjs.lt_of_mem
    exact ⟨ys, perm_of_path_shuffle hys, (ending_of_path_shuffle hys).symm⟩
  · intro js hjs js' hjs' heq
    obtain ⟨ys, hys⟩ := exists_path_shuffle hjs.length_eq hjs.lt_of_mem
    obtain ⟨ys', hys'⟩ := exists_path_shuffle hjs'.length_eq hjs'.lt_of_mem
    dsimp only at heq
    rw [ending_of_path_shuffle hys, ending_of_path_shuffle hys'] at heq
    cases heq
    exact Places.eq_of_path hjs hjs' hsize hnodup hys hys'
  · rintro _ ⟨ys, hperm, rfl⟩
    have hlength : ys.length = size := by rw [hperm.length_eq, List.length_range']
    obtain ⟨js, hjs, hys⟩ := exists_places_of_perm hsize hnodup hperm fun k hk => by
      rw [List.getElem?_eq_none (by omega), Array.getElem?_eq_none (by omega)]
    exact ⟨js, hjs, ending_of_path_shuffle hys⟩

/-- There are as many orders of the numbers as the factorial of their number says. -/
theorem ncard_orders (size : Nat) :
    {order : List Nat | order.Perm (List.range' 1 size)}.ncard = size.factorial := by
  have hset : {order : List Nat | order.Perm (List.range' 1 size)} =
      ((List.range' 1 size).permutations.toFinset : Set (List Nat)) := by
    ext order
    simp
  have hnodup := List.nodup_permutations _ (List.nodup_range' (s := 1) (n := size))
  rw [hset, Set.ncard_coe_finset, List.toFinset_card_of_nodup hnodup, List.length_permutations,
    List.length_range']

end Whole

/-- A shuffle draws one place less than it has numbers, and whatever places within the sequence are
drawn, it gives an order of the numbers. If no drawn place is beyond the one that it is exchanged
with, every one of the orders, which are as many as the factorial of the size, is given by exactly
one sequence of places. -/
theorem shuffle_perfect (size : Nat) :
    (∀ js later, js.length = size - 1 → (∀ j ∈ js, j < size) →
      ∃ order, order.Perm (List.range' 1 size) ∧
        Source.run (.script (js ++ later)) (shuffle size) = ⟨.value order, js, .script later⟩) ∧
    (∀ js, Places (size - 1) js → js.length = size - 1 ∧ ∀ j ∈ js, j < size) ∧
    Set.BijOn (fun js => (Source.run (.script js) (shuffle size)).ending)
      {js | Places (size - 1) js} (Ending.value '' {order | order.Perm (List.range' 1 size)}) ∧
    {order : List Nat | order.Perm (List.range' 1 size)}.ncard = size.factorial := by
  refine ⟨fun js later hlength hjs => ?_, fun js hjs => ⟨hjs.length_eq, hjs.lt_of_mem⟩,
    bijOn_shuffle size, ncard_orders size⟩
  obtain ⟨order, horder⟩ := exists_path_shuffle hlength hjs
  exact ⟨order, perm_of_path_shuffle horder, run_script_of_path horder later⟩

/-- Four numbers: with places within the sequence that are beyond the exchanged ones there is an
order, and without them there is only one way to give the numbers backwards. -/
theorem shuffle_perfect_four :
    (∃ order, order.Perm [1, 2, 3, 4] ∧
      Source.run (.script [3, 3, 3, 7]) (shuffle 4) = ⟨.value order, [3, 3, 3], .script [7]⟩) ∧
    ∃ js, (Places 3 js ∧ (Source.run (.script js) (shuffle 4)).ending = .value [4, 3, 2, 1]) ∧
      ∀ js', Places 3 js' →
        (Source.run (.script js') (shuffle 4)).ending = .value [4, 3, 2, 1] → js' = js := by
  obtain ⟨hany, -, hbij, -⟩ := shuffle_perfect 4
  refine ⟨hany [3, 3, 3] [7] rfl (by decide), ?_⟩
  obtain ⟨js, hjs, hrun⟩ := hbij.surjOn ⟨[4, 3, 2, 1], by decide, rfl⟩
  refine ⟨js, ⟨hjs, hrun⟩, fun js' hjs' hrun' => ?_⟩
  exact hbij.injOn hjs' hjs (hrun'.trans hrun.symm)

end TabletopDice
