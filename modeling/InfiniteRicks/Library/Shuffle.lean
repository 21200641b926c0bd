import Mathlib.Data.List.Basic
import Mathlib.Order.Lattice.Nat

/-!
# Drawing without replacement by swaps

The first rounds of a shuffle: round `i` swaps the entry at `i` with one that is drawn at `i` or
above. What a round has drawn stays at its index in the later ones. Over the entries drawn, the
first least one by some key.
-/

namespace InfiniteRicks.Library.Shuffle

variable {α : Type}

/-- The entries at two indexes swapped. -/
def swapAt (entries : List α) (i pos : Nat) : List α :=
  match entries[pos]?, entries[i]? with
  | some drawn, some first => (entries.set pos first).set i drawn
  | _, _ => entries

/-- The list after some rounds, of which round `i` draws the index `draw i`. -/
def shuffle (draw : Nat → Nat) (entries : List α) : Nat → List α
  | 0 => entries
  | rounds + 1 => swapAt (shuffle draw entries rounds) rounds (draw rounds)

/-- What round `i` draws. -/
def drawn (draw : Nat → Nat) (entries : List α) (i : Nat) : Option α := (shuffle draw entries i)[draw i]?

/-- The draws of the first rounds are indexes of the list that have not been drawn before. -/
def Draws (draw : Nat → Nat) (entries : List α) (rounds : Nat) : Prop :=
  ∀ i < rounds, i ≤ draw i ∧ draw i < entries.length

section Swaps

variable {draw : Nat → Nat} {entries : List α}

theorem swapAt_eq {i pos : Nat} (range : i < entries.length) (posRange : pos < entries.length) :
    swapAt entries i pos = (entries.set pos entries[i]).set i entries[pos] := by
  rw [swapAt, List.getElem?_eq_getElem range, List.getElem?_eq_getElem posRange]

theorem swapAt_perm (entries : List α) (i pos : Nat) : (swapAt entries i pos).Perm entries := by
  unfold swapAt
  split
  · rename_i drawn first atPos atI
    obtain ⟨posRange, rfl⟩ := List.getElem?_eq_some_iff.mp atPos
    obtain ⟨range, rfl⟩ := List.getElem?_eq_some_iff.mp atI
    exact List.set_set_perm posRange range
  · exact .refl _

theorem shuffle_perm (draw : Nat → Nat) (entries : List α) (rounds : Nat) :
    (shuffle draw entries rounds).Perm entries := by
  induction rounds with
  | zero => exact .refl _
  | succ rounds ih => exact (swapAt_perm _ _ _).trans ih

theorem length_shuffle (draw : Nat → Nat) (entries : List α) (rounds : Nat) :
    (shuffle draw entries rounds).length = entries.length :=
  (shuffle_perm draw entries rounds).length_eq

theorem shuffle_succ {rounds : Nat} (draws : Draws draw entries (rounds + 1)) :
    ∃ (range : rounds < (shuffle draw entries rounds).length) (posRange : draw rounds < (shuffle draw entries rounds).length),
      shuffle draw entries (rounds + 1) =
        ((shuffle draw entries rounds).set (draw rounds) (shuffle draw entries rounds)[rounds]).set rounds
          (shuffle draw entries rounds)[draw rounds] := by
  obtain ⟨above, below⟩ := draws rounds (Nat.lt_succ_self rounds)
  have posRange : draw rounds < (shuffle draw entries rounds).length := by rwa [length_shuffle]
  have range := lt_of_le_of_lt above posRange
  exact ⟨range, posRange, swapAt_eq range posRange⟩

theorem Draws.mono {rounds fewer : Nat} (draws : Draws draw entries rounds) (le : fewer ≤ rounds) :
    Draws draw entries fewer :=
  fun i below => draws i (lt_of_lt_of_le below le)

/-- What a round has drawn stays at its index. -/
theorem getElem?_shuffle {rounds i : Nat} (draws : Draws draw entries rounds) (below : i < rounds) :
    (shuffle draw entries rounds)[i]? = drawn draw entries i := by
  induction rounds with
  | zero => cases below
  | succ rounds ih =>
      obtain ⟨range, posRange, step⟩ := shuffle_succ draws
      rw [step]
      rcases Nat.lt_succ_iff_lt_or_eq.mp below with earlier | rfl
      · have above := (draws rounds (Nat.lt_succ_self rounds)).1
        rw [List.getElem?_set_ne (by omega), List.getElem?_set_ne (by omega)]
        exact ih (draws.mono (Nat.le_succ rounds)) earlier
      · rw [List.getElem?_set_self (by rwa [List.length_set]), drawn, List.getElem?_eq_getElem posRange]

theorem exists_drawn {rounds i : Nat} (draws : Draws draw entries rounds) (below : i < rounds) :
    ∃ entry ∈ entries, drawn draw entries i = some entry := by
  have range : draw i < (shuffle draw entries i).length := by
    rw [length_shuffle]
    exact (draws i below).2
  exact ⟨_, (shuffle_perm draw entries i).subset (List.getElem_mem range), List.getElem?_eq_getElem range⟩

end Swaps

section Least

variable {β : Type} [LinearOrder β] {key : Nat → β} {n i j : Nat}

/-- The first of the indexes below `n` at which a key is least. -/
structure FirstLeast (key : Nat → β) (n i : Nat) : Prop where
  below : i < n
  least : ∀ j < n, key i ≤ key j
  first : ∀ j < i, key i < key j

theorem FirstLeast.unique (left : FirstLeast key n i) (right : FirstLeast key n j) : i = j := by
  rcases lt_trichotomy i j with before | same | after
  · exact absurd (right.first i before) (not_lt.mpr (left.least j right.below))
  · exact same
  · exact absurd (left.first j after) (not_lt.mpr (right.least i left.below))

theorem firstLeast_one (key : Nat → β) : FirstLeast key 1 0 where
  below := Nat.zero_lt_one
  least j below := by rw [Nat.lt_one_iff.mp below]
  first j below := absurd below (Nat.not_lt_zero j)

theorem FirstLeast.keep (least : FirstLeast key n i) (notLess : ¬ key n < key i) : FirstLeast key (n + 1) i where
  below := Nat.lt_succ_of_lt least.below
  least j below := by
    rcases Nat.lt_succ_iff_lt_or_eq.mp below with earlier | rfl
    · exact least.least j earlier
    · exact not_lt.mp notLess
  first := least.first

theorem FirstLeast.replace (least : FirstLeast key n i) (less : key n < key i) : FirstLeast key (n + 1) n where
  below := Nat.lt_succ_self n
  least j below := by
    rcases Nat.lt_succ_iff_lt_or_eq.mp below with earlier | rfl
    · exact (lt_of_lt_of_le less (least.least j earlier)).le
    · exact le_rfl
  first j below := lt_of_lt_of_le less (least.least j below)

end Least

end InfiniteRicks.Library.Shuffle
