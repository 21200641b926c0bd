import InfiniteRicks.Difficulty

/-!
# How far block times can fall

`AcceptBlock` accepts a block whose time is later than the median of the eleven times before it and
at most ten minutes earlier than its parent's. Times are not monotone under these two rules, but the
drift can act for five blocks only until the median has caught up: a block is never more than fifty
minutes older than any of its ancestors.
-/

namespace InfiniteRicks

section OrderStatistic

/-- In a list in order, what stands at an index is not below a bound that at most so many elements are below. -/
theorem le_getElem_of_countP {sorted : List Int} {bound : Int} {i : Nat} (inside : i < sorted.length)
    (pairwise : sorted.Pairwise (· ≤ ·)) (few : sorted.countP (fun value => decide (value < bound)) ≤ i) :
    bound ≤ sorted[i] := by
  induction sorted generalizing i with
  | nil => cases inside
  | cons first rest ih =>
      obtain ⟨below, others⟩ := List.pairwise_cons.mp pairwise
      by_cases low : first < bound
      · rw [List.countP_cons_of_pos (by simpa using low)] at few
        cases i with
        | zero => omega
        | succ i =>
            rw [List.length_cons] at inside
            exact ih (by omega) others (by omega)
      · cases i with
        | zero => exact not_lt.mp low
        | succ i =>
            have inRest : i < rest.length := Nat.lt_of_succ_lt_succ inside
            exact (not_lt.mp low).trans (below _ (List.getElem_mem inRest))

/-- The median is not below a bound that at most half of the values are below. -/
theorem le_median {values : List Int} {bound : Int} (some_ : values ≠ [])
    (few : values.countP (fun value => decide (value < bound)) ≤ values.length / 2) :
    bound ≤ (values.insertionSort (· ≤ ·)).getD ((values.insertionSort (· ≤ ·)).length / 2) 0 := by
  have perm := List.perm_insertionSort (· ≤ ·) values
  have positive := List.length_pos_iff.mpr some_
  have inside : (values.insertionSort (· ≤ ·)).length / 2 < (values.insertionSort (· ≤ ·)).length := by
    rw [perm.length_eq]
    omega
  rw [List.getD_eq_getElem?_getD, List.getElem?_eq_getElem inside, Option.getD_some]
  refine le_getElem_of_countP inside (List.pairwise_insertionSort _ _) ?_
  rw [perm.length_eq, perm.countP_eq]
  exact few

end OrderStatistic

/-- Every block was accepted by the timestamp rule against its ancestors. -/
def TimelyChain : BlockPtr → Prop
  | pindex :: prev :: grand =>
      checkTimeAgainstPrev pindex.getBlockTime prev grand = true ∧ TimelyChain (prev :: grand)
  | _ => True

instance TimelyChain.decidable : ∀ chain, Decidable (TimelyChain chain)
  | [] => .isTrue trivial
  | [_] => .isTrue trivial
  | pindex :: prev :: grand =>
      have := TimelyChain.decidable (prev :: grand)
      inferInstanceAs (Decidable (checkTimeAgainstPrev pindex.getBlockTime prev grand = true ∧ _))

section Rules

variable {pindex prev entry : CBlockIndex} {grand older newer : BlockPtr}

theorem checkTimeAgainstPrev_iff {nTime : Int} : checkTimeAgainstPrev nTime prev grand = true ↔
    getMedianTimePast (prev :: grand) < nTime ∧ prev.getBlockTime - 600 ≤ nTime := by
  rw [checkTimeAgainstPrev, futureDrift]
  simp only [Bool.not_eq_true', Bool.or_eq_false_iff, decide_eq_false_iff_not, not_le, not_lt]
  omega

theorem TimelyChain.tail (timely : TimelyChain (pindex :: older)) : TimelyChain older := by
  cases older with
  | nil => trivial
  | cons prev grand => exact timely.2

/-- The median is not below a bound that six of the newest eleven times are not below. -/
theorem le_getMedianTimePast {bound : Int} (six : 6 ≤ newer.length) (high : ∀ entry ∈ newer, bound ≤ entry.getBlockTime)
    (older : BlockPtr) : bound ≤ getMedianTimePast (newer ++ older) := by
  have times : ((newer ++ older).take 11).map CBlockIndex.getBlockTime =
      (newer.take 11).map CBlockIndex.getBlockTime ++ (older.take (11 - newer.length)).map CBlockIndex.getBlockTime := by
    rw [List.take_append, List.map_append]
  have none : ((newer.take 11).map CBlockIndex.getBlockTime).countP (fun value => decide (value < bound)) = 0 := by
    rw [List.countP_eq_zero]
    intro value present
    obtain ⟨entry, member, rfl⟩ := List.mem_map.mp present
    simpa using high entry (List.mem_of_mem_take member)
  have rest := ((older.take (11 - newer.length)).map CBlockIndex.getBlockTime).countP_le_length
    (p := fun value => decide (value < bound))
  rw [List.length_map, List.length_take] at rest
  rw [getMedianTimePast, times]
  refine le_median ?_ ?_
  · intro empty
    have length := congrArg List.length empty
    rw [List.length_append, List.length_map, List.length_take, List.length_nil] at length
    omega
  · rw [List.countP_append, none, List.length_append, List.length_map, List.length_map, List.length_take, List.length_take]
    omega

/-- A block is at most ten minutes older than its parent for each step up. -/
theorem TimelyChain.drift (timely : TimelyChain (newer ++ pindex :: older)) (member : entry ∈ newer) :
    pindex.getBlockTime - 600 * newer.length ≤ entry.getBlockTime := by
  induction newer generalizing entry with
  | nil => cases member
  | cons first rest ih =>
      rw [List.length_cons]
      have below : TimelyChain (rest ++ pindex :: older) := timely.tail
      rcases List.mem_cons.mp member with rfl | later
      · cases rest with
        | nil =>
            have rule := (checkTimeAgainstPrev_iff.mp timely.1).2
            simp only [List.length_nil]
            omega
        | cons prev grand =>
            have rule := (checkTimeAgainstPrev_iff.mp timely.1).2
            have above := ih below List.mem_cons_self
            omega
      · have above := ih below later
        omega

/-- No block is more than fifty minutes older than one of its ancestors. -/
theorem TimelyChain.time_drop (timely : TimelyChain (newer ++ pindex :: older)) (member : entry ∈ newer) :
    pindex.getBlockTime - 3000 ≤ entry.getBlockTime := by
  induction newer generalizing entry with
  | nil => cases member
  | cons first rest ih =>
      have below : TimelyChain (rest ++ pindex :: older) := timely.tail
      rcases List.mem_cons.mp member with rfl | later
      · by_cases near : rest.length < 5
        · have drift := timely.drift List.mem_cons_self
          rw [List.length_cons] at drift
          omega
        · -- Six of the eleven times before are those from `pindex` on, which the bound holds for.
          have high : ∀ entry ∈ rest ++ [pindex], pindex.getBlockTime - 3000 ≤ entry.getBlockTime := by
            intro other present
            rcases List.mem_append.mp present with inRest | here
            · exact ih below inRest
            · obtain rfl := List.mem_singleton.mp here
              omega
          have median := le_getMedianTimePast (by rw [List.length_append, List.length_singleton]; omega) high older
          rw [List.append_assoc, List.singleton_append] at median
          cases rest with
          | nil => simp at near
          | cons prev grand =>
              have rule : getMedianTimePast (prev :: (grand ++ pindex :: older)) < entry.getBlockTime :=
                (checkTimeAgainstPrev_iff.mp timely.1).1
              rw [List.cons_append] at median
              omega
      · exact ih below later

/-- Only the first block can have the time 0. -/
theorem TimelyChain.time_pos (timely : TimelyChain (entry :: prev :: grand)) : 0 < entry.getBlockTime := by
  have rule := (checkTimeAgainstPrev_iff.mp timely.1).1
  have median : 0 ≤ getMedianTimePast (prev :: grand) := by
    rw [getMedianTimePast]
    refine le_median (by simp) ?_
    rw [List.countP_eq_zero.mpr]
    · exact Nat.zero_le _
    · intro value present
      obtain ⟨other, -, rfl⟩ := List.mem_map.mp present
      have natural : ¬ other.getBlockTime < 0 := not_lt.mpr (Int.natCast_nonneg _)
      simpa using natural
  omega

end Rules

end InfiniteRicks
