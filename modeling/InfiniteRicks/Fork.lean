import InfiniteRicks.Locator

/-!
# The fork of two branches

The search of `Reorganize` ends at the lowest common ancestor of the best block and the new one, whichever of them is
higher. The blocks that are disconnected and connected are the paths from there to both.
-/

namespace InfiniteRicks

variable {genesis : CBlockIndex}

/-- Walking down to a height passes over no block at the height or below. -/
theorem Rooted.suffix_lowerTo {nHeight : Int} {pindex found common : BlockPtr} (rooted : Rooted genesis pindex)
    (lowered : InfiniteRicks.lowerTo nHeight pindex = some found) (suffix : common <:+ pindex)
    (low : common.length ≤ nHeight + 1) : common <:+ found := by
  induction rooted with
  | root bottom =>
      simp only [InfiniteRicks.lowerTo] at lowered
      split at lowered
      · cases lowered
      · cases lowered
        exact suffix
  | @child entry prev grand below height ih =>
      rw [InfiniteRicks.lowerTo] at lowered
      split at lowered
      · rename_i higher
        refine ih lowered ((List.suffix_cons_iff.mp suffix).resolve_left ?_)
        rintro rfl
        rw [height, below.height] at higher
        simp only [List.length_cons] at low
        omega
      · cases lowered
        exact suffix

/-- The fork is the highest block below both. -/
theorem Rooted.findFork_highest {best longer pfork common : BlockPtr} (below : Rooted genesis best)
    (above : Rooted genesis longer) (found : InfiniteRicks.findFork best longer = some pfork)
    (ofBest : common <:+ best) (ofLonger : common <:+ longer) : common <:+ pfork := by
  induction best generalizing longer with
  | nil => cases found
  | cons entry pprev ih =>
      simp only [InfiniteRicks.findFork] at found
      split at found
      · cases found
        exact ofLonger
      split at found
      · cases found
      rename_i differs lowered lower
      have low : (common.length : Int) ≤ entry.nHeight + 1 := by
        rw [below.height]
        exact_mod_cast ofBest.length_le
      have onLowered := above.suffix_lowerTo lower ofLonger low
      split at found
      · cases found
        exact onLowered
      rename_i apart
      obtain ⟨suffix, real⟩ := lowerTo_suffix lower
      rcases List.suffix_cons_iff.mp ofBest with rfl | inside
      · -- The lowered branch is no higher than the other one, which it would contain.
        obtain ⟨top, rest, lowered', rooted, height⟩ := above.lowerTo (show 0 ≤ entry.nHeight by rw [below.height]; omega)
        obtain rfl := Option.some.inj (lower.symm.trans lowered')
        refine absurd (onLowered.eq_of_length_le ?_) apart
        rw [rooted.height, below.height] at height
        simp only [List.length_cons]
        omega
      · cases below with
        | root bottom => cases found
        | child lower one => exact ih lower (above.of_suffix suffix real) found inside onLowered

/-- The blocks from a tip down to, but without, an ancestor. -/
structure PathDown (ancestor tip : BlockPtr) (blocks : List BlockPtr) : Prop where
  starts : (blocks ++ [ancestor]).head? = some tip
  steps : (blocks ++ [ancestor]).IsChain fun pindex pprev => pindex.tail = pprev

theorem pathDown_pathTo {pfork pindex : BlockPtr} (suffix : pfork <:+ pindex) (real : pfork ≠ []) :
    PathDown pfork pindex (pathTo pfork pindex) := by
  induction pindex with
  | nil => exact absurd (List.suffix_nil.mp suffix) real
  | cons entry pprev ih =>
      rcases suffix_cases suffix real with same | ⟨top, prev, grand, shape, below⟩
      · rw [← same, pathTo_self]
        exact ⟨rfl, .singleton _⟩
      obtain ⟨rfl, rfl⟩ := List.cons.inj shape
      have lower := ih below
      rw [pathTo_cons entry below]
      refine ⟨rfl, List.isChain_cons.mpr ⟨fun next isNext => ?_, lower.steps⟩⟩
      exact Option.some.inj (lower.starts.symm.trans isNext)

/-- The blocks from the child of an ancestor up to a tip. -/
structure PathUp (ancestor tip : BlockPtr) (blocks : List BlockPtr) : Prop where
  ends : (ancestor :: blocks).getLast? = some tip
  steps : (ancestor :: blocks).IsChain fun pprev pindex => pindex.tail = pprev

theorem PathDown.reverse {ancestor tip : BlockPtr} {blocks : List BlockPtr} (path : PathDown ancestor tip blocks) :
    PathUp ancestor tip blocks.reverse := by
  have turned : ancestor :: blocks.reverse = (blocks ++ [ancestor]).reverse := by
    rw [List.reverse_append]
    rfl
  refine ⟨?_, ?_⟩
  · rw [turned, List.getLast?_reverse]
    exact path.starts
  · rw [turned, List.isChain_reverse]
    exact path.steps

theorem length_lt_of_mem_pathTo {pfork tip pindex : BlockPtr} (suffix : pfork <:+ tip)
    (member : pindex ∈ pathTo pfork tip) : pfork.length < pindex.length := by
  induction tip with
  | nil => cases member
  | cons entry pprev ih =>
      rw [pathTo] at member
      split at member
      · cases member
      rename_i apart
      have below := (List.suffix_cons_iff.mp suffix).resolve_left fun same => apart same.symm
      rcases List.mem_cons.mp member with rfl | deeper
      · exact Nat.lt_succ_of_le below.length_le
      · exact ih below deeper

/-- `Reorganize` disconnects the blocks from the best one down to the lowest common ancestor, and connects those from
there up to the new one. -/
theorem reorganize_paths {best pindexNew : BlockPtr} (below : Rooted genesis best) (above : Rooted genesis pindexNew) :
    ∃ pfork, findFork best pindexNew = some pfork ∧ pfork ≠ [] ∧ LeavesAt pindexNew best pfork ∧
      PathDown pfork best (pathTo pfork best) ∧ PathUp pfork pindexNew (pathTo pfork pindexNew).reverse ∧
      ∀ pindex ∈ pathTo pfork best, pindex ∉ (pathTo pfork pindexNew).reverse := by
  obtain ⟨pfork, found⟩ := below.findFork above
  obtain ⟨ofBest, ofNew, real⟩ := findFork_suffix found
  have leaves : LeavesAt pindexNew best pfork :=
    ⟨ofNew, ofBest, fun common ofNew ofBest => (below.findFork_highest above found ofBest ofNew).length_le⟩
  refine ⟨pfork, found, real, leaves, pathDown_pathTo ofBest real, (pathDown_pathTo ofNew real).reverse,
    fun pindex disconnected connected => ?_⟩
  have higher := length_lt_of_mem_pathTo ofBest disconnected
  have lower := leaves.highest pindex (suffix_of_mem_pathTo (List.mem_reverse.mp connected))
    (suffix_of_mem_pathTo disconnected)
  exact absurd lower (Nat.not_le.mpr higher)

/-- From a branch of two blocks to one of one block. -/
theorem reorganize_paths_light :
    ∃ pfork, findFork heavyTip lightTip = some pfork ∧ pfork ≠ [] ∧ LeavesAt lightTip heavyTip pfork ∧
      PathDown pfork heavyTip (pathTo pfork heavyTip) ∧ PathUp pfork lightTip (pathTo pfork lightTip).reverse ∧
      ∀ pindex ∈ pathTo pfork heavyTip, pindex ∉ (pathTo pfork lightTip).reverse :=
  reorganize_paths (.child (.child (.root rfl) rfl) rfl) (.child (.root rfl) rfl)

end InfiniteRicks
