import InfiniteRicks.BestChain

/-!
# Paths in the block tree

A `BlockPtr` is an entry with its ancestors, so an ancestor is a suffix. The fork
that `Reorganize` finds is a common suffix, and the lists it disconnects and
connects, like the postponed blocks of `SetBestChain`, are paths down to one
(`pathTo`). `pathLinks` is what `pnext` is on a chain.
-/

namespace InfiniteRicks

theorem lowerTo_suffix {nHeight : Int} {pindex found : BlockPtr} (lowered : lowerTo nHeight pindex = some found) :
    found <:+ pindex ∧ found ≠ [] := by
  induction pindex with
  | nil => cases lowered
  | cons entry pprev ih =>
      simp only [lowerTo] at lowered
      split at lowered
      · obtain ⟨suffix, nonempty⟩ := ih lowered
        exact ⟨suffix.trans (List.suffix_cons _ _), nonempty⟩
      · cases lowered
        exact ⟨List.suffix_rfl, List.cons_ne_nil _ _⟩

/-- The fork is an ancestor of both tips. -/
theorem findFork_suffix {best longer pfork : BlockPtr} (found : findFork best longer = some pfork) :
    pfork <:+ best ∧ pfork <:+ longer ∧ pfork ≠ [] := by
  induction best generalizing longer with
  | nil => cases found
  | cons entry pprev ih =>
      simp only [findFork] at found
      split at found
      · rename_i same
        cases found
        exact ⟨same ▸ List.suffix_rfl, List.suffix_rfl, same ▸ List.cons_ne_nil _ _⟩
      · split at found
        · cases found
        · rename_i lowered lower
          obtain ⟨suffix, nonempty⟩ := lowerTo_suffix lower
          split at found
          · rename_i same
            cases found
            exact ⟨same ▸ List.suffix_rfl, suffix, nonempty⟩
          · obtain ⟨below, above, real⟩ := ih found
            exact ⟨below.trans (List.suffix_cons _ _), above.trans suffix, real⟩

/-- A chain down to genesis whose heights count the ancestors. -/
inductive Rooted (genesis : CBlockIndex) : BlockPtr → Prop
  | root (bottom : genesis.nHeight = 0) : Rooted genesis [genesis]
  | child {entry prev : CBlockIndex} {grand : BlockPtr} (below : Rooted genesis (prev :: grand))
      (height : entry.nHeight = prev.nHeight + 1) : Rooted genesis (entry :: prev :: grand)

theorem Rooted.height {genesis entry : CBlockIndex} {pprev : BlockPtr} (rooted : Rooted genesis (entry :: pprev)) :
    entry.nHeight = pprev.length := by
  induction pprev generalizing entry with
  | nil =>
      cases rooted with
      | root bottom => exact bottom
  | cons prev grand ih =>
      cases rooted with
      | child below height =>
          rw [height, ih below]
          simp

theorem Rooted.lowerTo {genesis : CBlockIndex} {nHeight : Int} {pindex : BlockPtr} (rooted : Rooted genesis pindex)
    (above : 0 ≤ nHeight) :
    ∃ entry pprev, InfiniteRicks.lowerTo nHeight pindex = some (entry :: pprev) ∧
      Rooted genesis (entry :: pprev) ∧ entry.nHeight ≤ nHeight := by
  induction rooted with
  | root bottom =>
      refine ⟨genesis, [], ?_, .root bottom, by omega⟩
      simp only [InfiniteRicks.lowerTo]
      rw [if_neg (by omega)]
  | @child entry prev grand below height ih =>
      simp only [InfiniteRicks.lowerTo] at ih ⊢
      split
      · exact ih
      · exact ⟨entry, prev :: grand, rfl, .child below height, by omega⟩

/-- Two chains down to the same genesis have a fork. -/
theorem Rooted.findFork {genesis : CBlockIndex} {best longer : BlockPtr} (below : Rooted genesis best)
    (above : Rooted genesis longer) : ∃ pfork, InfiniteRicks.findFork best longer = some pfork := by
  induction best generalizing longer with
  | nil => cases below
  | cons entry pprev ih =>
      simp only [InfiniteRicks.findFork]
      split
      · exact ⟨longer, rfl⟩
      have bottom : (0 : Int) ≤ entry.nHeight := by
        rw [below.height]
        omega
      obtain ⟨top, rest, lowered, rootedTop, height⟩ := above.lowerTo bottom
      rw [lowered]
      dsimp only
      split
      · exact ⟨_, rfl⟩
      rename_i differs
      cases below with
      | root zero =>
          -- At height zero both chains are genesis alone.
          cases rootedTop with
          | root => exact absurd rfl differs
          | child lower one =>
              have := lower.height
              omega
      | child lower one => exact ih lower rootedTop

@[simp] theorem pathTo_self (pfork : BlockPtr) : pathTo pfork pfork = [] := by
  cases pfork <;> simp [pathTo]

/-- One more entry on top of a chain that contains the fork. -/
theorem pathTo_cons {pfork pprev : BlockPtr} (entry : CBlockIndex) (suffix : pfork <:+ pprev) :
    pathTo pfork (entry :: pprev) = (entry :: pprev) :: pathTo pfork pprev := by
  have longer : entry :: pprev ≠ pfork := by
    rintro rfl
    have := suffix.length_le
    simp at this
  simp [pathTo, longer]

/-- A chain with an ancestor is that ancestor or one entry on top of such a chain. -/
theorem suffix_cases {pfork pindex : BlockPtr} (suffix : pfork <:+ pindex) (real : pfork ≠ []) :
    pindex = pfork ∨ ∃ entry prev grand, pindex = entry :: prev :: grand ∧ pfork <:+ prev :: grand := by
  cases pindex with
  | nil => exact absurd (List.suffix_nil.mp suffix) real
  | cons entry pprev =>
      rcases List.suffix_cons_iff.mp suffix with rfl | below
      · exact Or.inl rfl
      · cases pprev with
        | nil => exact absurd (List.suffix_nil.mp below) real
        | cons prev grand => exact Or.inr ⟨entry, prev, grand, rfl, below⟩

theorem Rooted.of_suffix {genesis : CBlockIndex} {pfork pindex : BlockPtr} (rooted : Rooted genesis pindex)
    (suffix : pfork <:+ pindex) (real : pfork ≠ []) : Rooted genesis pfork := by
  induction rooted with
  | root bottom =>
      rcases suffix_cases suffix real with same | ⟨entry, prev, grand, shape, -⟩
      · exact same ▸ .root bottom
      · cases shape
  | child below height ih =>
      rcases suffix_cases suffix real with same | ⟨entry, prev, grand, shape, lower⟩
      · exact same ▸ .child below height
      · exact ih ((List.cons.inj shape).2 ▸ lower)

/-- The postponed blocks are those above the block that `Reorganize` switches to. -/
theorem postpone_spec (trust : UInt256) (pindexNew : BlockPtr) (real : pindexNew ≠ []) :
    (postpone trust pindexNew).2 <:+ pindexNew ∧ (postpone trust pindexNew).2 ≠ [] ∧
      (postpone trust pindexNew).1 = pathTo (postpone trust pindexNew).2 pindexNew := by
  induction pindexNew with
  | nil => exact absurd rfl real
  | cons entry pprev ih =>
      cases pprev with
      | nil => simp [postpone]
      | cons prev grand =>
          simp only [postpone]
          split
          · obtain ⟨suffix, nonempty, path⟩ := ih (List.cons_ne_nil _ _)
            refine ⟨suffix.trans (List.suffix_cons _ _), nonempty, ?_⟩
            rw [pathTo_cons entry suffix, ← path]
          · simp

/-- What `pnext` is on the chain down from an entry. -/
def pathLinks : BlockPtr → UInt256 → Option UInt256
  | pindex :: prev :: grand => Function.update (pathLinks (prev :: grand)) prev.hash (some pindex.hash)
  | _ => fun _ => none

/-- The hashes of an entry and its ancestors are distinct. -/
def DistinctHashes (pindex : BlockPtr) : Prop := (pindex.map CBlockIndex.hash).Nodup

theorem DistinctHashes.tail {entry : CBlockIndex} {pprev : BlockPtr}
    (distinct : DistinctHashes (entry :: pprev)) : DistinctHashes pprev :=
  (List.nodup_cons.mp distinct).2

/-- Only proper ancestors have a successor. -/
theorem pathLinks_eq_none {entry : CBlockIndex} {pprev : BlockPtr} {hash : UInt256}
    (absent : hash ∉ pprev.map CBlockIndex.hash) : pathLinks (entry :: pprev) hash = none := by
  induction pprev generalizing entry with
  | nil => rfl
  | cons prev grand ih =>
      simp only [List.map_cons, List.mem_cons, not_or] at absent
      rw [pathLinks, Function.update_of_ne absent.1]
      exact ih absent.2

/-- Unlinking the disconnected path leaves the links of the fork. -/
theorem foldl_unlinkNext {pfork pindex : BlockPtr} (suffix : pfork <:+ pindex) (real : pfork ≠ [])
    (distinct : DistinctHashes pindex) :
    (pathTo pfork pindex).foldl unlinkNext (pathLinks pindex) = pathLinks pfork := by
  induction pindex with
  | nil => exact absurd (List.suffix_nil.mp suffix) real
  | cons entry pprev ih =>
      rcases suffix_cases suffix real with same | ⟨top, prev, grand, shape, below⟩
      · simp [← same]
      obtain ⟨rfl, rfl⟩ := List.cons.inj shape
      have step : unlinkNext (pathLinks (entry :: prev :: grand)) (entry :: prev :: grand) =
          pathLinks (prev :: grand) := by
        have none : pathLinks (prev :: grand) prev.hash = none :=
          pathLinks_eq_none (List.nodup_cons.mp distinct.tail).1
        rw [unlinkNext, pathLinks, Function.update_idem]
        exact Function.update_eq_self_iff.mpr none.symm
      rw [pathTo_cons entry below, List.foldl_cons, step]
      exact ih below distinct.tail

/-- Linking the connected path makes the links of its tip. -/
theorem foldl_linkNext {pfork pindex : BlockPtr} (suffix : pfork <:+ pindex) (real : pfork ≠ []) :
    (pathTo pfork pindex).reverse.foldl linkNext (pathLinks pfork) = pathLinks pindex := by
  induction pindex with
  | nil => exact absurd (List.suffix_nil.mp suffix) real
  | cons entry pprev ih =>
      rcases suffix_cases suffix real with same | ⟨top, prev, grand, shape, below⟩
      · simp [← same]
      obtain ⟨rfl, rfl⟩ := List.cons.inj shape
      rw [pathTo_cons entry below, List.reverse_cons, List.foldl_append, ih below]
      rfl

/-- Following `pnext` from a hash visits the hashes in order and then stops. -/
inductive Follows (pnext : UInt256 → Option UInt256) : UInt256 → List UInt256 → Prop
  | last {hash} (stops : pnext hash = none) : Follows pnext hash [hash]
  | next {hash following rest} (step : pnext hash = some following)
      (onward : Follows pnext following rest) : Follows pnext hash (hash :: rest)

theorem Follows.cases_cons {pnext : UInt256 → Option UInt256} {start first : UInt256} {rest : List UInt256}
    (follows : Follows pnext start (first :: rest)) :
    start = first ∧ (rest = [] ∨ ∃ following, pnext first = some following ∧ Follows pnext following rest) := by
  cases follows with
  | last => exact ⟨rfl, Or.inl rfl⟩
  | next step onward => exact ⟨rfl, Or.inr ⟨_, step, onward⟩⟩

/-- Entries above a hash do not change how `pnext` is followed from it, up to the
last step. -/
theorem Follows.extend {pnext : UInt256 → Option UInt256} {start tip hash : UInt256} {visited : List UInt256}
    (follows : Follows pnext start (visited ++ [tip])) (fresh : hash ∉ visited ++ [tip])
    (distinct : (visited ++ [tip]).Nodup) (stops : pnext hash = none) :
    Follows (Function.update pnext tip (some hash)) start (visited ++ [tip] ++ [hash]) := by
  induction visited generalizing start with
  | nil =>
      obtain ⟨rfl, -⟩ := follows.cases_cons
      refine .next (Function.update_self ..) (.last ?_)
      rw [Function.update_of_ne (by simpa using fresh)]
      exact stops
  | cons first rest ih =>
      simp only [List.cons_append, List.nodup_cons, List.mem_cons, not_or, List.mem_append] at distinct fresh
      have first_ne : first ≠ tip := by
        rintro rfl
        simp at distinct
      obtain ⟨rfl, done | ⟨following, step, onward⟩⟩ := follows.cases_cons
      · simp at done
      · refine .next ((Function.update_of_ne first_ne ..).trans step) (ih onward ?_ distinct.2)
        simpa using fresh.2

/-- On a chain with distinct hashes, `pnext` leads from the root to the tip. -/
theorem follows_pathLinks {pindex : BlockPtr} {root : CBlockIndex} (distinct : DistinctHashes pindex)
    (rooted : pindex.getLast? = some root) :
    Follows (pathLinks pindex) root.hash (pindex.map CBlockIndex.hash).reverse := by
  induction pindex with
  | nil => cases rooted
  | cons entry pprev ih =>
      cases pprev with
      | nil =>
          cases rooted
          exact .last rfl
      | cons prev grand =>
          have below := ih distinct.tail (by simpa using rooted)
          have shape : ((prev :: grand).map CBlockIndex.hash).reverse =
              (grand.map CBlockIndex.hash).reverse ++ [prev.hash] := by simp
          have apart := List.nodup_cons.mp distinct
          have stops : pathLinks (prev :: grand) entry.hash = none := by
            apply pathLinks_eq_none
            intro member
            exact apart.1 (List.mem_cons_of_mem _ member)
          rw [shape] at below
          have fresh : entry.hash ∉ (grand.map CBlockIndex.hash).reverse ++ [prev.hash] := by
            rw [← shape, List.mem_reverse]
            exact apart.1
          have extended := below.extend fresh
            (by rw [← shape]; exact List.nodup_reverse.mpr distinct.tail) stops
          rw [← shape] at extended
          rw [List.map_cons, List.reverse_cons]
          exact extended

end InfiniteRicks
