import InfiniteRicks.BestChainSpec
import InfiniteRicks.BlockIndex
import InfiniteRicks.Paths

/-!
# The heaviest valid chain wins

`AddToBlockIndex` over every tree of blocks and every order in which parents precede
children. The verdict of block connection is a function of the block and its
ancestors (`Judged`), and no read or commit fails. The invariant says that every
entry heavier than the best block has an ancestor that cannot be connected; the loop
that postpones blocks is then never entered for a branch that can be connected.
-/

namespace InfiniteRicks

/-- Block connection with a verdict that depends only on the block and its ancestors,
and block disconnection that succeeds. -/
structure Judged (c : Connector) (verdict : CBlock → BlockPtr → Bool) : Prop where
  connect : ∀ s block pindex, (c.connect s block pindex).isSome = verdict block pindex
  disconnect : ∀ s block entry pprev, ∃ after, c.disconnect s block (entry :: pprev) = .ok after

/-- The entry and its ancestors above genesis can all be connected, each on its own
branch. -/
def Connectable (verdict : CBlock → BlockPtr → Bool) (blockOf : UInt256 → CBlock) : BlockPtr → Prop
  | entry :: prev :: grand =>
      verdict (blockOf entry.hash) (entry :: prev :: grand) = true ∧ Connectable verdict blockOf (prev :: grand)
  | _ => True

/-- The blocks of an entry and its ancestors can be read. -/
def Readable (env : Env) (blockOf : UInt256 → CBlock) (s : Node) (pindex : BlockPtr) : Prop :=
  ∀ entry pprev, entry :: pprev <:+ pindex → readBlock env s (entry :: pprev) = some (blockOf entry.hash)

section Verdicts

variable {env : Env} {policy : Policy} {c : Connector} {verdict : CBlock → BlockPtr → Bool}
  {blockOf : UInt256 → CBlock} {s : Node}

theorem Connectable.of_suffix {pindex ancestor : BlockPtr} (connectable : Connectable verdict blockOf pindex)
    (suffix : ancestor <:+ pindex) (real : ancestor ≠ []) : Connectable verdict blockOf ancestor := by
  induction pindex with
  | nil => exact absurd (List.suffix_nil.mp suffix) real
  | cons entry pprev ih =>
      rcases suffix_cases suffix real with same | ⟨top, prev, grand, shape, below⟩
      · exact same ▸ connectable
      · obtain ⟨rfl, rfl⟩ := List.cons.inj shape
        exact ih connectable.2 below

theorem Readable.of_suffix {pindex ancestor : BlockPtr} (readable : Readable env blockOf s pindex)
    (suffix : ancestor <:+ pindex) : Readable env blockOf s ancestor :=
  fun entry pprev below => readable entry pprev (below.trans suffix)

theorem Readable.of_files {after : Node} {pindex : BlockPtr} (readable : Readable env blockOf s pindex)
    (same : after.files = s.files) : Readable env blockOf after pindex := by
  intro entry pprev suffix
  rw [readBlock_of_files same]
  exact readable entry pprev suffix

/-- The branch down to a fork can always be disconnected. -/
theorem disconnectBranch_succeeds {pfork pindex : BlockPtr} (judged : Judged c verdict) (suffix : pfork <:+ pindex)
    (real : pfork ≠ []) (readable : Readable env blockOf s pindex) (vResurrect : List CTransaction) :
    ∃ after result, disconnectBranch env c (pathTo pfork pindex) s vResurrect = .ok (after, result) := by
  induction pindex generalizing s vResurrect with
  | nil => exact absurd (List.suffix_nil.mp suffix) real
  | cons entry pprev ih =>
      rcases suffix_cases suffix real with same | ⟨top, prev, grand, shape, below⟩
      · rw [← same, pathTo_self]
        exact ⟨s, vResurrect, rfl⟩
      obtain ⟨rfl, rfl⟩ := List.cons.inj shape
      obtain ⟨next, step⟩ := judged.disconnect s (blockOf entry.hash) entry (prev :: grand)
      have sameFiles := (SameBest.of_frame (c.disconnectFrame step)).files
      rw [pathTo_cons entry below, disconnectBranch, readable _ _ List.suffix_rfl]
      simp only [step]
      exact ih below ((readable.of_suffix (List.suffix_cons _ _)).of_files sameFiles) _

/-- The branch up from a fork can be connected exactly when its tip can. -/
theorem connectBranch_iff {pfork pindex : BlockPtr} (judged : Judged c verdict) (suffix : pfork <:+ pindex)
    (real : pfork ≠ []) (readable : Readable env blockOf s pindex) (vDelete : List CTransaction)
    (fork : Connectable verdict blockOf pfork) :
    (∃ after result, connectBranch env c (pathTo pfork pindex).reverse s vDelete = .ok (after, result)) ↔
      Connectable verdict blockOf pindex := by
  induction pindex with
  | nil => exact absurd (List.suffix_nil.mp suffix) real
  | cons entry pprev ih =>
      rcases suffix_cases suffix real with same | ⟨top, prev, grand, shape, below⟩
      · subst same
        rw [pathTo_self]
        exact iff_of_true ⟨s, vDelete, rfl⟩ fork
      obtain ⟨rfl, rfl⟩ := List.cons.inj shape
      have lowerIff := ih below (readable.of_suffix (List.suffix_cons _ _))
      rw [pathTo_cons entry below, List.reverse_cons, connectBranch_append]
      cases lower : connectBranch env c (pathTo pfork (prev :: grand)).reverse s vDelete with
      | error failed =>
          rw [lower] at lowerIff
          refine iff_of_false (by simp) fun connectable => ?_
          obtain ⟨after, result, impossible⟩ := lowerIff.mpr connectable.2
          cases impossible
      | ok reached =>
          obtain ⟨middle, deleted⟩ := reached
          have lowerConnectable := lowerIff.mp ⟨middle, deleted, lower⟩
          have sameFiles := (SameBest.of_frame (frame_connectBranch _ (Or.inl lower))).files
          have found := readable.of_files sameFiles _ _ List.suffix_rfl
          have judgement := judged.connect middle (blockOf entry.hash) (entry :: prev :: grand)
          simp only [connectBranch, found]
          cases step : c.connect middle (blockOf entry.hash) (entry :: prev :: grand) with
          | none =>
              rw [step] at judgement
              refine iff_of_false (by simp) fun connectable => ?_
              rw [connectable.1] at judgement
              cases judgement
          | some next =>
              rw [step] at judgement
              exact iff_of_true ⟨_, _, rfl⟩ ⟨judgement.symm, lowerConnectable⟩

theorem writeStatus_writeHashBestChain (txdb : CTxDB) (hash : UInt256) :
    (txdb.writeHashBestChain hash).writeStatus = txdb.writeStatus := by
  simp only [CTxDB.writeHashBestChain, CTxDB.write]
  split <;> rfl

theorem commitBest_succeeds (commits : ∀ n, s.txdb.writeStatus n = true) (hash : UInt256) :
    ∃ after, s.commitBest hash = .ok after ∧ after.txdb.writeStatus = s.txdb.writeStatus := by
  simp [Node.commitBest, Node.withTxdb, CTxDB.txnCommit, writeStatus_writeHashBestChain, commits]

theorem CBlock.Frame.writeStatus {after : Node} (frame : Frame s after) (active : Batching s) :
    after.txdb.writeStatus = s.txdb.writeStatus := by
  obtain ⟨batch, present⟩ := Option.isSome_iff_exists.mp active
  obtain ⟨more, queued⟩ := frame.queues batch present
  rw [queued]

/-- `Reorganize` returns true exactly when the new tip can be connected. -/
theorem reorganize_iff {genesis : CBlockIndex} {pindexNew : BlockPtr} (judged : Judged c verdict)
    (rootedBest : Rooted genesis s.pindexBest) (rootedNew : Rooted genesis pindexNew)
    (readableBest : Readable env blockOf s s.pindexBest) (readableNew : Readable env blockOf s pindexNew)
    (commits : ∀ n, s.txdb.writeStatus n = true) (active : Batching s)
    (best : Connectable verdict blockOf s.pindexBest) :
    (∃ after, reorganize env policy c s pindexNew = .ok after) ↔ Connectable verdict blockOf pindexNew := by
  obtain ⟨pfork, fork⟩ := rootedBest.findFork rootedNew
  obtain ⟨below, above, real⟩ := findFork_suffix fork
  obtain ⟨middle, vResurrect, undone⟩ := disconnectBranch_succeeds judged below real readableBest []
  have down := frame_disconnectBranch _ (Or.inl undone)
  have branch := connectBranch_iff judged above real (readableNew.of_files (SameBest.of_frame down).files) []
    (best.of_suffix below real)
  rw [← branch]
  constructor
  · rintro ⟨after, switched⟩
    obtain ⟨otherFork, otherMiddle, resurrected, top, vDelete, committed, sameFork, sameDown, done, -⟩ :=
      reorganize_ok switched
    obtain rfl := Option.some.inj (fork.symm.trans sameFork)
    obtain ⟨rfl, rfl⟩ := Prod.mk.inj (Except.ok.inj (undone.symm.trans sameDown))
    exact ⟨top, vDelete, done⟩
  · rintro ⟨top, vDelete, done⟩
    have up := down.trans (frame_connectBranch _ (Or.inl done))
    obtain ⟨committed, commit, -⟩ := commitBest_succeeds (s := top)
      (fun n => (congrFun (up.writeStatus active) n).trans (commits n))
      ((pindexNew.head?.map CBlockIndex.hash).getD 0)
    simp only [reorganize, fork, undone, done, commit]
    exact ⟨_, rfl⟩

/-- `SetBestChainInner` returns true exactly when the new block can be connected. -/
theorem setBestChainInner_iff {entry : CBlockIndex} {pprev : BlockPtr} (judged : Judged c verdict)
    (real : pprev ≠ []) (commits : ∀ n, s.txdb.writeStatus n = true) (active : Batching s)
    (parent : Connectable verdict blockOf pprev) :
    (∃ after, setBestChainInner env c s (blockOf entry.hash) (entry :: pprev) = .ok after) ↔
      Connectable verdict blockOf (entry :: pprev) := by
  obtain ⟨prev, grand, rfl⟩ := List.exists_cons_of_ne_nil real
  have judgement := judged.connect s (blockOf entry.hash) (entry :: prev :: grand)
  simp only [setBestChainInner]
  cases step : c.connect s (blockOf entry.hash) (entry :: prev :: grand) with
  | none =>
      rw [step] at judgement
      refine iff_of_false (by simp) fun connectable => ?_
      rw [connectable.1] at judgement
      cases judgement
  | some next =>
      rw [step] at judgement
      have frame := c.connectFrame step
      obtain ⟨committed, commit, -⟩ := commitBest_succeeds (s := next)
        (fun n => (congrFun (frame.writeStatus active) n).trans (commits n)) ((blockOf entry.hash).getHash env)
      simp only [commit]
      exact iff_of_true ⟨_, rfl⟩ ⟨judgement.symm, parent⟩

/-- The block that `Reorganize` switches to is the new one, or it is an ancestor that
is heavier than the best block. -/
theorem postpone_cases (trust : UInt256) (entry : CBlockIndex) (pprev : BlockPtr) :
    postpone trust (entry :: pprev) = ([], entry :: pprev) ∨
      ((postpone trust (entry :: pprev)).2 <:+ pprev ∧ (postpone trust (entry :: pprev)).2 ≠ [] ∧
        trust < chainTrust (postpone trust (entry :: pprev)).2) := by
  induction pprev generalizing entry with
  | nil => exact Or.inl rfl
  | cons prev grand ih =>
      by_cases heavier : trust < prev.nChainTrust
      · right
        simp only [postpone, heavier, if_true]
        rcases ih prev with stop | ⟨suffix, real, above⟩
        · rw [stop]
          exact ⟨List.suffix_rfl, List.cons_ne_nil _ _, heavier⟩
        · exact ⟨suffix.trans (List.suffix_cons _ _), real, above⟩
      · left
        simp [postpone, heavier]

/-- Once no ancestor of the new block that can be connected is heavier than the best
block, `SetBestChain` returns true exactly when the new block can be connected. -/
theorem setBestChain_iff {genesis entry : CBlockIndex} {pprev : BlockPtr} (judged : Judged c verdict)
    (started : s.pindexGenesisBlock ≠ []) (rootedBest : Rooted genesis s.pindexBest)
    (rootedNew : Rooted genesis (entry :: pprev)) (real : pprev ≠ [])
    (readableBest : Readable env blockOf s s.pindexBest)
    (readableNew : Readable env blockOf s (entry :: pprev)) (commits : ∀ n, s.txdb.writeStatus n = true)
    (extension : (blockOf entry.hash).hashPrevBlock = s.hashBestChain → pprev = s.pindexBest)
    (best : Connectable verdict blockOf s.pindexBest)
    (barred : ∀ ancestor, ancestor <:+ pprev → ancestor ≠ [] → bestTrust s < chainTrust ancestor →
      ¬Connectable verdict blockOf ancestor) :
    (∃ after, setBestChain env policy c s (blockOf entry.hash) (entry :: pprev) = .ok after) ↔
      Connectable verdict blockOf (entry :: pprev) := by
  have notFirst : ¬(s.txnBegin.pindexGenesisBlock = [] ∧
      (blockOf entry.hash).getHash env = env.hashGenesisBlock) := fun first => started first.1
  simp only [setBestChain, notFirst, if_false]
  split
  · rename_i extends_
    obtain rfl := extension extends_
    have innerIff : (∃ after, setBestChainInner env c s.txnBegin (blockOf entry.hash) (entry :: s.pindexBest) =
        .ok after) ↔ _ := setBestChainInner_iff judged real commits (batching_txnBegin s) best
    constructor
    · rintro ⟨after, switched⟩
      split at switched
      · cases switched
      · rename_i middle extended
        exact innerIff.mp ⟨middle, extended⟩
    · intro connectable
      obtain ⟨middle, extended⟩ := innerIff.mpr connectable
      rw [extended]
      exact ⟨_, rfl⟩
  · have switchIff : ∀ ancestor, Rooted genesis ancestor → Readable env blockOf s ancestor →
        ((∃ after, reorganize env policy c s.txnBegin ancestor = .ok after) ↔
          Connectable verdict blockOf ancestor) := fun ancestor rooted readable =>
      reorganize_iff judged (s := s.txnBegin) rootedBest rooted (readableBest.of_files rfl)
        (readable.of_files rfl) commits (batching_txnBegin s) best
    rcases postpone_cases (bestTrust s) entry pprev with stop | ⟨suffix, nonempty, heavier⟩
    · rw [show bestTrust s.txnBegin = bestTrust s from rfl, stop, ← switchIff _ rootedNew readableNew]
      constructor
      · rintro ⟨after, switched⟩
        split at switched
        · cases switched
        · rename_i middle reorganized
          exact ⟨middle, reorganized⟩
      · rintro ⟨middle, reorganized⟩
        rw [reorganized]
        exact ⟨_, rfl⟩
    · -- A heavier ancestor is not connectable, so neither is the new block.
      have above := suffix.trans (List.suffix_cons entry pprev)
      have blocked := barred _ suffix nonempty heavier
      refine iff_of_false ?_ fun connectable => blocked (connectable.of_suffix above nonempty)
      rintro ⟨after, switched⟩
      rw [show bestTrust s.txnBegin = bestTrust s from rfl] at switched
      split at switched
      · cases switched
      · rename_i middle reorganized
        exact blocked ((switchIff _ (rootedNew.of_suffix above nonempty) (readableNew.of_suffix above)).mp
          ⟨middle, reorganized⟩)

end Verdicts

/-- The block index is a tree on genesis, keyed by hash, and heights and trust grow
from parent to child. -/
structure IndexTree (genesis : CBlockIndex) (s : Node) : Prop where
  bottom : genesis.nHeight = 0
  started : s.pindexGenesisBlock = [genesis]
  keyed : ∀ hash pindex, s.mapBlockIndex hash = some pindex → pindex.head?.map CBlockIndex.hash = some hash
  root : ∀ hash entry, s.mapBlockIndex hash = some [entry] → entry = genesis
  parent : ∀ hash entry prev grand, s.mapBlockIndex hash = some (entry :: prev :: grand) →
    s.mapBlockIndex prev.hash = some (prev :: grand) ∧ entry.nHeight = prev.nHeight + 1 ∧
      prev.nChainTrust < entry.nChainTrust

/-- The best block can be connected, and no entry that can be connected is heavier. -/
structure Heaviest (verdict : CBlock → BlockPtr → Bool) (blockOf : UInt256 → CBlock) (genesis : CBlockIndex)
    (s : Node) : Prop extends IndexTree genesis s where
  best : s.mapBlockIndex s.hashBestChain = some s.pindexBest
  trust : s.nBestChainTrust = chainTrust s.pindexBest
  connectable : Connectable verdict blockOf s.pindexBest
  heaviest : ∀ hash pindex, s.mapBlockIndex hash = some pindex → Connectable verdict blockOf pindex →
    chainTrust pindex ≤ s.nBestChainTrust

/-- No read and no commit fails. -/
structure Storage (env : Env) (blockOf : UInt256 → CBlock) (s : Node) : Prop where
  commits : ∀ n, s.txdb.writeStatus n = true
  reads : ∀ hash pindex, s.mapBlockIndex hash = some pindex → readBlock env s pindex = some (blockOf hash)

/-- A block that `AcceptBlock` has written to disk, of a target between 1 and
`2^256 - 2`, whose trust does not overflow. -/
structure Addable (env : Env) (blockOf : UInt256 → CBlock) (s : Node) (block : CBlock) (pos : DiskBlockPos) :
    Prop where
  content : blockOf (block.getHash env) = block
  written : s.readBlockAt env pos.nFile pos.nBlockPos = some block
  positive : 1 ≤ CBigNum.setCompact block.nBits
  bounded : CBigNum.setCompact block.nBits ≤ 2 ^ 256 - 2
  accumulated : (chainTrust ((s.mapBlockIndex block.hashPrevBlock).getD [])).toNat +
    2 ^ 256 / (CBigNum.setCompact block.nBits + 1) < 2 ^ 256

/-- A new entry is in the index, and the best block is still the one from before. -/
structure Pending (env : Env) (verdict : CBlock → BlockPtr → Bool) (blockOf : UInt256 → CBlock)
    (genesis entry : CBlockIndex) (pprev : BlockPtr) (s : Node) : Prop where
  tree : IndexTree genesis s
  storage : Storage env blockOf s
  indexed : s.mapBlockIndex entry.hash = some (entry :: pprev)
  parent : s.mapBlockIndex (blockOf entry.hash).hashPrevBlock = some pprev
  named : (blockOf entry.hash).getHash env = entry.hash
  best : s.mapBlockIndex s.hashBestChain = some s.pindexBest
  trust : s.nBestChainTrust = chainTrust s.pindexBest
  connectable : Connectable verdict blockOf s.pindexBest
  others : ∀ hash pindex, s.mapBlockIndex hash = some pindex → Connectable verdict blockOf pindex →
    pindex = entry :: pprev ∨ chainTrust pindex ≤ s.nBestChainTrust

/-- What happens outside `AddToBlockIndex` leaves the block index and the best block
alone. -/
structure SameIndex (s after : Node) : Prop where
  mapBlockIndex : after.mapBlockIndex = s.mapBlockIndex
  pindexGenesisBlock : after.pindexGenesisBlock = s.pindexGenesisBlock
  pindexBest : after.pindexBest = s.pindexBest
  hashBestChain : after.hashBestChain = s.hashBestChain
  nBestChainTrust : after.nBestChainTrust = s.nBestChainTrust

/-- What `AddToBlockIndex` has done when it has written the entry. -/
structure Inserted (s : Node) (pindex : CBlockIndex) (pprev : BlockPtr) (written : Node) : Prop where
  mapBlockIndex : written.mapBlockIndex = Function.update s.mapBlockIndex pindex.hash (some (pindex :: pprev))
  pindexGenesisBlock : written.pindexGenesisBlock = s.pindexGenesisBlock
  pindexBest : written.pindexBest = s.pindexBest
  hashBestChain : written.hashBestChain = s.hashBestChain
  nBestChainTrust : written.nBestChainTrust = s.nBestChainTrust
  files : written.files = s.files
  writeStatus : written.txdb.writeStatus = s.txdb.writeStatus

section Insertion

variable {env : Env} {policy : Policy} {kernel : StakeKernel} {c : Connector} {s : Node}
  {block : CBlock} {pos : DiskBlockPos} {hashProof : UInt256}

theorem CBlockIndex.getBlockTrust_toNat {pindex : CBlockIndex} (positive : 1 ≤ CBigNum.setCompact pindex.nBits) :
    (pindex.getBlockTrust.toNat : Int) = 2 ^ 256 / (CBigNum.setCompact pindex.nBits + 1) := by
  have notZero : ¬CBigNum.setCompact pindex.nBits ≤ 0 := by omega
  have quotient : (2 ^ 256 : Int) / (CBigNum.setCompact pindex.nBits + 1) < 2 ^ 256 :=
    Int.ediv_lt_of_lt_mul (by omega) (by omega)
  have nonneg : 0 ≤ (2 ^ 256 : Int) / (CBigNum.setCompact pindex.nBits + 1) :=
    Int.ediv_nonneg (by decide) (by omega)
  rw [getBlockTrust, if_neg notZero, CBigNum.getUInt256, Int.tdiv_eq_ediv_of_nonneg (by decide), BitVec.toNat_ofNat]
  omega

/-- The trust of a new entry is larger than its parent's. -/
theorem chainTrust_lt_newEntry {blockOf : UInt256 → CBlock} {pprev : BlockPtr}
    (addable : Addable env blockOf s block pos)
    (parent : (s.mapBlockIndex block.hashPrevBlock).getD [] = pprev) (nStakeModifier : UInt64)
    (fGeneratedStakeModifier : Bool) :
    chainTrust pprev <
      (newEntry env block pos hashProof nStakeModifier fGeneratedStakeModifier pprev).nChainTrust := by
  obtain ⟨-, -, positive, bounded, accumulated⟩ := addable
  rw [parent] at accumulated
  simp only [newEntry]
  generalize fresh : CBlockIndex.getBlockTrust _ = trust
  have value : (trust.toNat : Int) = 2 ^ 256 / (CBigNum.setCompact block.nBits + 1) := by
    rw [← fresh]
    exact CBlockIndex.getBlockTrust_toNat positive
  have atLeastOne : (1 : Int) ≤ 2 ^ 256 / (CBigNum.setCompact block.nBits + 1) :=
    (Int.le_ediv_iff_mul_le (by omega)).mpr (by omega)
  rw [BitVec.lt_def, BitVec.toNat_add, Nat.mod_eq_of_lt (by omega)]
  omega

/-- The outcomes of `AddToBlockIndex` when commits succeed: the block is refused, or
its entry is inserted and the chain is switched to it if it is heavier. -/
theorem addToBlockIndex_cases {pprev : BlockPtr} (commits : ∀ n, s.txdb.writeStatus n = true)
    (parent : (s.mapBlockIndex block.hashPrevBlock).getD [] = pprev) :
    addToBlockIndex env policy kernel c s block pos hashProof = .error s ∨
      ∃ nStakeModifier fGeneratedStakeModifier entry written,
        entry = newEntry env block pos hashProof nStakeModifier fGeneratedStakeModifier pprev ∧
        s.mapBlockIndex entry.hash = none ∧ Inserted s entry pprev written ∧
        addToBlockIndex env policy kernel c s block pos hashProof =
          if written.nBestChainTrust < entry.nChainTrust then
            setBestChain env policy c written block (entry :: pprev)
          else .ok written := by
  simp only [addToBlockIndex, parent]
  split
  · exact Or.inl rfl
  rename_i new
  split
  · exact Or.inl rfl
  rename_i nStakeModifier fGeneratedStakeModifier modifier
  split
  · exact Or.inl rfl
  generalize made : newEntry env block pos hashProof nStakeModifier fGeneratedStakeModifier pprev = entry
  have named : entry.hash = block.getHash env := by
    rw [← made]
    rfl
  have status : ((s.insertEntry entry pprev).txdb.fresh.txnBegin.writeBlockIndex
      (diskBlockIndex (s.insertEntry entry pprev) entry pprev)).txnCommit.1 = true := commits _
  simp only [Node.writeEntry, status, if_true]
  refine Or.inr ⟨nStakeModifier, fGeneratedStakeModifier, entry, _, made.symm, ?_, ?_, rfl⟩
  · rw [named]
    simpa using new
  · exact ⟨rfl, rfl, rfl, rfl, rfl, rfl, rfl⟩

theorem Inserted.kept {entry : CBlockIndex} {pprev pindex : BlockPtr} {written : Node} {hash : UInt256}
    (inserted : Inserted s entry pprev written) (new : s.mapBlockIndex entry.hash = none)
    (found : s.mapBlockIndex hash = some pindex) : written.mapBlockIndex hash = some pindex := by
  rw [inserted.mapBlockIndex, Function.update_of_ne, found]
  rintro rfl
  rw [new] at found
  cases found

theorem Inserted.found_cases {entry : CBlockIndex} {pprev pindex : BlockPtr} {written : Node} {hash : UInt256}
    (inserted : Inserted s entry pprev written) (found : written.mapBlockIndex hash = some pindex) :
    (hash = entry.hash ∧ pindex = entry :: pprev) ∨ s.mapBlockIndex hash = some pindex := by
  rw [inserted.mapBlockIndex] at found
  by_cases same : hash = entry.hash
  · subst same
    rw [Function.update_self] at found
    exact Or.inl ⟨rfl, (Option.some.inj found).symm⟩
  · rw [Function.update_of_ne same] at found
    exact Or.inr found

end Insertion

section Invariant

variable {env : Env} {policy : Policy} {kernel : StakeKernel} {c : Connector} {s after : Node}
  {verdict : CBlock → BlockPtr → Bool} {blockOf : UInt256 → CBlock} {genesis : CBlockIndex}

theorem IndexTree.ne_nil (tree : IndexTree genesis s) {pindex : BlockPtr} {hash : UInt256}
    (indexed : s.mapBlockIndex hash = some pindex) : pindex ≠ [] := by
  rintro rfl
  cases tree.keyed _ _ indexed

theorem IndexTree.rooted (tree : IndexTree genesis s) {pindex : BlockPtr} {hash : UInt256}
    (indexed : s.mapBlockIndex hash = some pindex) : Rooted genesis pindex := by
  induction pindex generalizing hash with
  | nil => cases tree.keyed _ _ indexed
  | cons entry pprev ih =>
      cases pprev with
      | nil =>
          obtain rfl := tree.root _ _ indexed
          exact .root tree.bottom
      | cons prev grand =>
          obtain ⟨below, height, -⟩ := tree.parent _ _ _ _ indexed
          exact .child (ih below) height

theorem IndexTree.of_suffix (tree : IndexTree genesis s) {pindex ancestor : BlockPtr} {hash : UInt256}
    (indexed : s.mapBlockIndex hash = some pindex) (suffix : ancestor <:+ pindex) (real : ancestor ≠ []) :
    ∃ key, s.mapBlockIndex key = some ancestor := by
  induction pindex generalizing hash with
  | nil => exact absurd (List.suffix_nil.mp suffix) real
  | cons entry pprev ih =>
      rcases suffix_cases suffix real with same | ⟨top, prev, grand, shape, below⟩
      · exact ⟨hash, same ▸ indexed⟩
      · obtain ⟨rfl, rfl⟩ := List.cons.inj shape
        exact ih (tree.parent _ _ _ _ indexed).1 below

theorem Storage.readable (storage : Storage env blockOf s) (tree : IndexTree genesis s) {pindex : BlockPtr}
    {hash : UInt256} (indexed : s.mapBlockIndex hash = some pindex) : Readable env blockOf s pindex := by
  intro entry pprev suffix
  obtain ⟨key, found⟩ := tree.of_suffix indexed suffix (List.cons_ne_nil _ _)
  have named : entry.hash = key := Option.some.inj (tree.keyed _ _ found)
  rw [named]
  exact storage.reads _ _ found

/-- A new entry on an indexed parent keeps the index a tree. -/
theorem IndexTree.insert {entry prev : CBlockIndex} {grand : BlockPtr} {written : Node} (tree : IndexTree genesis s)
    (parent : s.mapBlockIndex prev.hash = some (prev :: grand)) (new : s.mapBlockIndex entry.hash = none)
    (inserted : Inserted s entry (prev :: grand) written) (height : entry.nHeight = prev.nHeight + 1)
    (heavier : prev.nChainTrust < entry.nChainTrust) : IndexTree genesis written := by
  refine ⟨tree.bottom, inserted.pindexGenesisBlock.trans tree.started, ?_, ?_, ?_⟩
  · intro hash pindex found
    rcases inserted.found_cases found with ⟨rfl, rfl⟩ | old
    · rfl
    · exact tree.keyed _ _ old
  · intro hash single found
    rcases inserted.found_cases found with ⟨-, shape⟩ | old
    · cases shape
    · exact tree.root _ _ old
  · intro hash top below rest found
    rcases inserted.found_cases found with ⟨-, shape⟩ | old
    · cases shape
      exact ⟨inserted.kept new parent, height, heavier⟩
    · obtain ⟨lower, one, more⟩ := tree.parent _ _ _ _ old
      exact ⟨inserted.kept new lower, one, more⟩

/-- The block of a new entry can be read where it was written. -/
theorem Storage.insert {entry : CBlockIndex} {pprev : BlockPtr} {written : Node} {block : CBlock}
    {pos : DiskBlockPos} {hashProof : UInt256} {nStakeModifier : UInt64} {fGeneratedStakeModifier : Bool}
    (storage : Storage env blockOf s) (addable : Addable env blockOf s block pos)
    (made : entry = newEntry env block pos hashProof nStakeModifier fGeneratedStakeModifier pprev)
    (inserted : Inserted s entry pprev written) : Storage env blockOf written := by
  constructor
  · intro n
    rw [inserted.writeStatus]
    exact storage.commits n
  · intro hash pindex found
    rcases inserted.found_cases found with ⟨rfl, rfl⟩ | old
    · subst made
      have onDisk : written.readBlockAt env pos.nFile pos.nBlockPos = some block := by
        rw [← addable.written]
        simp only [Node.readBlockAt, inserted.files]
      have fresh : (newEntry env block pos hashProof nStakeModifier fGeneratedStakeModifier pprev).nFile = pos.nFile ∧
          (newEntry env block pos hashProof nStakeModifier fGeneratedStakeModifier pprev).nBlockPos =
            pos.nBlockPos ∧
          (newEntry env block pos hashProof nStakeModifier fGeneratedStakeModifier pprev).hash =
            block.getHash env := ⟨rfl, rfl, rfl⟩
      obtain ⟨nFile, nBlockPos, hash⟩ := fresh
      rw [readBlock, Node.readFromDisk, nFile, nBlockPos, onDisk, hash, addable.content]
      simp
    · rw [readBlock_of_files inserted.files]
      exact storage.reads _ _ old

theorem SameIndex.of_kept (kept : Kept s after) : SameIndex s after :=
  ⟨kept.mapBlockIndex, kept.pindexGenesisBlock, kept.pindexBest, kept.hashBestChain, kept.nBestChainTrust⟩

theorem Heaviest.outside (heaviest : Heaviest verdict blockOf genesis s) (same : SameIndex s after) :
    Heaviest verdict blockOf genesis after := by
  obtain ⟨⟨bottom, started, keyed, root, parent⟩, best, trust, connectable, most⟩ := heaviest
  rw [← same.mapBlockIndex] at keyed root parent best most
  rw [← same.nBestChainTrust] at trust most
  rw [← same.pindexBest] at best trust connectable
  rw [← same.hashBestChain] at best
  exact ⟨⟨bottom, same.pindexGenesisBlock.trans started, keyed, root, parent⟩, best, trust, connectable, most⟩

/-- The new entry is the best one now. -/
theorem Heaviest.moved {entry : CBlockIndex} {pprev : BlockPtr} {middle : Node} (tree : IndexTree genesis s)
    (indexed : s.mapBlockIndex entry.hash = some (entry :: pprev))
    (connectable : Connectable verdict blockOf (entry :: pprev))
    (others : ∀ hash pindex, s.mapBlockIndex hash = some pindex → Connectable verdict blockOf pindex →
      chainTrust pindex ≤ entry.nChainTrust)
    (named : (blockOf entry.hash).getHash env = entry.hash) (same : SameBest s middle) :
    Heaviest verdict blockOf genesis (newBest env middle (blockOf entry.hash) (entry :: pprev)) := by
  have mapSame : (newBest env middle (blockOf entry.hash) (entry :: pprev)).mapBlockIndex = s.mapBlockIndex :=
    same.mapBlockIndex
  refine ⟨⟨tree.bottom, same.pindexGenesisBlock.trans tree.started, ?_, ?_, ?_⟩, ?_, rfl, connectable, ?_⟩
  · rw [mapSame]
    exact tree.keyed
  · rw [mapSame]
    exact tree.root
  · rw [mapSame]
    exact tree.parent
  · rw [mapSame]
    change s.mapBlockIndex ((blockOf entry.hash).getHash env) = some (entry :: pprev)
    rw [named]
    exact indexed
  · rw [mapSame]
    exact others

theorem Pending.settled {entry : CBlockIndex} {pprev : BlockPtr}
    (pending : Pending env verdict blockOf genesis entry pprev s)
    (light : s.nBestChainTrust < entry.nChainTrust → ¬Connectable verdict blockOf (entry :: pprev)) :
    Heaviest verdict blockOf genesis s := by
  refine ⟨pending.tree, pending.best, pending.trust, pending.connectable, ?_⟩
  intro hash pindex found connectable
  rcases pending.others _ _ found connectable with rfl | bounded
  · exact BitVec.not_lt.mp fun heavier => light heavier connectable
  · exact bounded

/-- No ancestor of the new entry that can be connected is heavier than the best block. -/
theorem Pending.barred {entry : CBlockIndex} {pprev ancestor : BlockPtr}
    (pending : Pending env verdict blockOf genesis entry pprev s) (suffix : ancestor <:+ pprev)
    (real : ancestor ≠ []) (heavier : bestTrust s < chainTrust ancestor) :
    ¬Connectable verdict blockOf ancestor := by
  intro connectable
  obtain ⟨key, found⟩ := pending.tree.of_suffix pending.parent suffix real
  rcases pending.others _ _ found connectable with rfl | bounded
  · have shorter := suffix.length_le
    simp at shorter
  · rw [pending.trust] at bounded
    exact absurd heavier (BitVec.not_lt.mpr bounded)

/-- The switch to a heavier entry, whether it succeeds or fails. -/
theorem Pending.switch {entry : CBlockIndex} {pprev : BlockPtr} (judged : Judged c verdict)
    (pending : Pending env verdict blockOf genesis entry pprev s)
    (heavier : s.nBestChainTrust < entry.nChainTrust) :
    Heaviest verdict blockOf genesis
      (afterLoop (setBestChain env policy c s (blockOf entry.hash) (entry :: pprev))) := by
  have started : s.pindexGenesisBlock ≠ [] := by
    rw [pending.tree.started]
    exact List.cons_ne_nil _ _
  have extension : (blockOf entry.hash).hashPrevBlock = s.hashBestChain → pprev = s.pindexBest := by
    intro extends_
    have parent := pending.parent
    rw [extends_, pending.best] at parent
    exact (Option.some.inj parent).symm
  have switchIff : (∃ after, setBestChain env policy c s (blockOf entry.hash) (entry :: pprev) = .ok after) ↔ _ :=
    setBestChain_iff judged started (pending.tree.rooted pending.best) (pending.tree.rooted pending.indexed)
      (pending.tree.ne_nil pending.parent) (pending.storage.readable pending.tree pending.best)
      (pending.storage.readable pending.tree pending.indexed) pending.storage.commits extension
      pending.connectable fun ancestor => pending.barred
  cases outcome : setBestChain env policy c s (blockOf entry.hash) (entry :: pprev) with
  | error failed =>
      have blocked : ¬Connectable verdict blockOf (entry :: pprev) := by
        intro connectable
        obtain ⟨switched, impossible⟩ := switchIff.mpr connectable
        rw [outcome] at impossible
        cases impossible
      exact (pending.settled fun _ => blocked).outside (SameIndex.of_kept (setBestChain_error outcome))
  | ok switched =>
      obtain ⟨middle, same, rfl⟩ := setBestChain_ok started outcome
      refine Heaviest.moved pending.tree pending.indexed (switchIff.mp ⟨_, outcome⟩) ?_ pending.named same
      intro hash pindex found connectable
      rcases pending.others _ _ found connectable with rfl | bounded
      · exact BitVec.le_refl _
      · have below := BitVec.le_def.mp bounded
        have above := BitVec.lt_def.mp heavier
        exact BitVec.le_def.mpr (by omega)

/-- A new entry on an indexed parent, before the chain is switched. -/
theorem Heaviest.pending {entry prev : CBlockIndex} {grand : BlockPtr} {written : Node}
    (heaviest : Heaviest verdict blockOf genesis s) (storage : Storage env blockOf written)
    (inserted : Inserted s entry (prev :: grand) written) (new : s.mapBlockIndex entry.hash = none)
    (parent : s.mapBlockIndex (blockOf entry.hash).hashPrevBlock = some (prev :: grand))
    (named : (blockOf entry.hash).getHash env = entry.hash) (height : entry.nHeight = prev.nHeight + 1)
    (heavier : prev.nChainTrust < entry.nChainTrust) :
    Pending env verdict blockOf genesis entry (prev :: grand) written where
  tree := by
    have key : prev.hash = (blockOf entry.hash).hashPrevBlock := Option.some.inj (heaviest.keyed _ _ parent)
    exact heaviest.insert (key ▸ parent) new inserted height heavier
  storage := storage
  indexed := by rw [inserted.mapBlockIndex, Function.update_self]
  parent := inserted.kept new parent
  named := named
  best := by
    rw [inserted.hashBestChain, inserted.pindexBest]
    exact inserted.kept new heaviest.best
  trust := by
    rw [inserted.nBestChainTrust, inserted.pindexBest]
    exact heaviest.trust
  connectable := by
    rw [inserted.pindexBest]
    exact heaviest.connectable
  others := by
    intro hash pindex found connectable
    rcases inserted.found_cases found with ⟨-, same⟩ | old
    · exact Or.inl same
    · rw [inserted.nBestChainTrust]
      exact Or.inr (heaviest.heaviest _ _ old connectable)

/-- One call of `AddToBlockIndex` on a block whose parent is in the index. -/
theorem Heaviest.add {block : CBlock} {pos : DiskBlockPos} {pprev : BlockPtr} (judged : Judged c verdict)
    (heaviest : Heaviest verdict blockOf genesis s) (storage : Storage env blockOf s)
    (addable : Addable env blockOf s block pos) (parent : s.mapBlockIndex block.hashPrevBlock = some pprev)
    (hashProof : UInt256) :
    Heaviest verdict blockOf genesis
      (afterLoop (addToBlockIndex env policy kernel c s block pos hashProof)) := by
  have pprevEq : (s.mapBlockIndex block.hashPrevBlock).getD [] = pprev := by
    rw [parent]
    rfl
  rcases addToBlockIndex_cases storage.commits pprevEq with
    refused | ⟨nStakeModifier, fGeneratedStakeModifier, entry, written, made, new, inserted, result⟩
  · rw [refused]
    exact heaviest
  obtain ⟨prev, grand, rfl⟩ := List.exists_cons_of_ne_nil (heaviest.ne_nil parent)
  have named : entry.hash = block.getHash env := by
    rw [made]
    rfl
  have content : blockOf entry.hash = block := named ▸ addable.content
  have pending : Pending env verdict blockOf genesis entry (prev :: grand) written := by
    refine heaviest.pending (storage.insert addable made inserted) inserted new (content ▸ parent)
      (by rw [content, named]) ?_ ?_
    · rw [made]
      rfl
    · rw [made]
      exact chainTrust_lt_newEntry addable pprevEq nStakeModifier fGeneratedStakeModifier
  rw [result]
  split
  · rename_i heavier
    rw [← content]
    exact pending.switch judged heavier
  · rename_i light
    exact pending.settled fun heavier => absurd heavier light

/-- The first call, on genesis: the entry of genesis is the whole index. -/
theorem addToBlockIndex_genesis {block : CBlock} {pos : DiskBlockPos} {hashProof : UInt256}
    (empty : s.mapBlockIndex = fun _ => none) (unstarted : s.pindexGenesisBlock = [])
    (noTrust : s.nBestChainTrust = 0) (isGenesis : block.getHash env = env.hashGenesisBlock)
    (commits : ∀ n, s.txdb.writeStatus n = true) (addable : Addable env blockOf s block pos)
    (accepted : addToBlockIndex env policy kernel c s block pos hashProof = .ok after) :
    ∃ entry, Heaviest verdict blockOf entry after ∧ entry.hash = block.getHash env ∧
      after.mapBlockIndex = Function.update (fun _ => none) entry.hash (some [entry]) ∧
      Storage env blockOf after := by
  have noParent : (s.mapBlockIndex block.hashPrevBlock).getD [] = [] := by
    rw [empty]
    rfl
  rcases addToBlockIndex_cases commits noParent with
    refused | ⟨nStakeModifier, fGeneratedStakeModifier, entry, written, made, -, inserted, result⟩
  · rw [refused] at accepted
    cases accepted
  have named : entry.hash = block.getHash env := by
    rw [made]
    rfl
  have heavier : written.nBestChainTrust < entry.nChainTrust := by
    rw [inserted.nBestChainTrust, noTrust, made]
    exact chainTrust_lt_newEntry addable noParent nStakeModifier fGeneratedStakeModifier
  have first : written.txnBegin.pindexGenesisBlock = [] := inserted.pindexGenesisBlock.trans unstarted
  have beginCommits : ∀ n, written.txnBegin.txdb.writeStatus n = true := by
    intro n
    change written.txdb.writeStatus n = true
    rw [inserted.writeStatus]
    exact commits n
  obtain ⟨committed, commit, status⟩ := commitBest_succeeds beginCommits env.hashGenesisBlock
  simp only [result, heavier, if_true, setBestChain, first, isGenesis, and_self, commit] at accepted
  cases accepted
  have same := SameBest.of_commitBest commit
  have whole : committed.mapBlockIndex = Function.update (fun _ => none) entry.hash (some [entry]) := by
    rw [same.mapBlockIndex, ← empty]
    exact inserted.mapBlockIndex
  have only : ∀ hash pindex, committed.mapBlockIndex hash = some pindex → hash = entry.hash ∧ pindex = [entry] := by
    intro hash pindex found
    rw [same.mapBlockIndex] at found
    rcases inserted.found_cases found with this | impossible
    · exact this
    · rw [empty] at impossible
      cases impossible
  have storage : Storage env blockOf written := by
    refine Storage.insert ⟨commits, ?_⟩ addable made inserted
    intro hash pindex impossible
    rw [empty] at impossible
    cases impossible
  refine ⟨entry, ⟨⟨?_, rfl, ?_, ?_, ?_⟩, ?_, rfl, trivial, ?_⟩, named, whole, ?_, ?_⟩
  · rw [made]
    rfl
  · intro hash pindex found
    obtain ⟨rfl, rfl⟩ := only _ _ found
    rfl
  · intro hash single found
    exact (List.cons.inj (only _ _ found).2).1
  · intro hash top prev grand found
    cases (only _ _ found).2
  · change committed.mapBlockIndex (block.getHash env) = some [entry]
    rw [whole, named, Function.update_self]
  · intro hash pindex found _
    obtain ⟨rfl, rfl⟩ := only _ _ found
    exact BitVec.le_refl _
  · intro n
    change committed.txdb.writeStatus n = true
    rw [status]
    exact beginCommits n
  · intro hash pindex found
    obtain ⟨rfl, rfl⟩ := only _ _ found
    rw [← storage.reads entry.hash [entry] (same.mapBlockIndex ▸ found)]
    apply readBlock_of_files
    exact same.files

end Invariant

/-- States that a node reaches by `AddToBlockIndex` calls: genesis, which is accepted,
and then blocks whose parents are in the index, in any order, accepted or not. -/
inductive Grown (env : Env) (policy : Policy) (kernel : StakeKernel) (c : Connector) (blockOf : UInt256 → CBlock) :
    Node → Prop
  | genesis {s after block pos hashProof} (empty : s.mapBlockIndex = fun _ => none)
      (unstarted : s.pindexGenesisBlock = []) (noTrust : s.nBestChainTrust = 0)
      (isGenesis : block.getHash env = env.hashGenesisBlock) (commits : ∀ n, s.txdb.writeStatus n = true)
      (addable : Addable env blockOf s block pos)
      (accepted : addToBlockIndex env policy kernel c s block pos hashProof = .ok after) :
      Grown env policy kernel c blockOf after
  | add {s block pos hashProof pprev} (earlier : Grown env policy kernel c blockOf s)
      (parent : s.mapBlockIndex block.hashPrevBlock = some pprev) (storage : Storage env blockOf s)
      (addable : Addable env blockOf s block pos) :
      Grown env policy kernel c blockOf (afterLoop (addToBlockIndex env policy kernel c s block pos hashProof))
  | outside {s after} (earlier : Grown env policy kernel c blockOf s) (same : SameIndex s after) :
      Grown env policy kernel c blockOf after

theorem Grown.heaviest {env : Env} {policy : Policy} {kernel : StakeKernel} {c : Connector} {s : Node}
    {verdict : CBlock → BlockPtr → Bool} {blockOf : UInt256 → CBlock} (judged : Judged c verdict)
    (grown : Grown env policy kernel c blockOf s) : ∃ genesis, Heaviest verdict blockOf genesis s := by
  induction grown with
  | genesis empty unstarted noTrust isGenesis commits addable accepted =>
      obtain ⟨entry, heaviest, -⟩ :=
        addToBlockIndex_genesis empty unstarted noTrust isGenesis commits addable accepted
      exact ⟨entry, heaviest⟩
  | add _ parent storage addable ih =>
      obtain ⟨entry, heaviest⟩ := ih
      exact ⟨entry, heaviest.add judged storage addable parent _⟩
  | outside _ same ih =>
      obtain ⟨entry, heaviest⟩ := ih
      exact ⟨entry, heaviest.outside same⟩

section Concrete

/-- The block connection of the source with a verdict in front. -/
def Connector.judged (env : Env) (verdict : CBlock → BlockPtr → Bool) : Connector where
  connect s block pindex :=
    if verdict block pindex then some (((codeConnector env).connect s block pindex).getD s) else none
  disconnect s block pindex := .ok (afterLoop ((codeConnector env).disconnect s block pindex))
  connectFrame := by
    intro s after block pindex connected
    split at connected
    · cases connected
      cases step : (codeConnector env).connect s block pindex with
      | none => exact CBlock.Frame.refl s
      | some next => exact (codeConnector env).connectFrame step
    · cases connected
  disconnectFrame := by
    intro s after block pindex undone
    cases undone
    cases step : (codeConnector env).disconnect s block pindex with
    | error failed => exact (codeConnector env).failedFrame step
    | ok next => exact (codeConnector env).disconnectFrame step
  failedFrame := by
    intro s after block pindex failed
    cases failed

/-- A kernel that never objects. -/
def StakeKernel.lax : StakeKernel := ⟨fun _ => some (0, false), fun _ => 0, fun _ _ => true⟩

end Concrete

end InfiniteRicks
