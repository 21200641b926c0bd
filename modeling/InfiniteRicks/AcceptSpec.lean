import InfiniteRicks.Checkpoints

/-!
# What accepting a block does to the index

`AddToBlockIndex` and `AcceptBlock` leave the index as it was or add one entry, on the
parent that the block names; they may do the second and still return false. In a
`Grounded` node every index entry stands on its parent and only ancestors of the best
block have a `pnext`, and all of this survives whatever `AcceptBlock` and
`SetBestChain` do.
-/

namespace InfiniteRicks

/-- Only proper ancestors of an entry have a successor. -/
def LinkedBelow (pnext : UInt256 → Option UInt256) (pindex : BlockPtr) : Prop :=
  ∀ hash, (pnext hash).isSome = true → hash ∈ pindex.tail.map CBlockIndex.hash

section Links

variable {pnext : UInt256 → Option UInt256} {pindex pfork : BlockPtr}

theorem mem_tail_of_suffix {ancestor : BlockPtr} {hash : UInt256} (suffix : ancestor <:+ pindex)
    (member : hash ∈ ancestor.tail.map CBlockIndex.hash) : hash ∈ pindex.tail.map CBlockIndex.hash := by
  rcases List.suffix_iff_eq_append.mp suffix with shape
  cases newer : pindex.take (pindex.length - ancestor.length) with
  | nil =>
      rw [newer, List.nil_append] at shape
      rwa [← shape]
  | cons top rest =>
      rw [newer, List.cons_append] at shape
      rw [← shape, List.tail_cons, List.map_append]
      exact List.mem_append_right _ (List.map_subset _ (List.tail_subset _) member)

theorem LinkedBelow.of_suffix {ancestor : BlockPtr} (linked : LinkedBelow pnext ancestor)
    (suffix : ancestor <:+ pindex) : LinkedBelow pnext pindex :=
  fun hash present => mem_tail_of_suffix suffix (linked hash present)

theorem LinkedBelow.linkNext (linked : LinkedBelow pnext pindex) {ancestor : BlockPtr}
    (suffix : ancestor <:+ pindex) : LinkedBelow (InfiniteRicks.linkNext pnext ancestor) pindex := by
  intro hash present
  rcases ancestor with _ | ⟨entry, _ | ⟨prev, grand⟩⟩
  · exact linked hash present
  · exact linked hash present
  · rw [InfiniteRicks.linkNext] at present
    by_cases same : hash = prev.hash
    · exact mem_tail_of_suffix suffix (by simp [same])
    · rw [Function.update_of_ne same] at present
      exact linked hash present

theorem LinkedBelow.foldl_linkNext (linked : LinkedBelow pnext pindex) {pindexes : List BlockPtr}
    (suffixes : ∀ ancestor ∈ pindexes, ancestor <:+ pindex) :
    LinkedBelow (pindexes.foldl InfiniteRicks.linkNext pnext) pindex := by
  induction pindexes generalizing pnext with
  | nil => exact linked
  | cons first rest ih =>
      exact ih (linked.linkNext (suffixes first List.mem_cons_self))
        fun ancestor member => suffixes ancestor (List.mem_cons_of_mem _ member)

/-- Unlinking a path leaves links below the fork only. -/
theorem LinkedBelow.foldl_unlinkNext (linked : LinkedBelow pnext pindex) (suffix : pfork <:+ pindex)
    (real : pfork ≠ []) : LinkedBelow ((pathTo pfork pindex).foldl InfiniteRicks.unlinkNext pnext) pfork := by
  induction pindex generalizing pnext with
  | nil => exact absurd (List.suffix_nil.mp suffix) real
  | cons entry pprev ih =>
      rcases suffix_cases suffix real with same | ⟨top, prev, grand, shape, below⟩
      · rw [← same, pathTo_self]
        exact linked
      obtain ⟨rfl, rfl⟩ := List.cons.inj shape
      rw [pathTo_cons entry below, List.foldl_cons]
      refine ih ?_ below
      intro hash present
      rw [InfiniteRicks.unlinkNext] at present
      by_cases same : hash = prev.hash
      · rw [same, Function.update_self] at present
        cases present
      · rw [Function.update_of_ne same] at present
        have inside := linked hash present
        rw [List.tail_cons, List.map_cons] at inside
        exact (List.mem_cons.mp inside).resolve_left same

theorem suffix_of_mem_pathTo {ancestor : BlockPtr} (member : ancestor ∈ pathTo pfork pindex) :
    ancestor <:+ pindex := by
  induction pindex with
  | nil => simp [pathTo] at member
  | cons entry pprev ih =>
      simp only [pathTo] at member
      split at member
      · cases member
      · rcases List.mem_cons.mp member with rfl | deeper
        · exact List.suffix_rfl
        · exact (ih deeper).trans (List.suffix_cons _ _)

end Links

/-- A node after genesis whose index entries stand on their parents and whose links stay
below the best block. -/
structure Grounded (s : Node) : Prop where
  started : s.pindexGenesisBlock ≠ []
  keyed : ∀ hash pindex, s.mapBlockIndex hash = some pindex → pindex.head?.map CBlockIndex.hash = some hash
  parent : ∀ hash entry prev grand, s.mapBlockIndex hash = some (entry :: prev :: grand) →
    s.mapBlockIndex prev.hash = some (prev :: grand) ∧ entry.nHeight = prev.nHeight + 1
  best : s.mapBlockIndex s.hashBestChain = some s.pindexBest
  links : LinkedBelow s.pnext s.pindexBest

namespace Grounded

variable {env : Env} {policy : Policy} {s after : Node} {hash : UInt256} {pindex : BlockPtr}

/-- An indexed block is indexed with its ancestors. -/
theorem indexed (grounded : Grounded s) (found : s.mapBlockIndex hash = some pindex) :
    Indexed s.mapBlockIndex pindex := by
  induction pindex generalizing hash with
  | nil => cases grounded.keyed _ _ found
  | cons entry pprev ih =>
      intro lower rest suffix
      rcases List.suffix_cons_iff.mp suffix with same | below
      · obtain ⟨rfl, rfl⟩ := List.cons.inj same
        have named : lower.hash = hash := Option.some.inj (grounded.keyed _ _ found)
        rw [named]
        exact found
      · cases pprev with
        | nil => simp at below
        | cons prev grand => exact ih (grounded.parent _ _ _ _ found).1 lower rest below

/-- A block that `IsInMainChain` accepts is the best one or an ancestor of it. -/
theorem suffix_of_isInMainChain (grounded : Grounded s) (found : s.mapBlockIndex hash = some pindex)
    (inMainChain : isInMainChain s pindex = true) : pindex <:+ s.pindexBest := by
  cases pindex with
  | nil => cases inMainChain
  | cons entry pprev =>
      simp only [isInMainChain, Bool.or_eq_true, decide_eq_true_eq] at inMainChain
      rcases inMainChain with linked | best
      · obtain ⟨other, member, same⟩ := List.mem_map.mp (grounded.links _ linked)
        obtain ⟨newer, rest, shape⟩ := List.append_of_mem (List.mem_of_mem_tail member)
        have suffix : other :: rest <:+ s.pindexBest := ⟨newer, shape.symm⟩
        have lookup := grounded.indexed grounded.best other rest suffix
        have own := grounded.indexed found entry pprev List.suffix_rfl
        rw [same, own, Option.some.injEq] at lookup
        rw [lookup]
        exact suffix
      · exact best ▸ List.suffix_rfl

theorem of_sameBest (grounded : Grounded s) (same : SameBest s after) (pnext : after.pnext = s.pnext) :
    Grounded after where
  started := same.pindexGenesisBlock ▸ grounded.started
  keyed := same.mapBlockIndex ▸ grounded.keyed
  parent := same.mapBlockIndex ▸ grounded.parent
  best := by
    rw [same.mapBlockIndex, same.hashBestChain, same.pindexBest]
    exact grounded.best
  links := by
    rw [pnext, same.pindexBest]
    exact grounded.links

theorem of_kept (grounded : Grounded s) (kept : Kept s after) : Grounded after :=
  grounded.of_sameBest (.of_kept kept) kept.pnext

theorem linkedBelow_connectSecondary {c : Connector} (linked : LinkedBelow s.pnext pindex)
    {vpindexSecondary : List BlockPtr} (suffixes : ∀ ancestor ∈ vpindexSecondary, ancestor <:+ pindex) :
    LinkedBelow (afterLoop (connectSecondary env c vpindexSecondary s)).pnext pindex := by
  induction vpindexSecondary generalizing s with
  | nil => exact linked
  | cons first rest ih =>
      simp only [connectSecondary]
      split
      · exact linked
      · split
        · rename_i broken failed
          have kept := (kept_txnBegin s).trans (kept_of_setBestChainInner (batching_txnBegin s) failed)
          change LinkedBelow broken.pnext pindex
          rw [kept.pnext]
          exact linked
        · rename_i next extended
          obtain ⟨step, committed, connected, commit, rfl⟩ := setBestChainInner_ok extended
          have frame := c.connectFrame connected
          refine ih ?_ fun ancestor member => suffixes ancestor (List.mem_cons_of_mem _ member)
          have pnext : committed.pnext = s.pnext := by
            rw [(commitBest_ok commit).1, frame.rest]
            rfl
          rw [pnext]
          exact linked.linkNext (suffixes first List.mem_cons_self)

theorem linkedBelow_reorganize {c : Connector} {pindexNew : BlockPtr} (linked : LinkedBelow s.pnext s.pindexBest)
    (switched : reorganize env policy c s pindexNew = .ok after) : LinkedBelow after.pnext pindexNew := by
  obtain ⟨pfork, middle, vResurrect, top, vDelete, committed, fork, undone, done, commit, rfl⟩ :=
    reorganize_ok switched
  obtain ⟨belowBest, belowNew, real⟩ := findFork_suffix fork
  have pnext : committed.pnext = s.pnext := by
    have frame := (frame_disconnectBranch _ (Or.inl undone)).trans (frame_connectBranch _ (Or.inl done))
    rw [(commitBest_ok commit).1, frame.rest]
    rfl
  change LinkedBelow ((pathTo pfork pindexNew).reverse.foldl linkNext
    ((pathTo pfork s.pindexBest).foldl unlinkNext committed.pnext)) pindexNew
  rw [pnext]
  refine ((linked.foldl_unlinkNext belowBest real).of_suffix belowNew).foldl_linkNext ?_
  intro ancestor member
  exact suffix_of_mem_pathTo (List.mem_reverse.mp member)

theorem linkedBelow_setBestChain {c : Connector} {block : CBlock} {pindexNew : BlockPtr} (grounded : Grounded s)
    (real : pindexNew ≠ []) (onTop : block.hashPrevBlock = s.hashBestChain → s.pindexBest <:+ pindexNew)
    (switched : InfiniteRicks.setBestChain env policy c s block pindexNew = .ok after) :
    LinkedBelow after.pnext pindexNew := by
  have notFirst : ¬(s.txnBegin.pindexGenesisBlock = [] ∧ block.getHash env = env.hashGenesisBlock) :=
    fun first => grounded.started first.1
  simp only [InfiniteRicks.setBestChain, notFirst, if_false] at switched
  split at switched
  · rename_i onBest
    split at switched
    · cases switched
    rename_i middle extended
    cases switched
    obtain ⟨step, committed, connected, commit, rfl⟩ := setBestChainInner_ok extended
    have pnext : committed.pnext = s.pnext := by
      rw [(commitBest_ok commit).1, (c.connectFrame connected).rest]
      rfl
    change LinkedBelow (linkNext committed.pnext pindexNew) pindexNew
    rw [pnext]
    exact (grounded.links.of_suffix (onTop onBest)).linkNext List.suffix_rfl
  · split at switched
    · cases switched
    rename_i middle reorganized
    cases switched
    obtain ⟨suffix, -, path⟩ := postpone_spec (bestTrust s.txnBegin) pindexNew real
    have below : LinkedBelow s.txnBegin.pnext s.txnBegin.pindexBest := grounded.links
    refine linkedBelow_connectSecondary ((linkedBelow_reorganize below reorganized).of_suffix suffix) ?_
    intro ancestor member
    rw [path] at member
    exact suffix_of_mem_pathTo (List.mem_reverse.mp member)

/-- A `SetBestChain` that returns true, on an indexed block with its own parent, makes
that block the best one and leaves links to nothing but its ancestors. -/
theorem setBestChain {block : CBlock} {entry prev : CBlockIndex} {grand : BlockPtr} (grounded : Grounded s)
    (found : s.mapBlockIndex (block.getHash env) = some (entry :: prev :: grand))
    (named : block.hashPrevBlock = prev.hash)
    (switched : InfiniteRicks.setBestChain env policy (codeConnector env) s block (entry :: prev :: grand) =
      .ok after) :
    Grounded after ∧ after.mapBlockIndex = s.mapBlockIndex ∧ after.pindexBest = entry :: prev :: grand ∧
      after.files = s.files := by
  obtain ⟨middle, same, rfl⟩ := setBestChain_ok grounded.started switched
  refine ⟨⟨?_, ?_, ?_, ?_, ?_⟩, same.mapBlockIndex, rfl, same.files⟩
  · exact same.pindexGenesisBlock ▸ grounded.started
  · exact same.mapBlockIndex ▸ grounded.keyed
  · exact same.mapBlockIndex ▸ grounded.parent
  · change middle.mapBlockIndex (block.getHash env) = some (entry :: prev :: grand)
    rw [same.mapBlockIndex]
    exact found
  · refine linkedBelow_setBestChain grounded (List.cons_ne_nil _ _) ?_ switched
    intro onBest
    have best := grounded.best
    rw [← onBest, named, (grounded.parent _ _ _ _ found).1, Option.some.injEq] at best
    exact best ▸ List.suffix_cons _ _

/-- An entry on an indexed parent, under a hash that is new. -/
theorem insertEntry (grounded : Grounded s) {entry prev : CBlockIndex} {grand : BlockPtr}
    (new : s.mapBlockIndex entry.hash = none) (found : s.mapBlockIndex prev.hash = some (prev :: grand))
    (height : entry.nHeight = prev.nHeight + 1) (txdb : CTxDB) :
    Grounded ((s.insertEntry entry (prev :: grand)).withTxdb txdb) := by
  have cases_found : ∀ {key pindex}, Function.update s.mapBlockIndex entry.hash (some (entry :: prev :: grand))
      key = some pindex → (key = entry.hash ∧ pindex = entry :: prev :: grand) ∨
        s.mapBlockIndex key = some pindex := by
    intro key pindex lookup
    by_cases same : key = entry.hash
    · rw [same, Function.update_self, Option.some.injEq] at lookup
      exact Or.inl ⟨same, lookup.symm⟩
    · rw [Function.update_of_ne same] at lookup
      exact Or.inr lookup
  have kept : ∀ {key pindex}, s.mapBlockIndex key = some pindex →
      Function.update s.mapBlockIndex entry.hash (some (entry :: prev :: grand)) key = some pindex := by
    intro key pindex lookup
    rw [Function.update_of_ne, lookup]
    rintro rfl
    rw [new] at lookup
    cases lookup
  refine ⟨grounded.started, ?_, ?_, kept grounded.best, ?_⟩
  · intro key pindex lookup
    rcases cases_found lookup with ⟨rfl, rfl⟩ | old
    · rfl
    · exact grounded.keyed _ _ old
  · intro key top below rest lookup
    rcases cases_found lookup with ⟨-, shape⟩ | old
    · obtain ⟨rfl, rfl, rfl⟩ : top = entry ∧ below = prev ∧ rest = grand := by simpa using shape
      exact ⟨kept found, height⟩
    · obtain ⟨foundBelow, one⟩ := grounded.parent _ _ _ _ old
      exact ⟨kept foundBelow, one⟩
  · intro key present
    by_cases same : key = entry.hash
    · change (Function.update s.pnext entry.hash none key).isSome = true at present
      rw [same, Function.update_self] at present
      cases present
    · change (Function.update s.pnext entry.hash none key).isSome = true at present
      rw [Function.update_of_ne same] at present
      exact grounded.links key present

end Grounded

theorem writeEntry_cases (s : Node) (pindex : CBlockIndex) (pprev : BlockPtr) :
    ∃ txdb, s.writeEntry pindex pprev = .error (s.withTxdb txdb) ∨
      s.writeEntry pindex pprev = .ok (s.withTxdb txdb) := by
  simp only [Node.writeEntry]
  split
  · exact ⟨_, Or.inr rfl⟩
  · exact ⟨_, Or.inl rfl⟩

/-- What `AddToBlockIndex` can do on an indexed parent: refuse the block, or insert its
entry and then fail to write it, return, or go on to `SetBestChain`. -/
theorem addToBlockIndex_outcome (env : Env) (policy : Policy) (kernel : StakeKernel) (c : Connector) {s : Node}
    {block : CBlock} (pos : DiskBlockPos) (hashProof : UInt256) {pprev : BlockPtr}
    (parent : s.mapBlockIndex block.hashPrevBlock = some pprev) :
    addToBlockIndex env policy kernel c s block pos hashProof = .error s ∨
      ∃ nStakeModifier fGeneratedStakeModifier entry txdb,
        entry = newEntry env block pos hashProof nStakeModifier fGeneratedStakeModifier pprev ∧
        (addToBlockIndex env policy kernel c s block pos hashProof =
            .error ((s.insertEntry entry pprev).withTxdb txdb) ∨
          addToBlockIndex env policy kernel c s block pos hashProof =
            .ok ((s.insertEntry entry pprev).withTxdb txdb) ∨
          addToBlockIndex env policy kernel c s block pos hashProof =
            setBestChain env policy c ((s.insertEntry entry pprev).withTxdb txdb) block (entry :: pprev)) := by
  simp only [addToBlockIndex, parent, Option.getD_some]
  split
  · exact Or.inl rfl
  split
  · exact Or.inl rfl
  rename_i nStakeModifier fGeneratedStakeModifier modifier
  split
  · exact Or.inl rfl
  generalize made : newEntry env block pos hashProof nStakeModifier fGeneratedStakeModifier pprev = entry
  obtain ⟨txdb, failed | written⟩ := writeEntry_cases (s.insertEntry entry pprev) entry pprev
  · exact Or.inr ⟨nStakeModifier, fGeneratedStakeModifier, entry, txdb, made.symm, Or.inl (by rw [failed])⟩
  · refine Or.inr ⟨nStakeModifier, fGeneratedStakeModifier, entry, txdb, made.symm, Or.inr ?_⟩
    rw [written]
    dsimp only
    split
    · exact Or.inr rfl
    · exact Or.inl rfl

/-- What is left after `AddToBlockIndex` has put an entry on an indexed parent: the index
with it, and a best block that is the one from before or the new one. -/
structure Extended (s : Node) (entry : CBlockIndex) (pprev : BlockPtr) (node : Node) : Prop where
  mapBlockIndex : node.mapBlockIndex = Function.update s.mapBlockIndex entry.hash (some (entry :: pprev))
  best : node.pindexBest = s.pindexBest ∨ node.pindexBest = entry :: pprev
  files : node.files = s.files

/-- `AddToBlockIndex` keeps a node grounded. It refuses the block with nothing changed, or
it extends the index by the new entry, whatever it returns then. -/
theorem addToBlockIndex_extends {env : Env} (policy : Policy) (kernel : StakeKernel) {s : Node}
    {block : CBlock} (pos : DiskBlockPos) (hashProof : UInt256) {prev : CBlockIndex} {grand : BlockPtr}
    (grounded : Grounded s) (new : s.mapBlockIndex (block.getHash env) = none)
    (parent : s.mapBlockIndex block.hashPrevBlock = some (prev :: grand)) :
    addToBlockIndex env policy kernel (codeConnector env) s block pos hashProof = .error s ∨
      ∃ entry node, entry.hash = block.getHash env ∧ entry.nFile = pos.nFile ∧ entry.nBlockPos = pos.nBlockPos ∧
        Grounded node ∧ Extended s entry (prev :: grand) node ∧
        (addToBlockIndex env policy kernel (codeConnector env) s block pos hashProof = .error node ∨
          addToBlockIndex env policy kernel (codeConnector env) s block pos hashProof = .ok node) := by
  have named : block.hashPrevBlock = prev.hash := (Option.some.inj (grounded.keyed _ _ parent)).symm
  rcases addToBlockIndex_outcome env policy kernel (codeConnector env) pos hashProof parent with
    refused | ⟨nStakeModifier, fGenerated, entry, txdb, made, outcome⟩
  · exact Or.inl refused
  have hash : entry.hash = block.getHash env := by rw [made]; rfl
  have height : entry.nHeight = prev.nHeight + 1 := by rw [made]; rfl
  have inserted : Grounded ((s.insertEntry entry (prev :: grand)).withTxdb txdb) :=
    grounded.insertEntry (hash ▸ new) (named ▸ parent) height txdb
  have extended : Extended s entry (prev :: grand) ((s.insertEntry entry (prev :: grand)).withTxdb txdb) :=
    ⟨rfl, Or.inl rfl, rfl⟩
  refine Or.inr ⟨entry, ?_⟩
  rcases outcome with failed | added | switch
  · exact ⟨_, hash, by rw [made]; rfl, by rw [made]; rfl, inserted, extended, Or.inl failed⟩
  · exact ⟨_, hash, by rw [made]; rfl, by rw [made]; rfl, inserted, extended, Or.inr added⟩
  · rw [switch]
    cases result : setBestChain env policy (codeConnector env)
        ((s.insertEntry entry (prev :: grand)).withTxdb txdb) block (entry :: prev :: grand) with
    | error node =>
        have kept := setBestChain_error result
        exact ⟨node, hash, by rw [made]; rfl, by rw [made]; rfl, inserted.of_kept kept,
          ⟨kept.mapBlockIndex, Or.inl kept.pindexBest, kept.files⟩, Or.inl rfl⟩
    | ok node =>
        have found : ((s.insertEntry entry (prev :: grand)).withTxdb txdb).mapBlockIndex (block.getHash env) =
            some (entry :: prev :: grand) := by
          change Function.update s.mapBlockIndex entry.hash (some (entry :: prev :: grand)) _ = _
          rw [← hash, Function.update_self]
        obtain ⟨groundedNode, index, best, files⟩ := inserted.setBestChain found named result
        exact ⟨node, hash, by rw [made]; rfl, by rw [made]; rfl, groundedNode, ⟨index, Or.inr best, files⟩,
          Or.inr rfl⟩

section Accepting

variable {setup : Setup} {s : SyncNode} {block : CBlock}

/-- The ways through `AcceptBlock`: it refuses the block with nothing changed, or it
passes its tests, writes the block and calls `AddToBlockIndex`, whose failure it
returns, and after whose success it looks at the pending checkpoint. -/
theorem acceptBlock_cases (setup : Setup) (s : SyncNode) (block : CBlock) :
    acceptBlock setup s block = .error s ∨
      ∃ pindexPrev pprev hashProof pos files,
        s.mapBlockIndex (block.getHash setup.env) = none ∧
        s.mapBlockIndex block.hashPrevBlock = some (pindexPrev :: pprev) ∧
        acceptChecks setup s block pindexPrev pprev = some hashProof ∧
        setup.writeToDisk s.files block = some (pos, files) ∧
        ((∃ node, addToBlockIndex setup.env setup.policy (codeKernel setup.hashes { s.toNode with files := files })
              (codeConnector setup.env) { s.toNode with files := files } block pos hashProof = .error node ∧
            acceptBlock setup s block = .error { s with toNode := node }) ∨
          ∃ node after, addToBlockIndex setup.env setup.policy
              (codeKernel setup.hashes { s.toNode with files := files })
              (codeConnector setup.env) { s.toNode with files := files } block pos hashProof = .ok node ∧
            (acceptPendingSyncCheckpoint setup { s with toNode := node } = .error after ∨
              acceptPendingSyncCheckpoint setup { s with toNode := node } = .ok after) ∧
            acceptBlock setup s block = .ok after) := by
  simp only [acceptBlock]
  split
  · exact Or.inl rfl
  split
  · exact Or.inl rfl
  rename_i new
  split
  · rename_i pindexPrev pprev parent
    split
    · exact Or.inl rfl
    rename_i hashProof tests
    split
    · exact Or.inl rfl
    rename_i pos files written
    refine Or.inr ⟨pindexPrev, pprev, hashProof, pos, files, by simpa using new, parent, tests, written, ?_⟩
    split
    · rename_i node failed
      exact Or.inl ⟨node, failed, rfl⟩
    · rename_i node added
      refine Or.inr ?_
      split
      · rename_i after pending
        exact ⟨node, after, added, Or.inl pending, rfl⟩
      · rename_i after pending
        exact ⟨node, after, added, Or.inr pending, rfl⟩
  · exact Or.inl rfl

end Accepting

end InfiniteRicks
