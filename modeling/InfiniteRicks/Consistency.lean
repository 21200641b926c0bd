import InfiniteRicks.BestChainSpec
import InfiniteRicks.History
import InfiniteRicks.Paths

/-!
# The best chain in memory and in the database

Along every run of `SetBestChain` calls that return true and whose postponed blocks
are all connected, the best block in memory is the one named in the database, `pnext`
leads from genesis to it through its ancestors, and the committed transaction index is
that of exactly the blocks on this path. The loop over the postponed blocks is left
by `break` when one of them fails; the best block is then assigned all the same.
-/

namespace InfiniteRicks

open CBlock (Frame)

/-- A block tree: entries with their ancestors, and the block of each entry. Every
entry descends from genesis, a hash names one entry, and heights count the
ancestors. -/
structure BlockTree (env : Env) where
  genesis : CBlockIndex
  mem : BlockPtr → Prop
  block : CBlockIndex → CBlock
  root : mem [genesis]
  rooted : ∀ {pindex}, mem pindex → pindex.getLast? = some genesis
  parent : ∀ {entry prev grand}, mem (entry :: prev :: grand) → mem (prev :: grand)
  height : ∀ {entry prev grand}, mem (entry :: prev :: grand) → entry.nHeight = prev.nHeight + 1
  hashUnique : ∀ {entry other pprev grand}, mem (entry :: pprev) → mem (other :: grand) →
    entry.hash = other.hash → entry :: pprev = other :: grand
  named : ∀ {entry pprev}, mem (entry :: pprev) → (block entry).getHash env = entry.hash
  prevNamed : ∀ {entry prev grand}, mem (entry :: prev :: grand) → (block entry).hashPrevBlock = prev.hash
  genesisPrev : ∀ {entry pprev}, mem (entry :: pprev) → (block genesis).hashPrevBlock ≠ entry.hash
  genesisNamed : genesis.hash = env.hashGenesisBlock

namespace BlockTree

variable {env : Env} {tree : BlockTree env} {pindex ancestor : BlockPtr}

theorem ne_nil (member : tree.mem pindex) : pindex ≠ [] := by
  rintro rfl
  cases tree.rooted member

theorem mem_of_suffix (member : tree.mem pindex) (suffix : ancestor <:+ pindex) (real : ancestor ≠ []) :
    tree.mem ancestor := by
  induction pindex with
  | nil => exact absurd (List.suffix_nil.mp suffix) real
  | cons entry pprev ih =>
      rcases suffix_cases suffix real with same | ⟨top, prev, grand, shape, below⟩
      · exact same ▸ member
      · obtain ⟨rfl, rfl⟩ := List.cons.inj shape
        exact ih (tree.parent member) below

theorem distinct (member : tree.mem pindex) : DistinctHashes pindex := by
  induction pindex with
  | nil => exact List.nodup_nil
  | cons entry pprev ih =>
      cases pprev with
      | nil => exact List.nodup_singleton _
      | cons prev grand =>
          refine List.nodup_cons.mpr ⟨?_, ih (tree.parent member)⟩
          intro repeated
          obtain ⟨ancestor, inChain, same⟩ := List.mem_map.mp repeated
          obtain ⟨above, below, split⟩ := List.append_of_mem inChain
          have suffix : ancestor :: below <:+ prev :: grand := ⟨above, split.symm⟩
          have inTree := mem_of_suffix (tree.parent member) suffix (List.cons_ne_nil _ _)
          have equal := tree.hashUnique member inTree same.symm
          have shorter := suffix.length_le
          rw [← equal] at shorter
          simp at shorter

end BlockTree

/-- A stack of connected blocks is the path from an entry down to genesis. -/
def Represents {env : Env} (tree : BlockTree env) (stack : List Linked) (pindex : BlockPtr) : Prop :=
  stack.map Prod.snd ++ [tree.genesis] = pindex ∧ ∀ linked ∈ stack, linked.1 = tree.block linked.2

/-- The block files hold the blocks of the tree, as far as they can be read. -/
def OnDisk {env : Env} (tree : BlockTree env) (s : Node) : Prop :=
  ∀ {entry pprev block}, tree.mem (entry :: pprev) → readBlock env s (entry :: pprev) = some block →
    block = tree.block entry

/-- Which blocks a run of connections may contain, given the stack and the index. -/
abbrev Admission := List Linked → TxIndexMap → CBlock → Prop

/-- Every block of the tree is admitted on the path to its parent. -/
def Admits {env : Env} (tree : BlockTree env) (Admit : Admission) : Prop :=
  ∀ {entry prev grand stack index}, tree.mem (entry :: prev :: grand) →
    Represents tree stack (prev :: grand) → Admit stack index (tree.block entry)

/-- The database and the links stand at an entry of the tree. -/
structure At {env : Env} (tree : BlockTree env) (Admit : Admission) (pindex : BlockPtr) (s : Node) : Prop where
  mem : tree.mem pindex
  stored : s.txdb.pdb .hashBestChain = pindex.head?.map fun entry => .hash entry.hash
  links : s.pnext = pathLinks pindex
  connected : ∃ stack, Represents tree stack pindex ∧ Runs env Admit stack s.txdb.fresh.txIndex

section Representation

variable {env : Env} {tree : BlockTree env} {stack : List Linked}

theorem Represents.cons {entry prev : CBlockIndex} {grand : BlockPtr}
    (represents : Represents tree stack (entry :: prev :: grand)) :
    ∃ earlier, stack = (tree.block entry, entry) :: earlier ∧ Represents tree earlier (prev :: grand) := by
  obtain ⟨shape, blocks⟩ := represents
  cases stack with
  | nil => simp at shape
  | cons linked earlier =>
      obtain ⟨block, pindex⟩ := linked
      simp only [List.map_cons, List.cons_append, List.cons.injEq] at shape
      obtain ⟨rfl, rest⟩ := shape
      have content : block = tree.block pindex := blocks _ List.mem_cons_self
      subst content
      exact ⟨earlier, rfl, rest, fun linked member => blocks linked (List.mem_cons_of_mem _ member)⟩

theorem Represents.push {entry : CBlockIndex} {pindex : BlockPtr} (represents : Represents tree stack pindex) :
    Represents tree ((tree.block entry, entry) :: stack) (entry :: pindex) := by
  refine ⟨by simp [← represents.1], ?_⟩
  intro linked member
  rcases List.mem_cons.mp member with rfl | earlier
  · rfl
  · exact represents.2 linked earlier

end Representation

/-- Where block connection stands: at an entry, with the transaction index and the notices
that the wallets have been sent. -/
structure Tip where
  pindex : BlockPtr
  txIndex : TxIndexMap
  walletLog : List WalletNotice

/-- A node that stands at an entry. -/
def Node.tip (s : Node) (pindex : BlockPtr) : Tip := ⟨pindex, s.txdb.txIndex, s.walletLog⟩

/-- `ConnectBlock` and `DisconnectBlock` calls along the edges of the tree. -/
inductive Moves {env : Env} (tree : BlockTree env) (start : Tip) : Tip → Prop
  | refl : Moves tree start start
  | connect {s after : Node} {entry prev : CBlockIndex} {grand : BlockPtr}
      (earlier : Moves tree start (s.tip (prev :: grand))) (member : tree.mem (entry :: prev :: grand))
      (connected : (tree.block entry).connectBlock env s entry (prev :: grand) = some after) :
      Moves tree start (after.tip (entry :: prev :: grand))
  | disconnect {s after : Node} {entry prev : CBlockIndex} {grand : BlockPtr}
      (earlier : Moves tree start (s.tip (entry :: prev :: grand))) (member : tree.mem (entry :: prev :: grand))
      (disconnected : (tree.block entry).disconnectBlock env s (prev :: grand) = .ok after) :
      Moves tree start (after.tip (prev :: grand))

section Movement

variable {env : Env} {tree : BlockTree env} {Admit : Admission} {first second third : Tip}

theorem Moves.trans (left : Moves tree first second) (right : Moves tree second third) :
    Moves tree first third := by
  induction right with
  | refl => exact left
  | connect _ member connected ih => exact .connect ih member connected
  | disconnect _ member disconnected ih => exact .disconnect ih member disconnected

/-- Moves from a connected entry lead to a connected entry. -/
theorem Moves.runs (admits : Admits tree Admit) (moves : Moves tree first second)
    (started : ∃ stack, Represents tree stack first.pindex ∧ Runs env Admit stack first.txIndex) :
    ∃ stack, Represents tree stack second.pindex ∧ Runs env Admit stack second.txIndex := by
  induction moves with
  | refl => exact started
  | connect _ member connected ih =>
      obtain ⟨stack, represents, runs⟩ := ih
      exact ⟨_, represents.push, .connect runs (admits member represents) connected⟩
  | disconnect _ _ disconnected ih =>
      obtain ⟨stack, represents, runs⟩ := ih
      obtain ⟨earlier, rfl, down⟩ := represents.cons
      exact ⟨earlier, down, .disconnect runs disconnected⟩

/-- A commit does not move. -/
theorem tip_of_commitBest {s after : Node} {hash : UInt256} (committed : s.commitBest hash = .ok after)
    (pindex : BlockPtr) : after.txnBegin.tip pindex = s.tip pindex := by
  rw [Node.tip, Node.tip, txIndex_txnBegin, txIndex_fresh_of_commitBest committed, (commitBest_ok committed).1]
  rfl

end Movement

section Steps

variable {env : Env} {tree : BlockTree env} {policy : Policy} {s after : Node}

theorem OnDisk.of_files (onDisk : OnDisk tree s) (same : after.files = s.files) : OnDisk tree after := by
  intro entry pprev block member found
  rw [readBlock_of_files same] at found
  exact onDisk member found

/-- Disconnecting the path to a fork moves down to the fork. -/
theorem Moves.disconnectBranch {start : Tip} {pfork pindex : BlockPtr} {vResurrect result : List CTransaction}
    (moves : Moves tree start (s.tip pindex)) (member : tree.mem pindex) (suffix : pfork <:+ pindex)
    (real : pfork ≠ []) (onDisk : OnDisk tree s)
    (undone : InfiniteRicks.disconnectBranch env (codeConnector env) (pathTo pfork pindex) s vResurrect =
      .ok (after, result)) : Moves tree start (after.tip pfork) := by
  induction pindex generalizing s vResurrect with
  | nil => exact absurd (List.suffix_nil.mp suffix) real
  | cons entry pprev ih =>
      rcases suffix_cases suffix real with same | ⟨top, prev, grand, shape, below⟩
      · rw [← same, pathTo_self] at undone
        cases undone
        exact same ▸ moves
      obtain ⟨rfl, rfl⟩ := List.cons.inj shape
      rw [pathTo_cons entry below] at undone
      simp only [InfiniteRicks.disconnectBranch] at undone
      split at undone
      · cases undone
      rename_i block found
      split at undone
      · cases undone
      rename_i next step
      rw [onDisk member found] at step
      have disconnected : (tree.block entry).disconnectBlock env s (prev :: grand) = .ok next := step
      exact ih (.disconnect moves member disconnected) (tree.parent member) below
        (onDisk.of_files (SameBest.of_frame ((codeConnector env).disconnectFrame step)).files) undone

/-- Connecting the path from a fork moves up to its end. -/
theorem Moves.connectBranch {start : Tip} {pfork pindex : BlockPtr} {vDelete result : List CTransaction}
    (moves : Moves tree start (s.tip pfork)) (member : tree.mem pindex) (suffix : pfork <:+ pindex)
    (real : pfork ≠ []) (onDisk : OnDisk tree s)
    (done : InfiniteRicks.connectBranch env (codeConnector env) (pathTo pfork pindex).reverse s vDelete =
      .ok (after, result)) : Moves tree start (after.tip pindex) := by
  induction pindex generalizing after result with
  | nil => exact absurd (List.suffix_nil.mp suffix) real
  | cons entry pprev ih =>
      rcases suffix_cases suffix real with same | ⟨top, prev, grand, shape, below⟩
      · rw [← same, pathTo_self] at done
        cases done
        exact same ▸ moves
      obtain ⟨rfl, rfl⟩ := List.cons.inj shape
      rw [pathTo_cons entry below, List.reverse_cons, connectBranch_append] at done
      split at done
      · cases done
      rename_i middle deleted lower
      have movesBelow := ih (tree.parent member) below lower
      have frame := frame_connectBranch _ (Or.inl lower)
      simp only [InfiniteRicks.connectBranch] at done
      split at done
      · cases done
      rename_i block found
      split at done
      · cases done
      rename_i next step
      rw [onDisk.of_files (SameBest.of_frame frame).files member found] at step
      have connected : (tree.block entry).connectBlock env middle entry (prev :: grand) = some next := step
      cases done
      exact .connect movesBelow member connected

/-- The database and the links stand at an entry of the tree, whatever was connected. -/
structure Stands {env : Env} (tree : BlockTree env) (pindex : BlockPtr) (s : Node) : Prop where
  mem : tree.mem pindex
  stored : s.txdb.pdb .hashBestChain = pindex.head?.map fun entry => .hash entry.hash
  links : s.pnext = pathLinks pindex

/-- A whole `Reorganize` that returns true moves the database and the links. -/
theorem Stands.reorganize {pindexNew : BlockPtr} (here : Stands tree s.pindexBest s) (member : tree.mem pindexNew)
    (onDisk : OnDisk tree s)
    (switched : InfiniteRicks.reorganize env policy (codeConnector env) s.txnBegin pindexNew = .ok after) :
    Stands tree pindexNew after ∧ Moves tree (s.txnBegin.tip s.pindexBest) (after.txnBegin.tip pindexNew) := by
  obtain ⟨pfork, middle, vResurrect, top, vDelete, committed, fork, undone, done, commit, rfl⟩ :=
    reorganize_ok switched
  obtain ⟨below, above, real⟩ := findFork_suffix fork
  have bestEq : s.txnBegin.pindexBest = s.pindexBest := rfl
  rw [bestEq] at below undone
  have diskBegin : OnDisk tree s.txnBegin := onDisk.of_files rfl
  have frameDown := frame_disconnectBranch _ (Or.inl undone)
  have frameUp := frame_connectBranch _ (Or.inl done)
  have down := Moves.disconnectBranch .refl here.mem below real diskBegin undone
  have up := down.connectBranch member above real (diskBegin.of_files (SameBest.of_frame frameDown).files) done
  obtain ⟨commitRest, store⟩ := commitBest_ok commit
  have committedPnext : committed.pnext = s.pnext := by
    rw [commitRest, frameUp.rest, frameDown.rest]
    rfl
  refine ⟨⟨member, ?_, ?_⟩, ?_⟩
  · change committed.txdb.pdb .hashBestChain = _
    rw [store, Function.update_self]
    cases pindexNew with
    | nil => exact absurd rfl (BlockTree.ne_nil member)
    | cons entry pprev => rfl
  · change List.foldl linkNext (List.foldl unlinkNext committed.pnext (pathTo pfork s.pindexBest)) _ = _
    rw [committedPnext, here.links, foldl_unlinkNext below real (BlockTree.distinct here.mem),
      foldl_linkNext above real]
  · rw [← tip_of_commitBest commit pindexNew] at up
    exact up

/-- A `SetBestChainInner` that returns true moves the database and the links by one
block. -/
theorem Stands.inner {entry : CBlockIndex} {pindex : BlockPtr} (here : Stands tree pindex s)
    (member : tree.mem (entry :: pindex))
    (extended : setBestChainInner env (codeConnector env) s.txnBegin (tree.block entry) (entry :: pindex) =
      .ok after) :
    Stands tree (entry :: pindex) after ∧
      Moves tree (s.txnBegin.tip pindex) (after.txnBegin.tip (entry :: pindex)) := by
  obtain ⟨next, committed, step, commit, rfl⟩ := setBestChainInner_ok extended
  have frame := (codeConnector env).connectFrame step
  obtain ⟨prev, grand, rfl⟩ := List.exists_cons_of_ne_nil (BlockTree.ne_nil here.mem)
  have connected : (tree.block entry).connectBlock env s.txnBegin entry (prev :: grand) = some next := step
  have up := Moves.connect .refl member connected
  obtain ⟨commitRest, store⟩ := commitBest_ok commit
  have committedPnext : committed.pnext = s.pnext := by
    rw [commitRest, frame.rest]
    rfl
  refine ⟨⟨member, ?_, ?_⟩, ?_⟩
  · change committed.txdb.pdb .hashBestChain = _
    rw [store, Function.update_self, tree.named member]
    rfl
  · change linkNext committed.pnext (entry :: prev :: grand) = pathLinks (entry :: prev :: grand)
    rw [committedPnext, here.links]
    rfl
  · rw [← tip_of_commitBest commit (entry :: prev :: grand)] at up
    exact up

/-- Connecting all postponed blocks moves the database and the links to the last. -/
theorem Stands.secondary {pfork pindex : BlockPtr} (here : Stands tree pfork s) (member : tree.mem pindex)
    (suffix : pfork <:+ pindex) (onDisk : OnDisk tree s)
    (extended : connectSecondary env (codeConnector env) (pathTo pfork pindex).reverse s = .ok after) :
    Stands tree pindex after ∧ Moves tree (s.txnBegin.tip pfork) (after.txnBegin.tip pindex) ∧
      SameBest s after := by
  have real := BlockTree.ne_nil here.mem
  induction pindex generalizing after with
  | nil => exact absurd (List.suffix_nil.mp suffix) real
  | cons entry pprev ih =>
      rcases suffix_cases suffix real with same | ⟨top, prev, grand, shape, below⟩
      · rw [← same, pathTo_self] at extended
        cases extended
        exact ⟨same ▸ here, same ▸ .refl, SameBest.refl _⟩
      obtain ⟨rfl, rfl⟩ := List.cons.inj shape
      rw [pathTo_cons entry below, List.reverse_cons, connectSecondary_append] at extended
      split at extended
      · cases extended
      rename_i middle lower
      obtain ⟨hereBelow, movesBelow, sameBelow⟩ := ih (tree.parent member) below lower
      simp only [connectSecondary] at extended
      split at extended
      · cases extended
      rename_i block found
      rw [onDisk.of_files sameBelow.files member found] at extended
      split at extended
      · cases extended
      rename_i next inner
      cases extended
      have sameAbove := (sameBest_txnBegin middle).trans (SameBest.of_setBestChainInner inner)
      obtain ⟨hereAbove, movesAbove⟩ := hereBelow.inner member inner
      exact ⟨hereAbove, movesBelow.trans movesAbove, sameBelow.trans sameAbove⟩

end Steps

/-- A node that has not yet seen the genesis block. -/
structure Unstarted (s : Node) : Prop where
  pindexGenesisBlock : s.pindexGenesisBlock = []
  pnext : s.pnext = fun _ => none
  txIndex : s.txdb.fresh.txIndex = fun _ => none

/-- What happens between two calls of `SetBestChain` leaves the chain alone. -/
structure SameChain (s after : Node) : Prop where
  pindexGenesisBlock : after.pindexGenesisBlock = s.pindexGenesisBlock
  pindexBest : after.pindexBest = s.pindexBest
  hashBestChain : after.hashBestChain = s.hashBestChain
  nBestHeight : after.nBestHeight = s.nBestHeight
  pnext : after.pnext = s.pnext
  stored : after.txdb.pdb .hashBestChain = s.txdb.pdb .hashBestChain
  txIndex : after.txdb.fresh.txIndex = s.txdb.fresh.txIndex

/-- States that a node reaches from genesis by `SetBestChain` calls that return true,
each on an entry of the tree. -/
inductive Reached {env : Env} (policy : Policy) (tree : BlockTree env) (Allowed : Node → BlockPtr → Prop) :
    Node → Prop
  | start {s after} (fresh : Unstarted s)
      (started : setBestChain env policy (codeConnector env) s (tree.block tree.genesis) [tree.genesis] =
        .ok after) : Reached policy tree Allowed after
  | call {s after entry pprev} (earlier : Reached policy tree Allowed s) (member : tree.mem (entry :: pprev))
      (onDisk : OnDisk tree s) (allowed : Allowed s (entry :: pprev))
      (switched : setBestChain env policy (codeConnector env) s (tree.block entry) (entry :: pprev) =
        .ok after) : Reached policy tree Allowed after
  | outside {s after} (earlier : Reached policy tree Allowed s) (same : SameChain s after) :
      Reached policy tree Allowed after

/-- The loop over the postponed blocks is not left by `break`: once `Reorganize` has
succeeded, every postponed block is read, connected and committed. -/
def PostponedConnected (env : Env) (policy : Policy) (s : Node) (pindexNew : BlockPtr) : Prop :=
  ∀ switched, reorganize env policy (codeConnector env) s.txnBegin (postpone (bestTrust s) pindexNew).2 =
      .ok switched →
    ∃ done, connectSecondary env (codeConnector env) (postpone (bestTrust s) pindexNew).1.reverse switched =
      .ok done

/-- A loop over no blocks is not left early. -/
theorem PostponedConnected.of_nil {env : Env} {policy : Policy} {s : Node} {pindexNew : BlockPtr}
    (nothing : (postpone (bestTrust s) pindexNew).1 = []) : PostponedConnected env policy s pindexNew := by
  intro switched _
  rw [nothing]
  exact ⟨switched, rfl⟩

/-- The best block in memory is the entry at which the database and the links stand. -/
structure Consistent {env : Env} (tree : BlockTree env) (Admit : Admission) (s : Node) : Prop where
  started : s.pindexGenesisBlock = [tree.genesis]
  here : At tree Admit s.pindexBest s
  hash : s.pindexBest.head?.map CBlockIndex.hash = some s.hashBestChain
  height : s.pindexBest.head?.map CBlockIndex.nHeight = some s.nBestHeight

section Runs

variable {env : Env} {tree : BlockTree env} {Admit : Admission} {policy : Policy} {s after : Node}

/-- Where the database and the links stand does not depend on the best block. -/
theorem At.newBest {pindex : BlockPtr} (here : At tree Admit pindex s) (block : CBlock) (pindexNew : BlockPtr) :
    At tree Admit pindex (newBest env s block pindexNew) :=
  ⟨here.mem, here.stored, here.links, here.connected⟩

/-- The assignments at the end of `SetBestChain` make a state consistent that stands
at the new block. -/
theorem Consistent.newBest {entry : CBlockIndex} {pprev : BlockPtr} (here : At tree Admit (entry :: pprev) s)
    (started : s.pindexGenesisBlock = [tree.genesis]) :
    Consistent tree Admit (newBest env s (tree.block entry) (entry :: pprev)) := by
  refine ⟨started, here.newBest _ _, ?_, rfl⟩
  change some entry.hash = some ((tree.block entry).getHash env)
  rw [tree.named here.mem]

/-- The first call. -/
theorem consistent_start (fresh : Unstarted s)
    (started : setBestChain env policy (codeConnector env) s (tree.block tree.genesis) [tree.genesis] =
      .ok after) : Consistent tree Admit after := by
  have genesisHash : (tree.block tree.genesis).getHash env = env.hashGenesisBlock :=
    (tree.named tree.root).trans tree.genesisNamed
  have unstarted : s.txnBegin.pindexGenesisBlock = [] := fresh.pindexGenesisBlock
  simp only [setBestChain, unstarted, genesisHash, and_self, if_true] at started
  split at started
  · cases started
  rename_i committed commit
  cases started
  obtain ⟨rest, store⟩ := commitBest_ok commit
  refine Consistent.newBest ⟨tree.root, ?_, ?_, [], ⟨rfl, by simp⟩, ?_⟩ rfl
  · change committed.txdb.pdb .hashBestChain = some (.hash tree.genesis.hash)
    rw [store, Function.update_self, tree.genesisNamed]
  · change committed.pnext = _
    rw [rest]
    exact fresh.pnext
  · change Runs env Admit [] committed.txdb.fresh.txIndex
    rw [txIndex_fresh_of_commitBest commit, txIndex_txnBegin, fresh.txIndex]
    exact .genesis

/-- What a later call has done whose postponed blocks are connected. -/
theorem Consistent.setBestChain_ok {entry : CBlockIndex} {pprev : BlockPtr} (consistent : Consistent tree Admit s)
    (member : tree.mem (entry :: pprev)) (onDisk : OnDisk tree s)
    (postponed : PostponedConnected env policy s (entry :: pprev))
    (switched : setBestChain env policy (codeConnector env) s (tree.block entry) (entry :: pprev) = .ok after) :
    ∃ middle, after = InfiniteRicks.newBest env middle (tree.block entry) (entry :: pprev) ∧ SameBest s middle ∧
      Stands tree (entry :: pprev) middle ∧
      Moves tree (s.txnBegin.tip s.pindexBest) (middle.txnBegin.tip (entry :: pprev)) := by
  obtain ⟨started, here, hash, -⟩ := consistent
  have stands : Stands tree s.pindexBest s := ⟨here.mem, here.stored, here.links⟩
  have notFirst : ¬(s.txnBegin.pindexGenesisBlock = [] ∧ (tree.block entry).getHash env = env.hashGenesisBlock) := by
    rintro ⟨empty, -⟩
    rw [show s.txnBegin.pindexGenesisBlock = [tree.genesis] from started] at empty
    cases empty
  simp only [setBestChain, notFirst, if_false] at switched
  split at switched
  · -- The parent is the best block, because a hash names one entry.
    rename_i extends_
    obtain ⟨best, below, bestEq⟩ := List.exists_cons_of_ne_nil (BlockTree.ne_nil here.mem)
    have bestHash : best.hash = s.hashBestChain := by
      rw [bestEq] at hash
      exact Option.some.inj hash
    have extends' : (tree.block entry).hashPrevBlock = best.hash := extends_.trans bestHash.symm
    have parentEq : pprev = s.pindexBest := by
      cases pprev with
      | nil =>
          have isGenesis : entry = tree.genesis := Option.some.inj (tree.rooted member)
          subst isGenesis
          exact absurd extends' (tree.genesisPrev (bestEq ▸ here.mem))
      | cons prev grand =>
          rw [bestEq]
          refine tree.hashUnique (tree.parent member) (bestEq ▸ here.mem) ?_
          rw [← tree.prevNamed member, extends']
    subst parentEq
    split at switched
    · cases switched
    rename_i next inner
    cases switched
    obtain ⟨moved, moves⟩ := stands.inner member inner
    exact ⟨next, rfl, (sameBest_txnBegin s).trans (SameBest.of_setBestChainInner inner), moved, moves⟩
  · split at switched
    · cases switched
    rename_i middle reorganized
    cases switched
    have trustEq : bestTrust s.txnBegin = bestTrust s := rfl
    rw [trustEq] at reorganized ⊢
    obtain ⟨suffix, real, path⟩ := postpone_spec (bestTrust s) (entry :: pprev) (List.cons_ne_nil _ _)
    obtain ⟨done, loop⟩ := postponed middle reorganized
    obtain ⟨moved, moves⟩ := stands.reorganize (BlockTree.mem_of_suffix member suffix real) onDisk reorganized
    have same := (sameBest_txnBegin s).trans (SameBest.of_reorganize reorganized)
    rw [loop]
    rw [path] at loop
    obtain ⟨movedOn, movesOn, sameOn⟩ := moved.secondary member suffix (onDisk.of_files same.files) loop
    exact ⟨done, rfl, same.trans sameOn, movedOn, moves.trans movesOn⟩

/-- Every later call whose postponed blocks are connected. -/
theorem Consistent.call {entry : CBlockIndex} {pprev : BlockPtr} (admits : Admits tree Admit)
    (consistent : Consistent tree Admit s) (member : tree.mem (entry :: pprev)) (onDisk : OnDisk tree s)
    (postponed : PostponedConnected env policy s (entry :: pprev))
    (switched : setBestChain env policy (codeConnector env) s (tree.block entry) (entry :: pprev) = .ok after) :
    Consistent tree Admit after := by
  obtain ⟨middle, rfl, same, stands, moves⟩ := consistent.setBestChain_ok member onDisk postponed switched
  obtain ⟨stack, represents, runs⟩ := consistent.here.connected
  have reached := moves.runs admits ⟨stack, represents, txIndex_txnBegin s ▸ runs⟩
  refine Consistent.newBest ⟨stands.mem, stands.stored, stands.links, ?_⟩
    (same.pindexGenesisBlock.trans consistent.started)
  rw [← txIndex_txnBegin]
  exact reached

theorem Consistent.outside (consistent : Consistent tree Admit s) (same : SameChain s after) :
    Consistent tree Admit after := by
  obtain ⟨started, here, hash, height⟩ := consistent
  refine ⟨same.pindexGenesisBlock.trans started, ?_, ?_, ?_⟩
  · rw [same.pindexBest]
    exact ⟨here.mem, same.stored.trans here.stored, same.pnext.trans here.links, same.txIndex ▸ here.connected⟩
  · rw [same.pindexBest, same.hashBestChain]
    exact hash
  · rw [same.pindexBest, same.nBestHeight]
    exact height

/-- Consistency holds along every run whose postponed blocks are connected. -/
theorem Reached.consistent {Allowed : Node → BlockPtr → Prop} (admits : Admits tree Admit)
    (postponed : ∀ {s pindexNew}, Allowed s pindexNew → PostponedConnected env policy s pindexNew)
    (reached : Reached policy tree Allowed s) : Consistent tree Admit s := by
  induction reached with
  | start fresh started => exact consistent_start fresh started
  | call _ member onDisk allowed switched ih => exact ih.call admits member onDisk (postponed allowed) switched
  | outside _ same ih => exact ih.outside same

end Runs

/-- In every state reached by calls whose postponed blocks are all connected, the best
block in memory is the one the database names, `pnext` leads from genesis to it through
exactly its ancestors, and the blocks on that path are the ones whose connection has
been committed. -/
theorem best_chain_consistent {env : Env} {policy : Policy} {tree : BlockTree env} {s : Node}
    (reached : Reached policy tree (PostponedConnected env policy) s) :
    ∃ best pprev, s.pindexBest = best :: pprev ∧ s.hashBestChain = best.hash ∧
      s.nBestHeight = best.nHeight ∧ s.txdb.fresh.readHashBestChain = some best.hash ∧
      s.pindexGenesisBlock = [tree.genesis] ∧
      Follows s.pnext tree.genesis.hash (s.pindexBest.map CBlockIndex.hash).reverse ∧
      ∃ stack, stack.map Prod.snd ++ [tree.genesis] = s.pindexBest ∧
        (∀ linked ∈ stack, linked.1 = tree.block linked.2) ∧
        Runs env (fun _ _ _ => True) stack s.txdb.fresh.txIndex := by
  have consistent : Consistent tree (fun _ _ _ => True) s :=
    reached.consistent (fun _ _ => trivial) fun allowed => allowed
  obtain ⟨started, here, hash, height⟩ := consistent
  obtain ⟨best, pprev, bestEq⟩ := List.exists_cons_of_ne_nil (BlockTree.ne_nil here.mem)
  obtain ⟨stack, represents, runs⟩ := here.connected
  have stored := here.stored
  rw [bestEq] at hash height stored
  refine ⟨best, pprev, bestEq, (Option.some.inj hash).symm, (Option.some.inj height).symm, ?_, started, ?_,
    stack, represents.1, represents.2, runs⟩
  · have onStore : s.txdb.fresh.read .hashBestChain = some (.hash best.hash) := by
      rw [CTxDB.read_eq_view, CTxDB.view_of_no_batch rfl]
      exact stored
    rw [CTxDB.readHashBestChain, onStore]
  · rw [here.links]
    exact follows_pathLinks (BlockTree.distinct here.mem) (tree.rooted here.mem)

section Concrete

/-- The conditions of `BlockTree` on a finite list of entries. -/
def TreeRules (env : Env) (genesis : CBlockIndex) (block : CBlockIndex → CBlock) (pindexes : List BlockPtr) :
    Prop :=
  [genesis] ∈ pindexes ∧ genesis.hash = env.hashGenesisBlock ∧
    (∀ pindex ∈ pindexes, pindex.getLast? = some genesis ∧
      ∀ entry ∈ pindex.head?, (block entry).getHash env = entry.hash ∧
        (block genesis).hashPrevBlock ≠ entry.hash ∧
        ∀ prev ∈ pindex.tail.head?, pindex.tail ∈ pindexes ∧ entry.nHeight = prev.nHeight + 1 ∧
          (block entry).hashPrevBlock = prev.hash) ∧
    ∀ first ∈ pindexes, ∀ second ∈ pindexes,
      first.head?.map CBlockIndex.hash = second.head?.map CBlockIndex.hash → first = second

instance (env : Env) (genesis : CBlockIndex) (block : CBlockIndex → CBlock) (pindexes : List BlockPtr) :
    Decidable (TreeRules env genesis block pindexes) := by
  unfold TreeRules
  infer_instance

/-- The block tree of a finite list of entries. -/
def BlockTree.ofList {env : Env} (genesis : CBlockIndex) (block : CBlockIndex → CBlock)
    (pindexes : List BlockPtr) (rules : TreeRules env genesis block pindexes) : BlockTree env where
  genesis := genesis
  mem pindex := pindex ∈ pindexes
  block := block
  root := rules.1
  rooted member := (rules.2.2.1 _ member).1
  parent member := (((rules.2.2.1 _ member).2 _ rfl).2.2 _ rfl).1
  height member := (((rules.2.2.1 _ member).2 _ rfl).2.2 _ rfl).2.1
  hashUnique first second same := rules.2.2.2 _ first _ second (congrArg some same)
  named member := ((rules.2.2.1 _ member).2 _ rfl).1
  prevNamed member := (((rules.2.2.1 _ member).2 _ rfl).2.2 _ rfl).2.2
  genesisPrev member := ((rules.2.2.1 _ member).2 _ rfl).2.1
  genesisNamed := rules.2.1

/-- A branch of one block (1), and a branch (2, 3) with two invalid continuations, one
of its first block (4) and one of its second (5). -/
def forkBlocks : List CBlock :=
  [smallBlock 1 (genesisHash true) (1000 * coin) [], smallBlock 2 (genesisHash true) (1000 * coin) [],
    smallBlock 3 2 (1000 * coin) [], smallBlock 4 2 (1001 * coin) [], smallBlock 5 3 (1001 * coin) []]

def forkBlock (entry : CBlockIndex) : CBlock :=
  (forkBlocks.find? fun block => block.nNonce = entry.nNonce).getD smallGenesis

/-- The entry of a block of the fork. All blocks have the same `nBits`, of trust 65537. -/
def forkEntry (label : UInt32) (nHeight : Nat) : CBlockIndex :=
  smallEntry label nHeight (65537 * (BitVec.ofNat 256 nHeight + 1))

def forkRoot : BlockPtr := [{ forkEntry 0 0 with hash := genesisHash true }]

def lightTip : BlockPtr := forkEntry 1 1 :: forkRoot

def heavyTip : BlockPtr := forkEntry 3 2 :: forkEntry 2 1 :: forkRoot

/-- The tree of both branches. -/
def forkTree : BlockTree (Env.labelled true) :=
  .ofList { forkEntry 0 0 with hash := genesisHash true } forkBlock
    [forkRoot, lightTip, heavyTip.tail, heavyTip, forkEntry 4 2 :: heavyTip.tail, forkEntry 5 3 :: heavyTip]
    (by decide +kernel)

/-- A call of `SetBestChain` on a block of the fork. -/
def forkSwitch (s : Node) (entry : CBlockIndex) (pprev : BlockPtr) : Except Node Node :=
  smallSwitch s (forkBlock entry) (entry :: pprev)

def forkStart : Node := afterLoop (forkSwitch (smallInitial forkBlocks) forkTree.genesis [])

def forkLight : Node := afterLoop (forkSwitch forkStart (forkEntry 1 1) forkRoot)

theorem forkTree_onDisk {s : Node}
    (blocks : ∀ pindex ∈ [forkRoot, lightTip, heavyTip.tail, heavyTip, forkEntry 4 2 :: heavyTip.tail,
        forkEntry 5 3 :: heavyTip],
      ∀ block ∈ readBlock (Env.labelled true) s pindex, ∀ entry ∈ pindex.head?, block = forkBlock entry) :
    OnDisk forkTree s := by
  intro entry pprev block member found
  exact blocks _ member _ found _ rfl

theorem unstarted_smallInitial (blocks : List CBlock) : Unstarted (smallInitial blocks) := by
  refine ⟨rfl, rfl, ?_⟩
  funext id
  rw [CTxDB.txIndex_eq]
  rfl

theorem forkStart_reached (Allowed : Node → BlockPtr → Prop) : Reached .lax forkTree Allowed forkStart := by
  have started : observe (fun s => s.hashBestChain)
      (forkSwitch (smallInitial forkBlocks) forkTree.genesis []) = (true, genesisHash true) := by
    decide +kernel
  exact .start (unstarted_smallInitial _) (ok_of_observe started)

/-- The block of the light branch extends the chain, so nothing is postponed. -/
theorem forkLight_reached {Allowed : Node → BlockPtr → Prop} (allowed : Allowed forkStart lightTip) :
    Reached .lax forkTree Allowed forkLight := by
  have extended : observe (fun s => s.hashBestChain) (forkSwitch forkStart (forkEntry 1 1) forkRoot) =
      (true, 1) := by
    decide +kernel
  refine .call (forkStart_reached Allowed) ?_ (forkTree_onDisk (by decide +kernel)) allowed (ok_of_observe extended)
  change lightTip ∈ _
  decide +kernel

/-- Genesis and one block: memory and database agree. -/
theorem best_chain_consistent_light :
    Reached .lax forkTree (PostponedConnected (Env.labelled true) .lax) forkLight ∧
      forkLight.hashBestChain = 1 ∧
      ∃ best, forkLight.hashBestChain = best ∧ forkLight.txdb.fresh.readHashBestChain = some best := by
  have reached : Reached .lax forkTree (PostponedConnected (Env.labelled true) .lax) forkLight :=
    forkLight_reached (.of_nil (by decide +kernel))
  obtain ⟨best, pprev, -, hash, -, stored, -⟩ := best_chain_consistent reached
  exact ⟨reached, by decide +kernel, best.hash, hash, stored⟩

/-- A switch from the light branch to block 5: the reorganisation to block 3 is
committed, block 5 is postponed and fails to connect, and the call returns true with
block 5 as the best one in memory. -/
theorem postponed_failure_splits :
    ∃ s, Reached .lax forkTree (fun _ _ => True) s ∧ s.hashBestChain = 5 ∧
      s.txdb.fresh.readHashBestChain = some 3 := by
  have switched : observe (fun s => (s.hashBestChain, s.txdb.fresh.readHashBestChain))
      (forkSwitch forkLight (forkEntry 5 3) heavyTip) = (true, 5, some 3) := by
    decide +kernel
  have member : forkTree.mem (forkEntry 5 3 :: heavyTip) := by
    change forkEntry 5 3 :: heavyTip ∈ _
    decide +kernel
  have values := value_of_observe switched
  exact ⟨_, .call (forkLight_reached trivial) member (forkTree_onDisk (by decide +kernel)) trivial
    (ok_of_observe switched), congrArg Prod.fst values, congrArg Prod.snd values⟩

end Concrete

end InfiniteRicks
