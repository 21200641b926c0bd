import InfiniteRicks.Orphans
import InfiniteRicks.SyncCheckpoint

/-!
# What the orphan maps hold

The two orphan maps hold the same blocks after every sequence of `ProcessBlock` calls.
A held block whose parent is indexed can only be left behind by an `AcceptBlock` that put
its block into the index and then returned false, because the work queue is not run for
it.
-/

namespace InfiniteRicks

section Index

variable {setup : Setup} {s after : SyncNode} {hash : UInt256}

/-- `SetBestChain` adds no entry and removes none. -/
theorem mapBlockIndex_setBestChain {env : Env} {policy : Policy} {c : Connector} {node switched : Node}
    {block : CBlock} {pindexNew : BlockPtr} (done : setBestChain env policy c node block pindexNew = .ok switched) :
    switched.mapBlockIndex = node.mapBlockIndex := by
  by_cases started : node.pindexGenesisBlock = []
  · simp only [setBestChain] at done
    split at done
    · split at done
      · cases done
      · rename_i committed commit
        cases done
        exact (SameBest.of_commitBest commit).mapBlockIndex
    split at done
    · split at done
      · cases done
      · rename_i middle extended
        cases done
        exact (SameBest.of_setBestChainInner extended).mapBlockIndex
    · split at done
      · cases done
      · rename_i middle reorganized
        cases done
        exact (sameBest_connectSecondary _ _).mapBlockIndex.trans (SameBest.of_reorganize reorganized).mapBlockIndex
  · obtain ⟨middle, same, rfl⟩ := setBestChain_ok started done
    exact same.mapBlockIndex

theorem mapBlockIndex_writeSyncCheckpoint (left : Leaves (writeSyncCheckpoint s hash) after) :
    after.mapBlockIndex = s.mapBlockIndex := by
  obtain ⟨txdb, failed | written⟩ := writeSyncCheckpoint_cases s hash
  · rw [failed] at left
    rcases left with ⟨⟨⟩⟩ | ⟨⟨⟩⟩
    rfl
  · rw [written] at left
    rcases left with ⟨⟨⟩⟩ | ⟨⟨⟩⟩
    rfl

theorem mapBlockIndex_advanceSyncCheckpoint (left : Leaves (advanceSyncCheckpoint setup s hash) after) :
    after.mapBlockIndex = s.mapBlockIndex := by
  simp only [advanceSyncCheckpoint] at left
  split at left
  · exact mapBlockIndex_writeSyncCheckpoint left
  split at left
  · rcases left with ⟨⟨⟩⟩ | ⟨⟨⟩⟩
    rfl
  split at left
  · rename_i node failed
    rcases left with ⟨⟨⟩⟩ | ⟨⟨⟩⟩
    exact (setBestChain_error failed).mapBlockIndex
  · rename_i node switched
    exact (mapBlockIndex_writeSyncCheckpoint left).trans (mapBlockIndex_setBestChain switched)

theorem mapBlockIndex_validated (left : Leaves (match advanceSyncCheckpoint setup s hash with
      | .error s => .error s
      | .ok s => .ok { s with hashPendingCheckpoint := 0 }) after) : after.mapBlockIndex = s.mapBlockIndex := by
  split at left
  · rename_i middle advanced
    rcases left with ⟨⟨⟩⟩ | ⟨⟨⟩⟩
    exact mapBlockIndex_advanceSyncCheckpoint (Or.inl advanced)
  · rename_i middle advanced
    rcases left with ⟨⟨⟩⟩ | ⟨⟨⟩⟩
    have same : middle.mapBlockIndex = s.mapBlockIndex := mapBlockIndex_advanceSyncCheckpoint (Or.inr advanced)
    exact same

theorem mapBlockIndex_acceptPendingSyncCheckpoint (left : Leaves (acceptPendingSyncCheckpoint setup s) after) :
    after.mapBlockIndex = s.mapBlockIndex := by
  simp only [acceptPendingSyncCheckpoint] at left
  split at left
  swap
  · rcases left with ⟨⟨⟩⟩ | ⟨⟨⟩⟩
    rfl
  split at left
  · rename_i middle invalid
    obtain ⟨hashInvalid, rfl⟩ := validateSyncCheckpoint_error invalid
    rcases left with ⟨⟨⟩⟩ | ⟨⟨⟩⟩
    rfl
  · exact mapBlockIndex_validated left

theorem mapBlockIndex_processSyncCheckpoint {fSigned : Bool}
    (left : Leaves (processSyncCheckpoint setup s hash fSigned) after) : after.mapBlockIndex = s.mapBlockIndex := by
  simp only [processSyncCheckpoint] at left
  split at left
  · rcases left with ⟨⟨⟩⟩ | ⟨⟨⟩⟩
    rfl
  split at left
  · rcases left with ⟨⟨⟩⟩ | ⟨⟨⟩⟩
    rfl
  split at left
  · rename_i middle invalid
    obtain ⟨hashInvalid, rfl⟩ := validateSyncCheckpoint_error invalid
    rcases left with ⟨⟨⟩⟩ | ⟨⟨⟩⟩
    rfl
  · exact mapBlockIndex_validated left

/-- `AddToBlockIndex` on an indexed parent leaves the index alone and returns false, or
puts the block into it. -/
theorem mapBlockIndex_addToBlockIndex (env : Env) (policy : Policy) (kernel : StakeKernel) (c : Connector)
    (node : Node) {block : CBlock} (pos : DiskBlockPos) (hashProof : UInt256) {pprev : BlockPtr}
    (parent : node.mapBlockIndex block.hashPrevBlock = some pprev) :
    addToBlockIndex env policy kernel c node block pos hashProof = .error node ∨
      ∃ pindex added, added.mapBlockIndex = Function.update node.mapBlockIndex (block.getHash env) (some pindex) ∧
        (addToBlockIndex env policy kernel c node block pos hashProof = .error added ∨
          addToBlockIndex env policy kernel c node block pos hashProof = .ok added) := by
  rcases addToBlockIndex_outcome env policy kernel c pos hashProof parent with
    refused | ⟨nStakeModifier, fGenerated, entry, txdb, made, outcome⟩
  · exact Or.inl refused
  have inserted : ((node.insertEntry entry pprev).withTxdb txdb).mapBlockIndex =
      Function.update node.mapBlockIndex (block.getHash env) (some (entry :: pprev)) := by
    rw [made]
    rfl
  refine Or.inr ⟨entry :: pprev, ?_⟩
  rcases outcome with failed | added | switch
  · exact ⟨_, inserted, Or.inl failed⟩
  · exact ⟨_, inserted, Or.inr added⟩
  · rw [switch]
    cases result : setBestChain env policy c ((node.insertEntry entry pprev).withTxdb txdb) block
        (entry :: pprev) with
    | error broken => exact ⟨broken, (setBestChain_error result).mapBlockIndex.trans inserted, Or.inl rfl⟩
    | ok switched => exact ⟨switched, (mapBlockIndex_setBestChain result).trans inserted, Or.inr rfl⟩

end Index

/-- What a call of `AcceptBlock` did to the index: nothing, and it returned false, or it
has put the block into it, whatever it returned. The orphan maps are not touched. -/
theorem OrphanNode.acceptBlock_cases (setup : Setup) (s : OrphanNode) (block : CBlock) :
    ∃ node accepted, s.acceptBlock setup block = ({ s with toSyncNode := node }, accepted) ∧
      ((node.mapBlockIndex = s.mapBlockIndex ∧ accepted = false) ∨
        (s.mapBlockIndex (block.getHash setup.env) = none ∧ ∃ pindex, node.mapBlockIndex =
          Function.update s.mapBlockIndex (block.getHash setup.env) (some pindex))) := by
  simp only [OrphanNode.acceptBlock]
  rcases InfiniteRicks.acceptBlock_cases setup s.toSyncNode block with
    refused | ⟨pindexPrev, pprev, hashProof, pos, files, new, parent, -, -, outcome⟩
  · rw [refused]
    exact ⟨_, _, rfl, Or.inl ⟨rfl, rfl⟩⟩
  have added := mapBlockIndex_addToBlockIndex setup.env setup.policy
    (codeKernel setup.hashes { s.toNode with files := files }) (codeConnector setup.env)
    { s.toNode with files := files } pos hashProof parent
  rcases outcome with ⟨node, failed, result⟩ | ⟨node, after, passed, pending, result⟩
  · rw [result]
    refine ⟨_, _, rfl, ?_⟩
    rw [failed] at added
    rcases added with ⟨⟨⟩⟩ | ⟨pindex, other, index, ⟨⟨⟩⟩ | ⟨⟨⟩⟩⟩
    · exact Or.inl ⟨rfl, rfl⟩
    · exact Or.inr ⟨new, pindex, index⟩
  · rw [result]
    refine ⟨_, _, rfl, ?_⟩
    rw [passed] at added
    rcases added with ⟨⟨⟩⟩ | ⟨pindex, other, index, ⟨⟨⟩⟩ | ⟨⟨⟩⟩⟩
    exact Or.inr ⟨new, pindex, (mapBlockIndex_acceptPendingSyncCheckpoint pending).trans index⟩

/-- A block is held: `mapOrphanBlocks` has it under its hash. -/
def OrphanNode.Holds (env : Env) (s : OrphanNode) (block : CBlock) : Prop :=
  s.mapOrphanBlocks.lookup (block.getHash env) = some block

instance (env : Env) (s : OrphanNode) (block : CBlock) : Decidable (s.Holds env block) :=
  inferInstanceAs (Decidable (_ = _))

/-- The two orphan maps hold the same blocks: each of them once, under its own hash in the
one and under its parent's in the other. -/
structure Mirrored (env : Env) (s : OrphanNode) : Prop where
  keyed : ∀ hash block, s.mapOrphanBlocks.lookup hash = some block → block.getHash env = hash
  byPrev : ∀ hashPrev block, (hashPrev, block) ∈ s.mapOrphanBlocksByPrev ↔
    hashPrev = block.hashPrevBlock ∧ s.Holds env block
  nodup : s.mapOrphanBlocksByPrev.Nodup

section Maps

variable {setup : Setup} {s after : OrphanNode} {block : CBlock}

theorem Mirrored.of_same {env : Env} (mirrored : Mirrored env s) (blocks : after.mapOrphanBlocks = s.mapOrphanBlocks)
    (byPrev : after.mapOrphanBlocksByPrev = s.mapOrphanBlocksByPrev) : Mirrored env after := by
  refine ⟨blocks ▸ mirrored.keyed, ?_, byPrev ▸ mirrored.nodup⟩
  intro hashPrev block
  rw [OrphanNode.Holds, blocks, byPrev]
  exact mirrored.byPrev hashPrev block

theorem holds_hold {env : Env} (new : block.getHash env ∉ s.mapOrphanBlocks) (other : CBlock) :
    (s.hold env block).Holds env other ↔ other = block ∨ s.Holds env other := by
  simp only [OrphanNode.Holds, OrphanNode.hold]
  by_cases same : other.getHash env = block.getHash env
  · rw [same, AList.lookup_insert, AList.lookup_eq_none.mpr new]
    simp [eq_comm]
  · rw [AList.lookup_insert_ne same]
    have ne : other ≠ block := fun equal => same (equal ▸ rfl)
    simp [ne]

theorem Mirrored.hold {env : Env} (mirrored : Mirrored env s) (new : block.getHash env ∉ s.mapOrphanBlocks) :
    Mirrored env (s.hold env block) := by
  have absent : s.mapOrphanBlocks.lookup (block.getHash env) = none := AList.lookup_eq_none.mpr new
  refine ⟨?_, ?_, ?_⟩
  · intro hash other found
    simp only [OrphanNode.hold] at found
    by_cases same : hash = block.getHash env
    · rw [same, AList.lookup_insert, Option.some.injEq] at found
      rw [same, found]
    · rw [AList.lookup_insert_ne same] at found
      exact mirrored.keyed hash other found
  · intro hashPrev other
    rw [holds_hold new]
    simp only [OrphanNode.hold, List.mem_append, List.mem_singleton, Prod.mk.injEq]
    rw [mirrored.byPrev]
    constructor
    · rintro (⟨named, held⟩ | ⟨rfl, rfl⟩)
      · exact ⟨named, Or.inr held⟩
      · exact ⟨rfl, Or.inl rfl⟩
    · rintro ⟨named, rfl | held⟩
      · exact Or.inr ⟨named, rfl⟩
      · exact Or.inl ⟨named, held⟩
  · simp only [OrphanNode.hold, List.nodup_append, List.nodup_singleton, List.mem_singleton, true_and]
    refine ⟨mirrored.nodup, ?_⟩
    rintro ⟨hashPrev, other⟩ member _ rfl same
    obtain ⟨-, rfl⟩ := Prod.mk.inj same
    rw [mirrored.byPrev, OrphanNode.Holds, absent] at member
    cases member.2

/-- The blocks that wait for a hash are those held with it as their parent's. -/
theorem Mirrored.mem_waitingFor {env : Env} (mirrored : Mirrored env s) {hashPrev : UInt256} :
    block ∈ s.waitingFor hashPrev ↔ block.hashPrevBlock = hashPrev ∧ s.Holds env block := by
  simp only [OrphanNode.waitingFor, List.mem_map, List.mem_filter, decide_eq_true_eq]
  constructor
  · rintro ⟨⟨hash, other⟩, ⟨member, rfl⟩, rfl⟩
    obtain ⟨named, held⟩ := (mirrored.byPrev _ _).mp member
    exact ⟨named.symm, held⟩
  · rintro ⟨rfl, held⟩
    exact ⟨(block.hashPrevBlock, block), ⟨(mirrored.byPrev _ _).mpr ⟨rfl, held⟩, rfl⟩, rfl⟩

/-- The maps after the inner loop: the blocks of the range are gone from `mapOrphanBlocks`,
and their stakes from the set. -/
theorem releaseRange_maps (setup : Setup) (range : List CBlock) (s : OrphanNode) (vWorkQueue : List UInt256) :
    ∃ node queue, releaseRange setup range s vWorkQueue = (node, queue) ∧
      node.mapOrphanBlocksByPrev = s.mapOrphanBlocksByPrev ∧
      (∀ hash, node.mapOrphanBlocks.lookup hash =
        if hash ∈ range.map (fun block => block.getHash setup.env) then none else s.mapOrphanBlocks.lookup hash) ∧
      (∀ stake, stake ∈ node.setStakeSeenOrphan ↔
        stake ∈ s.setStakeSeenOrphan ∧ stake ∉ range.map CBlock.getProofOfStake) ∧
      (∀ hash ∈ queue, hash ∈ vWorkQueue ∨ hash ∈ range.map fun block => block.getHash setup.env) ∧
      queue.length ≤ vWorkQueue.length + range.length := by
  induction range generalizing s vWorkQueue with
  | nil => exact ⟨s, vWorkQueue, rfl, rfl, by simp, by simp, fun _ => Or.inl, by simp⟩
  | cons orphan range ih =>
      obtain ⟨node, accepted, called, -⟩ := s.acceptBlock_cases setup orphan
      obtain ⟨last, queue, looped, byPrev, blocks, stakes, queued, short⟩ :=
        ih (({ s with toSyncNode := node } : OrphanNode).forget setup.env orphan)
          (if accepted then vWorkQueue ++ [orphan.getHash setup.env] else vWorkQueue)
      refine ⟨last, queue, ?_, byPrev, ?_, ?_, ?_, ?_⟩
      · simp only [releaseRange, called]
        exact looped
      · intro hash
        rw [blocks]
        simp only [OrphanNode.forget, List.map_cons, List.mem_cons]
        by_cases same : hash = orphan.getHash setup.env
        · subst same
          simp [AList.lookup_erase]
        · simp [same, AList.lookup_erase_ne]
      · intro stake
        rw [stakes]
        simp only [OrphanNode.forget, List.mem_filter, decide_eq_true_eq, List.map_cons, List.mem_cons, not_or]
        tauto
      · intro hash member
        rw [List.map_cons, List.mem_cons]
        rcases queued hash member with earlier | later
        · split at earlier
          · rw [List.mem_append, List.mem_singleton] at earlier
            exact earlier.imp_right Or.inl
          · exact Or.inl earlier
        · exact Or.inr (Or.inr later)
      · refine short.trans ?_
        split
        · simp only [List.length_append, List.length_cons, List.length_nil]
          omega
        · simp only [List.length_cons]
          omega

/-- One turn of the work queue: the blocks that wait for the hash are released. -/
def OrphanNode.turn (setup : Setup) (s : OrphanNode) (hashPrev : UInt256) (vWorkQueue : List UInt256) :
    OrphanNode × List UInt256 :=
  let (node, queue) := releaseRange setup (s.waitingFor hashPrev) s vWorkQueue
  ({ node with mapOrphanBlocksByPrev := node.mapOrphanBlocksByPrev.filter fun held => held.1 ≠ hashPrev }, queue)

theorem releaseOrphans_cons (fuel : Nat) (hashPrev : UInt256) (vWorkQueue : List UInt256) (s : OrphanNode) :
    releaseOrphans setup (fuel + 1) (hashPrev :: vWorkQueue) s =
      releaseOrphans setup fuel (s.turn setup hashPrev vWorkQueue).2 (s.turn setup hashPrev vWorkQueue).1 := rfl

/-- What a turn of the work queue does: it releases the blocks that wait for the hash and no
other, takes their stakes from the set, and queues some of them. -/
structure Turned (env : Env) (s : OrphanNode) (hashPrev : UInt256) (vWorkQueue : List UInt256)
    (after : OrphanNode × List UInt256) : Prop where
  mirrored : Mirrored env after.1
  holds : ∀ block, after.1.Holds env block ↔ s.Holds env block ∧ block.hashPrevBlock ≠ hashPrev
  stakes : ∀ stake, stake ∈ after.1.setStakeSeenOrphan ↔
    stake ∈ s.setStakeSeenOrphan ∧ ∀ block, s.Holds env block → block.hashPrevBlock = hashPrev →
      block.getProofOfStake ≠ stake
  queued : ∀ hash ∈ after.2, hash ∈ vWorkQueue ∨
    ∃ block, s.Holds env block ∧ block.hashPrevBlock = hashPrev ∧ block.getHash env = hash
  short : after.2.length + after.1.mapOrphanBlocksByPrev.length ≤ vWorkQueue.length + s.mapOrphanBlocksByPrev.length

theorem Mirrored.turn (mirrored : Mirrored setup.env s) (hashPrev : UInt256) (vWorkQueue : List UInt256) :
    Turned setup.env s hashPrev vWorkQueue (s.turn setup hashPrev vWorkQueue) := by
  obtain ⟨node, queue, looped, byPrev, blocks, stakes, queued, short⟩ :=
    releaseRange_maps setup (s.waitingFor hashPrev) s vWorkQueue
  have turned : s.turn setup hashPrev vWorkQueue =
      ({ node with mapOrphanBlocksByPrev := s.mapOrphanBlocksByPrev.filter fun held => held.1 ≠ hashPrev },
        queue) := by
    rw [OrphanNode.turn, looped]
    simp only [byPrev]
  have holds : ∀ block, node.Holds setup.env block ↔ s.Holds setup.env block ∧ block.hashPrevBlock ≠ hashPrev := by
    intro block
    rw [OrphanNode.Holds, blocks]
    split
    · rename_i released
      obtain ⟨other, waits, same⟩ := List.mem_map.mp released
      obtain ⟨named, held⟩ := mirrored.mem_waitingFor.mp waits
      refine ⟨fun absent => (Option.some_ne_none _ absent.symm).elim, ?_⟩
      rintro ⟨here, notNamed⟩
      rw [OrphanNode.Holds] at held here
      rw [same, here, Option.some.injEq] at held
      exact absurd (held ▸ named) notNamed
    · rename_i kept
      refine ⟨fun here => ⟨here, ?_⟩, fun here => here.1⟩
      intro named
      exact kept (List.mem_map.mpr ⟨block, mirrored.mem_waitingFor.mpr ⟨named, here⟩, rfl⟩)
  rw [turned]
  refine ⟨⟨?_, ?_, mirrored.nodup.filter _⟩, holds, ?_, ?_, ?_⟩
  · intro hash block found
    change node.mapOrphanBlocks.lookup hash = some block at found
    rw [blocks] at found
    split at found
    · cases found
    · exact mirrored.keyed hash block found
  · intro hash block
    simp only [List.mem_filter, decide_eq_true_eq]
    rw [mirrored.byPrev]
    change _ ↔ hash = block.hashPrevBlock ∧ node.Holds setup.env block
    rw [holds]
    constructor
    · rintro ⟨⟨rfl, held⟩, other⟩
      exact ⟨rfl, held, other⟩
    · rintro ⟨rfl, held, other⟩
      exact ⟨⟨rfl, held⟩, other⟩
  · intro stake
    change stake ∈ node.setStakeSeenOrphan ↔ _
    rw [stakes]
    simp only [List.mem_map, not_exists, not_and, mirrored.mem_waitingFor]
    tauto
  · intro hash member
    refine (queued hash member).imp_right fun released => ?_
    obtain ⟨block, waits, same⟩ := List.mem_map.mp released
    obtain ⟨named, held⟩ := mirrored.mem_waitingFor.mp waits
    exact ⟨block, held, named, same⟩
  · have split := List.length_eq_length_filter_add (l := s.mapOrphanBlocksByPrev) fun held => decide (held.1 = hashPrev)
    have waiting : (s.waitingFor hashPrev).length =
        (s.mapOrphanBlocksByPrev.filter fun held => decide (held.1 = hashPrev)).length := by
      rw [OrphanNode.waitingFor, List.length_map]
    have others : (s.mapOrphanBlocksByPrev.filter fun held => !decide (held.1 = hashPrev)) =
        s.mapOrphanBlocksByPrev.filter fun held => decide (held.1 ≠ hashPrev) := by
      simp only [decide_not]
    rw [others] at split
    dsimp only
    omega

end Maps

section Calls

variable (setup : Setup)

/-- The calls of `AcceptBlock` in the inner loop, each with the state before it. -/
def rangeCalls : List CBlock → OrphanNode → List (OrphanNode × CBlock)
  | [], _ => []
  | orphan :: range, s => (s, orphan) :: rangeCalls range ((s.acceptBlock setup orphan).1.forget setup.env orphan)

/-- The calls of `AcceptBlock` while the work queue is run. -/
def releaseCalls : Nat → List UInt256 → OrphanNode → List (OrphanNode × CBlock)
  | 0, _, _ => []
  | _ + 1, [], _ => []
  | fuel + 1, hashPrev :: vWorkQueue, s =>
      rangeCalls setup (s.waitingFor hashPrev) s ++
        releaseCalls fuel (s.turn setup hashPrev vWorkQueue).2 (s.turn setup hashPrev vWorkQueue).1

/-- `ProcessBlock` gets as far as `AcceptBlock`. -/
def reachesAccept (s : OrphanNode) (block : CBlock) : Bool :=
  (s.mapBlockIndex (block.getHash setup.env)).isNone && decide (block.getHash setup.env ∉ s.mapOrphanBlocks) &&
    processChecks setup s block && (s.mapBlockIndex block.hashPrevBlock).isSome

/-- The calls of `AcceptBlock` in one call of `ProcessBlock`. -/
def processCalls (s : OrphanNode) (block : CBlock) : List (OrphanNode × CBlock) :=
  if reachesAccept setup s block then
    (s, block) ::
      if (s.acceptBlock setup block).2 then
        releaseCalls setup ((s.acceptBlock setup block).1.mapOrphanBlocksByPrev.length + 1)
          [block.getHash setup.env] (s.acceptBlock setup block).1
      else []
  else []

/-- `AcceptBlock` returns false after it has put the block into the index. -/
def LateFailure (s : OrphanNode) (block : CBlock) : Prop :=
  (s.acceptBlock setup block).2 = false ∧ s.mapBlockIndex (block.getHash setup.env) = none ∧
    (s.acceptBlock setup block).1.mapBlockIndex (block.getHash setup.env) ≠ none

/-- `AcceptBlock` does not fail late on a block that a held one waits for. -/
def Prompt (s : OrphanNode) (block : CBlock) : Prop :=
  LateFailure setup s block → ∀ child, s.Holds setup.env child → child.hashPrevBlock ≠ block.getHash setup.env

end Calls

/-- Of the held blocks only those that wait for a hash of the work queue have their parent
in the index. -/
def Settled (env : Env) (s : OrphanNode) (vWorkQueue : List UInt256) : Prop :=
  ∀ block, s.Holds env block → s.mapBlockIndex block.hashPrevBlock ≠ none → block.hashPrevBlock ∈ vWorkQueue

section Release

variable {setup : Setup} {s after : OrphanNode} {block : CBlock}

theorem Settled.forget {env : Env} {vWorkQueue : List UInt256} (settled : Settled env s vWorkQueue) (block : CBlock) :
    Settled env (s.forget env block) vWorkQueue := by
  intro other held indexed
  refine settled other ?_ indexed
  simp only [OrphanNode.Holds, OrphanNode.forget] at held
  by_cases same : other.getHash env = block.getHash env
  · rw [same, AList.lookup_erase] at held
    cases held
  · rwa [AList.lookup_erase_ne same] at held

/-- One call of `AcceptBlock` in the release. -/
theorem Settled.acceptBlock {vWorkQueue : List UInt256} (settled : Settled setup.env s vWorkQueue)
    (prompt : Prompt setup s block) :
    Settled setup.env (s.acceptBlock setup block).1
      (if (s.acceptBlock setup block).2 then vWorkQueue ++ [block.getHash setup.env] else vWorkQueue) := by
  obtain ⟨node, accepted, called, ⟨same, rfl⟩ | ⟨new, pindex, index⟩⟩ := s.acceptBlock_cases setup block
  · rw [called]
    intro child held indexed
    exact settled child held (same ▸ indexed)
  intro child held indexed
  simp only [LateFailure, Prompt, called] at prompt held indexed ⊢
  by_cases waits : child.hashPrevBlock = block.getHash setup.env
  · cases accepted with
    | true => simp [waits]
    | false =>
        refine absurd waits (prompt ⟨rfl, new, ?_⟩ child held)
        rw [index, Function.update_self]
        exact Option.some_ne_none pindex
  · rw [index, Function.update_of_ne waits] at indexed
    have queued := settled child held indexed
    split
    · exact List.mem_append_left _ queued
    · exact queued

theorem releaseRange_settled {hashPrev : UInt256} {range : List CBlock} {vWorkQueue : List UInt256}
    (settled : Settled setup.env s (hashPrev :: vWorkQueue))
    (prompt : ∀ call ∈ rangeCalls setup range s, Prompt setup call.1 call.2) :
    Settled setup.env (releaseRange setup range s vWorkQueue).1
      (hashPrev :: (releaseRange setup range s vWorkQueue).2) := by
  induction range generalizing s vWorkQueue with
  | nil => exact settled
  | cons orphan range ih =>
      rw [rangeCalls, List.forall_mem_cons] at prompt
      refine ih ?_ prompt.2
      have step := (settled.acceptBlock prompt.1).forget orphan
      rw [List.cons_append, ← apply_ite (List.cons hashPrev)] at step
      exact step

theorem Settled.turn {hashPrev : UInt256} {vWorkQueue : List UInt256} (mirrored : Mirrored setup.env s)
    (settled : Settled setup.env s (hashPrev :: vWorkQueue))
    (prompt : ∀ call ∈ rangeCalls setup (s.waitingFor hashPrev) s, Prompt setup call.1 call.2) :
    Settled setup.env (s.turn setup hashPrev vWorkQueue).1 (s.turn setup hashPrev vWorkQueue).2 := by
  intro child held indexed
  have other := ((mirrored.turn hashPrev vWorkQueue).holds child).mp held
  have queued := releaseRange_settled settled prompt child held indexed
  exact (List.mem_cons.mp queued).resolve_left other.2

/-- The work queue is run to its end: each turn takes one hash from it and adds no more
than the blocks that leave `mapOrphanBlocksByPrev`. -/
theorem releaseOrphans_settled {fuel : Nat} {vWorkQueue : List UInt256} (mirrored : Mirrored setup.env s)
    (enough : vWorkQueue.length + s.mapOrphanBlocksByPrev.length ≤ fuel) (settled : Settled setup.env s vWorkQueue)
    (prompt : ∀ call ∈ releaseCalls setup fuel vWorkQueue s, Prompt setup call.1 call.2) :
    Settled setup.env (releaseOrphans setup fuel vWorkQueue s) [] := by
  induction fuel generalizing s vWorkQueue with
  | zero =>
      obtain rfl : vWorkQueue = [] := List.eq_nil_of_length_eq_zero (by omega)
      exact settled
  | succ fuel ih =>
      cases vWorkQueue with
      | nil => exact settled
      | cons hashPrev vWorkQueue =>
          rw [releaseCalls, List.forall_mem_append] at prompt
          have turned := mirrored.turn hashPrev vWorkQueue
          have short := turned.short
          rw [releaseOrphans_cons]
          refine ih turned.mirrored ?_ (settled.turn mirrored prompt.1) prompt.2
          rw [List.length_cons] at enough
          omega

theorem Mirrored.releaseOrphans (mirrored : Mirrored setup.env s) (fuel : Nat) (vWorkQueue : List UInt256) :
    Mirrored setup.env (InfiniteRicks.releaseOrphans setup fuel vWorkQueue s) := by
  induction fuel generalizing s vWorkQueue with
  | zero => exact mirrored
  | succ fuel ih =>
      cases vWorkQueue with
      | nil => exact mirrored
      | cons hashPrev vWorkQueue => exact ih (mirrored.turn hashPrev vWorkQueue).mirrored _

end Release

/-- One call of `ProcessBlock`, and the state it leaves, whether it returns true or false. -/
def Processes (setup : Setup) (s : OrphanNode) (block : CBlock) (after : OrphanNode) : Prop :=
  ∃ fMaster, processBlock setup s block fMaster = .error after ∨ processBlock setup s block fMaster = .ok after

/-- Every sequence of `ProcessBlock` calls whose blocks meet a condition, from any node that
holds no orphan. Between the calls the node may do anything that leaves the block index
and the orphan maps alone. -/
inductive OrphanRun (setup : Setup) (meets : OrphanNode → CBlock → Prop) : OrphanNode → Prop
  | start (node : SyncNode) : OrphanRun setup meets ⟨node, ∅, [], []⟩
  | call {s after : OrphanNode} {block : CBlock} : OrphanRun setup meets s → meets s block →
      Processes setup s block after → OrphanRun setup meets after
  | outside {s : OrphanNode} (node : SyncNode) : OrphanRun setup meets s → node.mapBlockIndex = s.mapBlockIndex →
      OrphanRun setup meets { s with toSyncNode := node }

section Process

variable {setup : Setup} {s after : OrphanNode} {block : CBlock}

/-- The release loop that `ProcessBlock` runs after a block was accepted. -/
def OrphanNode.released (setup : Setup) (s : OrphanNode) (block : CBlock) : OrphanNode :=
  releaseOrphans setup ((s.acceptBlock setup block).1.mapOrphanBlocksByPrev.length + 1) [block.getHash setup.env]
    (s.acceptBlock setup block).1

/-- The ways through `ProcessBlock`: nothing happens, the block is held, it is rejected by
`AcceptBlock`, or it is accepted and the work queue is run. -/
theorem processBlock_cases (processes : Processes setup s block after) :
    after = s ∨
      (block.getHash setup.env ∉ s.mapOrphanBlocks ∧ s.mapBlockIndex block.hashPrevBlock = none ∧
        after = s.hold setup.env block) ∨
      (reachesAccept setup s block = true ∧ (s.acceptBlock setup block).2 = false ∧
        after = (s.acceptBlock setup block).1) ∨
      (reachesAccept setup s block = true ∧ (s.acceptBlock setup block).2 = true ∧
        ∃ node : SyncNode, node.mapBlockIndex = (s.released setup block).mapBlockIndex ∧
          after = { s.released setup block with toSyncNode := node }) := by
  obtain ⟨fMaster, left⟩ := processes
  simp only [processBlock] at left
  split at left
  · rcases left with ⟨⟨⟩⟩ | ⟨⟨⟩⟩
    exact Or.inl rfl
  rename_i new
  split at left
  · rcases left with ⟨⟨⟩⟩ | ⟨⟨⟩⟩
    exact Or.inl rfl
  rename_i notHeld
  split at left
  · rcases left with ⟨⟨⟩⟩ | ⟨⟨⟩⟩
    exact Or.inl rfl
  rename_i tests
  split at left
  · rename_i unknown
    split at left
    · rcases left with ⟨⟨⟩⟩ | ⟨⟨⟩⟩
      exact Or.inl rfl
    · rcases left with ⟨⟨⟩⟩ | ⟨⟨⟩⟩
      exact Or.inr (Or.inl ⟨notHeld, by simpa using unknown, rfl⟩)
  rename_i known
  have reached : reachesAccept setup s block = true := by
    simp only [reachesAccept, Bool.and_eq_true, decide_eq_true_eq]
    refine ⟨⟨⟨by simpa using new, notHeld⟩, by simpa using tests⟩, ?_⟩
    simpa [Option.isSome_iff_ne_none] using known
  refine Or.inr (Or.inr ?_)
  split at left
  · rename_i rejected
    rcases left with ⟨⟨⟩⟩ | ⟨⟨⟩⟩
    exact Or.inl ⟨reached, by simpa using rejected, rfl⟩
  · rename_i accepted
    refine Or.inr ⟨reached, by simpa using accepted, ?_⟩
    rcases left with ⟨⟨⟩⟩ | ⟨⟨⟩⟩
    change ∃ node : SyncNode, _ ∧ (if fMaster = true then sendSyncCheckpoint setup (s.released setup block)
      else s.released setup block) = _
    split
    · simp only [sendSyncCheckpoint]
      split
      · rename_i node failed
        exact ⟨node, mapBlockIndex_processSyncCheckpoint (Or.inl failed), rfl⟩
      · rename_i node sent
        exact ⟨node, mapBlockIndex_processSyncCheckpoint (Or.inr sent), rfl⟩
    · exact ⟨_, rfl, rfl⟩

theorem Mirrored.acceptBlock (mirrored : Mirrored setup.env s) :
    Mirrored setup.env (s.acceptBlock setup block).1 := by
  obtain ⟨node, accepted, called, -⟩ := s.acceptBlock_cases setup block
  rw [called]
  exact mirrored.of_same rfl rfl

/-- The maps stay mirrored along every run, whatever its blocks are. -/
theorem Mirrored.of_run {meets : OrphanNode → CBlock → Prop} (run : OrphanRun setup meets s) :
    Mirrored setup.env s := by
  induction run with
  | start node =>
      refine ⟨?_, ?_, List.nodup_nil⟩
      · intro hash block found
        cases found
      · intro hashPrev block
        simp [OrphanNode.Holds, AList.lookup_empty]
  | call _ _ processes mirrored =>
      rcases processBlock_cases processes with rfl | ⟨new, -, rfl⟩ | ⟨-, -, rfl⟩ | ⟨-, -, node, -, rfl⟩
      · exact mirrored
      · exact mirrored.hold new
      · exact mirrored.acceptBlock
      · exact (mirrored.acceptBlock.releaseOrphans _ _).of_same rfl rfl
  | outside node _ _ mirrored => exact mirrored.of_same rfl rfl

/-- No call of `AcceptBlock` that `ProcessBlock` makes on this block fails late on one that
a held block waits for. -/
def PromptCalls (setup : Setup) (s : OrphanNode) (block : CBlock) : Prop :=
  ∀ call ∈ processCalls setup s block, Prompt setup call.1 call.2

/-- `ProcessBlock` on a block that meets the condition leaves no held block whose parent is
indexed. -/
theorem Settled.process (mirrored : Mirrored setup.env s) (settled : Settled setup.env s [])
    (prompt : PromptCalls setup s block) (processes : Processes setup s block after) :
    Settled setup.env after [] := by
  rcases processBlock_cases processes with rfl | ⟨new, unknown, rfl⟩ | ⟨reached, rejected, rfl⟩ |
    ⟨reached, accepted, node, index, rfl⟩
  · exact settled
  · intro child held indexed
    rcases (holds_hold new child).mp held with rfl | before
    · exact absurd unknown indexed
    · exact settled child before indexed
  · rw [PromptCalls, processCalls, if_pos reached, rejected, List.forall_mem_cons] at prompt
    have step := settled.acceptBlock prompt.1
    rw [rejected] at step
    exact step
  · rw [PromptCalls, processCalls, if_pos reached, accepted, if_pos rfl, List.forall_mem_cons] at prompt
    have step := settled.acceptBlock prompt.1
    rw [accepted, if_pos rfl, List.nil_append] at step
    have done := releaseOrphans_settled mirrored.acceptBlock (by rw [List.length_singleton, Nat.add_comm]) step
      prompt.2
    intro child held indexed
    exact done child held (index ▸ indexed)

/-- In every run in which no `AcceptBlock` fails after it has put a block into the index that
a held block waits for, the two orphan maps hold the same blocks, and no held block has
its parent in the index. -/
theorem orphans_mirrored_and_settled (run : OrphanRun setup (PromptCalls setup) s) :
    Mirrored setup.env s ∧ ∀ block, s.Holds setup.env block → s.mapBlockIndex block.hashPrevBlock = none := by
  have settled : Settled setup.env s [] := by
    induction run with
    | start node =>
        intro block held
        cases held
    | call before prompt processes settled => exact settled.process (.of_run before) prompt processes
    | outside node _ same settled =>
        intro block held indexed
        exact settled block held (same ▸ indexed)
  refine ⟨.of_run run, fun block held => ?_⟩
  by_contra indexed
  cases settled block held indexed

end Process

section Concrete

/-- A node of the test network. -/
def orphanSetup : Setup := { syncSetup with env := Env.labelled true }

def orphanRoot : CBlockIndex :=
  { smallEntry 0 0 1 with hash := genesisHash true, fGeneratedStakeModifier := true }

/-- The node on its genesis block. -/
def orphanStart : OrphanNode where
  toNode := { smallInitial [] with
    mapBlockIndex := fun hash => if hash = genesisHash true then some [orphanRoot] else none
    pindexGenesisBlock := [orphanRoot]
    pindexBest := [orphanRoot]
    hashBestChain := genesisHash true
    nBestHeight := 0
    nBestChainTrust := 1
    nAdjustedTime := 2000 }
  hashSyncCheckpoint := genesisHash true
  hashPendingCheckpoint := 0
  hashInvalidCheckpoint := 0
  mapOrphanBlocks := ∅
  mapOrphanBlocksByPrev := []
  setStakeSeenOrphan := []

/-- A block of the first height whose coinbase takes the given value. -/
def orphanParent (nReward : Int64) : CBlock :=
  .labelled 1 (genesisHash true) 1100 0x1f00ffff [.labelledCoinBase 101 1100 [0x51, 0] [⟨nReward, [0x51]⟩]]

def orphanChild : CBlock :=
  .labelled 2 1 1200 0x1f00ffff [.labelledCoinBase 102 1200 [0x52, 0] [⟨1000 * coin, [0x51]⟩]]

/-- The state that a call left. -/
def afterCall : Except OrphanNode OrphanNode → OrphanNode
  | .error s => s
  | .ok s => s

theorem processes_afterCall (setup : Setup) (s : OrphanNode) (block : CBlock) :
    Processes setup s block (afterCall (processBlock setup s block false)) := by
  refine ⟨false, ?_⟩
  cases processBlock setup s block false with
  | error after => exact Or.inl rfl
  | ok after => exact Or.inr rfl

/-- The child arrives first, and then a parent with the given reward. -/
def orphanEnd (nReward : Int64) : OrphanNode :=
  afterCall (processBlock orphanSetup (afterCall (processBlock orphanSetup orphanStart orphanChild false))
    (orphanParent nReward) false)

/-- A parent that takes one coin too much is put into the index before `ConnectBlock`
refuses it, and the child that waits for it stays held. -/
theorem late_failure_keeps_orphan :
    ∃ s, OrphanRun orphanSetup (fun _ _ => True) s ∧
      ∃ block, s.Holds orphanSetup.env block ∧ s.mapBlockIndex block.hashPrevBlock ≠ none := by
  refine ⟨orphanEnd (1001 * coin), .call (.call (.start _) trivial (processes_afterCall _ _ _)) trivial
    (processes_afterCall _ _ _), orphanChild, ?_, ?_⟩
  · decide +kernel
  · have found : ((orphanEnd (1001 * coin)).mapBlockIndex orphanChild.hashPrevBlock).isSome = true := by
      decide +kernel
    intro absent
    rw [absent] at found
    cases found

/-- Calls that `AcceptBlock` all answers with true are prompt. -/
theorem promptCalls_of_accepted {setup : Setup} {s : OrphanNode} {block : CBlock}
    (accepted : (processCalls setup s block).all (fun call => (call.1.acceptBlock setup call.2).2) = true) :
    PromptCalls setup s block := by
  intro call member late
  have returned := List.all_eq_true.mp accepted call member
  rw [late.1] at returned
  cases returned

/-- A parent that is accepted releases the child. -/
theorem accepted_parent_releases :
    (Mirrored orphanSetup.env (orphanEnd (1000 * coin)) ∧ ∀ block,
      (orphanEnd (1000 * coin)).Holds orphanSetup.env block →
        (orphanEnd (1000 * coin)).mapBlockIndex block.hashPrevBlock = none) ∧
      ((orphanEnd (1000 * coin)).mapBlockIndex (orphanChild.getHash orphanSetup.env)).isSome = true := by
  refine ⟨orphans_mirrored_and_settled (.call (.call (.start _) ?_ (processes_afterCall _ _ _)) ?_
    (processes_afterCall _ _ _)), by decide +kernel⟩
  · exact promptCalls_of_accepted (by decide +kernel)
  · exact promptCalls_of_accepted (by decide +kernel)

end Concrete

end InfiniteRicks
