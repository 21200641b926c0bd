import InfiniteRicks.AcceptSpec
import Mathlib.Data.List.AList

/-!
# Orphan blocks

`ProcessBlock` from `main.cpp`. A block whose parent is unknown is held in
`mapOrphanBlocks`, by its hash, and in `mapOrphanBlocksByPrev`, by its parent's; when a
block is accepted, the held blocks that wait for it are accepted or dropped, and then
those that wait for them. The release is skipped when `AcceptBlock` returns false, also
where it has put the block into the index before.
-/

namespace InfiniteRicks

/-- `CBlock::GetProofOfStake`. -/
def CBlock.getProofOfStake (block : CBlock) : COutPoint × UInt32 :=
  match block.coinStake with
  | some tx => ((tx.vin.head?.map CTxIn.prevout).getD COutPoint.null, tx.nTime)
  | none => (COutPoint.null, 0)

/-- The orphan globals of `main.cpp` beside those of the node. The multimap is the list of
its pairs in the order of insertion. -/
structure OrphanNode extends SyncNode where
  mapOrphanBlocks : AList fun _ : UInt256 => CBlock
  mapOrphanBlocksByPrev : List (UInt256 × CBlock)
  setStakeSeenOrphan : List (COutPoint × UInt32)

namespace OrphanNode

/-- `mapOrphanBlocksByPrev.count(hash)`, as a test. -/
def hasOrphanChild (s : OrphanNode) (hash : UInt256) : Bool :=
  s.mapOrphanBlocksByPrev.any fun held => held.1 = hash

/-- `WantedByOrphan`; the fuel is the number of orphans, which no chain of them exceeds. -/
def wantedByOrphan (s : OrphanNode) : Nat → CBlock → UInt256
  | 0, block => block.hashPrevBlock
  | fuel + 1, block =>
      match s.mapOrphanBlocks.lookup block.hashPrevBlock with
      | none => block.hashPrevBlock
      | some parent => wantedByOrphan s fuel parent

/-- `Checkpoints::WantedByPendingSyncCheckpoint`. -/
def wantedByPendingSyncCheckpoint (s : OrphanNode) (hashBlock : UInt256) : Bool :=
  if s.hashPendingCheckpoint = 0 then false
  else if hashBlock = s.hashPendingCheckpoint then true
  else
    match s.mapOrphanBlocks.lookup s.hashPendingCheckpoint with
    | none => false
    | some block => hashBlock = s.wantedByOrphan s.mapOrphanBlocks.keys.length block

/-- The duplicate-stake test: a block may repeat a stake only if an orphan waits for it or
the pending checkpoint wants it. -/
def duplicateStake (env : Env) (s : OrphanNode) (seen : List (COutPoint × UInt32)) (block : CBlock) : Bool :=
  block.isProofOfStake && decide (block.getProofOfStake ∈ seen) && !s.hasOrphanChild (block.getHash env) &&
    !s.wantedByPendingSyncCheckpoint (block.getHash env)

/-- Put a block into the orphan maps. -/
def hold (env : Env) (s : OrphanNode) (block : CBlock) : OrphanNode :=
  { s with
    setStakeSeenOrphan :=
      if block.isProofOfStake then s.setStakeSeenOrphan.insert block.getProofOfStake else s.setStakeSeenOrphan
    mapOrphanBlocks := s.mapOrphanBlocks.insert (block.getHash env) block
    mapOrphanBlocksByPrev := s.mapOrphanBlocksByPrev ++ [(block.hashPrevBlock, block)] }

/-- `mapOrphanBlocks.erase(hash)` and `setStakeSeenOrphan.erase(stake)` for a released
block. -/
def forget (env : Env) (s : OrphanNode) (block : CBlock) : OrphanNode :=
  { s with
    mapOrphanBlocks := s.mapOrphanBlocks.erase (block.getHash env)
    setStakeSeenOrphan := s.setStakeSeenOrphan.filter fun stake => stake ≠ block.getProofOfStake }

/-- The held blocks that wait for a hash, in the order of the multimap. -/
def waitingFor (s : OrphanNode) (hashPrev : UInt256) : List CBlock :=
  (s.mapOrphanBlocksByPrev.filter fun held => held.1 = hashPrev).map Prod.snd

end OrphanNode

/-- `Checkpoints::AutoSelectSyncCheckpoint`, from an entry down. -/
def autoSelectFrom (pindexBest : CBlockIndex) : BlockPtr → UInt256
  | [] => 0
  | [pindex] => pindex.hash
  | pindex :: prev :: grand =>
      if pindexBest.getBlockTime < pindex.getBlockTime + 10 * nTargetSpacing ∨
          pindexBest.nHeight < pindex.nHeight + 10 then autoSelectFrom pindexBest (prev :: grand)
      else pindex.hash

/-- `Checkpoints::AutoSelectSyncCheckpoint`. -/
def autoSelectSyncCheckpoint (s : Node) : UInt256 :=
  match s.pindexBest with
  | [] => 0
  | pindexBest :: pprev => autoSelectFrom pindexBest (pindexBest :: pprev)

section Processing

variable (setup : Setup)

/-- The state that `AcceptBlock` leaves, and whether it returned true. -/
def OrphanNode.acceptBlock (s : OrphanNode) (block : CBlock) : OrphanNode × Bool :=
  match InfiniteRicks.acceptBlock setup s.toSyncNode block with
  | .error node => ({ s with toSyncNode := node }, false)
  | .ok node => ({ s with toSyncNode := node }, true)

/-- The inner loop of the release: accept or drop each block that waits for one hash, and
queue the accepted ones. -/
def releaseRange : List CBlock → OrphanNode → List UInt256 → OrphanNode × List UInt256
  | [], s, vWorkQueue => (s, vWorkQueue)
  | orphan :: range, s, vWorkQueue =>
      let (node, accepted) := s.acceptBlock setup orphan
      releaseRange range (node.forget setup.env orphan)
        (if accepted then vWorkQueue ++ [orphan.getHash setup.env] else vWorkQueue)

/-- The work queue of `ProcessBlock`. -/
def releaseOrphans : Nat → List UInt256 → OrphanNode → OrphanNode
  | 0, _, s => s
  | _ + 1, [], s => s
  | fuel + 1, hashPrev :: vWorkQueue, s =>
      let (node, queue) := releaseRange setup (s.waitingFor hashPrev) s vWorkQueue
      releaseOrphans fuel queue
        { node with mapOrphanBlocksByPrev := node.mapOrphanBlocksByPrev.filter fun held => held.1 ≠ hashPrev }

/-- The tests of `ProcessBlock` on a block that is neither indexed nor held. -/
def processChecks (s : OrphanNode) (block : CBlock) : Bool :=
  let env := setup.env
  !s.duplicateStake env s.setStakeSeen block && block.checkBlock env s.nAdjustedTime true true true &&
    match getLastSyncCheckpoint s.toSyncNode with
    | [] => true
    | pcheckpoint :: pprev =>
        block.hashPrevBlock = s.hashBestChain || s.wantedByPendingSyncCheckpoint (block.getHash env) ||
          floodCheck env pcheckpoint pprev block

/-- `SendSyncCheckpoint(AutoSelectSyncCheckpoint())` of a node that holds the master key. -/
def sendSyncCheckpoint (s : OrphanNode) : OrphanNode :=
  match processSyncCheckpoint setup s.toSyncNode (autoSelectSyncCheckpoint s.toNode) true with
  | .error node => { s with toSyncNode := node }
  | .ok node => { s with toSyncNode := node }

/-- `ProcessBlock`. `fMaster` says that the block came from a peer and the node holds the
master key of the checkpoints. -/
def processBlock (s : OrphanNode) (block : CBlock) (fMaster : Bool) : Except OrphanNode OrphanNode :=
  let env := setup.env
  if (s.mapBlockIndex (block.getHash env)).isSome then .error s
  else if block.getHash env ∈ s.mapOrphanBlocks then .error s
  else if !processChecks setup s block then .error s
  else if (s.mapBlockIndex block.hashPrevBlock).isNone then
    if s.duplicateStake env s.setStakeSeenOrphan block then .error s else .ok (s.hold env block)
  else
    let (node, accepted) := s.acceptBlock setup block
    if !accepted then .error node
    else
      let node := releaseOrphans setup (node.mapOrphanBlocksByPrev.length + 1) [block.getHash env] node
      .ok (if fMaster then sendSyncCheckpoint setup node else node)

end Processing

end InfiniteRicks
