import InfiniteRicks.Accept
import InfiniteRicks.BlockIndex
import InfiniteRicks.Difficulty
import InfiniteRicks.ProofOfStake

/-!
# Synchronized checkpoints and accepting a block

`ValidateSyncCheckpoint`, `AcceptPendingSyncCheckpoint`, `CheckSync` and
`ProcessSyncCheckpoint` from `checkpoints.cpp`, and `CBlock::AcceptBlock` from
`main.cpp`, which calls them. A function that returns `bool` after it has changed the
state is an `Except`, whose error is the state when it returned false.
-/

namespace InfiniteRicks

/-- `Checkpoints::CPMode`. -/
inductive CPMode where
  | strict
  | advisory
  | permissive
deriving DecidableEq

/-- The globals of `checkpoints.cpp` beside those of the node. The checkpoint messages
are only relayed and are left out. -/
structure SyncNode extends Node where
  hashSyncCheckpoint : UInt256
  hashPendingCheckpoint : UInt256
  hashInvalidCheckpoint : UInt256

/-- What stays as it is while the node runs. -/
structure Setup where
  env : Env
  policy : Policy
  hashes : KernelHash
  /-- `CheckpointsMode`. -/
  mode : CPMode
  /-- `CheckDiskSpace` and `CBlock::WriteToDisk`: where the block was put, and the files
  with it. -/
  writeToDisk : BlockFiles → CBlock → Option (DiskBlockPos × BlockFiles)

/-- `CBlockIndex::IsInMainChain`. -/
def isInMainChain (s : Node) : BlockPtr → Bool
  | [] => false
  | pindex :: pprev => (s.pnext pindex.hash).isSome || decide (pindex :: pprev = s.pindexBest)

/-- `Checkpoints::GetLastSyncCheckpoint`. -/
def getLastSyncCheckpoint (s : SyncNode) : BlockPtr := (s.mapBlockIndex s.hashSyncCheckpoint).getD []

/-- `Checkpoints::ValidateSyncCheckpoint`. -/
def validateSyncCheckpoint (s : SyncNode) (hashCheckpoint : UInt256) : Except SyncNode Unit :=
  match s.mapBlockIndex s.hashSyncCheckpoint, s.mapBlockIndex hashCheckpoint with
  | some (pindexSync :: pprevSync), some (pindexRecv :: pprevRecv) =>
      if pindexRecv.nHeight ≤ pindexSync.nHeight then
        -- An older checkpoint is ignored, or found to conflict with the current one.
        match lowerTo pindexRecv.nHeight (pindexSync :: pprevSync) with
        | some (pindex :: _) =>
            if pindex.hash ≠ hashCheckpoint then .error { s with hashInvalidCheckpoint := hashCheckpoint }
            else .error s
        | _ => .error s
      else
        match lowerTo pindexSync.nHeight (pindexRecv :: pprevRecv) with
        | some (pindex :: _) =>
            if pindex.hash ≠ s.hashSyncCheckpoint then .error { s with hashInvalidCheckpoint := hashCheckpoint }
            else .ok ()
        | _ => .error s
  | _, _ => .error s

/-- `Checkpoints::WriteSyncCheckpoint`. The record in the database is read at startup
only and is not part of the modelled store. -/
def writeSyncCheckpoint (s : SyncNode) (hashCheckpoint : UInt256) : Except SyncNode SyncNode :=
  let result := s.txdb.fresh.txnBegin.txnCommit
  let s := { s with toNode := s.toNode.withTxdb result.2 }
  if result.1 then .ok { s with hashSyncCheckpoint := hashCheckpoint } else .error s

section Checkpoints

variable (setup : Setup)

/-- The part that `AcceptPendingSyncCheckpoint` and `ProcessSyncCheckpoint` share: switch
to the checkpoint if it is not in the main chain, and make it the current one. -/
def advanceSyncCheckpoint (s : SyncNode) (hashCheckpoint : UInt256) : Except SyncNode SyncNode :=
  let pindexCheckpoint := (s.mapBlockIndex hashCheckpoint).getD []
  if isInMainChain s.toNode pindexCheckpoint then writeSyncCheckpoint s hashCheckpoint
  else
    match readBlock setup.env s.toNode pindexCheckpoint with
    | none => .error s
    | some block =>
        match setBestChain setup.env setup.policy (codeConnector setup.env) s.toNode block pindexCheckpoint with
        | .error node => .error { s with toNode := node, hashInvalidCheckpoint := hashCheckpoint }
        | .ok node => writeSyncCheckpoint { s with toNode := node } hashCheckpoint

/-- `Checkpoints::AcceptPendingSyncCheckpoint`. -/
def acceptPendingSyncCheckpoint (s : SyncNode) : Except SyncNode SyncNode :=
  if s.hashPendingCheckpoint ≠ 0 ∧ (s.mapBlockIndex s.hashPendingCheckpoint).isSome then
    match validateSyncCheckpoint s s.hashPendingCheckpoint with
    | .error s => .error { s with hashPendingCheckpoint := 0 }
    | .ok () =>
        match advanceSyncCheckpoint setup s s.hashPendingCheckpoint with
        | .error s => .error s
        | .ok s => .ok { s with hashPendingCheckpoint := 0 }
  else .error s

/-- `CSyncCheckpoint::ProcessSyncCheckpoint`, of a message whose signature was checked. -/
def processSyncCheckpoint (s : SyncNode) (hashCheckpoint : UInt256) (fSigned : Bool) :
    Except SyncNode SyncNode :=
  if !fSigned then .error s
  else if (s.mapBlockIndex hashCheckpoint).isNone then .error { s with hashPendingCheckpoint := hashCheckpoint }
  else
    match validateSyncCheckpoint s hashCheckpoint with
    | .error s => .error s
    | .ok () =>
        match advanceSyncCheckpoint setup s hashCheckpoint with
        | .error s => .error s
        | .ok s => .ok { s with hashPendingCheckpoint := 0 }

/-- `Checkpoints::CheckSync`. The current checkpoint is asserted to be indexed. -/
def checkSync (s : SyncNode) (hashBlock : UInt256) (pindexPrev : CBlockIndex) (pprev : BlockPtr) : Bool :=
  if setup.env.fTestNet then true
  else
    let nHeight := pindexPrev.nHeight + 1
    match s.mapBlockIndex s.hashSyncCheckpoint with
    | some (pindexSync :: _) =>
        (if pindexSync.nHeight < nHeight then
          match lowerTo pindexSync.nHeight (pindexPrev :: pprev) with
          | some (pindex :: _) => !(pindex.nHeight < pindexSync.nHeight || pindex.hash ≠ s.hashSyncCheckpoint)
          | _ => false
        else true) &&
        !(nHeight = pindexSync.nHeight && hashBlock ≠ s.hashSyncCheckpoint) &&
        !(nHeight < pindexSync.nHeight && (s.mapBlockIndex hashBlock).isNone)
    | _ => false

/-- `LOCKTIME_THRESHOLD`. -/
def locktimeThreshold : Int := 500000000

/-- `IsFinalTx`. -/
def isFinalTx (s : Node) (tx : CTransaction) (nBlockHeight nBlockTime : Int) : Bool :=
  if tx.nLockTime = 0 then true
  else
    let nBlockHeight := if nBlockHeight = 0 then s.nBestHeight else nBlockHeight
    let nBlockTime := if nBlockTime = 0 then s.nAdjustedTime else nBlockTime
    if (tx.nLockTime.toNat : Int) < (if (tx.nLockTime.toNat : Int) < locktimeThreshold then nBlockHeight
        else nBlockTime) then true
    else tx.vin.all fun txin => txin.nSequence = 0xffffffff

/-- The functions of `kernel.cpp` that `AddToBlockIndex` calls. -/
def codeKernel (hashes : KernelHash) (s : Node) : StakeKernel where
  computeNextStakeModifier pindexPrev := (computeNextStakeModifier hashes s.mapBlockIndex pindexPrev).toOption
  getStakeModifierChecksum := getStakeModifierChecksum hashes
  checkStakeModifierCheckpoints := checkStakeModifierCheckpoints

/-- `hashProof` as `AcceptBlock` has it; `none` is a proof of stake that fails. -/
def acceptProof (s : Node) (block : CBlock) : Option UInt256 :=
  match block.coinStake with
  | some coinstake =>
      (checkProofOfStake setup.env setup.hashes s coinstake block.nBits).map Prod.fst
  | none => some (setup.env.powHash block.toCBlockHeader)

/-- The tests of `AcceptBlock` on a block whose parent is indexed, in their order. -/
def acceptChecks (s : SyncNode) (block : CBlock) (pindexPrev : CBlockIndex) (pprev : BlockPtr) : Option UInt256 :=
  let env := setup.env
  let nHeight := pindexPrev.nHeight + 1
  if block.isProofOfWork && lastPowBlock < nHeight then none
  else if block.nBits ≠ getNextTargetRequired env pindexPrev pprev block.isProofOfStake then none
  else if !checkTimeAgainstPrev block.getBlockTime pindexPrev pprev then none
  else if !block.vtx.all (fun tx => isFinalTx s.toNode tx nHeight block.getBlockTime) then none
  else if !checkHardened env nHeight (block.getHash env) then none
  else
    match acceptProof setup s.toNode block with
    | none => none
    | some hashProof =>
        if setup.mode = .strict ∧ checkSync setup s (block.getHash env) pindexPrev pprev = false then none
        else if !block.checkCoinbaseHeight (Int32.ofInt nHeight) then none
        else some hashProof

/-- `CBlock::AcceptBlock`. -/
def acceptBlock (s : SyncNode) (block : CBlock) : Except SyncNode SyncNode :=
  let env := setup.env
  if 6 < block.nVersion then .error s
  else if (s.mapBlockIndex (block.getHash env)).isSome then .error s
  else
    match s.mapBlockIndex block.hashPrevBlock with
    | some (pindexPrev :: pprev) =>
        match acceptChecks setup s block pindexPrev pprev with
        | none => .error s
        | some hashProof =>
            match setup.writeToDisk s.files block with
            | none => .error s
            | some (pos, files) =>
                let node : Node := { s.toNode with files := files }
                match addToBlockIndex env setup.policy (codeKernel setup.hashes node) (codeConnector env)
                    node block pos hashProof with
                | .error node => .error { s with toNode := node }
                | .ok node =>
                    -- The verdict of `AcceptPendingSyncCheckpoint` is ignored.
                    match acceptPendingSyncCheckpoint setup { s with toNode := node } with
                    | .error s => .ok s
                    | .ok s => .ok s
    | _ => .error s

end Checkpoints

end InfiniteRicks
