import InfiniteRicks.ConnectSpec

/-!
# Choosing the best chain

`AcceptToMemoryPool`, `InvalidChainFound`, `Reorganize`, `SetBestChainInner` and
`CBlock::SetBestChain`, from `main.cpp`. A function that returns `bool` after it has
changed the state is an `Except`, whose error is the state when it returned false.

Chain switching only reads blocks, connects and disconnects them, and commits. What
it uses of block connection is a `Connector`, whose fields say that connecting
touches nothing but the active batch, the sums of an entry and the wallet log;
`codeConnector` is the one of the source.
-/

namespace InfiniteRicks

open CBlock (Frame)

/-- Relay policy that the modelled code only asks for a verdict. -/
structure Policy where
  /-- `IsStandardTx`. -/
  isStandardTx : CTransaction → Bool
  /-- `CTransaction::AreInputsStandard`. -/
  areInputsStandard : CTransaction → MapPrevTx → Bool
  /-- The rate limiter for free transactions. -/
  rateLimited : CTransaction → Bool

/-- The tests of `AcceptToMemoryPool` before the inputs are fetched: a well-formed
loose transaction of a standard type that neither the pool nor the chain has, and
whose inputs no pool transaction spends. -/
def acceptable (env : Env) (policy : Policy) (s : Node) (tx : CTransaction) : Bool :=
  tx.checkTransaction && !tx.isCoinBase && !tx.isCoinStake &&
    (env.fTestNet || policy.isStandardTx tx) &&
    !s.mempool.contains (env.txHash tx) &&
    tx.vin.all (fun txin => (s.mempool.mapNextTx txin.prevout).isNone) &&
    !s.txdb.fresh.containsTx (env.txHash tx)

/-- The fee tests of `AcceptToMemoryPool`. -/
def relayFee (policy : Policy) (mapInputs : MapPrevTx) (tx : CTransaction) : Bool :=
  match tx.getValueIn mapInputs, tx.getValueOut with
  | some nValueIn, some nValueOut =>
      let nFees := nValueIn - nValueOut
      let nSize := UInt32.ofNat tx.getSerializeSize
      !(nFees < tx.getMinFee 1000 .relay nSize) && !(nFees < minRelayTxFee && policy.rateLimited tx)
  | _, _ => false

/-- `AcceptToMemoryPool`: the node with the transaction in its pool, if accepted. The
database is read through a handle of its own. -/
def acceptToMemoryPool (env : Env) (policy : Policy) (s : Node) (tx : CTransaction) : Option Node :=
  if !acceptable env policy s tx then none
  else
    match tx.fetchInputs s s.txdb.fresh ∅ false false with
    | .error _ => none
    | .ok mapInputs =>
        if !policy.areInputsStandard tx mapInputs && !env.fTestNet then none
        else if !relayFee policy mapInputs tx then none
        else
          match tx.connectInputs env s.nBestHeight mapInputs ∅ CDiskTxPos.memoryPool s.pindexBest
              false false with
          | none => none
          | some _ => some { s with mempool := s.mempool.addUnchecked (env.txHash tx) tx }

/-- `InvalidChainFound`: the record is written through a handle of its own, past any
batch. -/
def invalidChainFound (s : Node) (pindexNew : BlockPtr) : Node :=
  match pindexNew with
  | [] => s
  | pindex :: _ =>
      if s.nBestInvalidTrust < pindex.nChainTrust then
        { s with
          nBestInvalidTrust := pindex.nChainTrust
          txdb := { s.txdb with pdb := (s.txdb.fresh.writeBestInvalidTrust pindex.nChainTrust).pdb } }
      else s

/-- What chain switching uses of block connection: `ConnectBlock` and
`DisconnectBlock` at an entry, which change nothing but what `Frame` allows. -/
structure Connector where
  connect : Node → CBlock → BlockPtr → Option Node
  disconnect : Node → CBlock → BlockPtr → Except Node Node
  connectFrame : ∀ {s after block pindex}, connect s block pindex = some after → Frame s after
  disconnectFrame : ∀ {s after block pindex}, disconnect s block pindex = .ok after → Frame s after
  failedFrame : ∀ {s after block pindex}, disconnect s block pindex = .error after → Frame s after

namespace Node

/-- `txdb.TxnBegin()`. -/
def txnBegin (s : Node) : Node := s.withTxdb s.txdb.txnBegin

/-- `txdb.TxnAbort()`. -/
def txnAbort (s : Node) : Node := s.withTxdb s.txdb.txnAbort

/-- `txdb.WriteHashBestChain(hash)` and `txdb.TxnCommit()`; the error is a commit that
failed. -/
def commitBest (s : Node) (hash : UInt256) : Except Node Node :=
  let result := (s.txdb.writeHashBestChain hash).txnCommit
  if result.1 then .ok (s.withTxdb result.2) else .error (s.withTxdb result.2)

end Node

/-- `pindex->pprev->pnext = pindex`, where there is a `pprev`. -/
def linkNext (pnext : UInt256 → Option UInt256) : BlockPtr → UInt256 → Option UInt256
  | pindex :: prev :: _ => Function.update pnext prev.hash (some pindex.hash)
  | _ => pnext

/-- `pindex->pprev->pnext = NULL`, where there is a `pprev`. -/
def unlinkNext (pnext : UInt256 → Option UInt256) : BlockPtr → UInt256 → Option UInt256
  | _ :: prev :: _ => Function.update pnext prev.hash none
  | _ => pnext

/-- Walk down to a height; `none` where the chain ends above it. -/
def lowerTo (nHeight : Int) : BlockPtr → Option BlockPtr
  | [] => none
  | pindex :: pprev => if nHeight < pindex.nHeight then lowerTo nHeight pprev else some (pindex :: pprev)

/-- The fork search of `Reorganize`. -/
def findFork : BlockPtr → BlockPtr → Option BlockPtr
  | [], _ => none
  | pfork :: pprev, plonger =>
      if pfork :: pprev = plonger then some plonger
      else
        match lowerTo pfork.nHeight plonger with
        | none => none
        | some plonger => if pfork :: pprev = plonger then some plonger else findFork pprev plonger

/-- The entries from one down to, but without, the fork. -/
def pathTo (pfork : BlockPtr) : BlockPtr → List BlockPtr
  | [] => []
  | pindex :: pprev => if pindex :: pprev = pfork then [] else (pindex :: pprev) :: pathTo pfork pprev

/-- `block.ReadFromDisk(pindex)` for an entry. -/
def readBlock (env : Env) (s : Node) : BlockPtr → Option CBlock
  | [] => none
  | pindex :: _ => s.readFromDisk env pindex

/-- The transactions of a disconnected block that are put back into the pool. -/
def resurrectable (env : Env) (block : CBlock) (pindex : BlockPtr) : List CTransaction :=
  block.vtx.filter fun tx => !(tx.isCoinBase || tx.isCoinStake) &&
    (match pindex with
      | [] => false
      | entry :: _ => getTotalBlocksEstimate env < entry.nHeight)

section Switching

variable (env : Env) (policy : Policy) (c : Connector)

/-- The disconnection loop of `Reorganize`, with `vResurrect`. -/
def disconnectBranch : List BlockPtr → Node → List CTransaction → Except Node (Node × List CTransaction)
  | [], s, vResurrect => .ok (s, vResurrect)
  | pindex :: rest, s, vResurrect =>
      match readBlock env s pindex with
      | none => .error s
      | some block =>
          match c.disconnect s block pindex with
          | .error s => .error s
          | .ok s => disconnectBranch rest s (resurrectable env block pindex ++ vResurrect)

/-- The connection loop of `Reorganize`, with `vDelete`. -/
def connectBranch : List BlockPtr → Node → List CTransaction → Except Node (Node × List CTransaction)
  | [], s, vDelete => .ok (s, vDelete)
  | pindex :: rest, s, vDelete =>
      match readBlock env s pindex with
      | none => .error s
      | some block =>
          match c.connect s block pindex with
          | none => .error s
          | some s => connectBranch rest s (vDelete ++ block.vtx)

/-- One call of `AcceptToMemoryPool` whose verdict is ignored. -/
def resurrect (s : Node) (tx : CTransaction) : Node := (acceptToMemoryPool env policy s tx).getD s

/-- `mempool.remove(tx)` and `mempool.removeConflicts(tx)`. -/
def removeConfirmed (pool : CTxMemPool) (tx : CTransaction) : CTxMemPool :=
  (pool.remove env tx).removeConflicts env tx

/-- `Reorganize`. -/
def reorganize (s : Node) (pindexNew : BlockPtr) : Except Node Node :=
  match findFork s.pindexBest pindexNew with
  | none => .error s
  | some pfork =>
      let vDisconnect := pathTo pfork s.pindexBest
      let vConnect := (pathTo pfork pindexNew).reverse
      match disconnectBranch env c vDisconnect s [] with
      | .error s => .error s
      | .ok (s, vResurrect) =>
          match connectBranch env c vConnect s [] with
          | .error s => .error s
          | .ok (s, vDelete) =>
              match s.commitBest ((pindexNew.head?.map CBlockIndex.hash).getD 0) with
              | .error s => .error s
              | .ok s =>
                  let s := { s with pnext := vConnect.foldl linkNext (vDisconnect.foldl unlinkNext s.pnext) }
                  let s := vResurrect.foldl (resurrect env policy) s
                  .ok { s with mempool := vDelete.foldl (removeConfirmed env) s.mempool }

/-- `CBlock::SetBestChainInner`. -/
def setBestChainInner (s : Node) (block : CBlock) (pindexNew : BlockPtr) : Except Node Node :=
  match c.connect s block pindexNew with
  | none => .error (invalidChainFound s.txnAbort pindexNew)
  | some s =>
      match s.commitBest (block.getHash env) with
      | .error s => .error s
      | .ok s =>
          .ok { s with
            pnext := linkNext s.pnext pindexNew
            mempool := block.vtx.foldl (fun pool tx => pool.remove env tx) s.mempool }

/-- The blocks whose connection `SetBestChain` postpones, newest first, and the block
that `Reorganize` switches to. -/
def postpone (nBestChainTrust : UInt256) : BlockPtr → List BlockPtr × BlockPtr
  | pindex :: prev :: grand =>
      if nBestChainTrust < prev.nChainTrust then
        let (vpindexSecondary, pindexIntermediate) := postpone nBestChainTrust (prev :: grand)
        ((pindex :: prev :: grand) :: vpindexSecondary, pindexIntermediate)
      else ([], pindex :: prev :: grand)
  | pindexIntermediate => ([], pindexIntermediate)

/-- The loop over the postponed blocks, oldest first. The error is a `break`, with
the state it leaves. -/
def connectSecondary : List BlockPtr → Node → Except Node Node
  | [], s => .ok s
  | pindex :: rest, s =>
      match readBlock env s pindex with
      | none => .error s
      | some block =>
          match setBestChainInner env c s.txnBegin block pindex with
          | .error s => .error s
          | .ok s => connectSecondary rest s

/-- The state after a loop that may have been left by `break`. -/
def afterLoop : Except Node Node → Node
  | .error s => s
  | .ok s => s

/-- The assignments of the new best block at the end of `SetBestChain`. -/
def newBest (s : Node) (block : CBlock) (pindexNew : BlockPtr) : Node :=
  { s with
    hashBestChain := block.getHash env
    pindexBest := pindexNew
    pblockindexFBBHLast := []
    nBestHeight := (pindexNew.head?.map CBlockIndex.nHeight).getD 0
    nBestChainTrust := (pindexNew.head?.map CBlockIndex.nChainTrust).getD 0 }

/-- `pindexBest->nChainTrust`. -/
def bestTrust (s : Node) : UInt256 := (s.pindexBest.head?.map CBlockIndex.nChainTrust).getD 0

/-- `CBlock::SetBestChain`. -/
def setBestChain (s : Node) (block : CBlock) (pindexNew : BlockPtr) : Except Node Node :=
  let s := s.txnBegin
  if s.pindexGenesisBlock = [] ∧ block.getHash env = env.hashGenesisBlock then
    match s.commitBest (block.getHash env) with
    | .error s => .error s
    | .ok s => .ok (newBest env { s with pindexGenesisBlock := pindexNew } block pindexNew)
  else if block.hashPrevBlock = s.hashBestChain then
    match setBestChainInner env c s block pindexNew with
    | .error s => .error s
    | .ok s => .ok (newBest env s block pindexNew)
  else
    let (vpindexSecondary, pindexIntermediate) := postpone (bestTrust s) pindexNew
    match reorganize env policy c s pindexIntermediate with
    | .error s => .error (invalidChainFound s.txnAbort pindexNew)
    | .ok s =>
        .ok (newBest env (afterLoop (connectSecondary env c vpindexSecondary.reverse s)) block pindexNew)

end Switching

end InfiniteRicks
