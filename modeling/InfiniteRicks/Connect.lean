import InfiniteRicks.Node

/-!
# Connecting and disconnecting blocks

`CTransaction::FetchInputs`, `ConnectInputs`, `DisconnectInputs` and `GetCoinAge`,
and `CBlock::ConnectBlock` / `DisconnectBlock`, from `main.cpp`. A function that
returns `bool` and has changed nothing when it returns false is an `Option`;
`DisconnectBlock` may leave queued writes behind and returns `Except`, whose error
is the state at the point of failure. Writes go to the active batch and cannot
fail there.
-/

namespace InfiniteRicks

/-- `MapPrevTx`: the fetched previous transactions, by hash. -/
abbrev MapPrevTx := UInt256 → Option (CTxIndex × CTransaction)

/-- `map<uint256, CTxIndex>`, the overlay of index entries not yet written. -/
abbrev QueuedChanges := AList fun _ : UInt256 => CTxIndex

/-- Why `FetchInputs` returned false: `invalid` is `fInvalid = true`. -/
inductive FetchFailure where
  | missing
  | invalid
deriving DecidableEq

/-- `GetProofOfWorkReward`. -/
def getProofOfWorkReward (nFees : Int64) : Int64 := 1000 * coin + nFees

/-- `COIN_YEAR_REWARD`. -/
def coinYearReward : Int64 := 307 * cent

/-- `GetProofOfStakeReward`. -/
def getProofOfStakeReward (nCoinAge nFees : Int64) : Int64 :=
  nCoinAge * coinYearReward * 33 / (365 * 33 + 8) + nFees

namespace CTransaction

/-- One round of the fetch loop of `FetchInputs`: the index entry from the overlay
or the database, and the transaction from disk or the memory pool. -/
def fetchPrev (s : Node) (txdb : CTxDB) (mapTestPool : QueuedChanges) (fBlock fMiner : Bool)
    (hash : UInt256) : Option (CTxIndex × CTransaction) :=
  let queued := if fBlock || fMiner then mapTestPool.lookup hash else none
  match queued.or (txdb.readTxIndex hash) with
  | none =>
      if fBlock || fMiner then none
      else (s.mempool.lookup hash).map fun txPrev =>
        (CTxIndex.new CDiskTxPos.null txPrev.vout.length, txPrev)
  | some txindex =>
      if txindex.pos = CDiskTxPos.memoryPool then
        (s.mempool.lookup hash).map fun txPrev => (txindex, txPrev)
      else (s.files.readTx txindex.pos).map fun txPrev => (txindex, txPrev)

/-- The fetch loop of `FetchInputs`. -/
def fetchLoop (s : Node) (txdb : CTxDB) (mapTestPool : QueuedChanges) (fBlock fMiner : Bool) :
    List CTxIn → MapPrevTx → Option MapPrevTx
  | [], inputs => some inputs
  | txin :: rest, inputs =>
      if (inputs txin.prevout.hash).isSome then
        fetchLoop s txdb mapTestPool fBlock fMiner rest inputs
      else
        match fetchPrev s txdb mapTestPool fBlock fMiner txin.prevout.hash with
        | none => none
        | some prev =>
            fetchLoop s txdb mapTestPool fBlock fMiner rest
              (Function.update inputs txin.prevout.hash (some prev))

/-- The range test of both `FetchInputs` and `ConnectInputs` on one input. -/
def prevoutInRange (inputs : MapPrevTx) (txin : CTxIn) : Bool :=
  match inputs txin.prevout.hash with
  | none => false
  | some (txindex, txPrev) =>
      txin.prevout.n.toNat < txPrev.vout.length && txin.prevout.n.toNat < txindex.vSpent.length

/-- `CTransaction::FetchInputs`. -/
def fetchInputs (s : Node) (txdb : CTxDB) (mapTestPool : QueuedChanges) (fBlock fMiner : Bool)
    (tx : CTransaction) : Except FetchFailure MapPrevTx :=
  if tx.isCoinBase then .ok fun _ => none
  else
    match fetchLoop s txdb mapTestPool fBlock fMiner tx.vin fun _ => none with
    | none => .error .missing
    | some inputs =>
        if tx.vin.all (prevoutInRange inputs) then .ok inputs else .error .invalid

/-- `CTransaction::GetOutputFor`; `none` is the exception it throws. -/
def getOutputFor (inputs : MapPrevTx) (txin : CTxIn) : Option CTxOut :=
  match inputs txin.prevout.hash with
  | none => none
  | some (_, txPrev) => txPrev.vout[txin.prevout.n.toNat]?

/-- The loop of `CTransaction::GetValueIn`. -/
def addValueIn (inputs : MapPrevTx) (nResult : Int64) : List CTxIn → Option Int64
  | [] => some nResult
  | txin :: rest =>
      match getOutputFor inputs txin with
      | none => none
      | some txout => addValueIn inputs (nResult + txout.nValue) rest

/-- `CTransaction::GetValueIn`. -/
def getValueIn (inputs : MapPrevTx) (tx : CTransaction) : Option Int64 :=
  if tx.isCoinBase then some 0 else addValueIn inputs 0 tx.vin

/-- `CTransaction::GetP2SHSigOpCount`. -/
def getP2SHSigOpCount (inputs : MapPrevTx) (tx : CTransaction) : Nat :=
  if tx.isCoinBase then 0
  else (tx.vin.map fun txin =>
    match getOutputFor inputs txin with
    | none => 0
    | some prevout =>
        if CScript.isPayToScriptHash prevout.scriptPubKey then
          CScript.getSigOpCountFor prevout.scriptPubKey txin.scriptSig
        else 0).sum

/-- The maturity loop of `ConnectInputs`: an entry of the last `nCoinbaseMaturity`
ones is stored at the position. -/
def immatureAt (env : Env) (nHeight : Int) (pos : CDiskTxPos) : BlockPtr → Bool
  | [] => false
  | pindex :: pprev =>
      if nHeight - pindex.nHeight < env.nCoinbaseMaturity then
        (pindex.nBlockPos = pos.nBlockPos && pindex.nFile = pos.nFile) ||
          immatureAt env nHeight pos pprev
      else false

/-- The maturity test on a previous transaction, for a spend in `pindexBlock`. -/
def immature (env : Env) (pindexBlock : BlockPtr) (txindex : CTxIndex) (txPrev : CTransaction) : Bool :=
  (txPrev.isCoinBase || txPrev.isCoinStake) &&
    match pindexBlock with
    | [] => false
    | pindex :: _ => immatureAt env pindex.nHeight txindex.pos pindexBlock

/-- The first loop of `ConnectInputs`: range, maturity, timestamp and value tests. -/
def checkInputs (env : Env) (pindexBlock : BlockPtr) (inputs : MapPrevTx) (tx : CTransaction) :
    List CTxIn → Int64 → Option Int64
  | [], nValueIn => some nValueIn
  | txin :: rest, nValueIn =>
      match inputs txin.prevout.hash with
      | none => none
      | some (txindex, txPrev) =>
          match txPrev.vout[txin.prevout.n.toNat]? with
          | none => none
          | some txout =>
              if txindex.vSpent.length ≤ txin.prevout.n.toNat then none
              else if immature env pindexBlock txindex txPrev then none
              else if tx.nTime < txPrev.nTime then none
              else
                let nValueIn := nValueIn + txout.nValue
                if !moneyRange txout.nValue || !moneyRange nValueIn then none
                else checkInputs env pindexBlock inputs tx rest nValueIn

/-- The second loop of `ConnectInputs`, from input `i`: double-spend and signature
tests, marking each spent output in `inputs` and in the overlay. -/
def spendInputs (env : Env) (nBestHeight : Int) (tx : CTransaction) (posThisTx : CDiskTxPos)
    (fBlock fMiner : Bool) : Nat → List CTxIn → MapPrevTx → QueuedChanges → Option QueuedChanges
  | _, [], _, mapTestPool => some mapTestPool
  | i, txin :: rest, inputs, mapTestPool =>
      match inputs txin.prevout.hash with
      | none => none
      | some (txindex, txPrev) =>
          match txindex.vSpent[txin.prevout.n.toNat]? with
          | none => none
          | some spent =>
              if !spent.isNull then none
              else if !(fBlock && nBestHeight < getTotalBlocksEstimate env) &&
                  !env.verifySignature txPrev tx i then none
              else
                let txindex : CTxIndex :=
                  { txindex with vSpent := txindex.vSpent.set txin.prevout.n.toNat posThisTx }
                spendInputs env nBestHeight tx posThisTx fBlock fMiner (i + 1) rest
                  (Function.update inputs txin.prevout.hash (some (txindex, txPrev)))
                  (if fBlock || fMiner then mapTestPool.insert txin.prevout.hash txindex
                    else mapTestPool)

/-- The fee tests at the end of `ConnectInputs`. -/
def checkFee (tx : CTransaction) (nValueIn : Int64) : Bool :=
  if tx.isCoinStake then true
  else
    match tx.getValueOut with
    | none => false
    | some nValueOut =>
        let nTxFee := nValueIn - nValueOut
        !(nValueIn < nValueOut) && !(nTxFee < 0) && !(nTxFee < tx.getMinFee) && moneyRange (0 + nTxFee)

/-- `CTransaction::ConnectInputs`: the overlay with the spent outputs marked. -/
def connectInputs (env : Env) (nBestHeight : Int) (inputs : MapPrevTx) (mapTestPool : QueuedChanges)
    (posThisTx : CDiskTxPos) (pindexBlock : BlockPtr) (fBlock fMiner : Bool) (tx : CTransaction) :
    Option QueuedChanges :=
  if tx.isCoinBase then some mapTestPool
  else
    match checkInputs env pindexBlock inputs tx tx.vin 0 with
    | none => none
    | some nValueIn =>
        match spendInputs env nBestHeight tx posThisTx fBlock fMiner 0 tx.vin inputs mapTestPool with
        | none => none
        | some mapTestPool => if tx.checkFee nValueIn then some mapTestPool else none

/-- The input loop of `CTransaction::DisconnectInputs`. -/
def unspendInputs : List CTxIn → CTxDB → Except CTxDB CTxDB
  | [], txdb => .ok txdb
  | txin :: rest, txdb =>
      match txdb.readTxIndex txin.prevout.hash with
      | none => .error txdb
      | some txindex =>
          if txindex.vSpent.length ≤ txin.prevout.n.toNat then .error txdb
          else
            unspendInputs rest (txdb.updateTxIndex txin.prevout.hash
              { txindex with vSpent := txindex.vSpent.set txin.prevout.n.toNat CDiskTxPos.null })

/-- `CTransaction::DisconnectInputs`. -/
def disconnectInputs (env : Env) (tx : CTransaction) (txdb : CTxDB) : Except CTxDB CTxDB :=
  match (if tx.isCoinBase then .ok txdb else unspendInputs tx.vin txdb) with
  | .error txdb => .error txdb
  | .ok txdb => .ok (txdb.eraseTxIndex (env.txHash tx))

/-- The input loop of `CTransaction::GetCoinAge`, in cent-seconds. -/
def addCentSeconds (env : Env) (s : Node) (tx : CTransaction) : List CTxIn → Int → Option Int
  | [], bnCentSecond => some bnCentSecond
  | txin :: rest, bnCentSecond =>
      match s.txdb.readTxIndex txin.prevout.hash with
      | none => addCentSeconds env s tx rest bnCentSecond
      | some txindex =>
          match s.files.readTx txindex.pos with
          | none => addCentSeconds env s tx rest bnCentSecond
          | some txPrev =>
              match txPrev.vout[txin.prevout.n.toNat]? with
              | none => addCentSeconds env s tx rest bnCentSecond
              | some txout =>
                  if tx.nTime < txPrev.nTime then none
                  else
                    match s.files.readBlock txindex.pos.nFile txindex.pos.nBlockPos with
                    | none => none
                    | some block =>
                        if tx.nTime.toNat < block.getBlockTime + env.nStakeMinAge then
                          addCentSeconds env s tx rest bnCentSecond
                        else
                          addCentSeconds env s tx rest (bnCentSecond +
                            (txout.nValue.toInt * (tx.nTime - txPrev.nTime).toNat).tdiv cent.toInt)

/-- `CTransaction::GetCoinAge`, in coin-days. -/
def getCoinAge (env : Env) (s : Node) (tx : CTransaction) : Option UInt64 :=
  if tx.isCoinBase then some 0
  else
    match addCentSeconds env s tx tx.vin 0 with
    | none => none
    | some bnCentSecond =>
        some (CBigNum.getUInt64 (((bnCentSecond * cent.toInt).tdiv coin.toInt).tdiv (24 * 60 * 60)))

end CTransaction

/-- The loop variables of `ConnectBlock`. -/
structure ConnectState where
  mapQueuedChanges : QueuedChanges
  nFees : Int64
  nValueIn : Int64
  nValueOut : Int64
  nStakeReward : Int64
  nSigOps : Nat
  nTxPos : UInt32

namespace CBlock

/-- The position of the first transaction: the header and the transaction count
precede it. -/
def firstTxPos (block : CBlock) (pindex : CBlockIndex) (fJustCheck : Bool) : UInt32 :=
  if fJustCheck then 1
  else pindex.nBlockPos + 82 - 2 * UInt32.ofNat (getSizeOfCompactSize 0) +
    UInt32.ofNat (getSizeOfCompactSize block.vtx.length)

/-- One round of the transaction loop of `ConnectBlock`. -/
def connectTx (env : Env) (s : Node) (pindex : CBlockIndex) (pprev : BlockPtr) (fJustCheck : Bool)
    (acc : ConnectState) (tx : CTransaction) : Option ConnectState :=
  let hashTx := env.txHash tx
  if ((s.txdb.readTxIndex hashTx).any fun txindexOld => txindexOld.vSpent.any CDiskTxPos.isNull) then none
  else
    let nSigOps := acc.nSigOps + tx.getLegacySigOpCount
    if maxBlockSigOps < nSigOps then none
    else
      let posThisTx := pindex.txPos acc.nTxPos
      let nTxPos := if fJustCheck then acc.nTxPos else acc.nTxPos + UInt32.ofNat tx.getSerializeSize
      if tx.isCoinBase then
        match tx.getValueOut with
        | none => none
        | some nTxValueOut =>
            some { acc with
              nSigOps := nSigOps
              nTxPos := nTxPos
              nValueOut := acc.nValueOut + nTxValueOut
              mapQueuedChanges :=
                acc.mapQueuedChanges.insert hashTx (CTxIndex.new posThisTx tx.vout.length) }
      else
        match tx.fetchInputs s s.txdb acc.mapQueuedChanges true false with
        | .error _ => none
        | .ok mapInputs =>
            let nSigOps := nSigOps + tx.getP2SHSigOpCount mapInputs
            if maxBlockSigOps < nSigOps then none
            else
              match tx.getValueIn mapInputs, tx.getValueOut with
              | some nTxValueIn, some nTxValueOut =>
                  match tx.connectInputs env s.nBestHeight mapInputs acc.mapQueuedChanges posThisTx
                      (pindex :: pprev) true false with
                  | none => none
                  | some mapQueuedChanges =>
                      some {
                        mapQueuedChanges :=
                          mapQueuedChanges.insert hashTx (CTxIndex.new posThisTx tx.vout.length)
                        nFees :=
                          if tx.isCoinStake then acc.nFees else acc.nFees + (nTxValueIn - nTxValueOut)
                        nValueIn := acc.nValueIn + nTxValueIn
                        nValueOut := acc.nValueOut + nTxValueOut
                        nStakeReward :=
                          if tx.isCoinStake then nTxValueOut - nTxValueIn else acc.nStakeReward
                        nSigOps := nSigOps
                        nTxPos := nTxPos }
              | _, _ => none

/-- The transaction loop of `ConnectBlock`. -/
def connectTxs (env : Env) (s : Node) (pindex : CBlockIndex) (pprev : BlockPtr) (fJustCheck : Bool) :
    List CTransaction → ConnectState → Option ConnectState
  | [], acc => some acc
  | tx :: rest, acc =>
      match connectTx env s pindex pprev fJustCheck acc tx with
      | none => none
      | some acc => connectTxs env s pindex pprev fJustCheck rest acc

/-- The reward test of `ConnectBlock`. -/
def checkReward (env : Env) (s : Node) (block : CBlock) (nFees nStakeReward : Int64) : Bool :=
  if block.isProofOfWork then
    match block.vtx with
    | [] => false
    | coinbase :: _ =>
        match coinbase.getValueOut with
        | none => false
        | some nValueOut => !(getProofOfWorkReward nFees < nValueOut)
  else
    match block.vtx with
    | _ :: coinstake :: _ =>
        match coinstake.getCoinAge env s with
        | none => false
        | some nCoinAge => !(getProofOfStakeReward nCoinAge.toInt64 nFees < nStakeReward)
    | _ => false

/-- The database writes and notifications at the end of `ConnectBlock`. -/
def writeConnected (s : Node) (block : CBlock) (pindex : CBlockIndex) (pprev : BlockPtr)
    (fJustCheck : Bool) (acc : ConnectState) : Node :=
  let supplyBefore := (pprev.head?.map fun prev => s.nMoneySupply prev.hash).getD 0
  let s := { s with
    nMint := Function.update s.nMint pindex.hash (acc.nValueOut - acc.nValueIn + acc.nFees)
    nMoneySupply := Function.update s.nMoneySupply pindex.hash
      (supplyBefore + acc.nValueOut.toInt - acc.nValueIn.toInt) }
  let txdb := s.txdb.writeBlockIndex (diskBlockIndex s pindex pprev)
  if fJustCheck then s.withTxdb txdb
  else
    let txdb := acc.mapQueuedChanges.entries.foldl
      (fun txdb entry => txdb.updateTxIndex entry.1 entry.2) txdb
    let txdb := match pprev with
      | [] => txdb
      | prev :: grand =>
          txdb.writeBlockIndex { diskBlockIndex s prev grand with hashNext := pindex.hash }
    { s with
      txdb := txdb
      walletLog := s.walletLog ++ block.vtx.map fun tx => ⟨tx, block, true, true⟩ }

/-- `CBlock::ConnectBlock`. -/
def connectBlock (env : Env) (s : Node) (block : CBlock) (pindex : CBlockIndex) (pprev : BlockPtr)
    (fJustCheck : Bool := false) : Option Node :=
  if !block.checkBlock env s.nAdjustedTime (!fJustCheck) (!fJustCheck) false then none
  else
    match connectTxs env s pindex pprev fJustCheck block.vtx
        ⟨∅, 0, 0, 0, 0, 0, block.firstTxPos pindex fJustCheck⟩ with
    | none => none
    | some acc =>
        if block.checkReward env s acc.nFees acc.nStakeReward then
          some (block.writeConnected s pindex pprev fJustCheck acc)
        else none

/-- The transaction loop of `DisconnectBlock`, over the transactions last first. -/
def disconnectTxs (env : Env) : List CTransaction → CTxDB → Except CTxDB CTxDB
  | [], txdb => .ok txdb
  | tx :: rest, txdb =>
      match tx.disconnectInputs env txdb with
      | .error txdb => .error txdb
      | .ok txdb => disconnectTxs env rest txdb

/-- `CBlock::DisconnectBlock`. -/
def disconnectBlock (env : Env) (s : Node) (block : CBlock) (pprev : BlockPtr) : Except Node Node :=
  match disconnectTxs env block.vtx.reverse s.txdb with
  | .error txdb => .error (s.withTxdb txdb)
  | .ok txdb =>
      let txdb := match pprev with
        | [] => txdb
        | prev :: grand => txdb.writeBlockIndex { diskBlockIndex s prev grand with hashNext := 0 }
      .ok { s with
        txdb := txdb
        walletLog := s.walletLog ++ block.vtx.map fun tx => ⟨tx, block, false, false⟩ }

end CBlock

end InfiniteRicks
