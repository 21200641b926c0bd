import InfiniteRicks.Checkpoints

/-!
# Making a proof-of-stake block

`CreateNewBlock` of `miner.cpp` for a proof-of-stake template,
`CWallet::CreateCoinStake` of `wallet.cpp` and `CBlock::SignBlock` of `main.cpp`. The
template is filled from the memory pool with a coinbase of the time of the call; the
coinstake is made later, with a time that the kernel search has found, and is put in
front of what the template has collected.
-/

namespace InfiniteRicks

/-- `PastDrift`. -/
def pastDrift (nTime : Int) : Int := nTime - 10 * 60

/-- `CBlock::GetMaxTransactionTime`. -/
def CBlock.getMaxTransactionTime (block : CBlock) : Int :=
  block.vtx.foldl (fun maxTransactionTime tx => max maxTransactionTime tx.nTime.toNat) 0

/-- The block time of `CreateNewBlock` and `SignBlock`: not before the past time limit, the
latest transaction and the drift from the previous block. -/
def blockTimeOn (pindexPrev : CBlockIndex) (pprev : BlockPtr) (nMaxTransactionTime : Int) : UInt32 :=
  let nTime := UInt32.ofInt (max (getMedianTimePast (pindexPrev :: pprev) + 1) nMaxTransactionTime)
  UInt32.ofInt (max nTime.toNat (pastDrift pindexPrev.getBlockTime))

/-- What `CreateNewBlock` reads from the command line, as `unsigned int`. -/
structure MinerOptions where
  /-- `-blockmaxsize`. -/
  blockMaxSize : Nat
  /-- `-blockprioritysize`. -/
  blockPrioritySize : Nat
  /-- `-blockminsize`. -/
  blockMinSize : Nat

namespace MinerOptions

def nBlockMaxSize (options : MinerOptions) : Nat := max 1000 (min (maxBlockSize - 1000) options.blockMaxSize)

def nBlockPrioritySize (options : MinerOptions) : Nat := min options.nBlockMaxSize options.blockPrioritySize

def nBlockMinSize (options : MinerOptions) : Nat := min options.nBlockMaxSize options.blockMinSize

end MinerOptions

/-- What the `double` scores of `TxPriority` decide: which transaction is at the front of the
heap, by fee or by priority, and the two tests on a score. -/
structure TxScores where
  front : Bool → List CTransaction → Nat
  /-- `dFeePerKb < nMinTxFee`. -/
  cheap : CTransaction → Bool
  /-- `dPriority < COIN * 144 / 250`. -/
  lowPriority : CTransaction → Bool

/-- `COrphan`: a pool transaction that waits for others to be in the block. -/
structure COrphan where
  ptx : CTransaction
  setDependsOn : List UInt256

/-- The loop variables of `CreateNewBlock`; `vtx` is what stands behind the coinbase. -/
structure TemplateState where
  vtx : List CTransaction
  mapTestPool : QueuedChanges
  nBlockSize : Nat
  nBlockSigOps : Nat
  nFees : Int64
  fSortedByFee : Bool
  vecPriority : List CTransaction
  vOrphan : List COrphan

section Template

variable (env : Env) (options : MinerOptions) (scores : TxScores) (s : Node)

/-- The pool transactions that the inputs of a transaction wait for; `none` where an input is
missing. -/
def setDependsOn : List CTxIn → Option (List UInt256)
  | [] => some []
  | txin :: rest =>
      if (readPrevTx s txin.prevout).isSome then setDependsOn rest
      else if s.mempool.contains txin.prevout.hash then (setDependsOn rest).map (List.insert txin.prevout.hash)
      else none

/-- The pool transactions that may be in a block, with what they wait for. -/
def poolCandidates (nHeight : Int) : List COrphan :=
  (s.mempool.mapTx.entries.map Sigma.snd).filterMap fun tx =>
    if tx.isCoinBase || tx.isCoinStake || !isFinalTx s tx nHeight 0 then none
    else (setDependsOn s tx.vin).map fun hashes => ⟨tx, hashes⟩

/-- A transaction is added to the template, and those that waited for it and nothing else are
put into the queue. -/
def addToTemplate (st : TemplateState) (tx : CTransaction) (mapTestPool : QueuedChanges) (nTxSigOps : Nat)
    (nTxFees : Int64) : TemplateState :=
  let hash := env.txHash tx
  let vOrphan := st.vOrphan.map fun orphan => { orphan with setDependsOn := orphan.setDependsOn.filter (· ≠ hash) }
  { st with
    vtx := st.vtx ++ [tx]
    mapTestPool := mapTestPool.insert hash (CTxIndex.new CDiskTxPos.memoryPool tx.vout.length)
    nBlockSize := st.nBlockSize + tx.getSerializeSize
    nBlockSigOps := st.nBlockSigOps + nTxSigOps
    nFees := st.nFees + nTxFees
    vecPriority := st.vecPriority ++ (vOrphan.filter fun orphan => orphan.setDependsOn.isEmpty).map COrphan.ptx
    vOrphan := vOrphan.filter fun orphan => !orphan.setDependsOn.isEmpty }

/-- One round of the loop of `CreateNewBlock` for a proof-of-stake block, after the front of
the queue was taken off; `none` is an exception. -/
def considerTx (nCoinBaseTime : UInt32) (st : TemplateState) (tx : CTransaction) : Option TemplateState :=
  let nTxSize := tx.getSerializeSize
  let nTxSigOps := tx.getLegacySigOpCount
  if options.nBlockMaxSize ≤ st.nBlockSize + nTxSize then some st
  else if maxBlockSigOps ≤ st.nBlockSigOps + nTxSigOps then some st
  else if s.nAdjustedTime < tx.nTime.toNat ∨ nCoinBaseTime < tx.nTime then some st
  else
    let nMinFee := tx.getMinFee (UInt32.ofNat st.nBlockSize) .block
    if st.fSortedByFee && scores.cheap tx && options.nBlockMinSize ≤ st.nBlockSize + nTxSize then some st
    else
      let st := { st with
        fSortedByFee := st.fSortedByFee || options.nBlockPrioritySize ≤ st.nBlockSize + nTxSize ||
          scores.lowPriority tx }
      match tx.fetchInputs s s.txdb.fresh st.mapTestPool false true with
      | .error _ => some st
      | .ok mapInputs =>
          match tx.getValueIn mapInputs, tx.getValueOut with
          | some nTxValueIn, some nTxValueOut =>
              let nTxFees := nTxValueIn - nTxValueOut
              let nTxSigOps := nTxSigOps + tx.getP2SHSigOpCount mapInputs
              if nTxFees < nMinFee then some st
              else if maxBlockSigOps ≤ st.nBlockSigOps + nTxSigOps then some st
              else
                match tx.connectInputs env s.nBestHeight mapInputs st.mapTestPool CDiskTxPos.memoryPool
                    s.pindexBest false true with
                | none => some st
                | some mapTestPool => some (addToTemplate env st tx mapTestPool nTxSigOps nTxFees)
          | _, _ => none

/-- The loop of `CreateNewBlock`. Every round takes one transaction off the queue and each
candidate is put there once, so the fuel is their number. -/
def collectTxs (nCoinBaseTime : UInt32) : Nat → TemplateState → Option TemplateState
  | 0, st => some st
  | fuel + 1, st =>
      match st.vecPriority with
      | [] => some st
      | first :: others =>
          let i := scores.front st.fSortedByFee (first :: others) % (others.length + 1)
          let tx := (first :: others).getD i first
          match considerTx env options scores s nCoinBaseTime
              { st with vecPriority := (first :: others).eraseIdx i } tx with
          | none => none
          | some st => collectTxs nCoinBaseTime fuel st

/-- The coinbase of a proof-of-stake template. `COINBASE_FLAGS` is never set. -/
def stakeCoinBase (nHeight : Int) : CTransaction where
  nVersion := 1
  nTime := UInt32.ofInt s.nAdjustedTime
  vin := [⟨COutPoint.null, heightScript (Int32.ofInt nHeight), 0xffffffff⟩]
  vout := [⟨0, []⟩]
  nLockTime := 0

/-- `CreateNewBlock` with `fProofOfStake`: the template and `*pFees`. -/
def createNewBlock : Option (CBlock × Int64) :=
  match s.pindexBest with
  | [] => none
  | pindexPrev :: pprev =>
      let coinbase := stakeCoinBase s (pindexPrev.nHeight + 1)
      let found := poolCandidates s (pindexPrev.nHeight + 1)
      let start : TemplateState :=
        { vtx := []
          mapTestPool := ∅
          nBlockSize := 1000
          nBlockSigOps := 100
          nFees := 0
          fSortedByFee := options.nBlockPrioritySize = 0
          vecPriority := (found.filter fun orphan => orphan.setDependsOn.isEmpty).map COrphan.ptx
          vOrphan := found.filter fun orphan => !orphan.setDependsOn.isEmpty }
      match collectTxs env options scores s coinbase.nTime found.length start with
      | none => none
      | some st =>
          let block : CBlock :=
            { nVersion := 6
              hashPrevBlock := pindexPrev.hash
              hashMerkleRoot := 0
              nTime := 0
              nBits := getNextTargetRequired env pindexPrev pprev true
              nNonce := 0
              vtx := coinbase :: st.vtx
              vchBlockSig := [] }
          some ({ block with nTime := blockTimeOn pindexPrev pprev block.getMaxTransactionTime }, st.nFees)

end Template

/-- A `pair<const CWalletTx*, unsigned int>`: an output of a wallet transaction, whose index is
not the one of a null outpoint. -/
structure StakeCoin where
  tx : CTransaction
  n : UInt32
  inRange : n.toNat < tx.vout.length
  real : n ≠ 0xffffffff

/-- `pcoin.first->vout[pcoin.second]`. -/
def StakeCoin.txout (pcoin : StakeCoin) : CTxOut := pcoin.tx.vout.get ⟨pcoin.n.toNat, pcoin.inRange⟩

/-- `COutPoint(pcoin.first->GetHash(), pcoin.second)`. -/
def StakeCoin.prevout (env : Env) (pcoin : StakeCoin) : COutPoint := ⟨env.txHash pcoin.tx, pcoin.n⟩

/-- What `CreateCoinStake` and `SignBlock` take from the wallet and its keys. -/
structure CWallet (CKey : Type) where
  /-- `GetBalance`. -/
  nBalance : Int
  nReserveBalance : Int
  /-- `SelectCoinsForStaking`, the set in its order. -/
  selectCoinsForStaking : Int → UInt32 → List StakeCoin
  /-- `Solver` and `GetKey` for the script of a kernel: its key, and the script that pays to
  its public key. -/
  kernelKey : CScript → Option (CKey × CScript)
  /-- `SignSignature(txFrom, txTo, nIn)`: the `scriptSig` of the input. -/
  signSignature : CTransaction → CTransaction → Nat → Option CScript
  /-- `CKey::Sign`. -/
  sign : CKey → UInt256 → Option (List UInt8)

/-- `nStakeSplitAge`. -/
def nStakeSplitAge : Int := 1 * 24 * 60 * 60

/-- `nStakeCombineThreshold`. -/
def nStakeCombineThreshold : Int64 := 1000 * coin

/-- `nMaxStakeSearchInterval`. -/
def nMaxStakeSearchInterval : Nat := 60

/-- A kernel that `CreateCoinStake` has found: the coin and the block it is in, how many
seconds back, the key and the script of the coinstake's outputs. -/
structure StakeKernelFound (CKey : Type) where
  pcoin : StakeCoin
  block : CBlock
  n : Nat
  key : CKey
  scriptPubKeyOut : CScript

section CoinStake

variable {CKey : Type} (env : Env) (hashes : KernelHash) (wallet : CWallet CKey) (s : Node)

/-- The search back in time from `nTime` at one coin. A kernel whose key is missing ends it. -/
def searchKernel (nBits : UInt32) (block : CBlock) (nTxPrevOffset : UInt32) (pcoin : StakeCoin)
    (nTime : UInt32) : List Nat → Option (StakeKernelFound CKey)
  | [] => none
  | n :: later =>
      match checkStakeKernelHash env hashes s nBits block nTxPrevOffset pcoin.tx pcoin.txout
          (pcoin.prevout env) (nTime - UInt32.ofNat n) with
      | none => searchKernel nBits block nTxPrevOffset pcoin nTime later
      | some _ =>
          (wallet.kernelKey pcoin.txout.scriptPubKey).map fun found => ⟨pcoin, block, n, found.1, found.2⟩

/-- The first loop of `CreateCoinStake`. -/
def findKernel (nBits nTime : UInt32) (nSearchInterval : Int) : List StakeCoin → Option (StakeKernelFound CKey)
  | [] => none
  | pcoin :: setCoins =>
      match s.txdb.fresh.readTxIndex (env.txHash pcoin.tx) with
      | none => findKernel nBits nTime nSearchInterval setCoins
      | some txindex =>
          match s.files.readBlock txindex.pos.nFile txindex.pos.nBlockPos with
          | none => findKernel nBits nTime nSearchInterval setCoins
          | some block =>
              if (nTime - UInt32.ofNat nMaxStakeSearchInterval).toNat < block.getBlockTime + env.nStakeMinAge then
                findKernel nBits nTime nSearchInterval setCoins
              else
                match searchKernel env hashes wallet s nBits block (txindex.pos.nTxPos - txindex.pos.nBlockPos)
                    pcoin nTime (List.range (min nSearchInterval nMaxStakeSearchInterval).toNat) with
                | none => findKernel nBits nTime nSearchInterval setCoins
                | some kernel => some kernel

/-- The second loop of `CreateCoinStake`: further inputs of the kernel's key, while they are
small. -/
def addStakeInputs (kernel : StakeKernelFound CKey) (nTime : UInt32) (fSingle : Bool) (nLimit : Int) :
    List StakeCoin → List StakeCoin → Int64 → List StakeCoin × Int64
  | [], vwtxPrev, nCredit => (vwtxPrev, nCredit)
  | pcoin :: setCoins, vwtxPrev, nCredit =>
      if fSingle && (pcoin.txout.scriptPubKey = kernel.pcoin.txout.scriptPubKey ||
            pcoin.txout.scriptPubKey = kernel.scriptPubKeyOut) &&
          decide (env.txHash pcoin.tx ≠ env.txHash kernel.pcoin.tx) then
        if 100 ≤ vwtxPrev.length then (vwtxPrev, nCredit)
        else if nStakeCombineThreshold ≤ nCredit then (vwtxPrev, nCredit)
        else if nLimit < (nCredit + pcoin.txout.nValue).toInt then (vwtxPrev, nCredit)
        else if nStakeCombineThreshold ≤ pcoin.txout.nValue then
          addStakeInputs kernel nTime fSingle nLimit setCoins vwtxPrev nCredit
        else if getWeight env pcoin.tx.nTime.toNat nTime.toNat < env.nStakeMinAge then
          addStakeInputs kernel nTime fSingle nLimit setCoins vwtxPrev nCredit
        else addStakeInputs kernel nTime fSingle nLimit setCoins (vwtxPrev ++ [pcoin]) (nCredit + pcoin.txout.nValue)
      else addStakeInputs kernel nTime fSingle nLimit setCoins vwtxPrev nCredit

/-- The output amounts of `CreateCoinStake`. -/
def stakeOutputs (scriptPubKeyOut : CScript) (fSplit : Bool) (nCredit : Int64) : List CTxOut :=
  if fSplit then
    let nFirst := nCredit / 2 / cent * cent
    [⟨0, []⟩, ⟨nFirst, scriptPubKeyOut⟩, ⟨nCredit - nFirst, scriptPubKeyOut⟩]
  else [⟨0, []⟩, ⟨nCredit, scriptPubKeyOut⟩]

/-- The signing loop of `CreateCoinStake`, from input `nIn`. -/
def signInputs : Nat → List StakeCoin → CTransaction → Option CTransaction
  | _, [], txNew => some txNew
  | nIn, pcoin :: rest, txNew =>
      match wallet.signSignature pcoin.tx txNew nIn with
      | none => none
      | some scriptSig =>
          signInputs (nIn + 1) rest
            { txNew with vin := txNew.vin.modify nIn fun txin => { txin with scriptSig := scriptSig } }

/-- `CWallet::CreateCoinStake` for a transaction with the time `nTime`. -/
def createCoinStake (nBits nTime : UInt32) (nSearchInterval : Int) (nFees : Int64) : Option (CTransaction × CKey) :=
  if wallet.nBalance ≤ wallet.nReserveBalance then none
  else
    let nLimit := min wallet.nBalance (Int64.maxValue.toInt - coin.toInt) - wallet.nReserveBalance
    let setCoins := wallet.selectCoinsForStaking nLimit nTime
    match findKernel env hashes wallet s nBits nTime nSearchInterval setCoins with
    | none => none
    | some kernel =>
        let nTime := nTime - UInt32.ofNat kernel.n
        let nCredit := kernel.pcoin.txout.nValue
        let fSplit := decide (getWeight env kernel.block.getBlockTime nTime.toNat < nStakeSplitAge)
        if nCredit = 0 ∨ nLimit < nCredit.toInt then none
        else
          let (vwtxPrev, nCredit) :=
            addStakeInputs env kernel nTime (!fSplit) nLimit setCoins [kernel.pcoin] nCredit
          let txNew : CTransaction :=
            { nVersion := 1
              nTime := nTime
              vin := vwtxPrev.map fun pcoin => ⟨pcoin.prevout env, [], 0xffffffff⟩
              vout := stakeOutputs kernel.scriptPubKeyOut fSplit 0
              nLockTime := 0 }
          match txNew.getCoinAge env (s.withTxdb s.txdb.fresh) with
          | none => none
          | some nCoinAge =>
              let nReward := getProofOfStakeReward nCoinAge.toInt64 nFees
              if nReward ≤ 0 then none
              else
                match signInputs wallet 0 vwtxPrev
                    { txNew with vout := stakeOutputs kernel.scriptPubKeyOut fSplit (nCredit + nReward) } with
                | none => none
                | some txNew =>
                    if maxBlockSizeGen / 5 ≤ txNew.getSerializeSize then none else some (txNew, kernel.key)

/-- `CBlock::SignBlock`: the block, if it returns true. `nLastCoinStakeSearchTime` is static in
the source. -/
def signBlock (nLastCoinStakeSearchTime : Int) (nFees : Int64) (block : CBlock) : Option CBlock :=
  match block.vtx, s.pindexBest with
  | coinbase :: vtx, pindexBest :: pprev =>
      if !(coinbase.vout.head?.any CTxOut.isEmpty) then none
      else if block.isProofOfStake then some block
      else
        let nSearchTime := UInt32.ofInt s.nAdjustedTime
        if nSearchTime.toNat ≤ nLastCoinStakeSearchTime then none
        else
          match createCoinStake env hashes wallet s block.nBits nSearchTime
              (nSearchTime.toNat - nLastCoinStakeSearchTime) nFees with
          | none => none
          | some (txCoinStake, key) =>
              if txCoinStake.nTime.toNat <
                  max (getMedianTimePast (pindexBest :: pprev) + 1) (pastDrift pindexBest.getBlockTime) then none
              else
                let block := { block with vtx := { coinbase with nTime := txCoinStake.nTime } :: vtx }
                let nTime := blockTimeOn pindexBest pprev block.getMaxTransactionTime
                match block.vtx.filter fun tx => tx.nTime ≤ nTime with
                | [] => none
                | first :: others =>
                    let block := { block with nTime := nTime, vtx := first :: txCoinStake :: others }
                    let block := { block with hashMerkleRoot := block.buildMerkleTree env }
                    (wallet.sign key (block.getHash env)).map fun vchBlockSig =>
                      { block with vchBlockSig := vchBlockSig }
  | _, _ => none

end CoinStake

end InfiniteRicks
