import InfiniteRicks.MinerSpec
import InfiniteRicks.PoolSupport
import InfiniteRicks.WalletCoins

/-!
# What a block template promises

`CreateNewBlock` (`miner.cpp`) for either kind of block: the selection of pool transactions is one loop, and only the
proof-of-stake template has the time of its coinbase as a limit. What the selection is for is said without the loop:
each transaction once, parents first, no output spent twice, the limits on size and signature operations, the exact
fees, and `FetchInputs` and `ConnectInputs` in block order.
-/

namespace InfiniteRicks

open Ledger

section Model

variable (env : Env) (options : MinerOptions) (scores : TxScores) (s : Node)

/-- The loop variables of `CreateNewBlock` before the first round. -/
def startTemplate (nHeight : Int) : TemplateState :=
  let found := poolCandidates s nHeight
  { vtx := []
    mapTestPool := ∅
    nBlockSize := 1000
    nBlockSigOps := 100
    nFees := 0
    fSortedByFee := options.nBlockPrioritySize = 0
    vecPriority := (found.filter fun orphan => orphan.setDependsOn.isEmpty).map COrphan.ptx
    vOrphan := found.filter fun orphan => !orphan.setDependsOn.isEmpty }

/-- The loop of `CreateNewBlock` over the pool. -/
def selectTxs (nHeight : Int) (nCoinBaseTime : UInt32) : Option TemplateState :=
  collectTxs env options scores s nCoinBaseTime (poolCandidates s nHeight).length (startTemplate options s nHeight)

/-- The coinbase of a proof-of-work template, before its value is known. -/
def workCoinBase (id : BitVec 160) : CTransaction where
  nVersion := 1
  nTime := UInt32.ofInt s.nAdjustedTime
  vin := [⟨COutPoint.null, [], 0xffffffff⟩]
  vout := [⟨-1, CScript.payToKeyID id⟩]
  nLockTime := 0

/-- `CreateNewBlock` without `fProofOfStake`, for the key that `GetReservedKey` gives. No transaction is later than
the limit of 32 bits. -/
def createWorkBlock (reservedKey : Option (BitVec 160)) : Option (CBlock × Int64) :=
  match s.pindexBest, reservedKey with
  | pindexPrev :: pprev, some id =>
      match selectTxs env options scores s (pindexPrev.nHeight + 1) 0xffffffff with
      | none => none
      | some st =>
          let coinbase := { workCoinBase s id with
            vout := [⟨getProofOfWorkReward st.nFees, CScript.payToKeyID id⟩] }
          let block : CBlock :=
            { nVersion := 6
              hashPrevBlock := pindexPrev.hash
              hashMerkleRoot := 0
              nTime := 0
              nBits := getNextTargetRequired env pindexPrev pprev false
              nNonce := 0
              vtx := coinbase :: st.vtx
              vchBlockSig := [] }
          let nTime := blockTimeOn pindexPrev pprev block.getMaxTransactionTime
          some ({ block with nTime := UInt32.ofInt (max nTime.toNat s.nAdjustedTime) }, st.nFees)
  | _, _ => none

/-- `CreateNewBlock`. -/
def createTemplate (fProofOfStake : Bool) (reservedKey : Option (BitVec 160)) : Option (CBlock × Int64) :=
  if fProofOfStake then createNewBlock env options scores s else createWorkBlock env options scores s reservedKey

/-- `FetchInputs` and `ConnectInputs` of transactions in their order, on the index of the node, with the new entry of
each. -/
def replayInputs (fBlock fMiner : Bool) : List CTransaction → QueuedChanges → Option QueuedChanges
  | [], mapTestPool => some mapTestPool
  | tx :: rest, mapTestPool =>
      match tx.fetchInputs s s.txdb.fresh mapTestPool fBlock fMiner with
      | .error _ => none
      | .ok mapInputs =>
          match tx.connectInputs env s.nBestHeight mapInputs mapTestPool CDiskTxPos.memoryPool s.pindexBest fBlock
              fMiner with
          | none => none
          | some mapTestPool =>
              replayInputs fBlock fMiner rest
                (mapTestPool.insert (env.txHash tx) (CTxIndex.new CDiskTxPos.memoryPool tx.vout.length))

end Model

/-- The transactions of a template with the position of transactions in memory. -/
def templateEntries (vtx : List CTransaction) : TxHistory := vtx.map fun tx => (tx, CDiskTxPos.memoryPool)

/-- The signature operations that count for a transaction: its own and those of the scripts it redeems. -/
def countedSigOps (s : Node) (index : TxIndexMap) (tx : CTransaction) : Nat :=
  tx.getLegacySigOpCount + (tx.vin.map fun txin =>
    match prevOut s index txin.prevout with
    | none => 0
    | some prevout =>
        if CScript.isPayToScriptHash prevout.scriptPubKey then
          CScript.getSigOpCountFor prevout.scriptPubKey txin.scriptSig
        else 0).sum

/-- The signature operations of transactions, each against the index of its turn. -/
def sigOpsOf (env : Env) (s : Node) : TxIndexMap → TxHistory → Nat
  | _, [] => 0
  | index, (tx, pos) :: rest => countedSigOps s index tx + sigOpsOf env s (applyTx env index tx pos) rest

/-- What transactions leave of their inputs, each against the index of its turn. -/
def paidFees (env : Env) (s : Node) (vtx : List CTransaction) : Int :=
  -created env s (fun _ => true) s.txdb.fresh.txIndex (templateEntries vtx)

/-- The transactions of a template connect, within its limits, and leave its fees. -/
structure Connects (env : Env) (options : MinerOptions) (s : Node) (vtx : List CTransaction) (nFees : Int64) :
    Prop where
  once : (vtx.map env.txHash).Nodup
  parentsFirst : vtx.Pairwise fun earlier later => ∀ txin ∈ earlier.vin, txin.prevout.hash ≠ env.txHash later
  spentOnce : (vtx.flatMap fun tx => tx.vin.map CTxIn.prevout).Nodup
  size : vtx ≠ [] → (vtx.map CTransaction.getSerializeSize).sum + 1000 < options.nBlockMaxSize
  sigOps : 100 + sigOpsOf env s s.txdb.fresh.txIndex (templateEntries vtx) < maxBlockSigOps
  fees : nFees = Int64.ofInt (paidFees env s vtx)
  exactFees : paidFees env s vtx < 2 ^ 63 → nFees.toInt = paidFees env s vtx
  replays : ∀ fBlock, (replayInputs env s fBlock (!fBlock) vtx ∅).isSome = true

/-- A node as other code leaves it: its pool has checked transactions under their ids and no coinbases, each input of
them unspent in the index or an output of another pool transaction; the index is that of the connected transactions. -/
structure MinerState (env : Env) (Known : CTransaction → Prop) (rank : CTransaction → Nat) (s : Node)
    (history : TxHistory) : Prop where
  family : TxUniverse env Known rank
  keyed : ∀ {hash tx}, s.mempool.mapTx.lookup hash = some tx →
    env.txHash tx = hash ∧ Known tx ∧ tx.checkTransaction = true ∧ tx.isCoinBase = false
  spendable : PoolSpendable s
  valid : Valid env history
  known : ∀ entry ∈ history, Known entry.1
  indexed : s.txdb.fresh.txIndex = replay env history

end InfiniteRicks
