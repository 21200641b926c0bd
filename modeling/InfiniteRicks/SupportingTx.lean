import InfiniteRicks.Depth
import InfiniteRicks.Library.WorkQueue
import InfiniteRicks.Merkle
import InfiniteRicks.WalletRecord

/-!
# Supporting transactions

`CMerkleTx::SetMerkleBranch` (`main.cpp`), `CWalletTx::AddSupportingTransactions` (`wallet.cpp`), and the
two functions that walk the list `vtxPrev` that it leaves: `AcceptWalletTransaction` (`main.cpp`) and
`RelayWalletTransaction` (`wallet.cpp`).
-/

namespace InfiniteRicks

open Library

/-- `CTxDB::ReadDiskTx`, with a handle that is opened for it. -/
def Node.readDiskTx (s : Node) (hash : UInt256) : Option CTransaction :=
  (s.txdb.fresh.readTxIndex hash).bind fun txindex => s.files.readTx txindex.pos

namespace CMerkleTx

/-- `CMerkleTx(txIn)`. -/
def new (tx : CTransaction) : CMerkleTx := ⟨tx, 0, [], -1⟩

/-- `SetMerkleBranch()` without a block: the transaction with what was found, and its depth. -/
def setMerkleBranch (env : Env) (s : Node) (merkle : CMerkleTx) : CMerkleTx × Int :=
  match s.txdb.fresh.readTxIndex (env.txHash merkle.tx) with
  | none => (merkle, 0)
  | some txindex =>
      match s.readBlockAt env txindex.pos.nFile txindex.pos.nBlockPos with
      | none => (merkle, 0)
      | some block =>
          let hashBlock := block.getHash env
          match block.vtx.findIdx? (fun tx => decide (tx = merkle.tx)) with
          | none => (⟨merkle.tx, hashBlock, [], -1⟩, 0)
          | some nIndex =>
              (⟨merkle.tx, hashBlock, block.getMerkleBranch env nIndex, Int32.ofNat nIndex⟩,
                match s.mapBlockIndex hashBlock with
                | none => 0
                | some pindex =>
                    if isInMainChain s pindex then heightOf s.pindexBest - heightOf pindex + 1 else 0)

end CMerkleTx

/-- The hashes of the transactions that the inputs spend from. -/
def CTransaction.prevHashes (tx : CTransaction) : List UInt256 := tx.vin.map fun txin => txin.prevout.hash

/-- Where supporting transactions are looked for. The wallet and the database keep each transaction under
its hash. -/
structure SupportSources (env : Env) where
  node : Node
  mapWallet : UInt256 → Option CWalletTxRecord
  wallet_keyed : ∀ {hash wtx}, mapWallet hash = some wtx → env.txHash wtx.merkle.tx = hash
  disk_keyed : ∀ {hash tx}, node.readDiskTx hash = some tx → env.txHash tx = hash

/-- The list, in the order of the loop, and `mapWalletPrev`. -/
structure SupportState where
  vtxPrev : List CMerkleTx
  mapWalletPrev : UInt256 → Option CMerkleTx

def SupportState.initial : SupportState := ⟨[], fun _ => none⟩

/-- `COPY_DEPTH`. -/
def copyDepth : Int := 3

namespace SupportSources

variable {env : Env} (sources : SupportSources env)

/-- `SetMerkleBranch` of a transaction, as far as the depth goes. -/
def depth (tx : CTransaction) : Int := ((CMerkleTx.new tx).setMerkleBranch env sources.node).2

/-- `mapWalletPrev[txWalletPrev.GetHash()] = &txWalletPrev` for a list of transactions. -/
def remember (env : Env) (mapWalletPrev : UInt256 → Option CMerkleTx) (vtxPrev : List CMerkleTx) :
    UInt256 → Option CMerkleTx :=
  vtxPrev.foldl (fun known prev => Function.update known (env.txHash prev.tx) (some prev)) mapWalletPrev

/-- The transaction with a hash, from the first of the three sources that has it, and `mapWalletPrev`
afterwards. -/
def lookUp (mapWalletPrev : UInt256 → Option CMerkleTx) (hash : UInt256) :
    Option CMerkleTx × (UInt256 → Option CMerkleTx) :=
  match sources.mapWallet hash with
  | some wtx => (some wtx.merkle, remember env mapWalletPrev wtx.vtxPrev)
  | none =>
      match mapWalletPrev hash with
      | some prev => (some prev, mapWalletPrev)
      | none => ((sources.node.readDiskTx hash).map CMerkleTx.new, mapWalletPrev)

/-- The body of the loop for a hash that is not done, and the hashes that it appends to the queue. -/
def visit (state : SupportState) (hash : UInt256) : SupportState × List UInt256 :=
  match sources.lookUp state.mapWalletPrev hash with
  | (none, mapWalletPrev) => (⟨state.vtxPrev, mapWalletPrev⟩, [])
  | (some tx, mapWalletPrev) =>
      let placed := tx.setMerkleBranch env sources.node
      (⟨state.vtxPrev ++ [placed.1], mapWalletPrev⟩, if placed.2 < copyDepth then tx.tx.prevHashes else [])

/-- `AddSupportingTransactions`. -/
def addSupportingTransactions (wtx : CWalletTxRecord) : CWalletTxRecord :=
  let placed := wtx.merkle.setMerkleBranch env sources.node
  let found :=
    if placed.2 < copyDepth then
      (WorkQueue.explore sources.visit wtx.merkle.tx.prevHashes ∅ SupportState.initial).vtxPrev
    else []
  { wtx with merkle := placed.1, vtxPrev := found.reverse }

end SupportSources

/-- A transaction that is generated is neither accepted nor relayed. -/
abbrev CTransaction.Generated (tx : CTransaction) : Prop := tx.isCoinBase = true ∨ tx.isCoinStake = true

namespace CWalletTxRecord

variable (env : Env) (policy : Policy)

/-- The loop of `AcceptWalletTransaction`: the transactions that it submits to the memory pool, and the node
afterwards. -/
def acceptSupporting : Node → List CMerkleTx → List CTransaction × Node
  | s, [] => ([], s)
  | s, prev :: vtxPrev =>
      if prev.tx.Generated then acceptSupporting s vtxPrev
      else if s.mempool.contains (env.txHash prev.tx) = false ∧ s.txdb.containsTx (env.txHash prev.tx) = false then
        let rest := acceptSupporting (resurrect env policy s prev.tx) vtxPrev
        (prev.tx :: rest.1, rest.2)
      else acceptSupporting s vtxPrev

/-- `AcceptWalletTransaction`: the transactions that it submits, and whether the last one is accepted. -/
def acceptWalletTransaction (s : Node) (wtx : CWalletTxRecord) : List CTransaction × Bool :=
  let supporting := acceptSupporting env policy s wtx.vtxPrev
  (supporting.1 ++ [wtx.merkle.tx], (acceptToMemoryPool env policy supporting.2 wtx.merkle.tx).isSome)

/-- What `RelayWalletTransaction` relays of some transactions. -/
def relayed (txdb : CTxDB) (txs : List CTransaction) : List CTransaction :=
  txs.filter fun tx => !(tx.isCoinBase || tx.isCoinStake) && !txdb.containsTx (env.txHash tx)

/-- `RelayWalletTransaction`. -/
def relayWalletTransaction (txdb : CTxDB) (wtx : CWalletTxRecord) : List CTransaction :=
  relayed env txdb (wtx.vtxPrev.map CMerkleTx.tx) ++ relayed env txdb [wtx.merkle.tx]

end CWalletTxRecord

end InfiniteRicks
