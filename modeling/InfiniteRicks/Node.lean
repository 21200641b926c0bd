import InfiniteRicks.Mempool
import InfiniteRicks.TxDb

/-!
# Node state

The globals of `main.cpp` that block connection and chain selection read and
write, as one record. The mutable fields of a block-index entry (`pnext`, `nMint`,
`nMoneySupply`) are maps keyed by block hash, because a `BlockPtr` is a value.
-/

namespace InfiniteRicks

/-- The block files, as far as they can be read back: the transaction at a
position, and the block at a file offset. -/
structure BlockFiles where
  readTx : CDiskTxPos → Option CTransaction
  readBlock : UInt32 → UInt32 → Option CBlock

/-- One call of `SyncWithWallets(tx, pblock, fUpdate, fConnect)`. -/
structure WalletNotice where
  tx : CTransaction
  pblock : CBlock
  fUpdate : Bool
  fConnect : Bool
deriving DecidableEq

/-- The global state of the node. -/
structure Node where
  mapBlockIndex : UInt256 → Option BlockPtr
  pnext : UInt256 → Option UInt256
  nMint : UInt256 → Int64
  nMoneySupply : UInt256 → Int
  setStakeSeen : List (COutPoint × UInt32)
  pindexGenesisBlock : BlockPtr
  pindexBest : BlockPtr
  pblockindexFBBHLast : BlockPtr
  hashBestChain : UInt256
  nBestHeight : Int
  nBestChainTrust : UInt256
  nBestInvalidTrust : UInt256
  txdb : CTxDB
  files : BlockFiles
  mempool : CTxMemPool
  /-- Every `SyncWithWallets` call so far, oldest first. -/
  walletLog : List WalletNotice
  /-- `GetAdjustedTime()`. -/
  nAdjustedTime : Int

namespace Node

/-- The node before its first block, with an empty database. -/
def initial (files : BlockFiles) (writeStatus : Nat → Bool) (nAdjustedTime : Int) : Node where
  mapBlockIndex _ := none
  pnext _ := none
  nMint _ := 0
  nMoneySupply _ := 0
  setStakeSeen := []
  pindexGenesisBlock := []
  pindexBest := []
  pblockindexFBBHLast := []
  hashBestChain := 0
  nBestHeight := -1
  nBestChainTrust := 0
  nBestInvalidTrust := 0
  txdb := ⟨fun _ => none, none, writeStatus, 0⟩
  files := files
  mempool := CTxMemPool.empty
  walletLog := []
  nAdjustedTime := nAdjustedTime

/-- Change only the transaction database. -/
def withTxdb (s : Node) (txdb : CTxDB) : Node := { s with txdb := txdb }

/-- `CBlock::ReadFromDisk(nFile, nBlockPos)` with transactions: the header of a
proof-of-work block is checked again. -/
def readBlockAt (env : Env) (s : Node) (nFile nBlockPos : UInt32) : Option CBlock :=
  match s.files.readBlock nFile nBlockPos with
  | none => none
  | some block =>
      if block.isProofOfWork && !checkProofOfWork env (block.getHash env) block.nBits then none
      else some block

/-- `CBlock::ReadFromDisk(pindex)`. -/
def readFromDisk (env : Env) (s : Node) (pindex : CBlockIndex) : Option CBlock :=
  match s.readBlockAt env pindex.nFile pindex.nBlockPos with
  | none => none
  | some block => if block.getHash env = pindex.hash then some block else none

end Node

/-- `CDiskBlockIndex(pindex)` with the links and sums the entry has now. -/
def diskBlockIndex (s : Node) (pindex : CBlockIndex) (pprev : BlockPtr) : CDiskBlockIndex where
  index := pindex
  nMint := s.nMint pindex.hash
  nMoneySupply := s.nMoneySupply pindex.hash
  hashPrev := (pprev.head?.map CBlockIndex.hash).getD 0
  hashNext := (s.pnext pindex.hash).getD 0

end InfiniteRicks
