import InfiniteRicks.Block
import InfiniteRicks.Library.WriteBatch

/-!
# The transaction database

`CTxDB` over LevelDB (`txdb-leveldb.h`, `txdb-leveldb.cpp`). The store is an
exact key-value map; while a batch is active, writes and erases are queued in it
and reads search it first. `CTxDB.view` is the database with the pending batch
applied, and `read_eq_view` connects the code's search to it, so that every later
proof speaks about `view` only.
-/

namespace InfiniteRicks

open Library

/-- `CTxIndex`: where a transaction is stored, and for each output the position of
the transaction that spends it (null while unspent). -/
structure CTxIndex where
  pos : CDiskTxPos
  vSpent : List CDiskTxPos
deriving DecidableEq

/-- `CTxIndex(posIn, nOutputs)`. -/
def CTxIndex.new (pos : CDiskTxPos) (nOutputs : Nat) : CTxIndex :=
  ⟨pos, List.replicate nOutputs CDiskTxPos.null⟩

/-- `CDiskBlockIndex`: the stored form of a block-index entry. -/
structure CDiskBlockIndex where
  index : CBlockIndex
  nMint : Int64
  nMoneySupply : Int
  hashPrev : UInt256
  hashNext : UInt256

/-- The keys the modelled code writes. -/
inductive DbKey where
  | tx (hash : UInt256)
  | blockIndex (hash : UInt256)
  | hashBestChain
  | bnBestInvalidTrust
deriving DecidableEq

/-- The serialized records. Reading a record of another kind fails to
unserialize. -/
inductive DbValue where
  | txIndex (txindex : CTxIndex)
  | blockIndex (blockindex : CDiskBlockIndex)
  | hash (hash : UInt256)
  | trust (trust : UInt256)

/-- `CTxDB`: the shared store and this handle's batch. `writeStatus` is the status
LevelDB returns for the `n`-th batch written; a batch that fails leaves the store
as it was. -/
structure CTxDB where
  pdb : DbKey → Option DbValue
  activeBatch : Option (List (WriteBatch.Op DbKey DbValue))
  writeStatus : Nat → Bool
  nBatches : Nat

namespace CTxDB

/-- `CTxDB::Read` up to unserialization. -/
def read (txdb : CTxDB) (key : DbKey) : Option DbValue :=
  match txdb.activeBatch with
  | none => txdb.pdb key
  | some batch =>
      match WriteBatch.scan key batch none with
      | some found => found
      | none => txdb.pdb key

/-- `CTxDB::Write`. -/
def write (txdb : CTxDB) (key : DbKey) (value : DbValue) : CTxDB :=
  match txdb.activeBatch with
  | some batch => { txdb with activeBatch := some (batch ++ [.put key value]) }
  | none => { txdb with pdb := Function.update txdb.pdb key (some value) }

/-- `CTxDB::Erase`. -/
def erase (txdb : CTxDB) (key : DbKey) : CTxDB :=
  match txdb.activeBatch with
  | some batch => { txdb with activeBatch := some (batch ++ [.delete key]) }
  | none => { txdb with pdb := Function.update txdb.pdb key none }

/-- `CTxDB::Exists`. A key that the batch deletes is looked up in the store. -/
def existsKey (txdb : CTxDB) (key : DbKey) : Bool :=
  match txdb.activeBatch with
  | some batch =>
      match WriteBatch.scan key batch none with
      | some (some _) => true
      | _ => (txdb.pdb key).isSome
  | none => (txdb.pdb key).isSome

/-- `CTxDB::TxnBegin`; `assert(!activeBatch)` is the caller's obligation. -/
def txnBegin (txdb : CTxDB) : CTxDB := { txdb with activeBatch := some [] }

/-- `CTxDB::TxnAbort`. -/
def txnAbort (txdb : CTxDB) : CTxDB := { txdb with activeBatch := none }

/-- `CTxDB::TxnCommit`: the status and the database afterwards. -/
def txnCommit (txdb : CTxDB) : Bool × CTxDB :=
  let ok := txdb.writeStatus txdb.nBatches
  let pdb := if ok then WriteBatch.replay txdb.pdb (txdb.activeBatch.getD []) else txdb.pdb
  (ok, { txdb with pdb := pdb, activeBatch := none, nBatches := txdb.nBatches + 1 })

/-- A second handle on the same store, as `CTxDB()` and `CTxDB("r")` make one. -/
def fresh (txdb : CTxDB) : CTxDB := { txdb with activeBatch := none }

/-- `CTxDB::ReadTxIndex`. -/
def readTxIndex (txdb : CTxDB) (hash : UInt256) : Option CTxIndex :=
  match txdb.read (.tx hash) with
  | some (.txIndex txindex) => some txindex
  | _ => none

/-- `CTxDB::UpdateTxIndex`. -/
def updateTxIndex (txdb : CTxDB) (hash : UInt256) (txindex : CTxIndex) : CTxDB :=
  txdb.write (.tx hash) (.txIndex txindex)

/-- `CTxDB::EraseTxIndex`. -/
def eraseTxIndex (txdb : CTxDB) (hash : UInt256) : CTxDB := txdb.erase (.tx hash)

/-- `CTxDB::ContainsTx`. -/
def containsTx (txdb : CTxDB) (hash : UInt256) : Bool := txdb.existsKey (.tx hash)

/-- `CTxDB::WriteBlockIndex`. -/
def writeBlockIndex (txdb : CTxDB) (blockindex : CDiskBlockIndex) : CTxDB :=
  txdb.write (.blockIndex blockindex.index.hash) (.blockIndex blockindex)

/-- `CTxDB::ReadHashBestChain`. -/
def readHashBestChain (txdb : CTxDB) : Option UInt256 :=
  match txdb.read .hashBestChain with
  | some (.hash hash) => some hash
  | _ => none

/-- `CTxDB::WriteHashBestChain`. -/
def writeHashBestChain (txdb : CTxDB) (hash : UInt256) : CTxDB := txdb.write .hashBestChain (.hash hash)

/-- `CTxDB::WriteBestInvalidTrust`. -/
def writeBestInvalidTrust (txdb : CTxDB) (trust : UInt256) : CTxDB :=
  txdb.write .bnBestInvalidTrust (.trust trust)

/-- The database with the pending batch applied. -/
def view (txdb : CTxDB) : DbKey → Option DbValue :=
  WriteBatch.replay txdb.pdb (txdb.activeBatch.getD [])

/-- The transaction-index part of the view. -/
def txIndex (txdb : CTxDB) : UInt256 → Option CTxIndex := fun hash => txdb.readTxIndex hash

theorem read_eq_view (txdb : CTxDB) (key : DbKey) : txdb.read key = txdb.view key := by
  unfold read view
  cases txdb.activeBatch with
  | none => rfl
  | some batch =>
      have replayed := WriteBatch.replay_apply txdb.pdb batch key
      cases scanned : WriteBatch.scan key batch none with
      | none => simpa [scanned] using replayed
      | some found => simpa [scanned] using replayed

theorem view_write (txdb : CTxDB) (key : DbKey) (value : DbValue) :
    (txdb.write key value).view = Function.update txdb.view key (some value) := by
  unfold write view
  cases txdb.activeBatch <;> simp

theorem view_erase (txdb : CTxDB) (key : DbKey) :
    (txdb.erase key).view = Function.update txdb.view key none := by
  unfold erase view
  cases txdb.activeBatch <;> simp

/-- A view without a batch is the store. -/
theorem view_of_no_batch {txdb : CTxDB} (idle : txdb.activeBatch = none) : txdb.view = txdb.pdb := by
  simp [view, idle]

@[simp] theorem view_txnBegin (txdb : CTxDB) : txdb.txnBegin.view = txdb.pdb := rfl

/-- The record kind that `ReadTxIndex` unserializes. -/
def txIndexOf : Option DbValue → Option CTxIndex
  | some (.txIndex txindex) => some txindex
  | _ => none

theorem txIndex_eq (txdb : CTxDB) (hash : UInt256) :
    txdb.txIndex hash = txIndexOf (txdb.view (.tx hash)) := by
  simp only [txIndex, readTxIndex, read_eq_view]
  rfl

@[simp] theorem txIndex_updateTxIndex (txdb : CTxDB) (hash : UInt256) (txindex : CTxIndex) :
    (txdb.updateTxIndex hash txindex).txIndex = Function.update txdb.txIndex hash (some txindex) := by
  funext other
  rw [txIndex_eq, updateTxIndex, view_write]
  by_cases same : other = hash
  · subst same
    simp [txIndexOf]
  · rw [Function.update_of_ne same, Function.update_of_ne (by simpa using same), txIndex_eq]

@[simp] theorem txIndex_eraseTxIndex (txdb : CTxDB) (hash : UInt256) :
    (txdb.eraseTxIndex hash).txIndex = Function.update txdb.txIndex hash none := by
  funext other
  rw [txIndex_eq, eraseTxIndex, view_erase]
  by_cases same : other = hash
  · subst same
    simp [txIndexOf]
  · rw [Function.update_of_ne same, Function.update_of_ne (by simpa using same), txIndex_eq]

/-- Writing a record that is not a transaction's leaves the transaction index alone. -/
theorem txIndex_write_of_ne {txdb : CTxDB} {key : DbKey} {value : DbValue}
    (other : ∀ hash, key ≠ .tx hash) : (txdb.write key value).txIndex = txdb.txIndex := by
  funext hash
  rw [txIndex_eq, view_write, Function.update_of_ne (other hash).symm, txIndex_eq]

@[simp] theorem txIndex_writeBlockIndex (txdb : CTxDB) (blockindex : CDiskBlockIndex) :
    (txdb.writeBlockIndex blockindex).txIndex = txdb.txIndex :=
  txIndex_write_of_ne (by simp)

/-- While a batch is active, the second database has only queued more operations
than the first. -/
def Queues (before after : CTxDB) : Prop :=
  ∀ batch, before.activeBatch = some batch →
    ∃ more, after = { before with activeBatch := some (batch ++ more) }

theorem Queues.refl (txdb : CTxDB) : Queues txdb txdb := by
  intro batch active
  refine ⟨[], ?_⟩
  cases txdb
  simp_all

theorem Queues.trans {first second third : CTxDB} (left : Queues first second)
    (right : Queues second third) : Queues first third := by
  intro batch active
  obtain ⟨more, rfl⟩ := left batch active
  obtain ⟨rest, rfl⟩ := right (batch ++ more) rfl
  exact ⟨more ++ rest, by simp [List.append_assoc]⟩

theorem queues_write (txdb : CTxDB) (key : DbKey) (value : DbValue) :
    Queues txdb (txdb.write key value) := by
  intro batch active
  exact ⟨[.put key value], by simp [write, active]⟩

theorem queues_erase (txdb : CTxDB) (key : DbKey) : Queues txdb (txdb.erase key) := by
  intro batch active
  exact ⟨[.delete key], by simp [erase, active]⟩

end CTxDB

end InfiniteRicks
