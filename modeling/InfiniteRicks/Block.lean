import InfiniteRicks.BigNum
import InfiniteRicks.Transaction

/-!
# Blocks, block-index entries and the context-free block rules

`CBlock`, `CBlockIndex` and `CBlock::CheckBlock`. What the block rules take from
code that is not modelled here (hash functions, script verification, the block
signature, relay policy) is collected in `Env`; every theorem holds for all of
its values unless it names a hypothesis about them.
-/

namespace InfiniteRicks

/-- The eighty header bytes that `GetPoWHash` hashes. -/
structure CBlockHeader where
  nVersion : Int32
  hashPrevBlock : UInt256
  hashMerkleRoot : UInt256
  nTime : UInt32
  nBits : UInt32
  nNonce : UInt32
deriving DecidableEq, Repr

/-- `CBlock`: a header, the transactions and the block signature. -/
structure CBlock extends CBlockHeader where
  vtx : List CTransaction
  vchBlockSig : List UInt8
deriving DecidableEq, Repr

/-- `CDiskTxPos`, a position in the block files. Only `SetNull` writes the file
number `-1` (`OpenBlockFile` refuses it), so a position with that number is the
null position; the field rules every other one out. -/
structure CDiskTxPos where
  nFile : UInt32
  nBlockPos : UInt32
  nTxPos : UInt32
  nullUnique : nFile = 0xffffffff → nBlockPos = 0 ∧ nTxPos = 0
deriving DecidableEq

namespace CDiskTxPos

/-- `CDiskTxPos::SetNull`. -/
def null : CDiskTxPos := ⟨0xffffffff, 0, 0, fun _ => ⟨rfl, rfl⟩⟩

/-- `CDiskTxPos::IsNull`. -/
def isNull (pos : CDiskTxPos) : Bool := pos.nFile = 0xffffffff

/-- `CDiskTxPos(1,1,1)`, the position that means "look in the memory pool". -/
def memoryPool : CDiskTxPos := ⟨1, 1, 1, by decide⟩

theorem isNull_iff {pos : CDiskTxPos} : pos.isNull = true ↔ pos = null := by
  constructor
  · intro isNull
    obtain ⟨nFile, nBlockPos, nTxPos, nullUnique⟩ := pos
    have file : nFile = 0xffffffff := by simpa [CDiskTxPos.isNull] using isNull
    obtain ⟨rfl, rfl⟩ := nullUnique file
    simp [null, file]
  · rintro rfl
    rfl

@[simp] theorem isNull_null : null.isNull = true := rfl

end CDiskTxPos

/-- `CBlockIndex` without its mutable links and sums (`pnext`, `nMint` and
`nMoneySupply` are maps of the node state) and without `pprev` (see `BlockPtr`).
The entry is made after `WriteToDisk`, whose file number `OpenBlockFile` has
accepted. -/
structure CBlockIndex where
  hash : UInt256
  nFile : UInt32
  nBlockPos : UInt32
  nChainTrust : UInt256
  nHeight : Int
  fProofOfStake : Bool
  nStakeEntropyBit : Bool
  fGeneratedStakeModifier : Bool
  nStakeModifier : UInt64
  prevoutStake : COutPoint
  nStakeTime : UInt32
  hashProof : UInt256
  nVersion : Int32
  hashMerkleRoot : UInt256
  nTime : UInt32
  nBits : UInt32
  nNonce : UInt32
  onDisk : nFile ≠ 0xffffffff
deriving DecidableEq

namespace CBlockIndex

/-- `CBlockIndex::GetBlockTime`. -/
def getBlockTime (pindex : CBlockIndex) : Int := pindex.nTime.toNat

/-- `CDiskTxPos(pindex->nFile, pindex->nBlockPos, nTxPos)`. -/
def txPos (pindex : CBlockIndex) (nTxPos : UInt32) : CDiskTxPos :=
  ⟨pindex.nFile, pindex.nBlockPos, nTxPos, fun null => absurd null pindex.onDisk⟩

theorem txPos_not_null (pindex : CBlockIndex) (nTxPos : UInt32) :
    (pindex.txPos nTxPos).isNull = false := by
  simp [txPos, CDiskTxPos.isNull, pindex.onDisk]

/-- `CBlockIndex::GetBlockTrust`. -/
def getBlockTrust (pindex : CBlockIndex) : UInt256 :=
  let bnTarget := CBigNum.setCompact pindex.nBits
  if bnTarget ≤ 0 then 0 else CBigNum.getUInt256 ((2 ^ 256 : Int).tdiv (bnTarget + 1))

end CBlockIndex

/-- A `CBlockIndex*` with everything it reaches through `pprev`: the entry, then
its parent, down to the root. `pprev` links never change, so the pointer is this
list; `NULL` is `[]` and `pindex->pprev` is the tail. -/
abbrev BlockPtr := List CBlockIndex

/-- What the modelled code takes from elsewhere: the network, the hash functions,
and verdicts of code outside the modelled part. -/
structure Env where
  fTestNet : Bool
  /-- `CTransaction::GetHash`. -/
  txHash : CTransaction → UInt256
  /-- `CBlock::GetPoWHash`, which is also `CBlock::GetHash`. -/
  powHash : CBlockHeader → UInt256
  /-- `Hash` of two concatenated hashes. -/
  hashPair : UInt256 → UInt256 → UInt256
  /-- `VerifySignature(txFrom, txTo, nIn, 0)`. -/
  verifySignature : CTransaction → CTransaction → Nat → Bool
  /-- `CBlock::CheckBlockSignature`. -/
  checkBlockSignature : CBlock → Bool

/-- The hash of the genesis block of a network. -/
def genesisHash (fTestNet : Bool) : UInt256 :=
  if fTestNet then 0x0000092a064f16a4a86c69c49084ee58c25858d6b05aea56c2ce8318d3174738
  else 0x0000040917e53132256572dbcd3f780e94d40b4a1895672bfd64e0c5c0741dc8

namespace Env

variable (env : Env)

/-- `hashGenesisBlockTestNet` or `hashGenesisBlock`. -/
def hashGenesisBlock : UInt256 := genesisHash env.fTestNet

/-- `bnProofOfWorkLimit` after `LoadBlockIndex` has chosen the network. -/
def bnProofOfWorkLimit : Int := if env.fTestNet then 2 ^ 240 - 1 else 2 ^ 236 - 1

/-- `bnProofOfStakeLimit`. -/
def bnProofOfStakeLimit : Int := 2 ^ 236 - 1

/-- `nCoinbaseMaturity`. -/
def nCoinbaseMaturity : Int := if env.fTestNet then 10 else 24

/-- `nStakeMinAge`, in seconds. -/
def nStakeMinAge : Int := if env.fTestNet then 60 * 60 else 12 * 60 * 60

end Env

/-- An environment for running the model: a hash is a label that the transaction or
the header carries (zero for the genesis block), and every signature verifies. -/
def Env.labelled (fTestNet : Bool) : Env where
  fTestNet := fTestNet
  txHash tx := BitVec.ofNat 256 tx.nLockTime.toNat
  powHash header :=
    if header.nNonce = 0 then genesisHash fTestNet else BitVec.ofNat 256 header.nNonce.toNat
  hashPair left _ := left
  verifySignature _ _ _ := true
  checkBlockSignature _ := true

/-- The hardened checkpoints of `checkpoints.cpp`. -/
def mapCheckpoints (env : Env) : List (Int × UInt256) :=
  if env.fTestNet then [(0, env.hashGenesisBlock)]
  else
    [(0, env.hashGenesisBlock),
      (3000, 0x000003f9b22486b303619562cc7456fa3bd204a73312785836e9ce55d54bf88a),
      (5720, 0x41bed32902d5f95e1cb9d550008251f86744bb27dd0eb7d6ba377d43198ec228),
      (115000, 0x2c223d88154c9d8cc062ace3d6002288d458e6ff034a2397939540fce7542bad),
      (251106, 0x2410cff3bf2fe8ef1589ecb8965ed1e45c4bfff744912e51a20e5caf288ffdb7),
      (406666, 0xe0ea780adb7dc615b9b7cd4880cb269ea84f8c8e7271d23cbe6f4cfc8fefbeff),
      (690100, 0x2b8edeb5bf938854243a3f49571023708433ca231480cc9e840b690448568a12),
      (851250, 0xb46015acbc8108a3875356b94ca1a62d809cd60ad4da7fb6d808897eb6d29557),
      (1000250, 0x138290a9a09b82ec500116beb5f919a24ff4024e78d77147017f9010dbf88bdd),
      (1330250, 0x9fd3b78d8ee0852ba523d89d39c9edd95357b28b5d49582941e874c4f24e2d67)]

/-- `Checkpoints::CheckHardened`. -/
def checkHardened (env : Env) (nHeight : Int) (hash : UInt256) : Bool :=
  match (mapCheckpoints env).find? (fun checkpoint => checkpoint.1 = nHeight) with
  | none => true
  | some checkpoint => hash = checkpoint.2

/-- `Checkpoints::GetTotalBlocksEstimate`: the last checkpointed height. -/
def getTotalBlocksEstimate (env : Env) : Int :=
  ((mapCheckpoints env).getLast?.map Prod.fst).getD 0

/-- `CheckProofOfWork`. -/
def checkProofOfWork (env : Env) (hash : UInt256) (nBits : UInt32) : Bool :=
  let bnTarget := CBigNum.setCompact nBits
  if bnTarget ≤ 0 ∨ env.bnProofOfWorkLimit < bnTarget then false
  else if CBigNum.getUInt256 bnTarget < hash then false
  else true

/-- `FutureDrift`. -/
def futureDrift (nTime : Int) : Int := nTime + 10 * 60

/-- `CheckCoinStakeTimestamp`. -/
def checkCoinStakeTimestamp (nTimeBlock nTimeTx : Int) : Bool := nTimeBlock = nTimeTx

namespace CBlock

/-- `CBlock::GetHash`. -/
def getHash (env : Env) (block : CBlock) : UInt256 := env.powHash block.toCBlockHeader

/-- `CBlock::GetBlockTime`. -/
def getBlockTime (block : CBlock) : Int := block.nTime.toNat

/-- `CBlock::IsProofOfStake`: the second transaction is coinstake-shaped. -/
def isProofOfStake (block : CBlock) : Bool :=
  match block.vtx with
  | _ :: tx :: _ => tx.isCoinStake
  | _ => false

/-- `CBlock::IsProofOfWork`. -/
def isProofOfWork (block : CBlock) : Bool := !block.isProofOfStake

/-- `::GetSerializeSize` of a block: header, transactions and signature. -/
def getSerializeSize (block : CBlock) : Nat :=
  80 + (getSizeOfCompactSize block.vtx.length +
    (block.vtx.map CTransaction.getSerializeSize).sum) + bytesSize block.vchBlockSig

/-- One level of `BuildMerkleTree`: an odd last hash is paired with itself. -/
def merkleLevel (env : Env) : List UInt256 → List UInt256
  | [] => []
  | [left] => [env.hashPair left left]
  | left :: right :: rest => env.hashPair left right :: merkleLevel env rest

/-- The level loop of `BuildMerkleTree`, down to one hash; the fuel is the number
of leaves. -/
def merkleRoot (env : Env) : Nat → List UInt256 → UInt256
  | _, [] => 0
  | _, [hash] => hash
  | 0, hash :: _ => hash
  | fuel + 1, level => merkleRoot env fuel (merkleLevel env level)

/-- `CBlock::BuildMerkleTree`, the returned root. -/
def buildMerkleTree (env : Env) (block : CBlock) : UInt256 :=
  merkleRoot env block.vtx.length (block.vtx.map env.txHash)

/-- The proof-of-stake part of `CheckBlock`. -/
def checkStake (env : Env) (block : CBlock) (fCheckSig : Bool) : Bool :=
  match block.vtx with
  | coinbase :: coinstake :: rest =>
      (match coinbase.vout with
        | [txout] => txout.isEmpty
        | _ => false) &&
      coinstake.isCoinStake &&
      rest.all (fun tx => !tx.isCoinStake) &&
      checkCoinStakeTimestamp block.getBlockTime coinstake.nTime.toNat &&
      (!fCheckSig || env.checkBlockSignature block)
  | _ => false

/-- The coinbase part of `CheckBlock`: the first transaction and no other is one,
and its time is close enough to the block's. -/
def checkCoinBase (block : CBlock) : Bool :=
  match block.vtx with
  | coinbase :: rest =>
      coinbase.isCoinBase && rest.all (fun tx => !tx.isCoinBase) &&
        block.getBlockTime ≤ futureDrift coinbase.nTime.toNat
  | [] => false

/-- `CBlock::CheckBlock`, at the adjusted time of the call. -/
def checkBlock (env : Env) (nAdjustedTime : Int) (block : CBlock)
    (fCheckPOW fCheckMerkleRoot fCheckSig : Bool) : Bool :=
  if block.vtx.isEmpty || maxBlockSize < block.vtx.length || maxBlockSize < block.getSerializeSize then
    false
  else if fCheckPOW && block.isProofOfWork &&
      !checkProofOfWork env (block.getHash env) block.nBits then false
  else if futureDrift nAdjustedTime < block.getBlockTime then false
  else if !block.checkCoinBase then false
  else if block.isProofOfStake && !block.checkStake env fCheckSig then false
  else if !block.vtx.all (fun tx => tx.checkTransaction && tx.nTime.toNat ≤ block.getBlockTime) then
    false
  else if !decide (block.vtx.map env.txHash).Nodup then false
  else if maxBlockSigOps < (block.vtx.map CTransaction.getLegacySigOpCount).sum then false
  else if fCheckMerkleRoot && block.hashMerkleRoot ≠ block.buildMerkleTree env then false
  else true

/-- What a block that passes `CheckBlock` looks like: one coinbase in front, every
transaction well formed, and no id twice. -/
structure Checked (env : Env) (block : CBlock) : Prop where
  coinbase : ∃ coinbase rest, block.vtx = coinbase :: rest ∧ coinbase.isCoinBase = true ∧
    ∀ tx ∈ rest, tx.isCoinBase = false
  stake : block.isProofOfStake = true → ∃ fCheckSig, block.checkStake env fCheckSig = true
  wellFormed : ∀ tx ∈ block.vtx, tx.checkTransaction = true
  nodup : (block.vtx.map env.txHash).Nodup

theorem checked_of_checkBlock {env : Env} {nAdjustedTime : Int} {block : CBlock}
    {fCheckPOW fCheckMerkleRoot fCheckSig : Bool}
    (checked : block.checkBlock env nAdjustedTime fCheckPOW fCheckMerkleRoot fCheckSig = true) :
    Checked env block := by
  simp only [checkBlock] at checked
  split at checked
  · cases checked
  split at checked
  · cases checked
  split at checked
  · cases checked
  split at checked
  · cases checked
  rename_i front
  split at checked
  · cases checked
  rename_i stake
  split at checked
  · cases checked
  rename_i wellFormed
  split at checked
  · cases checked
  rename_i nodup
  refine ⟨?_, ?_, ?_, by simpa using nodup⟩
  · simp only [Bool.not_eq_true', Bool.not_eq_false, checkCoinBase] at front
    cases shape : block.vtx with
    | nil => simp [shape] at front
    | cons coinbase rest =>
        simp only [shape, Bool.and_eq_true, List.all_eq_true, Bool.not_eq_true'] at front
        exact ⟨coinbase, rest, rfl, front.1.1, front.1.2⟩
  · intro proof
    refine ⟨fCheckSig, ?_⟩
    simpa [proof] using stake
  · intro tx member
    simp only [Bool.not_eq_true', Bool.not_eq_false, List.all_eq_true, Bool.and_eq_true] at wellFormed
    exact (wellFormed tx member).1

end CBlock

/-- A coinbase with a label, for runs in `Env.labelled`. -/
def CTransaction.labelledCoinBase (label nTime : UInt32) (scriptSig : CScript) (vout : List CTxOut) :
    CTransaction where
  nVersion := 1
  nTime := nTime
  vin := [⟨COutPoint.null, scriptSig, 0xffffffff⟩]
  vout := vout
  nLockTime := label

/-- A transaction with a label that spends one output and pays one. -/
def CTransaction.labelledSpend (label nTime : UInt32) (prevout : COutPoint) (nValue : Int64) : CTransaction where
  nVersion := 1
  nTime := nTime
  vin := [⟨prevout, [], 0xffffffff⟩]
  vout := [⟨nValue, [0x51]⟩]
  nLockTime := label

/-- The entry of a labelled block, stored at an offset that the label gives. -/
def CBlockIndex.labelled (label : UInt32) (nHeight : Int) (nChainTrust : UInt256) (fProofOfStake : Bool)
    (nTime nBits : UInt32) : CBlockIndex where
  hash := BitVec.ofNat 256 label.toNat
  nFile := 1
  nBlockPos := 1000 * label
  nChainTrust := nChainTrust
  nHeight := nHeight
  fProofOfStake := fProofOfStake
  nStakeEntropyBit := false
  fGeneratedStakeModifier := false
  nStakeModifier := 0
  prevoutStake := COutPoint.null
  nStakeTime := 0
  hashProof := 0
  nVersion := 6
  hashMerkleRoot := 0
  nTime := nTime
  nBits := nBits
  nNonce := label
  onDisk := by decide

/-- A block with a label and the Merkle root it has in `Env.labelled`. -/
def CBlock.labelled (label : UInt32) (hashPrevBlock : UInt256) (nTime nBits : UInt32)
    (vtx : List CTransaction) : CBlock where
  nVersion := 6
  hashPrevBlock := hashPrevBlock
  hashMerkleRoot := (vtx.head?.map (Env.labelled false).txHash).getD 0
  nTime := nTime
  nBits := nBits
  nNonce := label
  vtx := vtx
  vchBlockSig := []

end InfiniteRicks
