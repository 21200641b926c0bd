import InfiniteRicks.BestChain

/-!
# Adding a block to the block index

`CBlock::AddToBlockIndex` from `main.cpp`: a new entry of the block index with its
height and chain trust, the record of it on disk, and the switch to it when it has
more trust than the best block.
-/

namespace InfiniteRicks

/-- What `AddToBlockIndex` takes from `kernel.cpp`. -/
structure StakeKernel where
  /-- `ComputeNextStakeModifier`: the modifier and whether it was generated here. -/
  computeNextStakeModifier : BlockPtr → Option (UInt64 × Bool)
  /-- `GetStakeModifierChecksum`. -/
  getStakeModifierChecksum : BlockPtr → UInt32
  /-- `CheckStakeModifierCheckpoints`. -/
  checkStakeModifierCheckpoints : Int → UInt32 → Bool

/-- `CBlock::GetStakeEntropyBit`: the last bit of the block hash. -/
def CBlock.getStakeEntropyBit (env : Env) (block : CBlock) : Bool := (block.getHash env).getLsbD 0

/-- `vtx[1]` of a proof-of-stake block. -/
def CBlock.coinStake (block : CBlock) : Option CTransaction :=
  match block.vtx with
  | _ :: tx :: _ => if tx.isCoinStake then some tx else none
  | _ => none

/-- Where `WriteToDisk` has put a block. `OpenBlockFile` refuses the file number `-1`. -/
structure DiskBlockPos where
  nFile : UInt32
  nBlockPos : UInt32
  onDisk : nFile ≠ 0xffffffff

/-- The first block file can be the file of a block. -/
theorem DiskBlockPos.first_onDisk : (1 : UInt32) ≠ 0xffffffff := by decide

/-- `pindex->nChainTrust`, and 0 for `NULL`. -/
def chainTrust (pindex : BlockPtr) : UInt256 := (pindex.head?.map CBlockIndex.nChainTrust).getD 0

/-- `CBlockIndex(nFile, nBlockPos, block)`, with its hash, height and trust on top of
the parent, and what `AddToBlockIndex` is told about the stake. -/
def newEntry (env : Env) (block : CBlock) (pos : DiskBlockPos) (hashProof : UInt256)
    (nStakeModifier : UInt64) (fGeneratedStakeModifier : Bool) (pprev : BlockPtr) : CBlockIndex :=
  let pindex : CBlockIndex :=
    { hash := block.getHash env
      nFile := pos.nFile
      nBlockPos := pos.nBlockPos
      nChainTrust := 0
      nHeight :=
        match pprev with
        | [] => 0
        | prev :: _ => prev.nHeight + 1
      fProofOfStake := block.isProofOfStake
      nStakeEntropyBit := block.getStakeEntropyBit env
      fGeneratedStakeModifier := fGeneratedStakeModifier
      nStakeModifier := nStakeModifier
      prevoutStake := ((block.coinStake.bind fun tx => tx.vin.head?).map CTxIn.prevout).getD COutPoint.null
      nStakeTime := (block.coinStake.map CTransaction.nTime).getD 0
      hashProof := hashProof
      nVersion := block.nVersion
      hashMerkleRoot := block.hashMerkleRoot
      nTime := block.nTime
      nBits := block.nBits
      nNonce := block.nNonce
      onDisk := pos.onDisk }
  { pindex with nChainTrust := chainTrust pprev + pindex.getBlockTrust }

/-- The entry of the map, with fresh mutable fields, and `setStakeSeen`. -/
def Node.insertEntry (s : Node) (pindex : CBlockIndex) (pprev : BlockPtr) : Node :=
  { s with
    mapBlockIndex := Function.update s.mapBlockIndex pindex.hash (some (pindex :: pprev))
    pnext := Function.update s.pnext pindex.hash none
    nMint := Function.update s.nMint pindex.hash 0
    nMoneySupply := Function.update s.nMoneySupply pindex.hash 0
    setStakeSeen :=
      if pindex.fProofOfStake then s.setStakeSeen.insert (pindex.prevoutStake, pindex.nStakeTime)
      else s.setStakeSeen }

/-- `txdb.WriteBlockIndex(CDiskBlockIndex(pindexNew))` in a batch of its own. -/
def Node.writeEntry (s : Node) (pindex : CBlockIndex) (pprev : BlockPtr) : Except Node Node :=
  let result := (s.txdb.fresh.txnBegin.writeBlockIndex (diskBlockIndex s pindex pprev)).txnCommit
  if result.1 then .ok (s.withTxdb result.2) else .error (s.withTxdb result.2)

/-- `CBlock::AddToBlockIndex`. -/
def addToBlockIndex (env : Env) (policy : Policy) (kernel : StakeKernel) (c : Connector) (s : Node)
    (block : CBlock) (pos : DiskBlockPos) (hashProof : UInt256) : Except Node Node :=
  if (s.mapBlockIndex (block.getHash env)).isSome then .error s
  else
    let pprev := (s.mapBlockIndex block.hashPrevBlock).getD []
    match kernel.computeNextStakeModifier pprev with
    | none => .error s
    | some (nStakeModifier, fGeneratedStakeModifier) =>
        let pindex := newEntry env block pos hashProof nStakeModifier fGeneratedStakeModifier pprev
        if !kernel.checkStakeModifierCheckpoints pindex.nHeight
            (kernel.getStakeModifierChecksum (pindex :: pprev)) then .error s
        else
          match (s.insertEntry pindex pprev).writeEntry pindex pprev with
          | .error s => .error s
          | .ok s =>
              if s.nBestChainTrust < pindex.nChainTrust then
                setBestChain env policy c s block (pindex :: pprev)
              else .ok s

end InfiniteRicks
