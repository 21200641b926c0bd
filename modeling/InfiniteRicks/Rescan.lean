import InfiniteRicks.BlockTimes
import InfiniteRicks.Lookups

/-!
# Rescanning after an import

`importwallet` walks back from the best block to where the imported keys can first have been paid, and
`CWallet::ScanForWalletTransactions` reads the chain from there, but for the blocks that are older than
the wallet's birthday `nTimeFirstKey`. The walk goes back far enough. The birthday 0 stands for none,
and `GenerateNewKey` replaces it in the middle of a scan: an import of a key that was born at time 0
misses blocks exactly when this happens before them.
-/

namespace InfiniteRicks

/-! ## The code -/

/-- The time of a key that is generated now: `GetTime()`, which is after 1970. -/
abbrev CreationTime := { nTime : Int64 // 0 < nTime }

/-- The birthday with one more key, in `GenerateNewKey` and at the end of `importwallet`. -/
def noteBirth (nTimeFirstKey nTime : Int64) : Int64 :=
  if nTimeFirstKey = 0 ∨ nTime < nTimeFirstKey then nTime else nTimeFirstKey

/-- What `AddToWalletIfInvolvingMe` does to a wallet: its result, and the times of the keys that
`GetKeyFromPool` has generated on the way. -/
structure Offer (W : Type) where
  wallet : W
  added : Bool
  generated : List CreationTime

/-- `AddToWalletIfInvolvingMe(tx, &block, fUpdate)`, where no amount is out of range. -/
abbrev AddIfInvolved (W : Type) := W → CTransaction → CBlock → Bool → Offer W

/-- A key that `GetKeyFromPool` hands out, and the times of the keys that are generated in the call. -/
structure PoolKey where
  id : BitVec 160
  generated : List CreationTime

/-- The coins of a wallet, and what its key pool will hand out. -/
structure PooledCoins where
  coins : WalletCoins
  pool : List PoolKey

namespace PooledCoins

/-- `AddToWalletIfInvolvingMe` calls `AddToWallet`. -/
def isAdded (env : Env) (keys : WalletKeys) (coins : WalletCoins) (tx : CTransaction) (fUpdate : Bool) : Bool :=
  let fExisted := (coins.mapWallet (env.txHash tx)).isSome
  if fExisted && !fUpdate then false
  else fExisted || WalletCoins.isMineTx keys tx || (coins.getDebitTx keys tx).any fun nDebit => 0 < nDebit

/-- The keys that `AddToWallet` takes to replace the default key. -/
def keysTaken (w : PooledCoins) (tx : CTransaction) : List PoolKey :=
  match w.coins.vchDefaultKey with
  | none => []
  | some id => w.pool.take (tx.vout.countP fun txout => txout.scriptPubKey = CScript.payToKeyID id)

/-- `AddToWalletIfInvolvingMe`. -/
def addToWalletIfInvolvingMe (env : Env) (keys : WalletKeys) : AddIfInvolved PooledCoins := fun w tx block fUpdate =>
  let taken := if isAdded env keys w.coins tx fUpdate then w.keysTaken tx else []
  { wallet :=
      { coins := resultState
          (w.coins.addToWalletIfInvolvingMe env keys (w.pool.map PoolKey.id) tx (some block) fUpdate)
        pool := w.pool.drop taken.length }
    added := isAdded env keys w.coins tx fUpdate
    generated := taken.flatMap PoolKey.generated }

end PooledCoins

/-- The variables of `ScanForWalletTransactions` with the wallet, and what it has read and offered. -/
structure Scan (W : Type) where
  wallet : W
  nTimeFirstKey : Int64
  ret : Nat
  reads : List CBlockIndex
  offers : List (CTransaction × CBlock)

/-- The entries from one on along `pnext`. -/
def alongNext (s : Node) : Nat → BlockPtr → List CBlockIndex
  | 0, _ => []
  | _, [] => []
  | fuel + 1, pindex :: _ =>
      pindex :: (((s.pnext pindex.hash).bind s.mapBlockIndex).map (alongNext s fuel)).getD []

/-- The test for a block from before the wallet's birthday. -/
abbrev BeforeBirthday (nTimeFirstKey : Int64) (pindex : CBlockIndex) : Prop :=
  nTimeFirstKey ≠ 0 ∧ pindex.getBlockTime < nTimeFirstKey.toInt - 7200

namespace Scan

variable {W : Type} (add : AddIfInvolved W) (fUpdate : Bool)

/-- The body of the inner loop. -/
def offerTx (block : CBlock) (scan : Scan W) (tx : CTransaction) : Scan W :=
  let offer := add scan.wallet tx block fUpdate
  { scan with
    wallet := offer.wallet
    nTimeFirstKey := (offer.generated.map Subtype.val).foldl noteBirth scan.nTimeFirstKey
    ret := if offer.added then scan.ret + 1 else scan.ret
    offers := scan.offers ++ [(tx, block)] }

/-- `ReadFromDisk` and the inner loop. The result of `ReadFromDisk` is not looked at, so the checks in it do not
matter; of a block that cannot be read the transactions in front are left out. -/
def readBlock (s : Node) (scan : Scan W) (pindex : CBlockIndex) : Scan W :=
  let scan := { scan with reads := scan.reads ++ [pindex] }
  match s.files.readBlock pindex.nFile pindex.nBlockPos with
  | none => scan
  | some block => block.vtx.foldl (offerTx add fUpdate block) scan

/-- The body of the outer loop. -/
def visit (s : Node) (scan : Scan W) (pindex : CBlockIndex) : Scan W :=
  if BeforeBirthday scan.nTimeFirstKey pindex then scan else scan.readBlock add fUpdate s pindex

end Scan

/-- `ScanForWalletTransactions`. The chain is as long as the way down from the best block. -/
def scanForWalletTransactions {W : Type} (add : AddIfInvolved W) (s : Node) (pindexStart : BlockPtr) (fUpdate : Bool)
    (wallet : W) (nTimeFirstKey : Int64) : Scan W :=
  (alongNext s s.pindexBest.length pindexStart).foldl (Scan.visit add fUpdate s) ⟨wallet, nTimeFirstKey, 0, [], []⟩

/-- The walk of `importwallet` back from the best block. -/
def rescanStart (nTimeBegin : Int64) : BlockPtr → BlockPtr
  | pindex :: prev :: grand =>
      if nTimeBegin.toInt - 7200 < pindex.getBlockTime then rescanStart nTimeBegin (prev :: grand)
      else pindex :: prev :: grand
  | pindex => pindex

namespace KeyWallet

variable (s : Node) (crypto : KeyCrypto) (fTestNet : Bool) (format : DumpFormat)

/-- The loop of `importwallet` over the lines of the file. -/
def importLines (w : KeyWallet) (file : Bytes) : Option Import := do
  let pindexBest ← s.pindexBest.head?
  (file.splitOn 10).foldlM (importLine crypto fTestNet format) ⟨true, Int64.ofNat pindexBest.nTime.toNat, w⟩

/-- The rescan at the end of `importwallet`; `wallet` is what the scan needs of the wallet besides its birthday. -/
def rescan {W : Type} (add : AddIfInvolved W) (w : KeyWallet) (result : Import) (wallet : W) : Scan W :=
  scanForWalletTransactions add s (rescanStart result.nTimeBegin s.pindexBest) false wallet
    (noteBirth w.nTimeFirstKey result.nTimeBegin)

theorem importwallet_eq (w : KeyWallet) (file : Bytes) (unlocked : w.isUnlocked = true) :
    w.importwallet s crypto fTestNet format file = (w.importLines s crypto fTestNet format file).map fun result =>
      (result.fGood, { result.wallet with nTimeFirstKey := noteBirth w.nTimeFirstKey result.nTimeBegin }) := by
  rw [importwallet, unlocked, if_neg (by decide), importLines]
  cases s.pindexBest.head? with
  | none => rfl
  | some pindexBest => 
      simp only [Option.bind_eq_bind, Option.bind_some]
      cases (file.splitOn 10).foldlM (importLine crypto fTestNet format)
          ⟨true, Int64.ofNat pindexBest.nTime.toNat, w⟩ with
      | none => rfl
      | some result => rfl

end KeyWallet

end InfiniteRicks
