import InfiniteRicks.Merkle
import InfiniteRicks.Serialize

/-!
# The coins of a wallet

`CWalletTx` with its spent flags and cached amounts (`wallet.h`), and what adds, erases
and marks the transactions of `mapWallet` (`wallet.cpp`). A cached amount is `none` where
its flag is false. The wallet is file backed and its writes succeed.
-/

namespace InfiniteRicks

/-- `CTxDestination`. -/
inductive CTxDestination where
  | none
  | keyID (id : BitVec 160)
  | scriptID (id : BitVec 160)
deriving DecidableEq

/-- A `CWalletTx`, as far as coins and amounts depend on it. -/
structure CWalletTx where
  tx : CTransaction
  hashBlock : UInt256
  vMerkleBranch : List UInt256
  nIndex : Int32
  fFromMe : Bool
  vfSpent : List Bool
  nDebitCached : Option Int64
  nCreditCached : Option Int64
  nAvailableCreditCached : Option Int64
  nChangeCached : Option Int64

namespace CWalletTx

/-- `CWalletTx(pwallet, tx)`. -/
def ofTx (tx : CTransaction) : CWalletTx := ⟨tx, 0, [], -1, false, [], none, none, none, none⟩

/-- `CWalletTx()`. -/
def null : CWalletTx := ofTx ⟨1, 0, [], [], 0⟩

/-- `MarkDirty`, which is also what `BindWallet` does. -/
def markDirty (wtx : CWalletTx) : CWalletTx :=
  { wtx with nDebitCached := none, nCreditCached := none, nAvailableCreditCached := none, nChangeCached := none }

/-- The flags of `UpdateSpent`: the new ones are added as far as there are old ones. -/
def addSpent : List Bool → List Bool → List Bool
  | [], _ => []
  | old, [] => old
  | spent :: old, newSpent :: new => (spent || newSpent) :: addSpent old new

/-- `UpdateSpent`. -/
def updateSpent (wtx : CWalletTx) (vfNewSpent : List Bool) : CWalletTx :=
  { wtx with
    vfSpent := addSpent wtx.vfSpent vfNewSpent
    nAvailableCreditCached :=
      if addSpent wtx.vfSpent vfNewSpent = wtx.vfSpent then wtx.nAvailableCreditCached else none }

/-- `vfSpent.resize(vout.size())`. -/
def resizeSpent (wtx : CWalletTx) : List Bool :=
  (wtx.vfSpent ++ List.replicate (wtx.tx.vout.length - wtx.vfSpent.length) false).take wtx.tx.vout.length

/-- `MarkSpent` or `MarkUnspent`, which throw where there is no such output. -/
def setSpent (wtx : CWalletTx) (nOut : Nat) (fSpent : Bool) : Option CWalletTx :=
  if wtx.tx.vout.length ≤ nOut then none
  else if wtx.resizeSpent.getD nOut false = fSpent then some { wtx with vfSpent := wtx.resizeSpent }
  else some { wtx with vfSpent := wtx.resizeSpent.set nOut fSpent, nAvailableCreditCached := none }

/-- `MarkSpent`. -/
def markSpent (wtx : CWalletTx) (nOut : Nat) : Option CWalletTx := wtx.setSpent nOut true

/-- `MarkUnspent`. -/
def markUnspent (wtx : CWalletTx) (nOut : Nat) : Option CWalletTx := wtx.setSpent nOut false

/-- `IsSpent` of an output that there is. -/
def isSpent (wtx : CWalletTx) (nOut : Nat) : Bool := wtx.vfSpent.getD nOut false

/-- The merge of `AddToWallet` with a transaction that is in the wallet. -/
def merge (wtx wtxIn : CWalletTx) : CWalletTx :=
  let wtx := if wtxIn.hashBlock ≠ 0 ∧ wtxIn.hashBlock ≠ wtx.hashBlock then { wtx with hashBlock := wtxIn.hashBlock } else wtx
  let wtx :=
    if wtxIn.nIndex ≠ -1 ∧ (wtxIn.vMerkleBranch ≠ wtx.vMerkleBranch ∨ wtxIn.nIndex ≠ wtx.nIndex) then
      { wtx with vMerkleBranch := wtxIn.vMerkleBranch, nIndex := wtxIn.nIndex }
    else wtx
  let wtx := if wtxIn.fFromMe then { wtx with fFromMe := true } else wtx
  wtx.updateSpent wtxIn.vfSpent

/-- `SetMerkleBranch` with the block the transaction is in. -/
def setMerkleBranch (env : Env) (wtx : CWalletTx) (pblock : CBlock) : CWalletTx :=
  let wtx := { wtx with hashBlock := pblock.getHash env }
  if wtx.tx ∈ pblock.vtx then
    { wtx with
      nIndex := Int32.ofNat (pblock.vtx.idxOf wtx.tx)
      vMerkleBranch := pblock.getMerkleBranch env (pblock.vtx.idxOf wtx.tx) }
  else { wtx with nIndex := -1, vMerkleBranch := [] }

/-- The transaction that `AddToWalletIfInvolvingMe` makes, with its merkle branch where the block is given. -/
def ofBlock (env : Env) (tx : CTransaction) : Option CBlock → CWalletTx
  | some pblock => (ofTx tx).setMerkleBranch env pblock
  | none => ofTx tx

end CWalletTx

/-- What decides which coins are the wallet's own: `::IsMine` with its keys, and the destinations of scripts. -/
structure WalletKeys where
  isMine : CScript → Bool
  extractDestination : CScript → Option CTxDestination
  isMineDestination : CTxDestination → Bool
  nMinimumInputValue : Int64

/-- `CScript::SetDestination` of a key id. -/
def CScript.payToKeyID (id : BitVec 160) : CScript :=
  [0x76, 0xa9] ++ CScript.pushData (littleEndianBytes 20 id.toNat) ++ [0x88, 0xac]

/-- The transactions of a `CWallet`, with what their amounts depend on. `blocksToMaturity` is how
`GetBlocksToMaturity` sees the chain. -/
structure WalletCoins where
  mapWallet : UInt256 → Option CWalletTx
  /-- The id of `vchDefaultKey`, where it is valid. -/
  vchDefaultKey : Option (BitVec 160)
  mapAddressBook : CTxDestination → Bool
  blocksToMaturity : CWalletTx → Int

namespace WalletCoins

def set (w : WalletCoins) (hash : UInt256) (wtx : CWalletTx) : WalletCoins :=
  { w with mapWallet := Function.update w.mapWallet hash (some wtx) }

theorem mapWallet_set (w : WalletCoins) (hash other : UInt256) (wtx : CWalletTx) :
    (w.set hash wtx).mapWallet other = if other = hash then some wtx else w.mapWallet other :=
  Function.update_apply w.mapWallet hash (some wtx) other

section Amounts

variable (keys : WalletKeys) (w : WalletCoins)

/-- `GetDebit` of an input. -/
def debitOf (txin : CTxIn) : Int64 :=
  match w.mapWallet txin.prevout.hash with
  | none => 0
  | some prev =>
      match prev.tx.vout[txin.prevout.n.toNat]? with
      | some txout => if keys.isMine txout.scriptPubKey then txout.nValue else 0
      | none => 0

/-- `IsChange`. -/
def isChange (txout : CTxOut) : Bool :=
  match keys.extractDestination txout.scriptPubKey with
  | some address => keys.isMineDestination address && !w.mapAddressBook address
  | none => false

/-- A sum of amounts that throws where it leaves the money range. -/
def sumMoney (amounts : List Int64) : Option Int64 :=
  amounts.foldlM (fun sum amount => if moneyRange (sum + amount) then some (sum + amount) else none) 0

/-- `CWallet::GetDebit` of a transaction. -/
def getDebitTx (tx : CTransaction) : Option Int64 := sumMoney (tx.vin.map (w.debitOf keys))

/-- The sum over outputs of the values of those that count. Every value has to be in the money range. -/
def sumOutputs (counts : CTxOut → Bool) (vout : List CTxOut) : Option Int64 :=
  if vout.all fun txout => moneyRange txout.nValue then
    sumMoney (vout.map fun txout => if counts txout then txout.nValue else 0)
  else none

/-- `CWallet::GetCredit` of a transaction. -/
def getCreditTx (tx : CTransaction) : Option Int64 := sumOutputs (fun txout => keys.isMine txout.scriptPubKey) tx.vout

/-- `CWallet::GetChange` of a transaction. -/
def getChangeTx (tx : CTransaction) : Option Int64 := sumOutputs (w.isChange keys) tx.vout

/-- The outputs that are not spent. -/
def unspentOutputs (wtx : CWalletTx) : List CTxOut :=
  (wtx.tx.vout.zipIdx.filter fun entry => !wtx.isSpent entry.2).map Prod.fst

/-- The sum of `GetAvailableCredit`. -/
def getAvailableTx (wtx : CWalletTx) : Option Int64 :=
  sumOutputs (fun txout => keys.isMine txout.scriptPubKey) (unspentOutputs wtx)

/-- A reward that is not mature yet. -/
def immature (wtx : CWalletTx) : Bool :=
  (wtx.tx.isCoinBase || wtx.tx.isCoinStake) && decide (0 < w.blocksToMaturity wtx)

/-- `CWalletTx::GetDebit`, with the transaction and its caches afterwards. -/
def getDebit (wtx : CWalletTx) : Option Int64 × CWalletTx :=
  if wtx.tx.vin.isEmpty then (some 0, wtx)
  else
    match wtx.nDebitCached with
    | some nDebit => (some nDebit, wtx)
    | none =>
        match w.getDebitTx keys wtx.tx with
        | some nDebit => (some nDebit, { wtx with nDebitCached := some nDebit })
        | none => (none, wtx)

/-- `CWalletTx::GetCredit`. -/
def getCredit (wtx : CWalletTx) (fUseCache : Bool) : Option Int64 × CWalletTx :=
  if w.immature wtx then (some 0, wtx)
  else
    match fUseCache, wtx.nCreditCached with
    | true, some nCredit => (some nCredit, wtx)
    | _, _ =>
        match getCreditTx keys wtx.tx with
        | some nCredit => (some nCredit, { wtx with nCreditCached := some nCredit })
        | none => (none, wtx)

/-- `CWalletTx::GetAvailableCredit`. -/
def getAvailableCredit (wtx : CWalletTx) (fUseCache : Bool) : Option Int64 × CWalletTx :=
  if w.immature wtx then (some 0, wtx)
  else
    match fUseCache, wtx.nAvailableCreditCached with
    | true, some nCredit => (some nCredit, wtx)
    | _, _ =>
        match getAvailableTx keys wtx with
        | some nCredit => (some nCredit, { wtx with nAvailableCreditCached := some nCredit })
        | none => (none, wtx)

/-- `CWalletTx::GetChange`. -/
def getChange (wtx : CWalletTx) : Option Int64 × CWalletTx :=
  match wtx.nChangeCached with
  | some nChange => (some nChange, wtx)
  | none =>
      match w.getChangeTx keys wtx.tx with
      | some nChange => (some nChange, { wtx with nChangeCached := some nChange })
      | none => (none, wtx)

end Amounts

section Updates

variable (env : Env) (keys : WalletKeys)

/-- One input in `WalletUpdateSpent`. The log line asks for the credit of the transaction that is spent from; an
exception that it throws ends the update. -/
def spendInput (w : WalletCoins) (txin : CTxIn) : Except WalletCoins WalletCoins :=
  match w.mapWallet txin.prevout.hash with
  | none => .ok w
  | some wtx =>
      match wtx.tx.vout[txin.prevout.n.toNat]? with
      | none => .ok w
      | some txout =>
          if !wtx.isSpent txin.prevout.n.toNat && keys.isMine txout.scriptPubKey then
            match w.getCredit keys wtx true with
            | (none, wtx) => .error (w.set txin.prevout.hash wtx)
            | (some _, wtx) =>
                match wtx.markSpent txin.prevout.n.toNat with
                | some wtx => .ok (w.set txin.prevout.hash wtx)
                | none => .error (w.set txin.prevout.hash wtx)
          else .ok w

/-- One output in `WalletUpdateSpent` for a transaction in a block. -/
def unspendOutput (hash : UInt256) (w : WalletCoins) (entry : CTxOut × Nat) : Except WalletCoins WalletCoins :=
  if keys.isMine entry.1.scriptPubKey then
    match (w.mapWallet hash).bind fun wtx => wtx.markUnspent entry.2 with
    | some wtx => .ok (w.set hash wtx)
    | none => .error w
  else .ok w

/-- `WalletUpdateSpent`. -/
def walletUpdateSpent (w : WalletCoins) (tx : CTransaction) (fBlock : Bool) : Except WalletCoins WalletCoins := do
  let w ← tx.vin.foldlM (spendInput keys) w
  if fBlock then tx.vout.zipIdx.foldlM (unspendOutput keys (env.txHash tx)) w else pure w

/-- The replacement of the default key in `AddToWallet`, for each output that pays to it; `poolKeys` are the ids of
the keys that `GetKeyFromPool` hands out, as long as it does. -/
def replaceDefaultKey (scriptDefaultKey : CScript) : List CTxOut → List (BitVec 160) → WalletCoins → WalletCoins
  | [], _, w => w
  | _, [], w => w
  | txout :: rest, id :: poolKeys, w =>
      if txout.scriptPubKey = scriptDefaultKey then
        replaceDefaultKey scriptDefaultKey rest poolKeys { w with
          vchDefaultKey := some id, mapAddressBook := Function.update w.mapAddressBook (.keyID id) true }
      else replaceDefaultKey scriptDefaultKey rest (id :: poolKeys) w

/-- The entry of the wallet after `AddToWallet` has inserted or merged the transaction. -/
def added (w : WalletCoins) (wtxIn : CWalletTx) : CWalletTx :=
  match w.mapWallet (env.txHash wtxIn.tx) with
  | none => wtxIn.markDirty
  | some wtx => wtx.markDirty.merge wtxIn

/-- `AddToWallet`. -/
def addToWallet (poolKeys : List (BitVec 160)) (w : WalletCoins) (wtxIn : CWalletTx) : Except WalletCoins WalletCoins :=
  let wtx := w.added env wtxIn
  let w := w.set (env.txHash wtxIn.tx) wtx
  let w :=
    match w.vchDefaultKey with
    | some id => replaceDefaultKey (CScript.payToKeyID id) wtx.tx.vout poolKeys w
    | none => w
  w.walletUpdateSpent env keys wtx.tx (wtxIn.hashBlock ≠ 0)

/-- `IsMine` of a transaction. -/
def isMineTx (tx : CTransaction) : Bool :=
  tx.vout.any fun txout => keys.isMine txout.scriptPubKey && decide (keys.nMinimumInputValue ≤ txout.nValue)

/-- `AddToWalletIfInvolvingMe`. -/
def addToWalletIfInvolvingMe (poolKeys : List (BitVec 160)) (w : WalletCoins) (tx : CTransaction)
    (pblock : Option CBlock) (fUpdate : Bool) : Except WalletCoins WalletCoins :=
  let fExisted := (w.mapWallet (env.txHash tx)).isSome
  let wtx := CWalletTx.ofBlock env tx pblock
  if fExisted && !fUpdate then .ok w
  else if fExisted || isMineTx keys tx then w.addToWallet env keys poolKeys wtx
  else
    match w.getDebitTx keys tx with
    | none => .error w
    | some nDebit => if 0 < nDebit then w.addToWallet env keys poolKeys wtx else w.walletUpdateSpent env keys tx false

/-- `EraseFromWallet`. -/
def eraseFromWallet (w : WalletCoins) (hash : UInt256) : WalletCoins :=
  { w with mapWallet := Function.update w.mapWallet hash none }

/-- One input in `CommitTransaction`: `mapWallet[txin.prevout.hash]` inserts a transaction where there is none. -/
def commitInput (w : WalletCoins) (txin : CTxIn) : Except WalletCoins WalletCoins :=
  let coin := ((w.mapWallet txin.prevout.hash).getD .null).markDirty
  match coin.markSpent txin.prevout.n.toNat with
  | some coin => .ok (w.set txin.prevout.hash coin)
  | none => .error (w.set txin.prevout.hash coin)

/-- `CommitTransaction`, as far as it changes the wallet's transactions. -/
def commitTransaction (poolKeys : List (BitVec 160)) (w : WalletCoins) (wtxNew : CWalletTx) :
    Except WalletCoins WalletCoins := do
  let w ← w.addToWallet env keys poolKeys wtxNew
  wtxNew.tx.vin.foldlM commitInput w

end Updates

end WalletCoins

/-- The state after a call, which an exception may have ended. -/
def resultState {σ : Type} : Except σ σ → σ
  | .ok s => s
  | .error s => s

/-- What every round of a loop keeps, the loop keeps, also where a round throws. -/
theorem resultState_foldlM {σ α : Type} {f : σ → α → Except σ σ} {P : σ → Prop}
    (round : ∀ s a, P s → P (resultState (f s a))) (items : List α) {s : σ} (start : P s) :
    P (resultState (items.foldlM f s)) := by
  induction items generalizing s with
  | nil => exact start
  | cons item rest ih =>
      rw [List.foldlM_cons]
      have next := round s item start
      cases result : f s item with
      | error s' =>
          rw [result] at next
          exact next
      | ok s' =>
          rw [result] at next
          exact ih next

end InfiniteRicks
