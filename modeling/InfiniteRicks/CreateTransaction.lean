import InfiniteRicks.SelectCoins

/-!
# Making a payment

`AvailableCoins`, `SelectCoins` and `CreateTransaction` (`wallet.cpp`). What the wallet cannot
foresee is a parameter of each pass of the loop: the random numbers, the order of the
selected coins in a set of pointers, the key that is reserved for the change, and the
signatures. The priority, which nothing reads, and the supporting transactions are left out.
-/

namespace InfiniteRicks

/-- `CCoinControl`. -/
structure CCoinControl where
  destChange : CTxDestination
  setSelected : List COutPoint

/-- `HasSelected`. -/
def CCoinControl.hasSelected (coinControl : CCoinControl) : Bool := !coinControl.setSelected.isEmpty

/-- `IsSelected`. -/
def CCoinControl.isSelected (coinControl : CCoinControl) (hash : UInt256) (n : UInt32) : Bool :=
  decide (⟨hash, n⟩ ∈ coinControl.setSelected)

/-- `SetDestination`. -/
def CScript.setDestination : CTxDestination → CScript
  | .none => []
  | .keyID id => CScript.payToKeyID id
  | .scriptID id => 0xa9 :: CScript.pushData (littleEndianBytes 20 id.toNat) ++ [0x87]

/-- `MAX_STANDARD_TX_SIZE`. -/
def maxStandardTxSize : Nat := maxBlockSizeGen / 5

/-- A wallet with what its payments depend on. -/
structure Payer where
  env : Env
  view : ChainView
  keys : WalletKeys
  wallet : AccountWallet
  fConfChange : Bool
  fuel : Nat
  nTransactionFee : Int64

/-- What a pass of the loop of `CreateTransaction` cannot foresee. -/
structure PassChoices where
  randoms : Fin 3 → CoinRandom
  /-- The order of the pointers in `setCoins`. -/
  order : CoinSet → List Coin
  ordered : ∀ setCoins, (order setCoins).Perm setCoins
  /-- `GetRandInt`. -/
  getRandInt : Nat → Nat
  inside : ∀ nMax, 0 < nMax → getRandInt nMax < nMax
  /-- The key id of `GetReservedKey`. -/
  reservedKey : Option (BitVec 160)
  /-- `SignSignature`: the `scriptSig` it sets. -/
  signSignature : Coin → CTransaction → Nat → Option CScript

/-- How a pass of the loop ends. -/
inductive PassResult where
  /-- An exception or a failed assertion. -/
  | thrown
  /-- `CreateTransaction` returns false. -/
  | refused
  /-- The fee was too low. -/
  | again (nFeeRet : Int64)
  | created (wtxNew : CTransaction) (nFeeRet : Int64)

/-- What becomes of a `CreateTransaction`. -/
inductive CreateResult where
  | thrown
  | refused
  | created (wtxNew : CTransaction) (nFeeRet : Int64)
  | unfinished

/-- The outputs of a transaction of the wallet. -/
def coinsOf (hash : UInt256) (t : AccountTx) : List Coin :=
  (List.finRange t.wtx.tx.vout.length).filterMap fun (i : Fin t.wtx.tx.vout.length) =>
    if small : i.val < 2 ^ 32 then
      some ⟨hash, t, UInt32.ofNat i, (UInt32.toNat_ofNat_of_lt' small).trans_lt i.isLt⟩
    else none

namespace Payer

variable (p : Payer)

/-- `IsFromMe`, which may throw. -/
def isFromMe (coin : Coin) : Option Bool :=
  ((p.wallet.coins p.view).getDebit p.keys coin.tx.wtx).1.map fun nDebit => decide (0 < nDebit)

/-- The tests of `AvailableCoins` on an output. -/
def isAvailable (coinControl : Option CCoinControl) (coin : Coin) : Bool :=
  !coin.tx.wtx.isSpent coin.i.toNat && p.keys.isMine coin.txout.scriptPubKey &&
    decide (p.keys.nMinimumInputValue ≤ coin.nValue) &&
    coinControl.all fun coinControl => !coinControl.hasSelected || coinControl.isSelected coin.hash coin.i

/-- The coins of one transaction in `AvailableCoins`. -/
def availableOf (fOnlyConfirmed : Bool) (coinControl : Option CCoinControl) (hash : UInt256) (t : AccountTx) :
    Option (List COutput) :=
  if p.view.isFinalTx t.wtx.tx = false then some []
  else
    (if fOnlyConfirmed then p.wallet.isTrusted p.env p.view p.keys p.fConfChange p.fuel t else some true).bind
      fun trusted =>
        if trusted = false then some []
        else if t.wtx.tx.isCoinBase ∧ 0 < p.view.getBlocksToMaturity t.wtx then some []
        else if t.wtx.tx.isCoinStake ∧ 0 < p.view.getBlocksToMaturity t.wtx then some []
        else if p.view.getDepthInMainChain t.wtx < 0 then some []
        else
          some (((coinsOf hash t).filter (p.isAvailable coinControl)).map fun coin =>
            ⟨coin, p.view.getDepthInMainChain t.wtx⟩)

/-- `AvailableCoins`. -/
def availableCoins (fOnlyConfirmed : Bool) (coinControl : Option CCoinControl) : Option (List COutput) :=
  (p.wallet.mapWallet.entries.mapM fun entry =>
    p.availableOf fOnlyConfirmed coinControl entry.1 entry.2).map List.flatten

/-- The calls of `SelectCoinsMinConf` in `SelectCoins`, each where the ones before said no. -/
def trySelections (nTargetValue : Int64) (nSpendTime : UInt32) (vCoins : List COutput) :
    List (Int × Int × CoinRandom) → Option (Bool × CoinSet × Int64)
  | [] => some (false, [], 0)
  | (nConfMine, nConfTheirs, rand) :: rest =>
      match selectCoinsMinConf p.isFromMe nTargetValue nSpendTime nConfMine nConfTheirs rand vCoins with
      | none => none
      | some (true, ret) => some (true, ret)
      | some (false, _) => trySelections nTargetValue nSpendTime vCoins rest

/-- `SelectCoins`: what it returns, `setCoinsRet` and `nValueRet`. -/
def selectCoins (randoms : Fin 3 → CoinRandom) (nTargetValue : Int64) (nSpendTime : UInt32)
    (coinControl : Option CCoinControl) : Option (Bool × CoinSet × Int64) :=
  (p.availableCoins true coinControl).bind fun vCoins =>
    if coinControl.any CCoinControl.hasSelected then
      let ret := takeCoins (vCoins.map COutput.coin) ([], 0)
      some (decide (nTargetValue ≤ ret.2), ret)
    else
      p.trySelections nTargetValue nSpendTime vCoins
        [(1, 10, randoms 0), (1, 1, randoms 1), (0, 1, randoms 2)]

/-- Sub-cent change goes to the fee until that is `MIN_TX_FEE`: the change and the fee. -/
def moveToFee (nChange nFeeRet : Int64) : Int64 × Int64 :=
  if nFeeRet < minTxFee ∧ 0 < nChange ∧ nChange < cent then
    let nMoveToFee := if minTxFee - nFeeRet < nChange then minTxFee - nFeeRet else nChange
    (nChange - nMoveToFee, nFeeRet + nMoveToFee)
  else (nChange, nFeeRet)

/-- `scriptChange`. Without a custom address it needs a reserved key, and an assertion fails
where there is none. -/
def scriptChange (c : PassChoices) (coinControl : Option CCoinControl) : Option CScript :=
  match coinControl with
  | some ⟨.keyID id, _⟩ => some (CScript.setDestination (.keyID id))
  | some ⟨.scriptID id, _⟩ => some (CScript.setDestination (.scriptID id))
  | _ => c.reservedKey.map fun id => CScript.setDestination (.keyID id)

/-- The outputs with the change among them. -/
def addChange (c : PassChoices) (coinControl : Option CCoinControl) (nChange : Int64) (vout : List CTxOut) :
    Option (List CTxOut) :=
  if 0 < nChange then
    (scriptChange c coinControl).map fun script => vout.insertIdx (c.getRandInt vout.length) ⟨nChange, script⟩
  else some vout

/-- `CTxIn(coin.first->GetHash(), coin.second)`. -/
def txInOf (coin : Coin) : CTxIn := ⟨⟨p.env.txHash coin.tx.wtx.tx, coin.i⟩, [], 0xffffffff⟩

/-- The signing loop. -/
def signInputs (c : PassChoices) : List Coin → Nat → CTransaction → Option CTransaction
  | [], _, wtxNew => some wtxNew
  | coin :: rest, nIn, wtxNew =>
      match c.signSignature coin wtxNew nIn with
      | none => none
      | some scriptSig =>
          signInputs c rest (nIn + 1)
            { wtxNew with vin := wtxNew.vin.modify nIn fun txin => { txin with scriptSig := scriptSig } }

/-- `::GetSerializeSize`, an unsigned int. -/
def nBytesOf (wtxNew : CTransaction) : UInt32 := UInt32.ofNat wtxNew.getSerializeSize

/-- `nPayFee`. -/
def payFee (nBytes : UInt32) : Int64 := p.nTransactionFee * (1 + Int64.ofNat (nBytes.toNat / 1000))

/-- `max(nPayFee, nMinFee)`. -/
def neededFee (wtxNew : CTransaction) : Int64 :=
  if p.payFee (nBytesOf wtxNew) < wtxNew.getMinFee 1 .send (nBytesOf wtxNew) then
    wtxNew.getMinFee 1 .send (nBytesOf wtxNew)
  else p.payFee (nBytesOf wtxNew)

/-- One pass of the loop, with the fee it starts from. -/
def createPass (c : PassChoices) (vecSend : List (CScript × Int64)) (nValue : Int64) (wtxNew : CTransaction)
    (coinControl : Option CCoinControl) (nFeeRet : Int64) : PassResult :=
  match p.selectCoins c.randoms (nValue + nFeeRet) wtxNew.nTime coinControl with
  | none => .thrown
  | some (false, _) => .refused
  | some (true, setCoins, nValueIn) =>
      let fees := moveToFee (nValueIn - nValue - nFeeRet) nFeeRet
      match addChange c coinControl fees.1 (vecSend.map fun s => ⟨s.2, s.1⟩) with
      | none => .thrown
      | some vout =>
          match signInputs c (c.order setCoins) 0
              { wtxNew with vin := (c.order setCoins).map p.txInOf, vout := vout } with
          | none => .refused
          | some wtxNew =>
              if maxStandardTxSize ≤ (nBytesOf wtxNew).toNat then .refused
              else if fees.2 < p.neededFee wtxNew then .again (p.neededFee wtxNew)
              else .created wtxNew fees.2

/-- The loop, from a pass on, with the fee it starts from. -/
def createLoop (choices : Nat → PassChoices) (vecSend : List (CScript × Int64)) (nValue : Int64)
    (wtxNew : CTransaction) (coinControl : Option CCoinControl) : Nat → Nat → Int64 → CreateResult
  | 0, _, _ => .unfinished
  | fuel + 1, nPass, nFeeRet =>
      match p.createPass (choices nPass) vecSend nValue wtxNew coinControl nFeeRet with
      | .thrown => .thrown
      | .refused => .refused
      | .again nFeeRet => createLoop choices vecSend nValue wtxNew coinControl fuel (nPass + 1) nFeeRet
      | .created wtxNew nFeeRet => .created wtxNew nFeeRet

/-- The sum over `vecSend`, or false where it has become negative on the way. -/
def sumSend : Int64 → List (CScript × Int64) → Option Int64
  | nValue, [] => some nValue
  | nValue, s :: rest => if nValue < 0 then none else sumSend (nValue + s.2) rest

/-- `CreateTransaction`, with so many passes of its loop at most. -/
def createTransaction (choices : Nat → PassChoices) (vecSend : List (CScript × Int64)) (wtxNew : CTransaction)
    (coinControl : Option CCoinControl) (passes : Nat) : CreateResult :=
  match sumSend 0 vecSend with
  | none => .refused
  | some nValue =>
      if vecSend.isEmpty || decide (nValue < 0) then .refused
      else p.createLoop choices vecSend nValue wtxNew coinControl passes 0 p.nTransactionFee

end Payer

end InfiniteRicks
