import InfiniteRicks.ListTransactions

/-!
# Transaction records

`TransactionRecord::decomposeTransaction` (`transactionrecord.cpp`): the lines that the transaction list
shows for a transaction of the wallet. A call that throws gives `none`.
-/

namespace InfiniteRicks

/-- `TransactionRecord::Type`. -/
inductive RecordType where
  | other
  | generated
  | sendToAddress
  | sendToOther
  | recvWithAddress
  | recvFromOther
  | sendToSelf
deriving DecidableEq

/-- `TransactionRecord`, but for its status. -/
structure TransactionRecord where
  hash : UInt256
  time : Int64
  type : RecordType
  address : Bytes
  debit : Int64
  credit : Int64
  idx : Nat
deriving DecidableEq

/-- `IsMine` of an input. -/
def WalletCoins.isMineInput (keys : WalletKeys) (w : WalletCoins) (txin : CTxIn) : Bool :=
  match w.mapWallet txin.prevout.hash with
  | none => false
  | some prev =>
      match prev.tx.vout[txin.prevout.n.toNat]? with
      | none => false
      | some txout => keys.isMine txout.scriptPubKey

/-- What the records take from the network and from the keys. `addressHash` is the hash of an address. -/
structure RecordEnv where
  env : Env
  keys : WalletKeys
  addressHash : Bytes → UInt256

namespace RecordEnv

variable (shown : RecordEnv) (w : WalletCoins) (wtx : CWalletTx) (details : TxDetails)

/-- `CBitcoinAddress(address).ToString()`. -/
def addressText (address : CTxDestination) : Bytes :=
  (CBitcoinAddress.set shown.env.fTestNet .new address).2.toText shown.addressHash

/-- `TransactionRecord(hash, nTime)`. -/
def newRecord : TransactionRecord := ⟨shown.env.txHash wtx.tx, details.getTxTime, .other, [], 0, 0, 0⟩

/-! ## Credit -/

/-- The record of an own output, before it is known to be generated. -/
def creditRecord (idx : Nat) (txout : CTxOut) : TransactionRecord :=
  let sub := { newRecord shown wtx details with idx := idx, credit := txout.nValue }
  match (shown.keys.extractDestination txout.scriptPubKey).filter shown.keys.isMineDestination with
  | some address => { sub with type := .recvWithAddress, address := shown.addressText address }
  | none => { sub with type := .recvFromOther, address := details.mapValue.get (text "from".toList) }

/-- The credit of a coinstake. -/
def stakeCredit (nNet nDebit : Int64) : Option Int64 :=
  if 0 < nNet then some nNet else wtx.tx.getValueOut.map fun nValueOut => nValueOut - nDebit

/-- One output in the loop for credits, with `parts` and `hashPrev`. -/
def creditOutput (nNet nDebit : Int64) (s : List TransactionRecord × UInt256) (txout : CTxOut) :
    Option (List TransactionRecord × UInt256) :=
  if !shown.keys.isMine txout.scriptPubKey then some s
  else
    let sub := creditRecord shown wtx details s.1.length txout
    let sub := if wtx.tx.isCoinBase then { sub with type := .generated } else sub
    if wtx.tx.isCoinStake then
      if s.2 = shown.env.txHash wtx.tx then some s
      else
        (stakeCredit wtx nNet nDebit).map fun credit =>
          (s.1 ++ [{ sub with type := .generated, credit := credit }], shown.env.txHash wtx.tx)
    else some (s.1 ++ [sub], s.2)

/-! ## Debit -/

/-- The record of a foreign output, but for its amount. -/
def debitRecord (idx : Nat) (txout : CTxOut) : TransactionRecord :=
  let sub := { newRecord shown wtx details with idx := idx }
  match shown.keys.extractDestination txout.scriptPubKey with
  | some address => { sub with type := .sendToAddress, address := shown.addressText address }
  | none => { sub with type := .sendToOther, address := details.mapValue.get (text "to".toList) }

/-- One output in the loop for debits, with `parts` and `nTxFee`, which goes to the first foreign one. -/
def debitOutput (s : List TransactionRecord × Int64) (txout : CTxOut) : List TransactionRecord × Int64 :=
  if shown.keys.isMine txout.scriptPubKey then s
  else
    let nValue := if 0 < s.2 then txout.nValue + s.2 else txout.nValue
    (s.1 ++ [{ debitRecord shown wtx details s.1.length txout with debit := -nValue }], if 0 < s.2 then 0 else s.2)

/-! ## All records -/

/-- `decomposeTransaction`. -/
def decomposeTransaction : Option (List TransactionRecord) := do
  let nCredit ← (w.getCredit shown.keys wtx true).1
  let nDebit ← (w.getDebit shown.keys wtx).1
  let nNet := nCredit - nDebit
  if 0 < nNet ∨ wtx.tx.isCoinBase ∨ wtx.tx.isCoinStake then
    (wtx.tx.vout.foldlM (creditOutput shown wtx details nNet nDebit) ([], 0)).map Prod.fst
  else
    let fAllFromMe := wtx.tx.vin.all (w.isMineInput shown.keys)
    let fAllToMe := wtx.tx.vout.all fun txout => shown.keys.isMine txout.scriptPubKey
    if fAllFromMe && fAllToMe then
      (w.getChange shown.keys wtx).1.map fun nChange =>
        [{ newRecord shown wtx details with
          type := .sendToSelf, debit := -(nDebit - nChange), credit := nCredit - nChange }]
    else if fAllFromMe then
      wtx.tx.getValueOut.map fun nValueOut =>
        (wtx.tx.vout.foldl (debitOutput shown wtx details) ([], nDebit - nValueOut)).1
    else some [{ newRecord shown wtx details with debit := nNet }]

end RecordEnv

end InfiniteRicks
