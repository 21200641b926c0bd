import InfiniteRicks.SendMany
import InfiniteRicks.WalletDump

/-!
# The history of a wallet

`OrderedTxItems` (`wallet.cpp`), and `ListTransactions`, `AcentryToJSON` and `listtransactions`
(`rpcwallet.cpp`). The sums of the two numbers of a request are sums of `int`, which are undefined
where they overflow.
-/

namespace InfiniteRicks

/-! ## JSON -/

/-- The values of an entry. `amount` is what `ValueFromAmount` makes. -/
inductive JsonValue where
  | str (value : Bytes)
  | int (value : Int)
  | bool (value : Bool)
  | amount (value : Int64)
deriving DecidableEq

/-- An `Object`. -/
abbrev JsonObject := List (Bytes × JsonValue)

def JsonValue.ofText (value : String) : JsonValue := .str (text value.toList)

def jsonPair (name : String) (value : JsonValue) : Bytes × JsonValue := (text name.toList, value)

/-- `GetHex`. -/
def UInt256.getHex (value : UInt256) : Bytes := WalletDump.hexStr (littleEndianBytes 32 value.toNat).reverse

/-- The fields of a `CWalletTx` that only listings read. -/
structure TxDetails where
  mapValue : MapValue
  nTimeReceived : UInt32
  nTimeSmart : UInt32
  nOrderPos : Int64

/-- `GetTxTime`. -/
def TxDetails.getTxTime (details : TxDetails) : Int64 :=
  if details.nTimeSmart ≠ 0 then details.nTimeSmart.toUInt64.toInt64 else details.nTimeReceived.toUInt64.toInt64

/-- A `CWallet` with its accounts and the details of its transactions. -/
structure HistoryWallet where
  accounts : AccountWallet
  details : UInt256 → TxDetails

/-- What listings take from the chain and from the network. -/
structure ListEnv where
  chain : ChainView
  /-- `mapBlockIndex[hashBlock]->nTime`. -/
  nBlockTime : UInt256 → UInt32
  keys : WalletKeys
  fTestNet : Bool
  hash : Bytes → UInt256

/-- `TxPair`: a transaction or an accounting entry. -/
inductive HistoryItem where
  | tx (hash : UInt256) (t : AccountTx)
  | entry (acentry : CAccountingEntry)

/-- Why a call has no list to return. `undefined` is a signed overflow, or an iterator outside of its range. -/
inductive ListFailure where
  | error (e : JSONRPCError)
  | thrown
  | undefined

/-- A sum of two `int`. -/
def addInt (a b : Int32) : Except ListFailure Int32 :=
  if -2 ^ 31 ≤ a.toInt + b.toInt ∧ a.toInt + b.toInt < 2 ^ 31 then .ok (a + b) else .error .undefined

namespace HistoryWallet

variable (rpc : ListEnv) (w : HistoryWallet)

def nOrderPos : HistoryItem → Int64
  | .tx hash _ => (w.details hash).nOrderPos
  | .entry acentry => acentry.nOrderPos

/-- `OrderedTxItems`. What has the same position is in the order in which it was inserted. -/
def orderedTxItems (strAccount : Bytes) : List HistoryItem :=
  let txs := w.accounts.mapWallet.entries.mergeSort fun a b => a.1.toNat ≤ b.1.toNat
  let items := txs.map (fun entry => HistoryItem.tx entry.1 entry.2) ++
    (w.accounts.listAccountCreditDebit strAccount).map HistoryItem.entry
  items.mergeSort fun a b => w.nOrderPos a ≤ w.nOrderPos b

/-! ## Entries -/

/-- `WalletTxToJSON`. -/
def walletTxToJSON (hash : UInt256) (t : AccountTx) : JsonObject :=
  let confirms := rpc.chain.getDepthInMainChain t.wtx
  let details := w.details hash
  jsonPair "confirmations" (.int confirms) ::
    (if t.wtx.tx.isCoinBase || t.wtx.tx.isCoinStake then [jsonPair "generated" (.bool true)] else []) ++
    (if 0 < confirms then
      [jsonPair "blockhash" (.str t.wtx.hashBlock.getHex), jsonPair "blockindex" (.int t.wtx.nIndex.toInt),
        jsonPair "blocktime" (.int (rpc.nBlockTime t.wtx.hashBlock).toNat)]
    else []) ++
    [jsonPair "txid" (.str hash.getHex), jsonPair "time" (.int details.getTxTime.toInt),
      jsonPair "timereceived" (.int details.nTimeReceived.toNat)] ++
    details.mapValue.toList.map fun item => (item.1, .str item.2)

/-- `MaybePushAddress`. -/
def maybePushAddress (dest : CTxDestination) : JsonObject :=
  let (valid, addr) := CBitcoinAddress.set rpc.fTestNet .new dest
  if valid then [jsonPair "address" (.str (addr.toText rpc.hash))] else []

/-- An entry of category `send`. -/
def sentEntry (hash : UInt256) (t : AccountTx) (fLong : Bool) (amounts : Amounts) (s : CTxDestination × Int64) :
    JsonObject :=
  jsonPair "account" (.str amounts.strSentAccount) :: maybePushAddress rpc s.1 ++
    [jsonPair "category" (.ofText "send"), jsonPair "amount" (.amount (-s.2)),
      jsonPair "fee" (.amount (-amounts.nFee))] ++
    if fLong then walletTxToJSON rpc w hash t else []

/-- The category of what is received. -/
def receivedCategory (t : AccountTx) : String :=
  if t.wtx.tx.isCoinBase || t.wtx.tx.isCoinStake then
    if rpc.chain.getDepthInMainChain t.wtx < 1 then "orphan"
    else if 0 < rpc.chain.getBlocksToMaturity t.wtx then "immature"
    else "generate"
  else "receive"

/-- An entry for what is received. -/
def receivedEntry (hash : UInt256) (t : AccountTx) (fLong : Bool) (amounts : Amounts) (r : CTxDestination × Int64) :
    JsonObject :=
  jsonPair "account" (.str (w.accounts.receivingAccount r)) :: maybePushAddress rpc r.1 ++
    [jsonPair "category" (.ofText (receivedCategory rpc t)),
      jsonPair "amount" (.amount (if !t.wtx.tx.isCoinStake then r.2 else -amounts.nFee))] ++
    if fLong then walletTxToJSON rpc w hash t else []

/-- The loop over what is received. A coinstake stops at its first entry. -/
def receivedEntries (hash : UInt256) (t : AccountTx) (strAccount : Bytes) (fLong : Bool) (amounts : Amounts) :
    List (CTxDestination × Int64) → List JsonObject
  | [] => []
  | r :: rest =>
      if strAccount = [42] ∨ w.accounts.receivingAccount r = strAccount then
        receivedEntry rpc w hash t fLong amounts r ::
          if t.wtx.tx.isCoinStake then [] else receivedEntries hash t strAccount fLong amounts rest
      else receivedEntries hash t strAccount fLong amounts rest

/-- `ListTransactions`: what it appends to `ret`. -/
def listTransactions (hash : UInt256) (t : AccountTx) (strAccount : Bytes) (nMinDepth : Int) (fLong : Bool) :
    Option (List JsonObject) :=
  (w.accounts.getAmounts rpc.chain rpc.keys t).map fun amounts =>
    let sent :=
      if !t.wtx.tx.isCoinStake ∧ (amounts.listSent ≠ [] ∨ amounts.nFee ≠ 0) ∧
          (strAccount = [42] ∨ strAccount = amounts.strSentAccount) then
        amounts.listSent.map (sentEntry rpc w hash t fLong amounts)
      else []
    let received :=
      if amounts.listReceived ≠ [] ∧ nMinDepth ≤ rpc.chain.getDepthInMainChain t.wtx then
        receivedEntries rpc w hash t strAccount fLong amounts amounts.listReceived
      else []
    sent ++ received

/-- `AcentryToJSON`: what it appends to `ret`. -/
def acentryToJSON (acentry : CAccountingEntry) (strAccount : Bytes) : List JsonObject :=
  if strAccount = [42] ∨ acentry.strAccount = strAccount then
    [[jsonPair "account" (.str acentry.strAccount), jsonPair "category" (.ofText "move"),
      jsonPair "time" (.int acentry.nTime.toInt), jsonPair "amount" (.amount acentry.nCreditDebit),
      jsonPair "otheraccount" (.str acentry.strOtherAccount), jsonPair "comment" (.str acentry.strComment)]]
  else []

/-- What an item adds to the list. -/
def itemEntries (strAccount : Bytes) : HistoryItem → Option (List JsonObject)
  | .tx hash t => listTransactions rpc w hash t strAccount 0 true
  | .entry acentry => some (acentryToJSON acentry strAccount)

/-! ## Pages -/

/-- The walk over the items, from the newest one, until there are enough entries. -/
def walk (strAccount : Bytes) (nCount nFrom : Int32) :
    List HistoryItem → List JsonObject → Except ListFailure (List JsonObject)
  | [], ret => .ok ret
  | item :: rest, ret =>
      match itemEntries rpc w strAccount item with
      | none => .error .thrown
      | some entries => do
          let ret := ret ++ entries
          let enough ← addInt nCount nFrom
          if enough ≤ Int32.ofNat ret.length then pure ret else walk strAccount nCount nFrom rest ret

/-- `ret` between two iterators, which have to be inside of it and in order. -/
def slice (ret : List JsonObject) (first last : Int32) : Except ListFailure (List JsonObject) :=
  if 0 ≤ first ∧ first ≤ last ∧ last.toInt ≤ ret.length then
    .ok ((ret.take last.toInt.toNat).drop first.toInt.toNat)
  else .error .undefined

/-- What `listtransactions` makes of the entries that were collected. -/
def cutPage (ret : List JsonObject) (nCount nFrom : Int32) : Except ListFailure (List JsonObject) := do
  let size := Int32.ofNat ret.length
  let nFrom := if size < nFrom then size else nFrom
  let after ← addInt nFrom nCount
  let nCount := if size < after then size - nFrom else nCount
  let last ← addInt nFrom nCount
  let cut ← slice ret nFrom last
  pure cut.reverse

/-- `listtransactions`. -/
def listtransactions (strAccount : Bytes) (nCount nFrom : Int32) : Except ListFailure (List JsonObject) :=
  if nCount < 0 then .error (.error ⟨rpcInvalidParameter, text "Negative count".toList⟩)
  else if nFrom < 0 then .error (.error ⟨rpcInvalidParameter, text "Negative from".toList⟩)
  else do
    let ret ← walk rpc w strAccount nCount nFrom (w.orderedTxItems strAccount).reverse []
    cutPage ret nCount nFrom

/-- All entries, from the newest one. -/
def history (strAccount : Bytes) : Option (List JsonObject) :=
  ((w.orderedTxItems strAccount).reverse.mapM (itemEntries rpc w strAccount)).map List.flatten

end HistoryWallet

end InfiniteRicks
